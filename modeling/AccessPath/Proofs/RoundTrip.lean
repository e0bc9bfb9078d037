import AccessPath.Proofs.Decoding
import AccessPath.Proofs.Nodes
import AccessPath.Proofs.Rounding

/-!
# Saving and loading paths

The text of a path is a JSON text of the path's tree, and a path that is written is read back exactly if
the tree nests within the limit and no double in the path is infinite or no number
(`Path.ofJson?_toJson`). What comes back then is the path itself. All that is asked of the doubles is
that the numerals of the finite ones in the path are read as those doubles.

The reader looks at a path twice: at all its tokens when it takes its copy (`HoldsOfPlain.path`), and
then node by node (`Path.isReadBack`).
-/

namespace AccessPath

open Json (Tree Token Source Yields)

namespace Path

theorem toTrees_eq_map (ps : List Path) : toTrees ps = ps.map toTree := by
  induction ps with
  | nil => rfl
  | cons p ps ih => rw [toTrees, ih, List.map_cons]

mutual

/-- The double literals of a path. -/
def doubles : Path → List Binary64
  | .constant value _ => value.doubles
  | .parameter _ _ => []
  | .memberAccess target _ => target.doubles
  | .methodCall receiver _ args => receiver.doubles ++ doublesOfAll args
  | .extensionCall _ args => doublesOfAll args
  | .lambda _ _ body => body.doubles
termination_by structural p => p

/-- The double literals of paths. -/
def doublesOfAll : List Path → List Binary64
  | [] => []
  | p :: ps => p.doubles ++ doublesOfAll ps
termination_by structural ps => ps

end

theorem forall_mem_doublesOfAll {P : Binary64 → Prop} (ps : List Path) :
    (∀ x ∈ doublesOfAll ps, P x) ↔ ∀ p ∈ ps, ∀ x ∈ p.doubles, P x := by
  induction ps with
  | nil => simp [doublesOfAll]
  | cons p ps ih => rw [doublesOfAll, List.forall_mem_append, List.forall_mem_cons, ih]

/-! ### Nodes -/

namespace NodeKind

theorem ofTree?_name (source : Source) (kind : NodeKind) :
    ofTree? source (.ofString kind.name) = some kind := by
  have htag : (Tree.ofString kind.name).tag? source (all.map name) = some kind.name :=
    Json.Text.toString?_ofString kind.name
  rw [ofTree?, htag]
  cases kind <;> rfl

theorem depth_node_le (kind : NodeKind) (fields : List (String × Tree)) (b : Nat) :
    (kind.node fields).depth ≤ b + 1 ↔ ∀ f ∈ fields, f.2.depth ≤ b := by
  rw [node, Tree.depth_ofFields_le, List.forall_mem_cons, and_iff_right]
  exact Nat.zero_le b

/-- The kind of a node is read wherever it stands among the keys, and the other entries are left. -/
theorem tagged?_of_perm (source : Source) {kind : NodeKind} {entries fields : List (String × Tree)}
    (hentries : entries.Perm (("node", .ofString kind.name) :: fields))
    (hnodup : ("node" :: fields.map Prod.fst).Nodup) :
    ∃ rest, rest.Perm fields ∧ tagged? source (.ofFields entries) = some (kind, .ofFields rest) := by
  have hsingle : Tree.single? entries "node" = some (some (.ofString kind.name)) := by
    have hnode : ("node", Tree.ofString kind.name) ∈ ("node", Tree.ofString kind.name) :: fields :=
      List.mem_cons_self
    rw [Tree.single?_perm hentries, Tree.single?_of_mem (by exact hnodup) hnode]
  have hkept : fields.filter (fun f => f.1 ≠ "node") = fields := by
    rw [List.filter_eq_self]
    intro f hf
    have hne : f.1 ≠ "node" := fun heq => (List.nodup_cons.1 hnodup).1 (List.mem_map.2 ⟨f, hf, heq⟩)
    simpa using hne
  have hrest := hentries.filter fun f => f.1 ≠ "node"
  rw [List.filter_cons_of_neg (by simp), hkept] at hrest
  refine ⟨_, hrest, ?_⟩
  simp only [Tree.ofFields, tagged?, Tree.named?_ofFields, Option.bind_eq_bind, Option.bind_some,
    hsingle, ofTree?_name, Option.pure_def, List.filter_map]
  congr 4
  simp [Function.comp_def, Json.Text.toString?_ofString]

/-- The fields of a node are read back in their order. -/
theorem fields_node (source : Source) (kind : NodeKind) (fields : List (String × Tree))
    (hkeys : fields.map Prod.fst = kind.keys) :
    ∃ rest, tagged? source (kind.node fields) = some (kind, rest) ∧
      rest.record? kind.keys = some (fields.map fun f => some f.2) := by
  have hnodup : ("node" :: kind.keys).Nodup := by cases kind <;> decide
  rw [← hkeys] at hnodup ⊢
  obtain ⟨rest, hrest, htagged⟩ := tagged?_of_perm source (.refl _) hnodup
  exact ⟨_, htagged, Tree.record?_of_perm hrest (List.nodup_cons.1 hnodup).2⟩

end NodeKind

/-- From any source the path is read back if it nests within the budget and its doubles are finite. -/
def IsReadBack (p : Path) : Prop :=
  ∀ source b, Yields (ofNode? source b p.toTree)
    (p.toTree.depth ≤ b ∧ ∀ x ∈ p.doubles, x.isFinite = true) p

/-- A node is read back if it is where one more object may nest. -/
theorem yields_node {kind : NodeKind} {fields : List (String × Tree)} {p : Path} {P : Prop}
    {source : Source}
    (h : ∀ b, Yields (ofNode? source (b + 1) (kind.node fields))
      ((∀ f ∈ fields, f.2.depth ≤ b) ∧ P) p) (b : Nat) :
    Yields (ofNode? source b (kind.node fields)) ((kind.node fields).depth ≤ b ∧ P) p := by
  cases b with
  | zero => exact .of_none (fun h => absurd h.1 (Tree.not_depth_ofFields_le_zero _)) p
  | succ b => exact (h b).congr (and_congr_left fun _ => (NodeKind.depth_node_le kind fields b).symm)

theorem constant_isReadBack (value : Literal) (ty : Ty)
    (hread : ∀ x ∈ value.doubles, x.isFinite = true →
      (Literal.doubleLayout.numeral x).toBinary64? = some x) : (constant value ty).IsReadBack := by
  intro source
  apply yields_node
  intro b
  obtain ⟨rest, htagged, hrecord⟩ := NodeKind.fields_node source .constant
    [("value", value.toTree), ("ty", ty.toTree)] rfl
  rw [ofNode?, htagged]
  simp only [Option.bind_eq_bind, Option.bind_some, hrecord]
  refine ((value.yields_toTree hread .copy b).bind
    ((ty.yields_toTree .copy b).bind (.of_some (constant value ty)))).congr ?_
  rw [List.forall_mem_cons, List.forall_mem_singleton, doubles]
  tauto

theorem parameter_isReadBack (name : String) (ty : Ty) : (parameter name ty).IsReadBack := by
  intro source
  apply yields_node
  intro b
  obtain ⟨rest, htagged, hrecord⟩ := NodeKind.fields_node source .parameter
    [("name", .ofString name), ("ty", ty.toTree)] rfl
  rw [ofNode?, htagged]
  simp only [Option.bind_eq_bind, Option.bind_some, hrecord]
  refine ((Tree.yields_ofString name b).bind
    ((ty.yields_toTree .copy b).bind (.of_some (parameter name ty)))).congr ?_
  simp [doubles]

theorem memberAccess_isReadBack {target : Path} (member : MemberSig) (htarget : target.IsReadBack) :
    (memberAccess target member).IsReadBack := by
  intro source
  apply yields_node
  intro b
  obtain ⟨rest, htagged, hrecord⟩ := NodeKind.fields_node source .memberAccess
    [("target", target.toTree), ("member", member.toTree)] rfl
  rw [ofNode?, htagged]
  simp only [Option.bind_eq_bind, Option.bind_some, hrecord]
  refine ((htarget .copy b).bind
    ((member.yields_toTree .copy b).bind (.of_some (memberAccess target member)))).congr ?_
  rw [List.forall_mem_cons, List.forall_mem_singleton, doubles]
  tauto

theorem lambda_isReadBack (param : String) (paramTy : Ty) {body : Path} (hbody : body.IsReadBack) :
    (lambda param paramTy body).IsReadBack := by
  intro source
  apply yields_node
  intro b
  obtain ⟨rest, htagged, hrecord⟩ := NodeKind.fields_node source .lambda
    [("param", .ofString param), ("param_ty", paramTy.toTree), ("body", body.toTree)] rfl
  rw [ofNode?, htagged]
  simp only [Option.bind_eq_bind, Option.bind_some, hrecord]
  refine ((Tree.yields_ofString param b).bind ((paramTy.yields_toTree .copy b).bind
    ((hbody .copy b).bind (.of_some (lambda param paramTy body))))).congr ?_
  rw [List.forall_mem_cons, List.forall_mem_cons, List.forall_mem_singleton, doubles]
  tauto

/-- The arguments of a call are read back one level further down. -/
theorem yields_args {args : List Path} (hargs : ∀ a ∈ args, a.IsReadBack) (b : Nat) :
    Yields ((toTrees args).mapM fun arg => ofNode? .copy b arg)
      ((Tree.array (toTrees args)).depth ≤ b + 1 ∧ ∀ x ∈ doublesOfAll args, x.isFinite = true)
      args := by
  rw [toTrees_eq_map]
  refine (Yields.mapM args fun a ha => hargs a ha .copy b).congr ?_
  rw [Tree.depth_array_le, List.forall_mem_map, forall_mem_doublesOfAll]
  exact forall₂_and

/-- The arguments of a call always nest. -/
theorem args_too_deep (receiver method : Tree) (args : List Tree) (P : Prop) :
    ¬ ((∀ f ∈ [("receiver", receiver), ("method", method), ("args", .array args)],
      f.2.depth ≤ 0) ∧ P) := by
  simp [Tree.depth]

/-- Every path is written as an object. -/
theorem toTree_eq_object (p : Path) : ∃ fields, p.toTree = .object fields := by
  cases p <;> exact ⟨_, rfl⟩

theorem methodCall_isReadBack {receiver : Path} (method : MethodSig) {args : List Path}
    (hreceiver : receiver.IsReadBack) (hargs : ∀ a ∈ args, a.IsReadBack) :
    (methodCall receiver method args).IsReadBack := by
  intro source
  apply yields_node
  intro b
  obtain ⟨rest, htagged, hrecord⟩ := NodeKind.fields_node source .methodCall
    [("receiver", receiver.toTree), ("method", method.toTree), ("args", .array (toTrees args))] rfl
  rw [ofNode?, htagged]
  simp only [Option.bind_eq_bind, Option.bind_some, hrecord]
  cases b with
  | zero =>
    have hnone := Yields.of_none (args_too_deep receiver.toTree method.toTree (toTrees args)
      (∀ x ∈ (methodCall receiver method args).doubles, x.isFinite = true)) (methodCall receiver method args)
    rwa [← Option.bind_fun_none (MethodSig.ofTree? .copy 0 method.toTree)] at hnone
  | succ b =>
    obtain ⟨fields, hfields⟩ := receiver.toTree_eq_object
    have hreceiver := hreceiver .copy (b + 1)
    rw [hfields] at hreceiver ⊢
    refine ((method.yields_toTree .copy (b + 1)).bind ((yields_args hargs b).bind
      (hreceiver.bind (.of_some (methodCall receiver method args))))).congr ?_
    rw [List.forall_mem_cons, List.forall_mem_cons, List.forall_mem_singleton, doubles,
      List.forall_mem_append]
    tauto

theorem extensionCall_isReadBack (method : MethodSig) {args : List Path}
    (hargs : ∀ a ∈ args, a.IsReadBack) : (extensionCall method args).IsReadBack := by
  intro source
  apply yields_node
  intro b
  obtain ⟨rest, htagged, hrecord⟩ := NodeKind.fields_node source .methodCall
    [("receiver", .null), ("method", method.toTree), ("args", .array (toTrees args))] rfl
  rw [ofNode?, htagged]
  simp only [Option.bind_eq_bind, Option.bind_some, hrecord]
  cases b with
  | zero =>
    have hnone := Yields.of_none (args_too_deep .null method.toTree (toTrees args)
      (∀ x ∈ (extensionCall method args).doubles, x.isFinite = true)) (extensionCall method args)
    rwa [← Option.bind_fun_none (MethodSig.ofTree? .copy 0 method.toTree)] at hnone
  | succ b =>
    refine ((method.yields_toTree .copy (b + 1)).bind ((yields_args hargs b).bind
      (.of_some (extensionCall method args)))).congr ?_
    have hnull : Tree.null.depth ≤ b + 1 := Nat.zero_le _
    rw [List.forall_mem_cons, List.forall_mem_cons, List.forall_mem_singleton, doubles]
    tauto

/-- A path is read back if the doubles in it are. -/
theorem isReadBack (p : Path) :
    (∀ x ∈ p.doubles, x.isFinite = true → (Literal.doubleLayout.numeral x).toBinary64? = some x) →
      p.IsReadBack := by
  induction p using nodeInduction with
  | constant value ty => exact constant_isReadBack value ty
  | parameter name ty => exact fun _ => parameter_isReadBack name ty
  | memberAccess target member htarget =>
    exact fun hread => memberAccess_isReadBack member (htarget hread)
  | methodCall receiver method args hreceiver hargs =>
    intro hread
    rw [doubles, List.forall_mem_append, forall_mem_doublesOfAll] at hread
    exact methodCall_isReadBack method (hreceiver hread.1) fun a ha => hargs a ha (hread.2 a ha)
  | noReceiver method => exact fun _ => extensionCall_isReadBack method (List.forall_mem_nil _)
  | extensionCall method receiver rest hreceiver hrest _ =>
    intro hread
    rw [doubles, forall_mem_doublesOfAll, List.forall_mem_cons] at hread
    exact extensionCall_isReadBack method (List.forall_mem_cons.2
      ⟨hreceiver hread.1, fun a ha => hrest a ha (hread.2 a ha)⟩)
  | lambda param paramTy body hbody => exact fun hread => lambda_isReadBack param paramTy (hbody hread)

end Path

/-! ### The tokens of a path -/

/-- A property of all tokens that are written for anything but a double. -/
structure HoldsOfPlain (P : Token → Prop) : Prop where
  punctuation : ∀ p, p.isPunctuation = true → P p
  null : P .null
  bool : ∀ b, P (.bool b)
  text : ∀ s, P (.text (.ofString s))
  integer : ∀ n : Int, n.natAbs ≤ maxCoefficient → P (.number (.ofInt n))

namespace HoldsOfPlain

section

variable {P : Token → Prop} (hP : HoldsOfPlain P)

include hP

theorem ofNull : ∀ x ∈ Tree.null.tokens, P x := List.forall_mem_singleton.2 hP.null

theorem ofString (s : String) : ∀ x ∈ (Tree.ofString s).tokens, P x :=
  List.forall_mem_singleton.2 (hP.text s)

theorem ofInt {n : Int} (hn : n.natAbs ≤ maxCoefficient) : ∀ x ∈ (Tree.ofInt n).tokens, P x :=
  List.forall_mem_singleton.2 (hP.integer n hn)

theorem array {items : List Tree} (hitems : ∀ t ∈ items, ∀ x ∈ t.tokens, P x) :
    ∀ x ∈ (Tree.array items).tokens, P x :=
  (Tree.forall_mem_tokens_array hP.punctuation items).2 hitems

theorem ofFields {fields : List (String × Tree)} (hfields : ∀ f ∈ fields, ∀ x ∈ f.2.tokens, P x) :
    ∀ x ∈ (Tree.ofFields fields).tokens, P x := by
  rw [Tree.ofFields, Tree.forall_mem_tokens_object hP.punctuation, List.forall_mem_map]
  exact fun f hf => ⟨hP.text f.1, hfields f hf⟩

theorem kindTree_none (kind : String) : ∀ x ∈ (Ty.kindTree kind none).tokens, P x :=
  hP.ofFields (List.forall_mem_singleton.2 (hP.ofString kind))

theorem kindTree_some (kind : String) {content : Tree} (hcontent : ∀ x ∈ content.tokens, P x) :
    ∀ x ∈ (Ty.kindTree kind (some content)).tokens, P x :=
  hP.ofFields (List.forall_mem_cons.2 ⟨hP.ofString kind, List.forall_mem_singleton.2 hcontent⟩)

end

mutual

theorem ty {P : Token → Prop} (hP : HoldsOfPlain P) : (t : Ty) → ∀ x ∈ t.toTree.tokens, P x
  | .string | .bool | .int | .long | .double | .any | .void => hP.kindTree_none _
  | .struct name | .reference name => hP.kindTree_some _ (hP.ofString name)
  | .set element | .list element | .sequence element => hP.kindTree_some _ (hP.ty element)
  | .function params result =>
    hP.kindTree_some _ (hP.array (List.forall_mem_cons.2
      ⟨hP.array (hP.tys params), List.forall_mem_singleton.2 (hP.ty result)⟩))
termination_by structural t => t

theorem tys {P : Token → Prop} (hP : HoldsOfPlain P) :
    (ts : List Ty) → ∀ t ∈ Ty.toTrees ts, ∀ x ∈ t.tokens, P x
  | [] => List.forall_mem_nil _
  | t :: ts => List.forall_mem_cons.2 ⟨hP.ty t, hP.tys ts⟩
termination_by structural ts => ts

end

section

variable {P : Token → Prop} (hP : HoldsOfPlain P)

include hP

theorem member (m : MemberSig) : ∀ x ∈ m.toTree.tokens, P x :=
  hP.ofFields (List.forall_mem_cons.2 ⟨hP.ofString m.name, List.forall_mem_singleton.2 (hP.ty m.ty)⟩)

theorem method (m : MethodSig) : ∀ x ∈ m.toTree.tokens, P x :=
  hP.ofFields (List.forall_mem_cons.2 ⟨hP.ofString m.name, List.forall_mem_cons.2
    ⟨hP.array (hP.tys m.params), List.forall_mem_singleton.2 (hP.ty m.result)⟩⟩)

theorem literal (l : Literal)
    (hdoubles : ∀ x ∈ l.doubles, x.isFinite = true → P (.number (Literal.doubleLayout.numeral x))) :
    ∀ x ∈ l.toTree.tokens, P x := by
  cases l with
  | null => exact hP.ofString _
  | bool b => exact hP.ofFields (List.forall_mem_singleton.2 (List.forall_mem_singleton.2 (hP.bool b)))
  | int n =>
    have hlow : -2147483648 ≤ n.toInt := n.minValue_le_toInt
    have hhigh : n.toInt ≤ 2147483647 := n.toInt_le
    have hn : n.toInt.natAbs ≤ maxCoefficient := by
      unfold maxCoefficient
      omega
    exact hP.ofFields (List.forall_mem_singleton.2 (hP.ofInt hn))
  | long n =>
    have hlow : -9223372036854775808 ≤ n.toInt := n.minValue_le_toInt
    have hhigh : n.toInt ≤ 9223372036854775807 := n.toInt_le
    have hn : n.toInt.natAbs ≤ maxCoefficient := by
      unfold maxCoefficient
      omega
    exact hP.ofFields (List.forall_mem_singleton.2 (hP.ofInt hn))
  | double x =>
    have hx : ∀ y ∈ (Literal.doubleTree x).tokens, P y := by
      unfold Literal.doubleTree
      split
      · next hfinite =>
        exact List.forall_mem_singleton.2 (hdoubles x (List.mem_singleton_self x) hfinite)
      · exact hP.ofNull
    exact hP.ofFields (List.forall_mem_singleton.2 hx)
  | string s => exact hP.ofFields (List.forall_mem_singleton.2 (hP.ofString s))

theorem node (kind : Path.NodeKind) {fields : List (String × Tree)}
    (hfields : ∀ f ∈ fields, ∀ x ∈ f.2.tokens, P x) : ∀ x ∈ (kind.node fields).tokens, P x :=
  hP.ofFields (List.forall_mem_cons.2 ⟨hP.ofString kind.name, hfields⟩)

/-- A property that holds of the numerals of a path's finite doubles too holds of all its tokens. -/
theorem path (p : Path) :
    (∀ x ∈ p.doubles, x.isFinite = true → P (.number (Literal.doubleLayout.numeral x))) →
      ∀ x ∈ p.toTree.tokens, P x := by
  have hcall : ∀ (receiver : Tree) (m : MethodSig) (args : List Path),
      (∀ x ∈ receiver.tokens, P x) → (∀ a ∈ args, ∀ x ∈ a.toTree.tokens, P x) →
        ∀ f ∈ [("receiver", receiver), ("method", m.toTree), ("args", .array (Path.toTrees args))],
          ∀ x ∈ f.2.tokens, P x := by
    intro receiver m args hreceiver hargs
    rw [List.forall_mem_cons, List.forall_mem_cons, List.forall_mem_singleton, Path.toTrees_eq_map]
    exact ⟨hreceiver, hP.method m, hP.array (List.forall_mem_map.2 hargs)⟩
  induction p using Path.nodeInduction with
  | constant value t =>
    exact fun hdoubles => hP.node _ (List.forall_mem_cons.2
      ⟨hP.literal value hdoubles, List.forall_mem_singleton.2 (hP.ty t)⟩)
  | parameter name t =>
    exact fun _ => hP.node _ (List.forall_mem_cons.2
      ⟨hP.ofString name, List.forall_mem_singleton.2 (hP.ty t)⟩)
  | memberAccess target m htarget =>
    exact fun hdoubles => hP.node _ (List.forall_mem_cons.2
      ⟨htarget hdoubles, List.forall_mem_singleton.2 (hP.member m)⟩)
  | methodCall receiver m args hreceiver hargs =>
    intro hdoubles
    rw [Path.doubles, List.forall_mem_append, Path.forall_mem_doublesOfAll] at hdoubles
    exact hP.node _ (hcall _ m args (hreceiver hdoubles.1) fun a ha => hargs a ha (hdoubles.2 a ha))
  | noReceiver m => exact fun _ => hP.node _ (hcall _ m [] hP.ofNull (List.forall_mem_nil _))
  | extensionCall m receiver rest hreceiver hrest _ =>
    intro hdoubles
    rw [Path.doubles, Path.forall_mem_doublesOfAll, List.forall_mem_cons] at hdoubles
    exact hP.node _ (hcall _ m (receiver :: rest) hP.ofNull (List.forall_mem_cons.2
      ⟨hreceiver hdoubles.1, fun a ha => hrest a ha (hdoubles.2 a ha)⟩))
  | lambda param t body hbody =>
    exact fun hdoubles => hP.node _ (List.forall_mem_cons.2
      ⟨hP.ofString param, List.forall_mem_cons.2
        ⟨hP.ty t, List.forall_mem_singleton.2 (hbody hdoubles)⟩⟩)

end

end HoldsOfPlain

theorem holdsOfPlain_grammatical : HoldsOfPlain Token.Grammatical where
  punctuation p _ := by cases p <;> trivial
  null := trivial
  bool _ := trivial
  text s := List.forall_mem_map.2 fun _ _ => trivial
  integer n _ := Numeral.ofInt_grammatical n

theorem holdsOfPlain_isStrict : HoldsOfPlain Token.IsStrict where
  punctuation := Token.isStrict_of_isPunctuation
  null := trivial
  bool _ := trivial
  text s := by
    rw [Token.IsStrict, Json.Text.toString?_ofString]
    rfl
  integer _ hn := Numeral.toBinary64?_ofInt_isSome hn

namespace Path

/-- The text of a path is a JSON text of its tree. -/
theorem parse?_toJson (p : Path) : Tree.parse? p.toJson = some p.toTree :=
  Tree.parse?_render (holdsOfPlain_grammatical.path p fun _ _ _ =>
    NumeralLayout.numeral_grammatical rfl _)

/-- The text of a path is read as the path if it is not nested too deep and all its doubles are
finite, and otherwise not at all. -/
theorem yields_toJson (p : Path)
    (hread : ∀ x ∈ p.doubles, x.isFinite = true →
      (Literal.doubleLayout.numeral x).toBinary64? = some x) :
    Yields (ofJson? p.toJson)
      (p.toTree.depth ≤ Json.nestingLimit ∧ ∀ x ∈ p.doubles, x.isFinite = true) p := by
  have htree : ofJson? p.toJson = ofTree? p.toTree := by
    rw [ofJson?, Json.decodeText, parse?_toJson, Option.bind_some]
  have hyields := p.isReadBack hread .stream Json.nestingLimit
  rw [htree, ofTree?]
  by_cases hstrict : p.toTree.isStrict Json.nestingLimit = true
  · rw [if_pos hstrict]
    exact hyields
  · rw [if_neg hstrict]
    refine .of_none (fun h => hstrict ?_) p
    rw [Tree.isStrict_iff]
    refine ⟨h.1, holdsOfPlain_isStrict.path p fun x hx hfinite => ?_⟩
    rw [Token.IsStrict, hread x hx hfinite]
    rfl

/-- What is written of a path is the JSON text of a tree. It is accepted exactly if the tree nests
within the limit and no double in the path is infinite or no number, and then it is read as that
path. -/
theorem ofJson?_toJson (p : Path)
    (hread : ∀ x ∈ p.doubles, x.isFinite = true →
      (Literal.doubleLayout.numeral x).toBinary64? = some x) :
    Tree.parse? p.toJson = some p.toTree ∧
      ((ofJson? p.toJson).isSome = true ↔
        p.toTree.depth ≤ Json.nestingLimit ∧ ∀ x ∈ p.doubles, x.isFinite = true) ∧
      ∀ q, ofJson? p.toJson = some q → q = p := by
  have hyields := p.yields_toJson hread
  refine ⟨p.parse?_toJson, ?_, fun q hq => ((hyields q).1 hq).2⟩
  rw [Option.isSome_iff_exists]
  constructor
  · intro ⟨q, hq⟩
    exact ((hyields q).1 hq).1
  · intro h
    exact ⟨p, (hyields p).2 ⟨h, rfl⟩⟩

theorem ofJson?_quoted_names :
    let tenth : Binary64 := ⟨0x3FB999999999999A⟩
    let nan : Binary64 := ⟨0x7FF8000000000000⟩
    let path (x : Binary64) : Path :=
      .extensionCall ⟨"größer", [.list .double], .function [.struct "S", .set .int] .void⟩
        [.memberAccess (.parameter "\"x\"\n\t😀" .any) ⟨"", .list .double⟩,
          .lambda "y" .double (.methodCall (.constant (.double x) .double) ⟨"f", [], .bool⟩
            [.constant (.long Int64.minValue) .any, .constant (.double tenth) .double])]
    (∀ y ∈ (path tenth).doubles, y.isFinite = true →
        (Literal.doubleLayout.numeral y).toBinary64? = some y) ∧
      ofJson? (path tenth).toJson = some (path tenth) ∧ ofJson? (path nan).toJson = none := by
  intro tenth nan path
  have htenth : (Literal.doubleLayout.numeral tenth).toBinary64? = some tenth := by decide +kernel
  have hread : ∀ x, x = tenth ∨ x.isFinite = false → ∀ y ∈ (path x).doubles, y.isFinite = true →
      (Literal.doubleLayout.numeral y).toBinary64? = some y := by
    intro x hx y hy hfinite
    have hcases : y = x ∨ y = tenth := by
      simpa [path, doubles, doublesOfAll, Literal.doubles] using hy
    rcases hcases with rfl | rfl
    · rcases hx with rfl | hx
      · exact htenth
      · rw [hfinite] at hx
        cases hx
    · exact htenth
  obtain ⟨-, haccepted, hsame⟩ := ofJson?_toJson (path tenth) (hread tenth (.inl rfl))
  obtain ⟨-, hrefused, -⟩ := ofJson?_toJson (path nan) (hread nan (.inr (by decide)))
  have hfits : (path tenth).toTree.depth ≤ Json.nestingLimit ∧
      ∀ y ∈ (path tenth).doubles, y.isFinite = true := by decide
  have hnan : ¬ ∀ y ∈ (path nan).doubles, y.isFinite = true := by decide
  refine ⟨hread tenth (.inl rfl), ?_, ?_⟩
  · obtain ⟨q, hq⟩ := Option.isSome_iff_exists.1 (haccepted.2 hfits)
    rw [hq, hsame q hq]
  · rw [← Option.not_isSome_iff_eq_none]
    exact fun h => hnan (hrefused.1 h).2

end Path

end AccessPath
