import Mathlib.Data.List.Permutation
import AccessPath.Proofs.RoundTrip

/-!
# Spellings

The texts of one path. A structure may be spelled as an object of its fields in any order, its tag among
them, or as the array of their values in the declared order; a kind of types that carries nothing with a
content of null or without one; the null literal in two ways; and the receiver of a call made extension
style as null or not at all. These choices are made anew at every node, structure and type
(`Path.Spelling`), and blanks may stand between any two tokens. Whatever is chosen, the text is read as that
path, as long as it nests within the limit (`Path.ofJson?_of_spelling`). What is written of a path is one of
its spellings (`Path.spelling_toTree`).

The choices come down to two: every structure is a list of fields of which the reader finds each one
(`Json.FieldsSpelling`), and a tag that stands last is found as well as one that stands first.
-/

namespace AccessPath

namespace Json

/-- The same blanks may stand before every token. -/
theorem Written.of_blanks {blanks : List Char} (hblanks : ∀ c ∈ blanks, isBlank c = true) :
    (ts : List Token) → Written ts (ts.flatMap fun t => blanks ++ t.chars)
  | [] => .nil (List.forall_mem_nil _)
  | t :: ts => by
    rw [List.flatMap_cons, List.append_assoc]
    exact .cons hblanks (of_blanks hblanks ts)

/-- The tree spells a structure with these fields, given in their declared order. -/
inductive FieldsSpelling (fields : List (String × Tree)) : Tree → Prop
  | object {entries : List (String × Tree)} (hentries : entries.Perm fields) :
    FieldsSpelling fields (.ofFields entries)
  | array : FieldsSpelling fields (.array (fields.map Prod.snd))

namespace FieldsSpelling

variable {fields : List (String × Tree)} {t : Tree}

theorem depth_le_succ (h : FieldsSpelling fields t) (b : Nat) :
    t.depth ≤ b + 1 ↔ ∀ f ∈ fields, f.2.depth ≤ b := by
  cases h with
  | object hentries =>
    rw [Tree.depth_ofFields_le]
    exact forall_congr' fun f => by rw [hentries.mem_iff]
  | array => rw [Tree.depth_array_le, List.forall_mem_map]

/-- A structure takes a level, and its fields nest within what is left. -/
theorem fits (h : FieldsSpelling fields t) {b : Nat} (hdepth : t.depth ≤ b) :
    ∃ c, b = c + 1 ∧ ∀ f ∈ fields, f.2.depth ≤ c := by
  cases b with
  | zero =>
    cases h with
    | object hentries => exact absurd hdepth (Tree.not_depth_ofFields_le_zero _)
    | array => exact absurd hdepth (Nat.not_succ_le_zero _)
  | succ c => exact ⟨c, rfl, (h.depth_le_succ c).1 hdepth⟩

/-- The reader finds every field. -/
theorem record? (h : FieldsSpelling fields t) (hnodup : (fields.map Prod.fst).Nodup) :
    t.record? (fields.map Prod.fst) = some (fields.map fun f => some f.2) := by
  cases h with
  | object hentries => exact Tree.record?_of_perm hentries hnodup
  | array => simp [Tree.record?]

theorem tokens {P : Token → Prop} (hP : HoldsOfPlain P) (h : FieldsSpelling fields t)
    (hfields : ∀ f ∈ fields, ∀ x ∈ f.2.tokens, P x) : ∀ x ∈ t.tokens, P x := by
  cases h with
  | object hentries => exact hP.ofFields fun f hf => hfields f (hentries.mem_iff.1 hf)
  | array => exact hP.array (List.forall_mem_map.2 hfields)

end FieldsSpelling

/-- Trees are read one by one. -/
theorem mapM_spellings {α : Type} {read : Tree → Option α} {items : List (α × Tree)}
    (h : ∀ i ∈ items, read i.2 = some i.1) :
    (items.map Prod.snd).mapM read = some (items.map Prod.fst) := by
  induction items with
  | nil => rfl
  | cons i is ih =>
    obtain ⟨hi, his⟩ := List.forall_mem_cons.1 h
    rw [List.map_cons, List.mapM_cons, hi, ih his]
    rfl

end Json

open Json (Tree Token Source FieldsSpelling)

/-! ### Types -/

namespace Ty

/-- The kinds of types that carry nothing. -/
def plainKinds : List (String × Ty) :=
  [("string", .string), ("bool", .bool), ("int", .int), ("long", .long), ("double", .double),
    ("any", .any), ("void", .void)]

/-- The kinds of types that carry a name. -/
def namedKinds : List (String × (String → Ty)) := [("struct", .struct), ("class", .reference)]

/-- The kinds of types that carry the type of their elements. -/
def elementKinds : List (String × (Ty → Ty)) :=
  [("set", .set), ("list", .list), ("sequence", .sequence)]

/-- The tree spells the type. -/
inductive Spelling : Ty → Tree → Prop
  | bare {kind ty} (hkind : (kind, ty) ∈ plainKinds) :
    Spelling ty (.ofFields [("kind", .ofString kind)])
  | plain {kind ty t} (hkind : (kind, ty) ∈ plainKinds)
      (h : FieldsSpelling [("kind", .ofString kind), ("of", .null)] t) : Spelling ty t
  | named {kind make t} (hkind : (kind, make) ∈ namedKinds) {name : String}
      (h : FieldsSpelling [("kind", .ofString kind), ("of", .ofString name)] t) :
    Spelling (make name) t
  | element {kind make element content t} (hkind : (kind, make) ∈ elementKinds)
      (helement : Spelling element content)
      (h : FieldsSpelling [("kind", .ofString kind), ("of", content)] t) : Spelling (make element) t
  | function {params : List (Ty × Tree)} {result resultTree t}
      (hparams : ∀ p ∈ params, Spelling p.1 p.2) (hresult : Spelling result resultTree)
      (h : FieldsSpelling [("kind", .ofString "function"),
        ("of", .array [.array (params.map Prod.snd), resultTree])] t) :
    Spelling (.function (params.map Prod.fst) result) t

/-- The kind of a type and what it carries are read, whichever stands first. -/
theorem tagged?_of_spelling {kind : String} {content t : Tree}
    (h : FieldsSpelling [("kind", .ofString kind), ("of", content)] t) (b : Nat) :
    tagged? .copy b t = some (kind, some content, .copy) := by
  cases h with
  | object hentries =>
    obtain rfl | rfl := List.perm_pair.1 hentries
    · exact tagged?_kindTree .copy b kind (some content)
    · have hkind : (Tree.ofString kind).enumerator? .copy b = some kind :=
        Json.Text.toString?_ofString kind
      rw [Tree.ofFields, tagged?, Tree.named?_ofFields]
      simp [hkind, Source.copied?]
  | array =>
    have hkind : (Tree.ofString kind).tag? .copy kinds = some kind :=
      Json.Text.toString?_ofString kind
    simp [tagged?, hkind]

/-- A kind that carries nothing is read without a content, or with null. -/
theorem ofTree?_plain {kind : String} {ty : Ty} (hkind : (kind, ty) ∈ plainKinds)
    {content : Option Tree} (hcontent : content = none ∨ content = some .null) {t : Tree} {b : Nat}
    (htagged : tagged? .copy b t = some (kind, content, .copy)) :
    ofTree? .copy (b + 1) t = some ty := by
  simp only [plainKinds, List.mem_cons, List.not_mem_nil, Prod.mk.injEq, or_false] at hkind
  rw [ofTree?, htagged]
  obtain ⟨rfl, rfl⟩ | ⟨rfl, rfl⟩ | ⟨rfl, rfl⟩ | ⟨rfl, rfl⟩ | ⟨rfl, rfl⟩ | ⟨rfl, rfl⟩ | ⟨rfl, rfl⟩ :=
    hkind <;> obtain rfl | rfl := hcontent <;> rfl

theorem ofTree?_named {kind : String} {make : String → Ty} (hkind : (kind, make) ∈ namedKinds)
    {name : String} {t : Tree} {b : Nat}
    (htagged : tagged? .copy b t = some (kind, some (.ofString name), .copy)) :
    ofTree? .copy (b + 1) t = some (make name) := by
  simp only [namedKinds, List.mem_cons, List.not_mem_nil, Prod.mk.injEq, or_false] at hkind
  have hname := Tree.toString?_ofString name
  rw [ofTree?, htagged]
  obtain ⟨rfl, rfl⟩ | ⟨rfl, rfl⟩ := hkind <;> simp [hname]

theorem ofTree?_element {kind : String} {make : Ty → Ty} (hkind : (kind, make) ∈ elementKinds)
    {element : Ty} {content t : Tree} {b : Nat}
    (htagged : tagged? .copy b t = some (kind, some content, .copy))
    (helement : ofTree? .copy b content = some element) :
    ofTree? .copy (b + 1) t = some (make element) := by
  simp only [elementKinds, List.mem_cons, List.not_mem_nil, Prod.mk.injEq, or_false] at hkind
  rw [ofTree?, htagged]
  obtain ⟨rfl, rfl⟩ | ⟨rfl, rfl⟩ | ⟨rfl, rfl⟩ := hkind <;> simp [helement]

theorem ofTree?_function {params : List (Ty × Tree)} {result : Ty} {resultTree t : Tree} {b : Nat}
    (htagged : tagged? .copy (b + 2) t =
      some ("function", some (.array [.array (params.map Prod.snd), resultTree]), .copy))
    (hparams : ∀ p ∈ params, ofTree? .copy b p.2 = some p.1)
    (hresult : ofTree? .copy (b + 1) resultTree = some result) :
    ofTree? .copy (b + 3) t = some (.function (params.map Prod.fst) result) := by
  rw [ofTree?, htagged]
  simp [Json.mapM_spellings hparams, hresult]

/-- Every spelling of a type that nests within the budget is read as the type. -/
theorem Spelling.read {ty : Ty} {t : Tree} (h : Spelling ty t) :
    ∀ b, t.depth ≤ b → ofTree? .copy b t = some ty := by
  induction h with
  | bare hkind =>
    intro b hdepth
    cases b with
    | zero => exact absurd hdepth (Tree.not_depth_ofFields_le_zero _)
    | succ b => exact ofTree?_plain hkind (.inl rfl) (tagged?_kindTree .copy b _ none)
  | plain hkind h =>
    intro b hdepth
    obtain ⟨b, rfl, -⟩ := h.fits hdepth
    exact ofTree?_plain hkind (.inr rfl) (tagged?_of_spelling h b)
  | named hkind h =>
    intro b hdepth
    obtain ⟨b, rfl, -⟩ := h.fits hdepth
    exact ofTree?_named hkind (tagged?_of_spelling h b)
  | element hkind _ h ih =>
    intro b hdepth
    obtain ⟨b, rfl, hfields⟩ := h.fits hdepth
    have hcontent := (List.forall_mem_cons.1 hfields).2
    rw [List.forall_mem_singleton] at hcontent
    exact ofTree?_element hkind (tagged?_of_spelling h b) (ih b hcontent)
  | @function params result resultTree t _ _ h hparams hresult =>
    intro b hdepth
    obtain ⟨b, rfl, hfields⟩ := h.fits hdepth
    have hcontent := (List.forall_mem_cons.1 hfields).2
    rw [List.forall_mem_singleton] at hcontent
    obtain ⟨b, rfl, hparamTrees, hresultTree⟩ := exists_depth_function hcontent
    exact ofTree?_function (tagged?_of_spelling h (b + 2))
      (fun p hp => hparams p hp b (List.forall_mem_map.1 hparamTrees p hp))
      (hresult (b + 1) hresultTree)

/-- The tokens of a type are those that are written for anything but a double, however it is spelled. -/
theorem Spelling.tokens {P : Token → Prop} (hP : HoldsOfPlain P) {ty : Ty} {t : Tree}
    (h : Spelling ty t) : ∀ x ∈ t.tokens, P x := by
  have hfields : ∀ {kind : String} {content t : Tree}, (∀ x ∈ content.tokens, P x) →
      FieldsSpelling [("kind", .ofString kind), ("of", content)] t → ∀ x ∈ t.tokens, P x :=
    fun hcontent h => h.tokens hP (List.forall_mem_cons.2
      ⟨hP.ofString _, List.forall_mem_singleton.2 hcontent⟩)
  induction h with
  | bare hkind => exact hP.kindTree_none _
  | plain hkind h => exact hfields hP.ofNull h
  | named hkind h => exact hfields (hP.ofString _) h
  | element hkind _ h ih => exact hfields ih h
  | function _ _ h hparams hresult =>
    exact hfields (hP.array (List.forall_mem_cons.2
      ⟨hP.array (List.forall_mem_map.2 hparams), List.forall_mem_singleton.2 hresult⟩)) h

theorem function_spelling {params : List Ty} {result : Ty}
    (hparams : ∀ p ∈ params, p.Spelling p.toTree) (hresult : result.Spelling result.toTree) :
    (function params result).Spelling (function params result).toTree := by
  have hpairs : ∀ p ∈ params.map fun p => (p, p.toTree), p.1.Spelling p.2 :=
    List.forall_mem_map.2 hparams
  have h := Spelling.function hpairs hresult (.object (.refl _))
  simpa [Function.comp_def, toTree, toTrees_eq_map, kindTree] using h

mutual

/-- A type is written as one of its spellings. -/
theorem spelling_toTree : (t : Ty) → t.Spelling t.toTree
  | .string | .bool | .int | .long | .double | .any | .void => .bare (by simp [plainKinds])
  | .struct name | .reference name => .named (by simp [namedKinds]) (.object (.refl _))
  | .set element | .list element | .sequence element =>
    .element (by simp [elementKinds]) (spelling_toTree element) (.object (.refl _))
  | .function params result => function_spelling (spelling_toTrees params) (spelling_toTree result)
termination_by structural t => t

theorem spelling_toTrees : (ts : List Ty) → ∀ t ∈ ts, t.Spelling t.toTree
  | [] => List.forall_mem_nil _
  | t :: ts => List.forall_mem_cons.2 ⟨spelling_toTree t, spelling_toTrees ts⟩
termination_by structural ts => ts

end

end Ty

/-! ### Literals, members and methods -/

namespace Literal

/-- The tree spells the literal. Any numeral of a double will do that is read as the double. -/
inductive Spelling : Literal → Tree → Prop
  | written {l} (hdoubles : l.doubles = []) : Spelling l l.toTree
  | null : Spelling .null (.ofFields [("null", .null)])
  | double {x n} (hgrammatical : n.Grammatical) (hread : n.toBinary64? = some x) :
    Spelling (.double x) (.ofFields [("double", .number n)])

theorem Spelling.read {l : Literal} {t : Tree} (h : Spelling l t) {b : Nat} (hdepth : t.depth ≤ b) :
    ofTree? .copy b t = some l := by
  cases h with
  | written hdoubles =>
    have hnone : ∀ x ∈ l.doubles, x.isFinite = true := by simp [hdoubles]
    exact (yields_toTree l (by simp [hdoubles]) .copy b l).2 ⟨⟨hdepth, hnone⟩, rfl⟩
  | null =>
    cases b with
    | zero => exact absurd hdepth (Tree.not_depth_ofFields_le_zero _)
    | succ b => rfl
  | @double x n _ hread =>
    cases b with
    | zero => exact absurd hdepth (Tree.not_depth_ofFields_le_zero _)
    | succ b =>
      have hcontent : (Tree.number n).toBinary64? = some x := hread
      rw [Tree.ofFields, List.map_cons, List.map_nil, ofTree?, if_neg b.succ_ne_zero,
        Json.Text.toString?_ofString]
      simp [hcontent]

theorem Spelling.tokens {P : Token → Prop} (hP : HoldsOfPlain P)
    (hnumber : ∀ n : Numeral, n.Grammatical → n.toBinary64?.isSome = true → P (.number n))
    {l : Literal} {t : Tree} (h : Spelling l t) : ∀ x ∈ t.tokens, P x := by
  cases h with
  | written hdoubles => exact hP.literal l (by simp [hdoubles])
  | null => exact hP.ofFields (List.forall_mem_singleton.2 hP.ofNull)
  | @double x n hgrammatical hread =>
    have hn : P (.number n) := hnumber n hgrammatical (by rw [hread]; rfl)
    exact hP.ofFields (List.forall_mem_singleton.2 (List.forall_mem_singleton.2 hn))

theorem spelling_toTree {l : Literal}
    (hread : ∀ x ∈ l.doubles, x.isFinite = true ∧ (doubleLayout.numeral x).toBinary64? = some x) :
    l.Spelling l.toTree := by
  cases l with
  | double x =>
    rw [doubles, List.forall_mem_singleton] at hread
    rw [toTree, doubleTree, if_pos hread.1]
    exact .double (NumeralLayout.numeral_grammatical rfl x) hread.2
  | _ => exact .written rfl

end Literal

namespace MemberSig

/-- The tree spells the member. -/
inductive Spelling (m : MemberSig) (t : Tree) : Prop
  | intro {tyTree} (hty : m.ty.Spelling tyTree)
    (h : FieldsSpelling [("name", .ofString m.name), ("ty", tyTree)] t)

theorem Spelling.read {m : MemberSig} {t : Tree} (h : m.Spelling t) {b : Nat} (hdepth : t.depth ≤ b) :
    ofTree? .copy b t = some m := by
  obtain ⟨hty, h⟩ := h
  obtain ⟨b, rfl, hfields⟩ := h.fits hdepth
  rw [List.forall_mem_cons, List.forall_mem_singleton] at hfields
  have hrecord := h.record? (by simp)
  simp only [List.map_cons, List.map_nil] at hrecord
  rw [ofTree?, hrecord]
  simp [hty.read b hfields.2]

theorem Spelling.tokens {P : Token → Prop} (hP : HoldsOfPlain P) {m : MemberSig} {t : Tree}
    (h : m.Spelling t) : ∀ x ∈ t.tokens, P x := by
  obtain ⟨hty, h⟩ := h
  exact h.tokens hP (List.forall_mem_cons.2
    ⟨hP.ofString m.name, List.forall_mem_singleton.2 (hty.tokens hP)⟩)

theorem spelling_toTree (m : MemberSig) : m.Spelling m.toTree :=
  .intro m.ty.spelling_toTree (.object (.refl _))

end MemberSig

namespace MethodSig

/-- The tree spells the method. -/
inductive Spelling : MethodSig → Tree → Prop
  | intro {name} {params : List (Ty × Tree)} {result resultTree t}
    (hparams : ∀ p ∈ params, p.1.Spelling p.2) (hresult : result.Spelling resultTree)
    (h : FieldsSpelling [("name", .ofString name), ("params", .array (params.map Prod.snd)),
      ("ret", resultTree)] t) : Spelling ⟨name, params.map Prod.fst, result⟩ t

theorem Spelling.read {m : MethodSig} {t : Tree} (h : m.Spelling t) {b : Nat} (hdepth : t.depth ≤ b) :
    ofTree? .copy b t = some m := by
  obtain ⟨hparams, hresult, h⟩ := h
  obtain ⟨b, rfl, hfields⟩ := h.fits hdepth
  rw [List.forall_mem_cons, List.forall_mem_cons, List.forall_mem_singleton] at hfields
  have hrecord := h.record? (by simp)
  simp only [List.map_cons, List.map_nil] at hrecord
  cases b with
  | zero => exact absurd hfields.2.1 (Nat.not_succ_le_zero _)
  | succ b =>
    obtain ⟨-, hparamTrees, hresultTree⟩ := hfields
    rw [Tree.depth_array_le, List.forall_mem_map] at hparamTrees
    have hread := Json.mapM_spellings fun p hp => (hparams p hp).read b (hparamTrees p hp)
    rw [ofTree?, hrecord]
    simp [Tree.items?, hread, hresult.read (b + 1) hresultTree]

theorem Spelling.tokens {P : Token → Prop} (hP : HoldsOfPlain P) {m : MethodSig} {t : Tree}
    (h : m.Spelling t) : ∀ x ∈ t.tokens, P x := by
  obtain ⟨hparams, hresult, h⟩ := h
  exact h.tokens hP (List.forall_mem_cons.2 ⟨hP.ofString _, List.forall_mem_cons.2
    ⟨hP.array (List.forall_mem_map.2 fun p hp => (hparams p hp).tokens hP),
      List.forall_mem_singleton.2 (hresult.tokens hP)⟩⟩)

theorem spelling_toTree (m : MethodSig) : m.Spelling m.toTree := by
  obtain ⟨name, params, result⟩ := m
  have hparams : ∀ p ∈ params.map fun p => (p, p.toTree), p.1.Spelling p.2 :=
    List.forall_mem_map.2 (Ty.spelling_toTrees params)
  have h : MethodSig.Spelling ⟨name, _, result⟩ _ :=
    .intro hparams result.spelling_toTree (.object (.refl _))
  simpa [Function.comp_def, toTree, Ty.toTrees_eq_map] using h

end MethodSig

/-! ### Paths -/

namespace Path

/-- The tree spells a node of that kind with these fields, the kind being the first of them. -/
abbrev NodeKind.Spelling (kind : NodeKind) (fields : List (String × Tree)) : Tree → Prop :=
  FieldsSpelling (("node", .ofString kind.name) :: fields)

/-- The tree spells the path. -/
inductive Spelling : Path → Tree → Prop
  | constant {value valueTree ty tyTree t} (hvalue : value.Spelling valueTree)
      (hty : ty.Spelling tyTree)
      (h : NodeKind.constant.Spelling [("value", valueTree), ("ty", tyTree)] t) :
    Spelling (.constant value ty) t
  | parameter {name ty tyTree t} (hty : ty.Spelling tyTree)
      (h : NodeKind.parameter.Spelling [("name", .ofString name), ("ty", tyTree)] t) :
    Spelling (.parameter name ty) t
  | memberAccess {target targetTree member memberTree t} (htarget : Spelling target targetTree)
      (hmember : member.Spelling memberTree)
      (h : NodeKind.memberAccess.Spelling [("target", targetTree), ("member", memberTree)] t) :
    Spelling (.memberAccess target member) t
  | methodCall {receiver receiverTree method methodTree t} {args : List (Path × Tree)}
      (hreceiver : Spelling receiver receiverTree) (hmethod : method.Spelling methodTree)
      (hargs : ∀ a ∈ args, Spelling a.1 a.2)
      (h : NodeKind.methodCall.Spelling [("receiver", receiverTree), ("method", methodTree),
        ("args", .array (args.map Prod.snd))] t) :
    Spelling (.methodCall receiver method (args.map Prod.fst)) t
  | extensionCall {method methodTree t} {args : List (Path × Tree)}
      (hmethod : method.Spelling methodTree) (hargs : ∀ a ∈ args, Spelling a.1 a.2)
      (h : NodeKind.methodCall.Spelling [("receiver", .null), ("method", methodTree),
        ("args", .array (args.map Prod.snd))] t) :
    Spelling (.extensionCall method (args.map Prod.fst)) t
  /-- Only an object can do without the receiver. -/
  | noReceiver {method methodTree entries} {args : List (Path × Tree)}
      (hmethod : method.Spelling methodTree) (hargs : ∀ a ∈ args, Spelling a.1 a.2)
      (hentries : entries.Perm [("node", .ofString NodeKind.methodCall.name),
        ("method", methodTree), ("args", .array (args.map Prod.snd))]) :
    Spelling (.extensionCall method (args.map Prod.fst)) (.ofFields entries)
  | lambda {param paramTy paramTyTree body bodyTree t} (hparamTy : paramTy.Spelling paramTyTree)
      (hbody : Spelling body bodyTree)
      (h : NodeKind.lambda.Spelling [("param", .ofString param), ("param_ty", paramTyTree),
        ("body", bodyTree)] t) : Spelling (.lambda param paramTy body) t

namespace NodeKind

/-- A node that nests within the budget takes a level of it, and its fields are found however it is
spelled. -/
theorem fields_of_spelling (source : Source) {kind : NodeKind} {fields : List (String × Tree)}
    {t : Tree} (h : kind.Spelling fields t) (hkeys : fields.map Prod.fst = kind.keys) {b : Nat}
    (hdepth : t.depth ≤ b) :
    ∃ c rest, b = c + 1 ∧ (∀ f ∈ fields, f.2.depth ≤ c) ∧ tagged? source t = some (kind, rest) ∧
      rest.record? kind.keys = some (fields.map fun f => some f.2) := by
  obtain ⟨c, rfl, hfits⟩ := h.fits hdepth
  refine ⟨c, ?_⟩
  have hnodup : ("node" :: kind.keys).Nodup := by cases kind <;> decide
  rw [← hkeys] at hnodup ⊢
  have hfields := (List.nodup_cons.1 hnodup).2
  cases h with
  | object hentries =>
    obtain ⟨rest, hrest, htagged⟩ := tagged?_of_perm source hentries hnodup
    exact ⟨_, rfl, (List.forall_mem_cons.1 hfits).2, htagged,
      Tree.record?_of_perm hrest hfields⟩
  | array =>
    refine ⟨_, rfl, (List.forall_mem_cons.1 hfits).2, ?_, FieldsSpelling.array.record? hfields⟩
    rw [List.map_cons, tagged?, ofTree?_name]
    rfl

/-- The fields of a call are found without a receiver. -/
theorem fields_of_noReceiver (source : Source) {entries : List (String × Tree)} {method args : Tree}
    (hentries : entries.Perm
      [("node", .ofString methodCall.name), ("method", method), ("args", args)]) :
    ∃ rest, tagged? source (.ofFields entries) = some (methodCall, rest) ∧
      rest.record? methodCall.keys = some [none, some method, some args] := by
  obtain ⟨rest, hrest, htagged⟩ := tagged?_of_perm source hentries (by simp)
  refine ⟨_, htagged, ?_⟩
  rw [Tree.record?_perm hrest, Tree.ofFields, Tree.record?, Tree.named?_ofFields]
  rfl

end NodeKind

theorem Spelling.ne_null {p : Path} {t : Tree} (h : Spelling p t) : t ≠ .null := by
  have hfields : ∀ {fields t}, FieldsSpelling fields t → t ≠ .null := by
    intro fields t h hnull
    cases h <;> cases hnull
  cases h with
  | noReceiver _ _ hentries => exact hfields (.object hentries)
  | constant _ _ h | parameter _ h | memberAccess _ _ h | methodCall _ _ _ h | extensionCall _ _ h
  | lambda _ _ h => exact hfields h

/-- A call whose receiver is null or missing is made extension style. -/
theorem ofNode?_extensionCall {source : Source} {t rest methodTree : Tree} {receiver : Option Tree}
    {method : MethodSig} {args : List (Path × Tree)} {b : Nat}
    (htagged : tagged? source t = some (.methodCall, rest))
    (hrecord : rest.record? NodeKind.methodCall.keys =
      some [receiver, some methodTree, some (.array (args.map Prod.snd))])
    (hreceiver : receiver = none ∨ receiver = some .null) (hmethod : method.Spelling methodTree)
    (hmethodDepth : methodTree.depth ≤ b)
    (hargs : ∀ a ∈ args, ∀ source b, a.2.depth ≤ b → ofNode? source b a.2 = some a.1)
    (hargsDepth : (Tree.array (args.map Prod.snd)).depth ≤ b) :
    ofNode? source (b + 1) t = some (.extensionCall method (args.map Prod.fst)) := by
  cases b with
  | zero => exact absurd hargsDepth (Nat.not_succ_le_zero _)
  | succ b =>
    rw [Tree.depth_array_le, List.forall_mem_map] at hargsDepth
    have hread := Json.mapM_spellings fun a ha => hargs a ha .copy b (hargsDepth a ha)
    rw [ofNode?, htagged]
    obtain rfl | rfl := hreceiver <;>
      simp [hrecord, Tree.items?, hmethod.read hmethodDepth, hread]

/-- Every spelling of a path that nests within the budget is read as the path. -/
theorem Spelling.read {p : Path} {t : Tree} (h : Spelling p t) :
    ∀ source b, t.depth ≤ b → ofNode? source b t = some p := by
  induction h with
  | constant hvalue hty h =>
    intro source b hdepth
    obtain ⟨b, rest, rfl, hfits, htagged, hrecord⟩ := NodeKind.fields_of_spelling source h rfl hdepth
    rw [List.forall_mem_cons, List.forall_mem_singleton] at hfits
    rw [ofNode?, htagged]
    simp [hrecord, hvalue.read hfits.1, hty.read b hfits.2]
  | parameter hty h =>
    intro source b hdepth
    obtain ⟨b, rest, rfl, hfits, htagged, hrecord⟩ := NodeKind.fields_of_spelling source h rfl hdepth
    rw [List.forall_mem_cons, List.forall_mem_singleton] at hfits
    rw [ofNode?, htagged]
    simp [hrecord, hty.read b hfits.2]
  | memberAccess _ hmember h htarget =>
    intro source b hdepth
    obtain ⟨b, rest, rfl, hfits, htagged, hrecord⟩ := NodeKind.fields_of_spelling source h rfl hdepth
    rw [List.forall_mem_cons, List.forall_mem_singleton] at hfits
    rw [ofNode?, htagged]
    simp [hrecord, htarget .copy b hfits.1, hmember.read hfits.2]
  | methodCall hspelling hmethod _ h hreceiver hargs =>
    -- no path is spelled as null, so that the receiver is not taken for a missing one
    intro source b hdepth
    obtain ⟨b, rest, rfl, hfits, htagged, hrecord⟩ := NodeKind.fields_of_spelling source h rfl hdepth
    rw [List.forall_mem_cons, List.forall_mem_cons, List.forall_mem_singleton] at hfits
    obtain ⟨hreceiverFits, hmethodFits, hargsFit⟩ := hfits
    cases b with
    | zero => exact absurd hargsFit (Nat.not_succ_le_zero _)
    | succ b =>
      rw [Tree.depth_array_le, List.forall_mem_map] at hargsFit
      have hread := Json.mapM_spellings fun a ha => hargs a ha .copy b (hargsFit a ha)
      rw [ofNode?, htagged]
      simp [hrecord, Tree.items?, hmethod.read hmethodFits, hread,
        hreceiver .copy (b + 1) hreceiverFits, hspelling.ne_null]
  | extensionCall hmethod _ h hargs =>
    intro source b hdepth
    obtain ⟨b, rest, rfl, hfits, htagged, hrecord⟩ := NodeKind.fields_of_spelling source h rfl hdepth
    rw [List.forall_mem_cons, List.forall_mem_cons, List.forall_mem_singleton] at hfits
    exact ofNode?_extensionCall htagged hrecord (.inr rfl) hmethod hfits.2.1 hargs hfits.2.2
  | noReceiver hmethod _ hentries hargs =>
    intro source b hdepth
    obtain ⟨b, rfl, hfits⟩ := (FieldsSpelling.object hentries).fits hdepth
    obtain ⟨rest, htagged, hrecord⟩ := NodeKind.fields_of_noReceiver source hentries
    rw [List.forall_mem_cons, List.forall_mem_cons, List.forall_mem_singleton] at hfits
    exact ofNode?_extensionCall htagged hrecord (.inl rfl) hmethod hfits.2.1 hargs hfits.2.2
  | lambda hparamTy _ h hbody =>
    intro source b hdepth
    obtain ⟨b, rest, rfl, hfits, htagged, hrecord⟩ := NodeKind.fields_of_spelling source h rfl hdepth
    rw [List.forall_mem_cons, List.forall_mem_cons, List.forall_mem_singleton] at hfits
    rw [ofNode?, htagged]
    simp [hrecord, hparamTy.read b hfits.2.1, hbody .copy b hfits.2.2]

/-- What holds of all tokens but those of doubles, and of the numerals that are read as doubles, holds of
all tokens of a spelling. -/
theorem Spelling.tokens {P : Token → Prop} (hP : HoldsOfPlain P)
    (hnumber : ∀ n : Numeral, n.Grammatical → n.toBinary64?.isSome = true → P (.number n))
    {p : Path} {t : Tree} (h : Spelling p t) : ∀ x ∈ t.tokens, P x := by
  have hnode : ∀ {kind : NodeKind} {fields : List (String × Tree)} {t : Tree},
      kind.Spelling fields t → (∀ f ∈ fields, ∀ x ∈ f.2.tokens, P x) → ∀ x ∈ t.tokens, P x :=
    fun h hfields => h.tokens hP (List.forall_mem_cons.2 ⟨hP.ofString _, hfields⟩)
  induction h with
  | constant hvalue hty h =>
    refine hnode h ?_
    rw [List.forall_mem_cons, List.forall_mem_singleton]
    exact ⟨hvalue.tokens hP hnumber, hty.tokens hP⟩
  | parameter hty h =>
    refine hnode h ?_
    rw [List.forall_mem_cons, List.forall_mem_singleton]
    exact ⟨hP.ofString _, hty.tokens hP⟩
  | memberAccess _ hmember h htarget =>
    refine hnode h ?_
    rw [List.forall_mem_cons, List.forall_mem_singleton]
    exact ⟨htarget, hmember.tokens hP⟩
  | methodCall _ hmethod _ h hreceiver hargs =>
    refine hnode h ?_
    rw [List.forall_mem_cons, List.forall_mem_cons, List.forall_mem_singleton]
    exact ⟨hreceiver, hmethod.tokens hP, hP.array (List.forall_mem_map.2 hargs)⟩
  | extensionCall hmethod _ h hargs =>
    refine hnode h ?_
    rw [List.forall_mem_cons, List.forall_mem_cons, List.forall_mem_singleton]
    exact ⟨hP.ofNull, hmethod.tokens hP, hP.array (List.forall_mem_map.2 hargs)⟩
  | noReceiver hmethod _ hentries hargs =>
    refine hnode (.object hentries) ?_
    rw [List.forall_mem_cons, List.forall_mem_singleton]
    exact ⟨hmethod.tokens hP, hP.array (List.forall_mem_map.2 hargs)⟩
  | lambda hparamTy _ h hbody =>
    refine hnode h ?_
    rw [List.forall_mem_cons, List.forall_mem_cons, List.forall_mem_singleton]
    exact ⟨hP.ofString _, hparamTy.tokens hP, hbody⟩

/-- A path whose doubles are finite and read back is written as one of its spellings. -/
theorem spelling_toTree (p : Path) :
    (∀ x ∈ p.doubles, x.isFinite = true ∧ (Literal.doubleLayout.numeral x).toBinary64? = some x) →
      p.Spelling p.toTree := by
  have hpairs : ∀ {args : List Path}, (∀ a ∈ args, a.Spelling a.toTree) →
      ∀ a ∈ args.map fun a => (a, a.toTree), a.1.Spelling a.2 := fun h => List.forall_mem_map.2 h
  have hextension : ∀ (m : MethodSig) {args : List Path}, (∀ a ∈ args, a.Spelling a.toTree) →
      (extensionCall m args).Spelling (extensionCall m args).toTree := by
    intro m args hargs
    have h := Spelling.extensionCall m.spelling_toTree (hpairs hargs) (.object (.refl _))
    simpa [Function.comp_def, toTree, toTrees_eq_map, NodeKind.node] using h
  induction p using nodeInduction with
  | constant value ty =>
    exact fun h => .constant (Literal.spelling_toTree h) ty.spelling_toTree (.object (.refl _))
  | parameter name ty => exact fun _ => .parameter ty.spelling_toTree (.object (.refl _))
  | memberAccess target member htarget =>
    exact fun h => .memberAccess (htarget h) member.spelling_toTree (.object (.refl _))
  | methodCall receiver m args hreceiver hargs =>
    intro h
    rw [doubles, List.forall_mem_append, forall_mem_doublesOfAll] at h
    have h := Spelling.methodCall (hreceiver h.1) m.spelling_toTree
      (hpairs fun a ha => hargs a ha (h.2 a ha)) (.object (.refl _))
    simpa [Function.comp_def, toTree, toTrees_eq_map, NodeKind.node] using h
  | noReceiver m => exact fun _ => hextension m (List.forall_mem_nil _)
  | extensionCall m receiver rest hreceiver hrest _ =>
    intro h
    rw [doubles, forall_mem_doublesOfAll, List.forall_mem_cons] at h
    exact hextension m (List.forall_mem_cons.2 ⟨hreceiver h.1, fun a ha => hrest a ha (h.2 a ha)⟩)
  | lambda param paramTy body hbody =>
    exact fun h => .lambda paramTy.spelling_toTree (hbody h) (.object (.refl _))

/-- All spellings of a path read the same. Whatever was chosen for each node, structure and type, and
whatever blanks stand between the tokens, a text that nests within the limit is read as the path. -/
theorem ofJson?_of_spelling {p : Path} {t : Tree} (hspelling : p.Spelling t)
    (hdepth : t.depth ≤ Json.nestingLimit) {text : String}
    (hwritten : Json.Written t.tokens text.toList) : ofJson? text = some p := by
  have hgrammatical : ∀ x ∈ t.tokens, x.Grammatical :=
    hspelling.tokens holdsOfPlain_grammatical fun _ hn _ => hn
  have hstrict : t.isStrict Json.nestingLimit = true := by
    rw [Tree.isStrict_iff]
    exact ⟨hdepth, hspelling.tokens holdsOfPlain_isStrict fun _ _ hn => hn⟩
  rw [ofJson?, Json.decodeText, Tree.parse?_of_written hgrammatical hwritten, Option.bind_some,
    ofTree?, if_pos hstrict]
  exact hspelling.read .stream Json.nestingLimit hdepth

/-- A call without a receiver whose kind stands second, with a node, a member and a method as arrays, types
whose content stands first, is null, or is missing, both spellings of the null literal, and a number written
out of the ordinary. -/
theorem ofJson?_of_spelling_mixed :
    let ofKind (content : Tree) (kind : String) : Tree :=
      .ofFields [("of", content), ("kind", .ofString kind)]
    let any : Tree := .ofFields [("kind", .ofString "any")]
    let int : Tree := .array [.ofString "int", .null]
    let target : Tree := .ofFields [("name", .ofString "x"), ("node", .ofString "parameter"), ("ty", any)]
    let access : Tree := .array [.ofString "member_access", target, .array [.ofString "m", int]]
    let constant (value : Tree) : Tree := .array [.ofString "constant", value, any]
    let half : Numeral := ⟨false, [5, 0], [0], some ⟨true, [0, 2]⟩⟩
    let method : Tree := .array [.ofString "f", .array [ofKind int "list"], ofKind .null "any"]
    let t : Tree := .ofFields [("method", method), ("node", .ofString "method_call"),
      ("args", .array [access, constant (.ofString "null"), constant (.ofFields [("null", .null)]),
        constant (.ofFields [("double", .number half)])])]
    let p : Path := .extensionCall ⟨"f", [.list .int], .any⟩
      [.memberAccess (.parameter "x" .any) ⟨"m", .int⟩, .constant .null .any, .constant .null .any,
        .constant (.double ⟨0x3FE0000000000000⟩) .any]
    let text := String.ofList (t.tokens.flatMap fun x => ['\n', ' '] ++ x.chars)
    p.Spelling t ∧ t.depth ≤ Json.nestingLimit ∧ ofJson? text = some p := by
  intro ofKind any int target access constant half method t p text
  have hany : Ty.Spelling .any any := .bare (by simp [Ty.plainKinds])
  have hint : Ty.Spelling .int int := .plain (by simp [Ty.plainKinds]) .array
  have hlist : Ty.Spelling (.list .int) (ofKind int "list") :=
    .element (by simp [Ty.elementKinds]) hint (.object (.swap _ _ _))
  have hresult : Ty.Spelling .any (ofKind .null "any") :=
    .plain (by simp [Ty.plainKinds]) (.object (.swap _ _ _))
  have hmethod : MethodSig.Spelling ⟨"f", [.list .int], .any⟩ method :=
    have hparams : ∀ q ∈ [(Ty.list .int, ofKind int "list")], q.1.Spelling q.2 :=
      List.forall_mem_singleton.2 hlist
    .intro hparams hresult .array
  have htarget : Spelling (.parameter "x" .any) target := .parameter hany (.object (.swap _ _ _))
  have haccess : Spelling (.memberAccess (.parameter "x" .any) ⟨"m", .int⟩) access :=
    .memberAccess htarget (.intro hint .array) .array
  have hconstant : ∀ {value valueTree}, value.Spelling valueTree →
      Spelling (.constant value .any) (constant valueTree) := fun hvalue => .constant hvalue hany .array
  have hhalf : Literal.Spelling (.double ⟨0x3FE0000000000000⟩) (.ofFields [("double", .number half)]) :=
    .double ⟨nofun, by simp [half]⟩ (by decide +kernel)
  have hargs : ∀ a ∈ [(.memberAccess (.parameter "x" .any) ⟨"m", .int⟩, access),
      (.constant .null .any, constant (.ofString "null")),
      (.constant .null .any, constant (.ofFields [("null", .null)])),
      (.constant (.double ⟨0x3FE0000000000000⟩) .any, constant (.ofFields [("double", .number half)]))],
      Spelling a.1 a.2 := by
    rw [List.forall_mem_cons, List.forall_mem_cons, List.forall_mem_cons, List.forall_mem_singleton]
    exact ⟨haccess, hconstant (.written rfl), hconstant .null, hconstant hhalf⟩
  have hspelling : p.Spelling t := .noReceiver hmethod hargs (.swap _ _ _)
  have hdepth : t.depth ≤ Json.nestingLimit := by decide
  have hblanks : ∀ c ∈ ['\n', ' '], Json.isBlank c = true := by simp [Json.isBlank]
  refine ⟨hspelling, hdepth, ofJson?_of_spelling hspelling hdepth ?_⟩
  rw [String.toList_ofList]
  exact Json.Written.of_blanks hblanks _

end Path

end AccessPath
