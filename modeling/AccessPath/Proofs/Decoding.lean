import AccessPath.Proofs.Trees
import AccessPath.Path.Json

/-!
# Reading back what was written

What the readers of types, literals, members and methods make of the trees that are written of them. A
reading `Yields` a value under a condition if it gives that value where the condition holds, and nothing
where it does not. For types, members and methods the condition is that the tree nests within the budget
(`Ty.yields_toTree`, `MemberSig.yields_toTree`, `MethodSig.yields_toTree`). For a literal it is also that a
double in it is finite, and the numeral of that double has to be read as that double
(`Literal.yields_toTree`).
-/

namespace AccessPath

namespace Json

/-- The reading gives the value under the condition, and otherwise nothing. -/
def Yields {α : Type} (reading : Option α) (P : Prop) (a : α) : Prop :=
  ∀ b, reading = some b ↔ P ∧ b = a

namespace Yields

variable {α β : Type} {P Q : Prop} {a : α} {b : β} {reading : Option α}

theorem of_some (a : α) : Yields (some a) True a := by
  intro b
  rw [Option.some.injEq, true_and, eq_comm]

theorem of_none (hP : ¬ P) (a : α) : Yields none P a := by
  intro b
  simp [hP]

theorem congr (h : Yields reading P a) (hP : P ↔ Q) : Yields reading Q a := by
  intro b
  rw [h b, hP]

theorem bind {next : α → Option β} (h : Yields reading P a) (hnext : Yields (next a) Q b) :
    Yields (reading.bind next) (P ∧ Q) b := by
  intro c
  rw [Option.bind_eq_some_iff]
  constructor
  · rintro ⟨a', ha', hc⟩
    obtain ⟨hP, rfl⟩ := (h a').1 ha'
    obtain ⟨hQ, hc⟩ := (hnext c).1 hc
    exact ⟨⟨hP, hQ⟩, hc⟩
  · intro ⟨⟨hP, hQ⟩, hc⟩
    exact ⟨a, (h a).2 ⟨hP, rfl⟩, (hnext c).2 ⟨hQ, hc⟩⟩

theorem map (h : Yields reading P a) (f : α → β) : Yields (reading.map f) P (f a) := by
  rw [Option.map_eq_bind]
  exact (h.bind (of_some (f a))).congr (and_iff_left trivial)

/-- A list is read back if each member of it is. -/
theorem mapM {write : α → β} {read : β → Option α} {P : α → Prop} (as : List α)
    (h : ∀ a ∈ as, Yields (read (write a)) (P a) a) :
    Yields ((as.map write).mapM read) (∀ a ∈ as, P a) as := by
  induction as with
  | nil => exact (of_some []).congr (by simp)
  | cons a as ih =>
    obtain ⟨ha, has⟩ := List.forall_mem_cons.1 h
    rw [List.map_cons, List.mapM_cons]
    refine (ha.bind ((ih has).bind (of_some (a :: as)))).congr ?_
    rw [and_true, List.forall_mem_cons]

end Yields

/-! ### Structures -/

theorem Text.toString?_ofString (s : String) : (Text.ofString s).toString? = some s := by
  have hchars : ∀ cs : List Char, Text.chars? (cs.map .char) = some cs := by
    intro cs
    induction cs with
    | nil => rfl
    | cons c cs ih => rw [List.map_cons, chars?, ih, Option.map_some]
  rw [toString?, ofString, hchars, Option.map_some, String.ofList_toList]

namespace Tree

@[simp]
theorem toString?_ofString (s : String) : (ofString s).toString? = some s := Text.toString?_ofString s

@[simp]
theorem toInt?_ofInt (n : Int) : (ofInt n).toInt? = some n := Numeral.toInt?_ofInt n

@[simp]
theorem depth_ofString (s : String) : (ofString s).depth = 0 := rfl

theorem depth_ofFields_le (fields : List (String × Tree)) (b : Nat) :
    (ofFields fields).depth ≤ b + 1 ↔ ∀ f ∈ fields, f.2.depth ≤ b := by
  rw [ofFields, depth_object_le, List.forall_mem_map]

theorem not_depth_ofFields_le_zero (fields : List (String × Tree)) : ¬ (ofFields fields).depth ≤ 0 :=
  Nat.not_succ_le_zero _

/-- A string is read at any depth. -/
theorem yields_ofString (s : String) (b : Nat) :
    Yields (ofString s).toString? ((ofString s).depth ≤ b) s := by
  rw [toString?_ofString]
  exact (Yields.of_some s).congr (iff_of_true trivial (Nat.zero_le b))

theorem named?_ofFields (fields : List (String × Tree)) :
    named? (fields.map fun f => (.ofString f.1, f.2)) = some fields := by
  unfold named?
  induction fields with
  | nil => rfl
  | cons f fs ih => simp [List.mapM_cons, Text.toString?_ofString, ih]

/-- A key that stands once has its value. -/
theorem single?_of_mem {fields : List (String × Tree)} (hnodup : (fields.map Prod.fst).Nodup)
    {f : String × Tree} (hf : f ∈ fields) : single? fields f.1 = some (some f.2) := by
  have hfilter : fields.filter (fun g => g.1 = f.1) = [f] := by
    induction fields with
    | nil => cases hf
    | cons g gs ih =>
      rw [List.map_cons, List.nodup_cons] at hnodup
      obtain ⟨hfresh, hnodup⟩ := hnodup
      rcases List.mem_cons.1 hf with rfl | hf
      · have hnone : gs.filter (fun h => h.1 = f.1) = [] := by
          rw [List.filter_eq_nil_iff]
          intro h hh heq
          exact hfresh (List.mem_map.2 ⟨h, hh, by simpa using heq⟩)
        rw [List.filter_cons_of_pos (by simp), hnone]
      · have hne : g.1 ≠ f.1 := fun heq => hfresh (List.mem_map.2 ⟨f, hf, heq.symm⟩)
        rw [List.filter_cons_of_neg (by simp [hne]), ih hnodup hf]
  rw [single?, hfilter]

/-- A structure that is written with its keys is read with all of its fields. -/
theorem record?_ofFields (fields : List (String × Tree)) (hnodup : (fields.map Prod.fst).Nodup) :
    (ofFields fields).record? (fields.map Prod.fst) = some (fields.map fun f => some f.2) := by
  have hall : ∀ fs : List (String × Tree), (∀ f ∈ fs, f ∈ fields) →
      (fs.map Prod.fst).mapM (single? fields) = some (fs.map fun f => some f.2) := by
    intro fs hfs
    induction fs with
    | nil => rfl
    | cons f fs ih =>
      obtain ⟨hf, hfs⟩ := List.forall_mem_cons.1 hfs
      simp [List.mapM_cons, single?_of_mem hnodup hf, ih hfs]
  rw [ofFields, record?, named?_ofFields, Option.bind_some]
  exact hall fields fun _ hf => hf

/-- The order of the entries does not matter to a key that may stand once. -/
theorem single?_perm {entries fields : List (String × Tree)} (h : entries.Perm fields) (key : String) :
    single? entries key = single? fields key := by
  have hfilter := h.filter fun f => f.1 = key
  unfold single?
  match hfields : fields.filter fun f => f.1 = key with
  | [] =>
    rw [hfields] at hfilter
    rw [hfilter.eq_nil, hfields]
  | [f] =>
    rw [hfields] at hfilter
    rw [List.perm_singleton.1 hfilter, hfields]
  | f :: g :: fs =>
    rw [hfields] at hfilter
    match hentries : entries.filter fun f => f.1 = key with
    | [] | [_] => simpa [hentries] using hfilter.length_eq
    | _ :: _ :: _ => rw [hfields, hentries]

theorem record?_perm {entries fields : List (String × Tree)} (h : entries.Perm fields)
    (keys : List String) : (ofFields entries).record? keys = (ofFields fields).record? keys := by
  simp only [ofFields, record?, named?_ofFields, Option.bind_some]
  rw [funext (single?_perm h)]

/-- The order that a structure's keys are written in does not matter: all of its fields are found. -/
theorem record?_of_perm {entries fields : List (String × Tree)} (h : entries.Perm fields)
    (hnodup : (fields.map Prod.fst).Nodup) :
    (ofFields entries).record? (fields.map Prod.fst) = some (fields.map fun f => some f.2) := by
  rw [record?_perm h, record?_ofFields fields hnodup]

end Tree

end Json

open Json (Tree Source Yields)

/-! ### Types -/

namespace Ty

theorem toTrees_eq_map (ts : List Ty) : toTrees ts = ts.map toTree := by
  induction ts with
  | nil => rfl
  | cons t ts ih => rw [toTrees, ih, List.map_cons]

theorem tagged?_kindTree (source : Source) (b : Nat) (kind : String) (content : Option Tree) :
    tagged? source b (kindTree kind content) = some (kind, content, source) := by
  have hkind : (Tree.ofString kind).enumerator? source b = some kind :=
    Json.Text.toString?_ofString kind
  rw [kindTree, Tree.ofFields, tagged?]
  simp only [Tree.named?_ofFields]
  cases content <;> simp [hkind]

theorem depth_kindTree_none (kind : String) (b : Nat) : (kindTree kind none).depth ≤ b + 1 := by
  rw [kindTree, Tree.depth_ofFields_le]
  simp

theorem depth_kindTree_some (kind : String) (content : Tree) (b : Nat) :
    (kindTree kind (some content)).depth ≤ b + 1 ↔ content.depth ≤ b := by
  rw [kindTree, Tree.depth_ofFields_le]
  simp

/-- A kind that carries nothing is read where one more object may nest. -/
theorem yields_plain {kind : String} {t : Ty} (source : Source) (b : Nat)
    (h : ∀ b, ofTree? source (b + 1) (kindTree kind none) = some t) :
    Yields (ofTree? source b (kindTree kind none)) ((kindTree kind none).depth ≤ b) t := by
  cases b with
  | zero => exact .of_none (Tree.not_depth_ofFields_le_zero _) t
  | succ b =>
    rw [h b]
    exact (Yields.of_some t).congr (iff_of_true trivial (depth_kindTree_none kind b))

/-- A kind that carries something is read where that is. -/
theorem yields_carrying {kind : String} {content : Tree} {t : Ty} (source : Source) (b : Nat)
    (h : ∀ b, Yields (ofTree? source (b + 1) (kindTree kind (some content))) (content.depth ≤ b) t) :
    Yields (ofTree? source b (kindTree kind (some content)))
      ((kindTree kind (some content)).depth ≤ b) t := by
  cases b with
  | zero => exact .of_none (Tree.not_depth_ofFields_le_zero _) t
  | succ b => exact (h b).congr (depth_kindTree_some kind content b).symm

/-- What is read as a function type's content nests: two levels above its parameters, one above its
result. -/
theorem exists_depth_function {params : List Tree} {result : Tree} {d : Nat}
    (h : (Tree.array [.array params, result]).depth ≤ d) :
    ∃ e, d = e + 2 ∧ (∀ p ∈ params, p.depth ≤ e) ∧ result.depth ≤ e + 1 := by
  match d with
  | 0 => exact absurd h (Nat.not_succ_le_zero _)
  | 1 =>
    rw [Tree.depth_array_le, List.forall_mem_cons] at h
    exact absurd h.1 (Nat.not_succ_le_zero _)
  | e + 2 =>
    rw [Tree.depth_array_le, List.forall_mem_cons, List.forall_mem_singleton, Tree.depth_array_le] at h
    exact ⟨e, rfl, h⟩

/-- What a function type carries: its parameters nest two levels down, its result one. -/
theorem depth_function_le (params : List Ty) (result : Ty) (b : Nat) :
    (Tree.array [.array (params.map toTree), result.toTree]).depth ≤ b + 2 ↔
      (∀ t ∈ params, t.toTree.depth ≤ b) ∧ result.toTree.depth ≤ b + 1 := by
  rw [Tree.depth_array_le, List.forall_mem_cons, List.forall_mem_singleton, Tree.depth_array_le,
    List.forall_mem_map]

/-- A function type is read if its parameters and its result are. -/
theorem yields_function {source : Source} {params : List Ty} {result : Ty}
    (hparams : ∀ t ∈ params, ∀ b, Yields (ofTree? source b t.toTree) (t.toTree.depth ≤ b) t)
    (hresult : ∀ b, Yields (ofTree? source b result.toTree) (result.toTree.depth ≤ b) result)
    (b : Nat) :
    Yields (ofTree? source (b + 1) (Ty.function params result).toTree)
      ((Tree.array [.array (toTrees params), result.toTree]).depth ≤ b) (.function params result) := by
  rw [toTree, ofTree?, tagged?_kindTree, toTrees_eq_map]
  match b with
  | 0 => exact .of_none (by simp [Tree.depth]) _
  | 1 =>
    refine .of_none (fun h => ?_) _
    rw [Tree.depth_array_le, List.forall_mem_cons] at h
    simp [Tree.depth] at h
  | b + 2 =>
    have hread := Yields.mapM params fun t ht => hparams t ht b
    refine (hread.bind ((hresult (b + 1)).bind (.of_some (Ty.function params result)))).congr ?_
    rw [and_true, depth_function_le]

mutual

/-- A type is read back if it nests within the budget. -/
theorem yields_toTree : (t : Ty) → ∀ source b,
    Yields (ofTree? source b t.toTree) (t.toTree.depth ≤ b) t
  | .string, source, b => yields_plain source b fun _ => by rw [ofTree?, tagged?_kindTree]; rfl
  | .bool, source, b => yields_plain source b fun _ => by rw [ofTree?, tagged?_kindTree]; rfl
  | .int, source, b => yields_plain source b fun _ => by rw [ofTree?, tagged?_kindTree]; rfl
  | .long, source, b => yields_plain source b fun _ => by rw [ofTree?, tagged?_kindTree]; rfl
  | .double, source, b => yields_plain source b fun _ => by rw [ofTree?, tagged?_kindTree]; rfl
  | .any, source, b => yields_plain source b fun _ => by rw [ofTree?, tagged?_kindTree]; rfl
  | .void, source, b => yields_plain source b fun _ => by rw [ofTree?, tagged?_kindTree]; rfl
  | .struct name, source, b => yields_carrying source b fun b => by
    rw [ofTree?, tagged?_kindTree]
    exact (Tree.yields_ofString name b).map Ty.struct
  | .reference name, source, b => yields_carrying source b fun b => by
    rw [ofTree?, tagged?_kindTree]
    exact (Tree.yields_ofString name b).map Ty.reference
  | .set element, source, b => yields_carrying source b fun b => by
    rw [ofTree?, tagged?_kindTree]
    exact (yields_toTree element source b).map Ty.set
  | .list element, source, b => yields_carrying source b fun b => by
    rw [ofTree?, tagged?_kindTree]
    exact (yields_toTree element source b).map Ty.list
  | .sequence element, source, b => yields_carrying source b fun b => by
    rw [ofTree?, tagged?_kindTree]
    exact (yields_toTree element source b).map Ty.sequence
  | .function params result, source, b => yields_carrying source b fun b =>
    yields_function (fun t ht => yields_toTrees params t ht source) (yields_toTree result source) b
termination_by structural t => t

theorem yields_toTrees : (ts : List Ty) → ∀ t ∈ ts, ∀ source b,
    Yields (ofTree? source b t.toTree) (t.toTree.depth ≤ b) t
  | [] => List.forall_mem_nil _
  | t :: ts => List.forall_mem_cons.2 ⟨yields_toTree t, yields_toTrees ts⟩
termination_by structural ts => ts

end

end Ty

/-! ### Literals -/

namespace Literal

/-- The doubles of a literal. -/
def doubles : Literal → List Binary64
  | .double x => [x]
  | _ => []

theorem int32?_ofInt (n : Int32) : int32? (.ofInt n.toInt) = some n := by
  have hrange : Int32.minValue.toInt ≤ n.toInt ∧ n.toInt ≤ Int32.maxValue.toInt :=
    ⟨n.minValue_le_toInt, n.toInt_le⟩
  rw [int32?, Tree.toInt?_ofInt, Option.bind_eq_bind, Option.bind_some, if_pos hrange,
    Int32.ofInt_toInt]

theorem int64?_ofInt (n : Int64) : int64? (.ofInt n.toInt) = some n := by
  have hrange : Int64.minValue.toInt ≤ n.toInt ∧ n.toInt ≤ Int64.maxValue.toInt :=
    ⟨n.minValue_le_toInt, n.toInt_le⟩
  rw [int64?, Tree.toInt?_ofInt, Option.bind_eq_bind, Option.bind_some, if_pos hrange,
    Int64.ofInt_toInt]

theorem depth_doubleTree (x : Binary64) : (doubleTree x).depth = 0 := by
  unfold doubleTree
  split <;> rfl

/-- A double is read back if it is finite and its numeral is read as that double. -/
theorem yields_doubleTree {x : Binary64}
    (hread : x.isFinite = true → (doubleLayout.numeral x).toBinary64? = some x) :
    Yields (doubleTree x).toBinary64? (x.isFinite = true) x := by
  unfold doubleTree
  cases hx : x.isFinite with
  | true =>
    have hnumeral : (Tree.number (doubleLayout.numeral x)).toBinary64? = some x := hread hx
    rw [if_pos rfl, hnumeral]
    exact (Yields.of_some x).congr (iff_of_true trivial rfl)
  | false => exact .of_none Bool.false_ne_true x

/-- A literal under its key is read as what stands there, where one more object may nest. -/
theorem yields_keyed {key : String} {content : Tree} {reading : Option Literal} {P : Prop}
    {l : Literal} (source : Source) (b : Nat) (hcontent : content.depth = 0)
    (hreading : ∀ b, ofTree? source (b + 1) (.ofFields [(key, content)]) = reading)
    (h : Yields reading P l) :
    Yields (ofTree? source b (.ofFields [(key, content)]))
      ((Tree.ofFields [(key, content)]).depth ≤ b ∧ P) l := by
  cases b with
  | zero => exact .of_none (fun h => absurd h.1 (Tree.not_depth_ofFields_le_zero _)) l
  | succ b =>
    have hdepth : (Tree.ofFields [(key, content)]).depth ≤ b + 1 := by
      simp [Tree.depth_ofFields_le, hcontent]
    rw [hreading b]
    exact h.congr (and_iff_right hdepth).symm

/-- A literal is read back if it nests within the budget and is no double beyond the finite ones. -/
theorem yields_toTree (l : Literal)
    (hread : ∀ x ∈ l.doubles, x.isFinite = true → (doubleLayout.numeral x).toBinary64? = some x)
    (source : Source) (b : Nat) :
    Yields (ofTree? source b l.toTree)
      (l.toTree.depth ≤ b ∧ ∀ x ∈ l.doubles, x.isFinite = true) l := by
  have hnone : ∀ x ∈ ([] : List Binary64), x.isFinite = true := List.forall_mem_nil _
  have hplain : ∀ l : Literal, Yields (some l) (∀ x ∈ ([] : List Binary64), x.isFinite = true) l :=
    fun l => (Yields.of_some l).congr (iff_of_true trivial hnone)
  cases l with
  | null => exact (Yields.of_some Literal.null).congr (iff_of_true trivial ⟨Nat.zero_le b, hnone⟩)
  | bool c =>
    refine yields_keyed source b rfl (fun b => ?_) (hplain (.bool c))
    simp [Tree.ofFields, ofTree?, Json.Text.toString?_ofString, Tree.toBool?]
  | int n =>
    refine yields_keyed source b rfl (fun b => ?_) (hplain (.int n))
    simp [Tree.ofFields, ofTree?, Json.Text.toString?_ofString, int32?_ofInt]
  | long n =>
    refine yields_keyed source b rfl (fun b => ?_) (hplain (.long n))
    simp [Tree.ofFields, ofTree?, Json.Text.toString?_ofString, int64?_ofInt]
  | double x =>
    have hx := (yields_doubleTree (hread x (List.mem_singleton_self x))).map Literal.double
    refine yields_keyed source b (depth_doubleTree x) (fun b => ?_) (hx.congr (by simp [doubles]))
    simp [Tree.ofFields, ofTree?, Json.Text.toString?_ofString]
  | string s =>
    refine yields_keyed source b rfl (fun b => ?_) (hplain (.string s))
    simp [Tree.ofFields, ofTree?, Json.Text.toString?_ofString]

end Literal

/-! ### Members and methods -/

/-- A member is read back if it nests within the budget. -/
theorem MemberSig.yields_toTree (m : MemberSig) (source : Source) (b : Nat) :
    Yields (ofTree? source b m.toTree) (m.toTree.depth ≤ b) m := by
  rw [toTree]
  cases b with
  | zero => exact .of_none (Tree.not_depth_ofFields_le_zero _) m
  | succ b =>
    have hrecord := Tree.record?_ofFields [("name", .ofString m.name), ("ty", m.ty.toTree)] (by simp)
    rw [List.map_cons, List.map_cons, List.map_nil] at hrecord
    rw [ofTree?, hrecord, Tree.depth_ofFields_le]
    refine ((Tree.yields_ofString m.name b).bind
      ((m.ty.yields_toTree source b).bind (.of_some m))).congr ?_
    simp

/-- A method is read back if it nests within the budget. -/
theorem MethodSig.yields_toTree (m : MethodSig) (source : Source) (b : Nat) :
    Yields (ofTree? source b m.toTree) (m.toTree.depth ≤ b) m := by
  rw [toTree, Ty.toTrees_eq_map]
  match b with
  | 0 => exact .of_none (Tree.not_depth_ofFields_le_zero _) m
  | 1 =>
    refine .of_none (fun h => ?_) m
    rw [Tree.depth_ofFields_le] at h
    simp [Tree.depth] at h
  | b + 2 =>
    have hrecord := Tree.record?_ofFields [("name", .ofString m.name),
      ("params", .array (m.params.map Ty.toTree)), ("ret", m.result.toTree)] (by simp)
    rw [List.map_cons, List.map_cons, List.map_cons, List.map_nil] at hrecord
    rw [ofTree?, hrecord, Tree.depth_ofFields_le]
    have hparams := Yields.mapM m.params fun t _ => t.yields_toTree source b
    refine ((Tree.yields_ofString m.name (b + 1)).bind
      (hparams.bind ((m.result.yields_toTree source (b + 1)).bind (.of_some m)))).congr ?_
    simp [Tree.depth_array_le]

end AccessPath
