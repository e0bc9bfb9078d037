import AccessPath.Proofs.Scanning
import AccessPath.Json.Tree

/-!
# Trees and their texts

The tokens of a tree in order (`Tree.tokens`) are put together to that tree again
(`Tree.takes_tokens`), and no two of them need a blank. So a tree is read back from any way to write its
tokens (`Tree.parse?_of_written`), and from its text (`Tree.parse?_render`).

How deep its arrays and objects nest is `Tree.depth`, and a tree is strict exactly if that is within the
budget and each number and each string in it can be taken (`Tree.isStrict_iff`).
-/

namespace AccessPath.Json

namespace Tree

section

variable {motive : Tree → Prop}
  (null : motive .null)
  (bool : ∀ b, motive (.bool b))
  (number : ∀ n, motive (.number n))
  (text : ∀ t, motive (.text t))
  (array : ∀ items, (∀ t ∈ items, motive t) → motive (.array items))
  (object : ∀ fields, (∀ f ∈ fields, motive f.2) → motive (.object fields))

include null bool number text array object

/-- Induction over a tree. -/
@[elab_as_elim]
theorem treeInduction (t : Tree) : motive t :=
  match t with
  | .null => null
  | .bool b => bool b
  | .number n => number n
  | .text t => text t
  | .array items =>
    array items fun t ht =>
      have := List.sizeOf_lt_of_mem ht
      treeInduction t
  | .object fields =>
    object fields fun (key, t) hf =>
      have := List.sizeOf_lt_of_mem hf
      treeInduction t
termination_by sizeOf t
decreasing_by
  all_goals simp only [Tree.array.sizeOf_spec, Tree.object.sizeOf_spec, Prod.mk.sizeOf_spec] at *
  all_goals omega

end

/-! ### Tokens -/

end Tree

/-- Lists of tokens, a comma before each but the first. -/
def commaSeparated (ls : List (List Token)) : List Token := [Token.comma].intercalate ls

theorem commaSeparated_cons_cons (l m : List Token) (ls : List (List Token)) :
    commaSeparated (l :: m :: ls) = l ++ .comma :: commaSeparated (m :: ls) := by
  rw [commaSeparated, List.intercalate_cons_cons, List.append_assoc]
  rfl

theorem forall_mem_commaSeparated {P : Token → Prop} (hcomma : P .comma) (ls : List (List Token)) :
    (∀ x ∈ commaSeparated ls, P x) ↔ ∀ l ∈ ls, ∀ x ∈ l, P x := by
  induction ls with
  | nil => simp [commaSeparated]
  | cons l ls ih =>
    cases ls with
    | nil => simp [commaSeparated]
    | cons m ls =>
      rw [commaSeparated_cons_cons, List.forall_mem_append, List.forall_mem_cons, ih,
        and_iff_right hcomma]
      simp only [List.forall_mem_cons]

/-- Punctuation may stand between tokens. -/
theorem apart_append {l m : List Token} {p : Token} (hp : p.isPunctuation = true)
    (hl : l.IsChain Token.Apart) (hm : m.IsChain Token.Apart) :
    (l ++ p :: m).IsChain Token.Apart := by
  rw [List.isChain_append, List.isChain_cons]
  refine ⟨hl, ⟨fun u _ => .inl hp, hm⟩, fun t _ u hu => ?_⟩
  cases hu
  exact .inr hp

theorem apart_commaSeparated {ls : List (List Token)} (h : ∀ l ∈ ls, l.IsChain Token.Apart) :
    (commaSeparated ls).IsChain Token.Apart := by
  induction ls with
  | nil => exact .nil
  | cons l ls ih =>
    obtain ⟨hl, hls⟩ := List.forall_mem_cons.1 h
    cases ls with
    | nil => simpa [commaSeparated] using hl
    | cons m ls =>
      rw [commaSeparated_cons_cons]
      exact apart_append rfl hl (ih hls)

namespace Tree

mutual

/-- The tokens of a tree. -/
def tokens : Tree → List Token
  | .null => [.null]
  | .bool b => [.bool b]
  | .number n => [.number n]
  | .text t => [.text t]
  | .array items => .openArray :: (commaSeparated (tokensOfItems items) ++ [.closeArray])
  | .object fields => .openObject :: (commaSeparated (tokensOfFields fields) ++ [.closeObject])
termination_by structural t => t

/-- The tokens of each item of an array. -/
def tokensOfItems : List Tree → List (List Token)
  | [] => []
  | t :: ts => t.tokens :: tokensOfItems ts
termination_by structural ts => ts

/-- The tokens of each field of an object. -/
def tokensOfFields : List (Text × Tree) → List (List Token)
  | [] => []
  | f :: fs => tokensOfField f :: tokensOfFields fs
termination_by structural fs => fs

/-- The tokens of a key and its value. -/
def tokensOfField : Text × Tree → List Token
  | (key, t) => .text key :: .colon :: t.tokens
termination_by structural f => f

end

theorem tokensOfItems_eq_map (items : List Tree) : tokensOfItems items = items.map tokens := by
  induction items with
  | nil => rfl
  | cons t ts ih => rw [tokensOfItems, ih, List.map_cons]

theorem tokensOfFields_eq_map (fields : List (Text × Tree)) :
    tokensOfFields fields = fields.map tokensOfField := by
  induction fields with
  | nil => rfl
  | cons f fs ih => rw [tokensOfFields, ih, List.map_cons]

theorem charsOfItems_eq {items : List Tree}
    (h : ∀ t ∈ items, t.chars = t.tokens.flatMap Token.chars) :
    charsOfItems items = (commaSeparated (tokensOfItems items)).flatMap Token.chars := by
  induction items with
  | nil => rfl
  | cons t ts ih =>
    obtain ⟨ht, hts⟩ := List.forall_mem_cons.1 h
    cases ts with
    | nil => simpa [charsOfItems, tokensOfItems, commaSeparated] using ht
    | cons u us =>
      simp only [tokensOfItems] at ih ⊢
      simp [charsOfItems, commaSeparated_cons_cons, Token.chars, ht, ih hts]

theorem charsOfFields_eq {fields : List (Text × Tree)}
    (h : ∀ f ∈ fields, f.2.chars = f.2.tokens.flatMap Token.chars) :
    charsOfFields fields = (commaSeparated (tokensOfFields fields)).flatMap Token.chars := by
  induction fields with
  | nil => rfl
  | cons f fs ih =>
    obtain ⟨hf, hfs⟩ := List.forall_mem_cons.1 h
    have hfield : charsOfField f = (tokensOfField f).flatMap Token.chars := by
      obtain ⟨key, t⟩ := f
      simp [charsOfField, tokensOfField, Token.chars, show t.chars = _ from hf]
    cases fs with
    | nil => simpa [charsOfFields, tokensOfFields, commaSeparated] using hfield
    | cons g gs =>
      simp only [tokensOfFields] at ih ⊢
      simp [charsOfFields, commaSeparated_cons_cons, Token.chars, hfield, ih hfs]

/-- A tree is written as its tokens are. -/
theorem chars_eq (t : Tree) : t.chars = t.tokens.flatMap Token.chars := by
  induction t using treeInduction with
  | null => rfl
  | bool b => cases b <;> rfl
  | number n => simp [chars, tokens, Token.chars]
  | text t => simp [chars, tokens, Token.chars]
  | array items ih => simp [chars, tokens, Token.chars, charsOfItems_eq ih]
  | object fields ih => simp [chars, tokens, Token.chars, charsOfFields_eq ih]

/-- No two tokens of a tree need a blank between them. -/
theorem tokens_apart (t : Tree) : t.tokens.IsChain Token.Apart := by
  induction t using treeInduction with
  | null => exact .singleton _
  | bool b => exact .singleton _
  | number n => exact .singleton _
  | text t => exact .singleton _
  | array items ih =>
    have hitems : ∀ l ∈ tokensOfItems items, l.IsChain Token.Apart := by
      rw [tokensOfItems_eq_map]
      exact List.forall_mem_map.2 ih
    exact apart_append (l := []) rfl .nil (apart_append rfl (apart_commaSeparated hitems) .nil)
  | object fields ih =>
    have hfields : ∀ l ∈ tokensOfFields fields, l.IsChain Token.Apart := by
      rw [tokensOfFields_eq_map]
      exact List.forall_mem_map.2 fun (key, t) hf =>
        apart_append (l := [.text key]) rfl (.singleton _) (ih _ hf)
    exact apart_append (l := []) rfl .nil (apart_append rfl (apart_commaSeparated hfields) .nil)

section

variable {P : Token → Prop} (hP : ∀ p, p.isPunctuation = true → P p)

include hP

/-- What holds of punctuation holds of the tokens of an array if it does of those of its items. -/
theorem forall_mem_tokens_array (items : List Tree) :
    (∀ x ∈ (Tree.array items).tokens, P x) ↔ ∀ t ∈ items, ∀ x ∈ t.tokens, P x := by
  rw [tokens, List.forall_mem_cons, List.forall_mem_append, tokensOfItems_eq_map,
    forall_mem_commaSeparated (hP _ rfl), List.forall_mem_map, List.forall_mem_singleton,
    and_iff_right (hP _ rfl), and_iff_left (hP _ rfl)]

/-- What holds of punctuation holds of the tokens of an object if it does of its keys and of the
tokens of their values. -/
theorem forall_mem_tokens_object (fields : List (Text × Tree)) :
    (∀ x ∈ (Tree.object fields).tokens, P x) ↔
      ∀ f ∈ fields, P (.text f.1) ∧ ∀ x ∈ f.2.tokens, P x := by
  have hfield : ∀ f : Text × Tree,
      (∀ x ∈ tokensOfField f, P x) ↔ P (.text f.1) ∧ ∀ x ∈ f.2.tokens, P x := by
    intro (key, t)
    rw [tokensOfField, List.forall_mem_cons, List.forall_mem_cons, and_iff_right (hP .colon rfl)]
  rw [tokens, List.forall_mem_cons, List.forall_mem_append, tokensOfFields_eq_map,
    forall_mem_commaSeparated (hP _ rfl), List.forall_mem_map, List.forall_mem_singleton,
    and_iff_right (hP _ rfl), and_iff_left (hP _ rfl)]
  exact forall₂_congr fun f _ => hfield f

end

/-! ### Assembly -/

/-- The tokens take the assembly from one state to another. -/
abbrev Takes (a : Assembly) (ts : List Token) (a' : Assembly) : Prop := Steps Assembly.step a ts a'

/-- Entries are taken one by one, if each leads from before an entry to after it and a comma leads
back. -/
theorem takes_commaSeparated {α : Type} (toTokens : α → List Token) (before after : List α → Assembly)
    (hcomma : ∀ done, (after done).step .comma = some (before done)) (x : α) (xs : List α)
    (hentry : ∀ y ∈ xs, ∀ done, Takes (before done) (toTokens y) (after (y :: done)))
    {a : Assembly} {done : List α} (hfirst : Takes a (toTokens x) (after (x :: done))) :
    Takes a (commaSeparated ((x :: xs).map toTokens)) (after ((x :: xs).reverse ++ done)) := by
  induction xs generalizing x a done with
  | nil => simpa [commaSeparated] using hfirst
  | cons y ys ih =>
    obtain ⟨hy, hys⟩ := List.forall_mem_cons.1 hentry
    have hrest := ih y hys (hy (x :: done))
    rw [List.map_cons, List.map_cons, commaSeparated_cons_cons, List.reverse_cons, List.append_assoc]
    exact hfirst.append (.cons (hcomma _) hrest)

/-- The tokens of a tree are put together to that tree. -/
theorem takes_tokens (t : Tree) :
    ∀ stack, Takes (.value stack) t.tokens (Assembly.place t stack) := by
  induction t using treeInduction with
  | null => exact fun _ => rfl
  | bool b => exact fun _ => rfl
  | number n => exact fun _ => rfl
  | text t => exact fun _ => rfl
  | array items ih =>
    intro stack
    cases items with
    | nil => rfl
    | cons t ts =>
      obtain ⟨ht, hts⟩ := List.forall_mem_cons.1 ih
      -- the first item is read from a state of its own, in the same way
      have hfirst : Takes (.firstItem stack) t.tokens (.afterItem [t] stack) := by
        have hvalue := ht (.array [] :: stack)
        cases t <;> exact hvalue
      have hitems := takes_commaSeparated tokens (fun done => .value (.array done :: stack))
        (.afterItem · stack)
        (fun _ => rfl) t ts (fun u hu done => hts u hu (.array done :: stack)) hfirst
      rw [List.append_nil, ← tokensOfItems_eq_map] at hitems
      refine .cons rfl (hitems.append (.single ?_))
      simp [Assembly.step]
  | object fields ih =>
    intro stack
    have hfield : ∀ f ∈ fields, ∀ done,
        Takes (.nextKey done stack) (tokensOfField f) (.afterField (f :: done) stack) :=
      fun (key, t) hf done => .cons rfl (.cons rfl (ih _ hf (.object done key :: stack)))
    cases fields with
    | nil => rfl
    | cons f fs =>
      obtain ⟨hf, hfs⟩ := List.forall_mem_cons.1 hfield
      have hfirst : Takes (.firstKey stack) (tokensOfField f) (.afterField [f] stack) := by
        obtain ⟨key, t⟩ := f
        exact hf []
      have hfields := takes_commaSeparated tokensOfField (.nextKey · stack) (.afterField · stack)
        (fun _ => rfl) f fs hfs hfirst
      rw [List.append_nil, ← tokensOfFields_eq_map] at hfields
      refine .cons rfl (hfields.append (.single ?_))
      simp [Assembly.step]

/-- A tree that can be written is read back from any way to write its tokens. -/
theorem parse?_of_written {t : Tree} (ht : ∀ x ∈ t.tokens, x.Grammatical) {s : String}
    (hwritten : Written t.tokens s.toList) : parse? s = some t := by
  have htokens := tokens?_of_written hwritten ht t.tokens_apart
  have hassembled : t.tokens.foldlM Assembly.step (.value []) = some (.done t) := t.takes_tokens []
  rw [parse?, htokens, Option.bind_some, ofTokens?, hassembled]
  rfl

theorem parse?_render {t : Tree} (ht : ∀ x ∈ t.tokens, x.Grammatical) : parse? t.render = some t := by
  apply parse?_of_written ht
  rw [render, String.toList_ofList, chars_eq]
  exact .of_chars _

/-! ### Depth -/

mutual

/-- How many arrays and objects nest in a tree. -/
def depth : Tree → Nat
  | .null | .bool _ | .number _ | .text _ => 0
  | .array items => depthOfItems items + 1
  | .object fields => depthOfFields fields + 1
termination_by structural t => t

/-- The greatest depth of an item. -/
def depthOfItems : List Tree → Nat
  | [] => 0
  | t :: ts => max t.depth (depthOfItems ts)
termination_by structural ts => ts

/-- The greatest depth of a field. -/
def depthOfFields : List (Text × Tree) → Nat
  | [] => 0
  | f :: fs => max (depthOfField f) (depthOfFields fs)
termination_by structural fs => fs

/-- The depth of a value under its key. -/
def depthOfField : Text × Tree → Nat
  | (_, t) => t.depth
termination_by structural f => f

end

theorem depth_array_le (items : List Tree) (b : Nat) :
    (Tree.array items).depth ≤ b + 1 ↔ ∀ t ∈ items, t.depth ≤ b := by
  rw [depth, Nat.add_le_add_iff_right]
  induction items with
  | nil => simp [depthOfItems]
  | cons t ts ih => rw [depthOfItems, Nat.max_le, List.forall_mem_cons, ih]

theorem depth_object_le (fields : List (Text × Tree)) (b : Nat) :
    (Tree.object fields).depth ≤ b + 1 ↔ ∀ f ∈ fields, f.2.depth ≤ b := by
  rw [depth, Nat.add_le_add_iff_right]
  induction fields with
  | nil => simp [depthOfFields]
  | cons f fs ih => rw [depthOfFields, Nat.max_le, List.forall_mem_cons, ih, depthOfField]

end Tree

/-- A reader can take the token: a number has to be a double, a text a string. -/
def Token.IsStrict : Token → Prop
  | .number n => n.toBinary64?.isSome = true
  | .text t => t.toString?.isSome = true
  | _ => True

theorem Token.isStrict_of_isPunctuation (p : Token) (hp : p.isPunctuation = true) : p.IsStrict := by
  cases p <;> trivial

namespace Tree

theorem areStrict_iff (b : Nat) (items : List Tree) :
    areStrict b items = true ↔ ∀ t ∈ items, t.isStrict b = true := by
  induction items with
  | nil => simp [areStrict]
  | cons t ts ih => rw [areStrict, Bool.and_eq_true, ih, List.forall_mem_cons]

theorem areStrictFields_iff (b : Nat) (fields : List (Text × Tree)) :
    areStrictFields b fields = true ↔
      ∀ f ∈ fields, Token.IsStrict (.text f.1) ∧ f.2.isStrict b = true := by
  induction fields with
  | nil => simp [areStrictFields]
  | cons f fs ih =>
    rw [areStrictFields, Bool.and_eq_true, ih, List.forall_mem_cons, isStrictField, Bool.and_eq_true]
    rfl

/-- A tree is strict if it is not too deep and all its tokens can be taken. -/
theorem isStrict_iff (t : Tree) :
    ∀ b, t.isStrict b = true ↔ t.depth ≤ b ∧ ∀ x ∈ t.tokens, x.IsStrict := by
  induction t using treeInduction with
  | null => simp [isStrict, depth, tokens, Token.IsStrict]
  | bool b => simp [isStrict, depth, tokens, Token.IsStrict]
  | number n => simp [isStrict, depth, tokens, Token.IsStrict]
  | text t => simp [isStrict, depth, tokens, Token.IsStrict]
  | array items ih =>
    intro b
    cases b with
    | zero => simp [isStrict, depth]
    | succ b =>
      rw [isStrict, decide_eq_true b.succ_pos, Bool.true_and, Nat.add_sub_cancel, areStrict_iff,
        depth_array_le, forall_mem_tokens_array Token.isStrict_of_isPunctuation]
      rw [forall₂_congr fun t ht => ih t ht b]
      exact ⟨fun h => ⟨fun t ht => (h t ht).1, fun t ht => (h t ht).2⟩,
        fun h t ht => ⟨h.1 t ht, h.2 t ht⟩⟩
  | object fields ih =>
    intro b
    cases b with
    | zero => simp [isStrict, depth]
    | succ b =>
      rw [isStrict, decide_eq_true b.succ_pos, Bool.true_and, Nat.add_sub_cancel,
        areStrictFields_iff, depth_object_le,
        forall_mem_tokens_object Token.isStrict_of_isPunctuation]
      constructor
      · intro h
        refine ⟨fun f hf => ?_, fun f hf => ⟨(h f hf).1, ?_⟩⟩
        · exact ((ih f hf b).1 (h f hf).2).1
        · exact ((ih f hf b).1 (h f hf).2).2
      · intro h f hf
        exact ⟨(h.2 f hf).1, (ih f hf b).2 ⟨h.1 f hf, (h.2 f hf).2⟩⟩

end Tree

end AccessPath.Json
