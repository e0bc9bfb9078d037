import AccessPath.Json.Tree

/-!
# Decoding JSON trees

The rules that all readers of this library share. A structure is an object with its keys in any
order, or the array of its fields in their declared order. Unknown keys are passed over, a known
key may stand once. An enumerator is a string, or an object whose one key is the string and whose
value is empty. A tag is a string, and in a copy it may also be the number of the string.

A tree is read from its text as it streams by, or from a copy that was taken of it first. Taking a
copy looks at everything in it (`Tree.isStrict`), values under unknown keys included; a stream only
looks at what is used. At most `nestingLimit` arrays and objects nest.
-/

namespace AccessPath.Json

/-- The number of arrays and objects that may nest. -/
def nestingLimit : Nat := 127

/-- Where a tree is read from. -/
inductive Source where
  | stream | copy
  deriving DecidableEq, Repr

namespace Source

/-- The tree says that there is no content. A copy also takes an empty object for that. -/
def isUnit (source : Source) : Tree → Bool
  | .null => true
  | .object [] => source = .copy
  | _ => false

/-- The source of a part that had to be copied, where that part may be copied. -/
def copied? (source : Source) (budget : Nat) (t : Tree) : Option Source :=
  match source with
  | .copy => some .copy
  | .stream => if t.isStrict budget then some .copy else none

end Source

namespace Tree

/-- The fields of an object whose keys are all strings. -/
def named? (fields : List (Text × Tree)) : Option (List (String × Tree)) :=
  fields.mapM fun f => f.1.toString?.map fun key => (key, f.2)

/-- The value of a key that may stand once: `some none` where it is missing. -/
def single? (fields : List (String × Tree)) (key : String) : Option (Option Tree) :=
  match fields.filter (fun f => f.1 = key) with
  | [] => some none
  | [f] => some (some f.2)
  | _ => none

/-- The fields of a structure in their declared order, `none` for one that is missing. -/
def record? (keys : List String) : Tree → Option (List (Option Tree))
  | .array items => if items.length = keys.length then some (items.map some) else none
  | .object fields => (named? fields).bind fun fs => keys.mapM (single? fs)
  | _ => none

/-- The items of an array. -/
def items? : Tree → Option (List Tree)
  | .array items => some items
  | _ => none

/-- The truth value of a tree. -/
def toBool? : Tree → Option Bool
  | .bool b => some b
  | _ => none

/-- A tag out of `names`. Its number is counted from zero. -/
def tag? (source : Source) (names : List String) : Tree → Option String
  | .text t => t.toString?
  | .number n =>
    match source with
    | .stream => none
    | .copy => do
      let i ← n.toInt?
      if 0 ≤ i then names[i.toNat]? else none
  | _ => none

/-- An enumerator. As an object it takes one level of the nesting that is left. -/
def enumerator? (source : Source) (budget : Nat) : Tree → Option String
  | .text t => t.toString?
  | .object [(key, content)] => if 0 < budget ∧ source.isUnit content then key.toString? else none
  | _ => none

end Tree

/-- The tree of a text, if `decode` takes it. -/
def decodeText {α : Type} (decode : Tree → Option α) (s : String) : Option α :=
  (Tree.parse? s).bind decode

end AccessPath.Json
