import AccessPath.Numeric.Shortest
import AccessPath.Json.Decode
import AccessPath.Ty.Basic

/-!
# Literals

The constants that a path may carry. In JSON a literal is an object whose one key is its kind, and
the null literal is the string `null` when written; it may also be read from an object. Integers are
read from integer tokens in their range, doubles from every number token. A double that is no
number is written as null, which no reader takes back.
-/

namespace AccessPath

inductive Literal where
  | null
  | bool (b : Bool)
  | int (n : Int32)
  | long (n : Int64)
  | double (x : Binary64)
  | string (s : String)
  deriving DecidableEq, Repr

namespace Literal

/-- The type of a literal that is not given one. -/
def naturalType : Literal → Ty
  | .null => .any
  | .bool _ => .bool
  | .int _ => .int
  | .long _ => .long
  | .double _ => .double
  | .string _ => .string

/-- The literals are equal. Doubles are compared as numbers. -/
def eqv : Literal → Literal → Bool
  | .double x, .double y => x.eqv y
  | a, b => decide (a = b)

open Json (Tree Source)

/-- Doubles in JSON: powers of ten from `1e-5` to `1e15` are written out, and an integral double
keeps one zero after the point. -/
def doubleLayout : NumeralLayout := ⟨.toEven, some (-5, 15), true⟩

/-- A double in JSON. -/
def doubleTree (x : Binary64) : Tree :=
  if x.isFinite then .number (doubleLayout.numeral x) else .null

/-- A literal in JSON. -/
def toTree : Literal → Tree
  | .null => .ofString "null"
  | .bool b => .ofFields [("bool", .bool b)]
  | .int n => .ofFields [("int", .ofInt n.toInt)]
  | .long n => .ofFields [("long", .ofInt n.toInt)]
  | .double x => .ofFields [("double", doubleTree x)]
  | .string s => .ofFields [("string", .ofString s)]

/-- The JSON text of a literal. -/
def toJson (l : Literal) : String := l.toTree.render

/-- The 32-bit integer of a number token in its range. -/
def int32? (t : Tree) : Option Int32 := do
  let n ← t.toInt?
  if Int32.minValue.toInt ≤ n ∧ n ≤ Int32.maxValue.toInt then some (Int32.ofInt n) else none

/-- The 64-bit integer of a number token in its range. -/
def int64? (t : Tree) : Option Int64 := do
  let n ← t.toInt?
  if Int64.minValue.toInt ≤ n ∧ n ≤ Int64.maxValue.toInt then some (Int64.ofInt n) else none

/-- Reads a literal with `budget` levels of nesting left. -/
def ofTree? (source : Source) (budget : Nat) (t : Tree) : Option Literal :=
  match t with
  | .object [(key, content)] =>
    if budget = 0 then none
    else do
      match ← key.toString? with
      | "null" => if source.isUnit content then some .null else none
      | "bool" => content.toBool?.map .bool
      | "int" => (int32? content).map .int
      | "long" => (int64? content).map .long
      | "double" => content.toBinary64?.map .double
      | "string" => content.toString?.map .string
      | _ => none
  | t => if t.toString? = some "null" then some .null else none

/-- Reads the literal that a JSON text writes. -/
def ofJson? (s : String) : Option Literal := Json.decodeText (ofTree? .stream Json.nestingLimit) s

end Literal

end AccessPath
