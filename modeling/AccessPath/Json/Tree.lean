import AccessPath.Json.Token
import AccessPath.Numeric.Reading

/-!
# JSON trees

A tree holds a JSON text as written: numbers as numerals, strings as code units, and the fields of
an object in order, repeated keys included. `Tree.parse?` accepts exactly the texts of the grammar,
nested to any depth; which numbers, strings and depths a reader takes is its own matter.
`Tree.chars` writes a tree without blanks.
-/

namespace AccessPath.Json

inductive Tree where
  | null
  | bool (b : Bool)
  | number (n : Numeral)
  | text (t : Text)
  | array (items : List Tree)
  | object (fields : List (Text × Tree))
  deriving Repr, Inhabited

/-- An array or object that is still open, its entries with the latest first. An open object has
read the key of the value to come. -/
inductive Frame where
  | array (items : List Tree)
  | object (fields : List (Text × Tree)) (key : Text)
  deriving Repr

/-- What may come next while a tree is put together from its tokens. -/
inductive Assembly where
  | value (stack : List Frame)
  | firstItem (stack : List Frame)
  | firstKey (stack : List Frame)
  | nextKey (fields : List (Text × Tree)) (stack : List Frame)
  | colon (fields : List (Text × Tree)) (key : Text) (stack : List Frame)
  | afterItem (items : List Tree) (stack : List Frame)
  | afterField (fields : List (Text × Tree)) (stack : List Frame)
  | done (tree : Tree)
  deriving Repr

namespace Assembly

/-- Puts a finished tree in its place. -/
def place (tree : Tree) : List Frame → Assembly
  | [] => .done tree
  | .array items :: stack => .afterItem (tree :: items) stack
  | .object fields key :: stack => .afterField ((key, tree) :: fields) stack

/-- Reads the first token of a value. -/
def openValue (stack : List Frame) : Token → Option Assembly
  | .null => some (place .null stack)
  | .bool b => some (place (.bool b) stack)
  | .number n => some (place (.number n) stack)
  | .text t => some (place (.text t) stack)
  | .openArray => some (.firstItem stack)
  | .openObject => some (.firstKey stack)
  | .closeArray | .closeObject | .comma | .colon => none

/-- Reads a token. -/
def step : Assembly → Token → Option Assembly
  | .value stack, token => openValue stack token
  | .firstItem stack, .closeArray => some (place (.array []) stack)
  | .firstItem stack, token => openValue (.array [] :: stack) token
  | .firstKey stack, .closeObject => some (place (.object []) stack)
  | .firstKey stack, .text key => some (.colon [] key stack)
  | .nextKey fields stack, .text key => some (.colon fields key stack)
  | .colon fields key stack, .colon => some (.value (.object fields key :: stack))
  | .afterItem items stack, .comma => some (.value (.array items :: stack))
  | .afterItem items stack, .closeArray => some (place (.array items.reverse) stack)
  | .afterField fields stack, .comma => some (.nextKey fields stack)
  | .afterField fields stack, .closeObject => some (place (.object fields.reverse) stack)
  | _, _ => none

/-- The tree, once its last token has been read. -/
def finish? : Assembly → Option Tree
  | .done tree => some tree
  | _ => none

end Assembly

namespace Tree

/-- The tree of a list of tokens. -/
def ofTokens? (ts : List Token) : Option Tree :=
  (ts.foldlM Assembly.step (.value [])).bind Assembly.finish?

/-- The tree of a JSON text. -/
def parse? (s : String) : Option Tree := (tokens? s.toList).bind ofTokens?

/-- The tree of a string. -/
def ofString (s : String) : Tree := .text (.ofString s)

/-- The tree of an integer. -/
def ofInt (n : Int) : Tree := .number (.ofInt n)

/-- The tree of an object with given keys. -/
def ofFields (fields : List (String × Tree)) : Tree :=
  .object (fields.map fun f => (.ofString f.1, f.2))

/-- The string of a string token. -/
def toString? : Tree → Option String
  | .text t => t.toString?
  | _ => none

/-- The integer of a number token without point and exponent. -/
def toInt? : Tree → Option Int
  | .number n => n.toInt?
  | _ => none

/-- The double of a number token. -/
def toBinary64? : Tree → Option Binary64
  | .number n => n.toBinary64?
  | _ => none

mutual

/-- The text of a tree, without blanks. -/
def chars : Tree → List Char
  | .null => ['n', 'u', 'l', 'l']
  | .bool true => ['t', 'r', 'u', 'e']
  | .bool false => ['f', 'a', 'l', 's', 'e']
  | .number n => n.chars
  | .text t => t.chars
  | .array items => '[' :: (charsOfItems items ++ [']'])
  | .object fields => '\x7b' :: (charsOfFields fields ++ ['\x7d'])
termination_by structural t => t

/-- The items of an array, a comma before each but the first. -/
def charsOfItems : List Tree → List Char
  | [] => []
  | [t] => t.chars
  | t :: ts => t.chars ++ ',' :: charsOfItems ts
termination_by structural ts => ts

/-- The fields of an object, a comma before each but the first. -/
def charsOfFields : List (Text × Tree) → List Char
  | [] => []
  | [f] => charsOfField f
  | f :: fs => charsOfField f ++ ',' :: charsOfFields fs
termination_by structural fs => fs

/-- A key and its value. -/
def charsOfField : Text × Tree → List Char
  | (key, t) => key.chars ++ ':' :: t.chars
termination_by structural f => f

end

/-- The text of a tree, without blanks. -/
def render (t : Tree) : String := String.ofList t.chars

mutual

/-- Strings are strings, numbers are doubles, and at most `budget` arrays and objects nest. -/
def isStrict (budget : Nat) : Tree → Bool
  | .null | .bool _ => true
  | .number n => n.toBinary64?.isSome
  | .text t => t.toString?.isSome
  | .array items => decide (0 < budget) && areStrict (budget - 1) items
  | .object fields => decide (0 < budget) && areStrictFields (budget - 1) fields
termination_by structural t => t

/-- Every tree of a list is strict. -/
def areStrict (budget : Nat) : List Tree → Bool
  | [] => true
  | t :: ts => t.isStrict budget && areStrict budget ts
termination_by structural ts => ts

/-- Every field of a list is strict. -/
def areStrictFields (budget : Nat) : List (Text × Tree) → Bool
  | [] => true
  | f :: fs => isStrictField budget f && areStrictFields budget fs
termination_by structural fs => fs

/-- A key is a string and its value is strict. -/
def isStrictField (budget : Nat) : Text × Tree → Bool
  | (key, t) => key.toString?.isSome && t.isStrict budget
termination_by structural f => f

end

end Tree

end AccessPath.Json
