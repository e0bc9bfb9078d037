import AccessPath.Literal

/-!
# Values

What evaluating a path yields. `absent` says that there is no value; it is a value like the others
and may stand in a list, a set or a record. Host objects are known by reference only: their state is
the host's, and two references are equal when they name the same object.

Equality (`eqv`) is structural, compares doubles as numbers, and compares sets by element type,
size and membership. It is not reflexive on values that hold a NaN.
-/

namespace AccessPath

/-- A type of host objects. Two types may share a name and differ in their key. -/
structure HostType where
  key : Nat
  name : String
  deriving DecidableEq, Repr, Inhabited

/-- A reference to a host object: the object's identity and its type. -/
structure ObjectRef where
  identity : Nat
  host : HostType
  deriving DecidableEq, Repr, Inhabited

namespace ObjectRef

/-- The references name the same object. -/
def same (a b : ObjectRef) : Bool := decide (a.identity = b.identity)

/-- The object is of a host type. -/
def isOf (a : ObjectRef) (host : HostType) : Bool := decide (a.host = host)

end ObjectRef

inductive Value where
  | absent
  | bool (b : Bool)
  | int (n : Int32)
  | long (n : Int64)
  | double (x : Binary64)
  | string (s : String)
  /-- An instance of a value type: its fields in declared order. -/
  | record (typeName : String) (fields : List (String × Value))
  | object (ref : ObjectRef)
  | list (items : List Value)
  /-- Items of a declared element type, in the order of their first insertion. -/
  | set (element : Ty) (items : List Value)
  deriving Repr, Inhabited

namespace Value

def isAbsent : Value → Bool
  | .absent => true
  | _ => false

/-- The value of a literal. -/
def ofLiteral : Literal → Value
  | .null => .absent
  | .bool b => .bool b
  | .int n => .int n
  | .long n => .long n
  | .double x => .double x
  | .string s => .string s

mutual

/-- The values are equal. -/
def eqv : Value → Value → Bool
  | .absent, .absent => true
  | .bool a, .bool b => decide (a = b)
  | .int a, .int b => decide (a = b)
  | .long a, .long b => decide (a = b)
  | .double a, .double b => a.eqv b
  | .string a, .string b => decide (a = b)
  | .record n fs, .record m gs => decide (n = m) && eqvFields fs gs
  | .object a, .object b => a.same b
  | .list as, .list bs => eqvAll as bs
  | .set e as, .set f bs => decide (e = f) && decide (as.length = bs.length) && eachIn as bs
  | _, _ => false
termination_by structural v => v

/-- The values are equal, one by one. -/
def eqvAll : List Value → List Value → Bool
  | [], [] => true
  | a :: as, b :: bs => a.eqv b && eqvAll as bs
  | _, _ => false
termination_by structural vs => vs

/-- Each of the first values is equal to one of the second. The recursion is on the first, so they stand on
the left in the comparisons; `ValueSet.contains`, asked about each of them, has them on the right. On sets
made by insertion the two are the same (`Value.Built.eqv_sets_eq_contains`). -/
def eachIn : List Value → List Value → Bool
  | [], _ => true
  | a :: as, bs => (bs.any fun b => a.eqv b) && eachIn as bs
termination_by structural vs => vs

/-- The fields have equal names and values, one by one. -/
def eqvFields : List (String × Value) → List (String × Value) → Bool
  | [], [] => true
  | f :: fs, g :: gs => eqvField f g && eqvFields fs gs
  | _, _ => false
termination_by structural fs => fs

/-- The fields have equal names and values. -/
def eqvField : String × Value → String × Value → Bool
  | (n, a), (m, b) => decide (n = m) && a.eqv b
termination_by structural f => f

end

/-- The name of a value's run-time type. -/
def typeName : Value → String
  | .absent => "absent"
  | .bool _ => "bool"
  | .int _ => "int"
  | .long _ => "long"
  | .double _ => "double"
  | .string _ => "string"
  | .record name _ => name
  | .object ref => ref.host.name
  | .list _ => "list"
  | .set element _ => "set<" ++ element.render ++ ">"

/-- Doubles in values' texts: every digit is written out, and an integral double has no point. -/
def doubleLayout : NumeralLayout := ⟨.awayFromZero, none, false⟩

/-- The text of a double. -/
def doubleText (x : Binary64) : String :=
  if x.isNaN then "NaN"
  else if x.isInfinite then (if x.isNegative then "-inf" else "inf")
  else String.ofList (doubleLayout.numeral x).chars

mutual

/-- The text of a value. -/
def render : Value → String
  | .absent => ""
  | .bool true => "true"
  | .bool false => "false"
  | .int n => integerText n.toInt
  | .long n => integerText n.toInt
  | .double x => doubleText x
  | .string s => s
  | .record name fields => name ++ " \x7b " ++ renderFields fields ++ " \x7d"
  | .object ref => ref.host.name
  | .list items => "[" ++ renderAll items ++ "]"
  | .set _ items => "\x7b" ++ renderAll items ++ "\x7d"
termination_by structural v => v

/-- The texts of values, separated by commas. -/
def renderAll : List Value → String
  | [] => ""
  | [v] => v.render
  | v :: vs => v.render ++ ", " ++ renderAll vs
termination_by structural vs => vs

/-- The texts of fields, separated by commas. -/
def renderFields : List (String × Value) → String
  | [] => ""
  | [f] => renderField f
  | f :: fs => renderField f ++ ", " ++ renderFields fs
termination_by structural fs => fs

/-- A field's name and the text of its value. -/
def renderField : String × Value → String
  | (name, v) => name ++ ": " ++ v.render
termination_by structural f => f

end

end Value

/-- An instance of a value type. -/
structure Record where
  typeName : String
  fields : List (String × Value)
  deriving Repr, Inhabited

namespace Record

/-- The value of the first field of a name. -/
def field? (r : Record) (name : String) : Option Value := r.fields.lookup name

def toValue (r : Record) : Value := .record r.typeName r.fields

end Record

end AccessPath
