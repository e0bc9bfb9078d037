import AccessPath.Value.Set

/-!
# Conversion between values and Lean types

`toValue` makes a value of a Lean value. `ofValue?` takes one out of a value of the right kind: an
int is also taken as a long, an absent value as the `none` of any type, and nothing else changes
kind.
-/

namespace AccessPath

/-- A value did not have the expected kind. -/
structure ConversionError where
  expected : String
  found : String
  deriving DecidableEq, Repr

/-- The text of a failed conversion. -/
def ConversionError.message (e : ConversionError) : String :=
  "expected " ++ e.expected ++ ", found " ++ e.found

/-- Lean types that have values. -/
class ToValue (α : Type) where
  toValue : α → Value

export ToValue (toValue)

instance : ToValue Value := ⟨id⟩
instance : ToValue Bool := ⟨.bool⟩
instance : ToValue Int32 := ⟨.int⟩
instance : ToValue Int64 := ⟨.long⟩
instance : ToValue Binary64 := ⟨.double⟩
instance : ToValue String := ⟨.string⟩
instance : ToValue ObjectRef := ⟨.object⟩
instance : ToValue Record := ⟨Record.toValue⟩
instance : ToValue ValueSet := ⟨ValueSet.toValue⟩

/-- What is missing is absent. -/
instance {α : Type} [ToValue α] : ToValue (Option α) := ⟨fun a => (a.map toValue).getD .absent⟩

instance {α : Type} [ToValue α] : ToValue (List α) := ⟨fun as => .list (as.map toValue)⟩

/-- Lean types that can be taken out of values. -/
class OfValue (α : Type) where
  ofValue? : Value → Except ConversionError α

export OfValue (ofValue?)

/-- The value is not of the expected kind. -/
def mismatch {α : Type} (expected : String) (v : Value) : Except ConversionError α :=
  .error ⟨expected, v.typeName⟩

instance : OfValue Value := ⟨.ok⟩

instance : OfValue Bool where
  ofValue?
    | .bool b => .ok b
    | v => mismatch "bool" v

instance : OfValue Int32 where
  ofValue?
    | .int n => .ok n
    | v => mismatch "int" v

/-- An int is widened to a long. -/
instance : OfValue Int64 where
  ofValue?
    | .long n => .ok n
    | .int n => .ok n.toInt64
    | v => mismatch "long" v

instance : OfValue Binary64 where
  ofValue?
    | .double x => .ok x
    | v => mismatch "double" v

instance : OfValue String where
  ofValue?
    | .string s => .ok s
    | v => mismatch "string" v

instance : OfValue (List Value) where
  ofValue?
    | .list items => .ok items
    | v => mismatch "list" v

instance : OfValue ValueSet where
  ofValue?
    | .set element items => .ok ⟨element, items⟩
    | v => mismatch "set" v

instance : OfValue Record where
  ofValue?
    | .record typeName fields => .ok ⟨typeName, fields⟩
    | v => mismatch "struct" v

instance : OfValue ObjectRef where
  ofValue?
    | .object ref => .ok ref
    | v => mismatch "object" v

/-- An absent value is nothing; any other value is converted. -/
instance {α : Type} [OfValue α] : OfValue (Option α) where
  ofValue?
    | .absent => .ok none
    | v => (ofValue? v).map some

end AccessPath
