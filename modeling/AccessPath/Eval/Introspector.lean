import AccessPath.Eval.Script

/-!
# Introspectors and the default policy

All that an evaluation knows of the objects it meets comes through an `Introspector`. It is never
asked about an absent value: where a parent is absent, the evaluation takes a default instead.

The default is chosen from the declared type alone: the empty string for a string, the zero value
for a value type, an empty set for a set, and absence for everything else, lists and sequences
included.
-/

namespace AccessPath

/-- The zero values that need no knowledge of field layouts. -/
def zeroBuiltin : Ty → Except EvalError Value
  | .bool => .ok (.bool false)
  | .int => .ok (.int 0)
  | .long => .ok (.long 0)
  | .double => .ok (.double .zero)
  | .struct name => .error (.unregisteredType name)
  | _ => .ok .absent

/-- Reads members, invokes methods, and makes zero values and empty sets. -/
structure Introspector (σ : Type) where
  readMember : Value → MemberSig → Action σ Value
  invoke : Value → MethodSig → List Value → Action σ Value
  /-- Invokes an extension on its receiver alone. -/
  invokeExtension : MethodSig → Value → Action σ Value
  /-- Invokes an extension on its receiver and a lambda. -/
  invokeExtensionWith : MethodSig → Value → Script σ Value
  /-- The zero value of a type. References and containers have none and are absent. -/
  zeroValue : Ty → Except EvalError Value := zeroBuiltin
  /-- The empty set of an element type. -/
  emptySet : Ty → Value := fun element => (ValueSet.empty element).toValue

namespace Introspector

variable {σ : Type}

/-- What the default for a type asks of an introspector. -/
def defaultQuery? (ty : Ty) : Option Query :=
  match ty with
  | .set element => some (.emptySet element)
  | ty => if ty.isValueType then some (.zeroValue ty) else none

/-- The value that takes the place of a missing one of a declared type. -/
def default (i : Introspector σ) : Ty → Except EvalError Value
  | .string => .ok (.string "")
  | .set element => .ok (i.emptySet element)
  | ty => if ty.isValueType then i.zeroValue ty else .ok .absent

end Introspector

end AccessPath
