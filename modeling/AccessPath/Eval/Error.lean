import AccessPath.Value.Conversion

/-!
# Evaluation errors

Why an evaluation stops. Absence along a path is no error: the default policy answers it. A usage
error says that the path itself is malformed or too deep; every other error says that the path and
the objects it met do not fit each other.

Host procedures may fail with any of these. The functions below the texts make the errors that this
library itself raises, so that each wording stands in one place.
-/

namespace AccessPath

inductive EvalError where
  | unsupportedNode (reason : String)
  | malformedExtensionCall (reason : String)
  | depthExceeded (limit : Nat)
  | memberNotFound (typeName member : String)
  | methodNotFound (typeName method : String)
  | extensionNotFound (name : String)
  | unregisteredType (name : String)
  | argumentMismatch (reason : String)
  | typeMismatch (reason : String)
  | invocation (reason : String)
  | conversion (error : ConversionError)
  deriving DecidableEq, Repr

namespace EvalError

/-- The text of an error. -/
def message : EvalError → String
  | .unsupportedNode reason => s!"unsupported node: {reason}"
  | .malformedExtensionCall reason => s!"malformed extension call: {reason}"
  | .depthExceeded limit => "path exceeds maximum depth of " ++ integerText limit
  | .memberNotFound typeName member => s!"type `{typeName}` has no member `{member}`"
  | .methodNotFound typeName method => s!"type `{typeName}` has no method `{method}`"
  | .extensionNotFound name => s!"no extension function named `{name}`"
  | .unregisteredType name => s!"unregistered type: {name}"
  | .argumentMismatch reason => s!"argument mismatch: {reason}"
  | .typeMismatch reason => s!"type mismatch: {reason}"
  | .invocation reason => s!"invocation failed: {reason}"
  | .conversion error => error.message

/-- The path is at fault, whatever it is evaluated against. -/
def isUsageError : EvalError → Bool
  | .unsupportedNode _ | .malformedExtensionCall _ | .depthExceeded _ => true
  | _ => false

/-- A lambda stands where a value is needed. -/
def strayLambda (param : String) : EvalError :=
  .unsupportedNode
    s!"lambda `{param} => ...` can only appear as the second argument of an extension call"

/-- An extension call has no first argument. -/
def noReceiver (method : String) : EvalError :=
  .malformedExtensionCall s!"`{method}` has no receiver argument"

/-- The second argument of an extension call is of another kind than a lambda. -/
def notALambda (method kind : String) : EvalError :=
  .malformedExtensionCall s!"second argument of `{method}` must be a lambda, found {kind}"

/-- An extension call has more than two arguments. -/
def tooManyArguments (method : String) (count : Nat) : EvalError :=
  .malformedExtensionCall (s!"`{method}` takes at most 2 arguments, got " ++ integerText count)

/-- A method is given another number of arguments than it takes. -/
def wrongArity (typeName method : String) (arity count : Nat) : EvalError :=
  .argumentMismatch
    (s!"`{typeName}.{method}` takes " ++ integerText arity ++ " argument(s), got " ++ integerText count)

/-- A host procedure was registered for another type than the object's. -/
def wrongHost (typeName : String) : EvalError := .typeMismatch s!"object is not a `{typeName}`"

/-- A sequence extension meets a receiver that has no items. -/
def notASequence (method found : String) : EvalError :=
  .argumentMismatch s!"`{method}` expects a list or set, got {found}"

/-- An extension that takes no lambda is given one. -/
def lambdaRefused (method : String) : EvalError :=
  .argumentMismatch s!"`{method}` takes no lambda argument"

/-- An extension that needs a lambda is given none. -/
def lambdaRequired (method : String) : EvalError :=
  .argumentMismatch s!"`{method}` requires a lambda argument"

/-- A predicate answers with something else than a truth value. -/
def notATruthValue (found : String) : EvalError :=
  .typeMismatch s!"predicate must return bool, got {found}"

/-- There are more items than an int can count. -/
def countOverflow : EvalError := .invocation "count overflows int"

/-- No item matches where one is asked for. -/
def noMatch (extension : String) : EvalError :=
  .invocation s!"`{extension}`: sequence contains no matching element"

/-- Several items match where a single one is asked for. -/
def manyMatches (extension : String) (count : Nat) : EvalError :=
  .invocation (s!"`{extension}`: sequence contains " ++ integerText count ++ " matching elements")

end EvalError

end AccessPath
