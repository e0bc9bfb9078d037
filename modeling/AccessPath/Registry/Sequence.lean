import AccessPath.Eval.Script

/-!
# Sequence extensions

The standard extensions of lists and sets. `to_list` and `to_set` take no lambda; `where` and
`select` need one; `count`, `any`, `single` and `first` may have a predicate, and without one behave
as if every item matched. A predicate has to answer a truth value.

Items are handed to the lambda in order and each at most once. `any` stops at the first match, the
others look at every item.
-/

namespace AccessPath

/-- A procedure that paths call on a receiver, without a lambda and with one. -/
structure Extension (σ : Type) where
  alone : MethodSig → Value → Action σ Value
  withLambda : MethodSig → Value → Script σ Value

namespace Sequence

variable {σ α : Type}

/-- The items of a list or set. -/
def items (method : MethodSig) : Value → Except EvalError (List Value)
  | .list items => .ok items
  | .set _ items => .ok items
  | v => .error (.notASequence method.name v.typeName)

/-- Asks a predicate about an item. -/
def test (item : Value) : Script σ Bool := do
  match ← Script.ask item with
  | .bool b => return b
  | v => Script.fail (.notATruthValue v.typeName)

/-- The items that the predicate accepts. -/
def filter : List Value → Script σ (List Value)
  | [] => return []
  | item :: rest => do
    let keep ← test item
    let kept ← filter rest
    return if keep then item :: kept else kept

/-- Some item is accepted by the predicate; the items behind it are not looked at. -/
def anyMatch : List Value → Script σ Bool
  | [] => return false
  | item :: rest => do
    if ← test item then return true else anyMatch rest

/-- What the lambda answers to each item. -/
def answers : List Value → Script σ (List Value)
  | [] => return []
  | item :: rest => do
    let answer ← Script.ask item
    return answer :: (← answers rest)

/-- The greatest number of items that an int counts. -/
def maxCount : Nat := 0x7FFFFFFF

/-- The number of items, as an int. -/
def countOf (items : List Value) : Except EvalError Value :=
  if items.length ≤ maxCount then .ok (.int (Int32.ofNat items.length)) else .error .countOverflow

/-- The one item that there is. -/
def singleOf : List Value → Except EvalError Value
  | [item] => .ok item
  | [] => .error (.noMatch "single")
  | items => .error (.manyMatches "single" items.length)

/-- The first item. -/
def firstOf : List Value → Except EvalError Value
  | item :: _ => .ok item
  | [] => .error (.noMatch "first")

/-- The set of some items, with the element type of a method's declared set type. -/
def setOf (method : MethodSig) (items : List Value) : Value :=
  (ValueSet.ofItems (method.result.setElement?.getD .any) items).toValue

/-- What is made of the items, or of those that a predicate accepts. -/
def ofMatches (f : List Value → Except EvalError Value) : Extension σ where
  alone method receiver := Action.ofExcept ((items method receiver).bind f)
  withLambda method receiver := do
    let items ← .done (items method receiver)
    .done (f (← filter items))

/-- What is made of the items; a lambda is refused before the receiver is looked at. -/
def ofItems (f : MethodSig → List Value → Value) : Extension σ where
  alone method receiver := Action.ofExcept ((items method receiver).map (f method))
  withLambda method _ := Script.fail (.lambdaRefused method.name)

/-- What is made of the items with a lambda, which is asked for before the receiver is looked at. -/
def ofLambda (f : List Value → Script σ Value) : Extension σ where
  alone method _ := Action.ofExcept (.error (.lambdaRequired method.name))
  withLambda method receiver := do
    let items ← .done (items method receiver)
    f items

/-- Whether there is an item, or one that a predicate accepts. -/
def any : Extension σ where
  alone method receiver :=
    Action.ofExcept ((items method receiver).map fun items => .bool !items.isEmpty)
  withLambda method receiver := do
    let items ← .done (items method receiver)
    return .bool (← anyMatch items)

/-- The standard extensions by name. -/
def extensions : List (String × Extension σ) :=
  [("to_list", ofItems fun _ items => .list items),
   ("to_set", ofItems setOf),
   ("count", ofMatches countOf),
   ("any", any),
   ("single", ofMatches singleOf),
   ("first", ofMatches firstOf),
   ("where", ofLambda fun items => do return .list (← filter items)),
   ("select", ofLambda fun items => do return .list (← answers items))]

end Sequence

end AccessPath
