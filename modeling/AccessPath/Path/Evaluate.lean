import AccessPath.Eval.Introspector
import AccessPath.Settings

/-!
# Evaluating paths

A path is evaluated against a root, from the receiver outward. Where the parent of a member or a
call is absent, the member is not read and the method not called, arguments are not even
evaluated, and the default for the declared type takes the value's place. Otherwise arguments are
evaluated left to right, against the root, and errors end the run.

A node is counted one deeper than its parent, the body of a lambda two deeper than the call that
feeds it. A node beyond the limit fails before it is visited.

The receiver of an extension call is evaluated before the shape of its other arguments is looked at.
-/

namespace AccessPath

/-- The lambda parameters in scope, the innermost first. -/
abbrev Bindings := List (String × Value)

/-- What an evaluation keeps to throughout. -/
structure Scene (σ : Type) where
  introspector : Introspector σ
  settings : Settings
  root : Value

/-- A node's value, and whether it was read or took the place of one that is missing. -/
inductive Resolved where
  | read (value : Value)
  | substituted (value : Value)
  deriving Repr

namespace Resolved

def value : Resolved → Value
  | .read v | .substituted v => v

def isSubstituted : Resolved → Bool
  | .read _ => false
  | .substituted _ => true

end Resolved

namespace Scene

variable {σ : Type}

/-- A parameter is the innermost lambda parameter of its name, or else the root. -/
def parameter (c : Scene σ) (bindings : Bindings) (name : String) : Value :=
  (bindings.lookup name).getD c.root

/-- Enters a node at a depth, unless that is beyond the limit. -/
def visit (c : Scene σ) (p : Path) (depth : Nat) : Run σ Unit :=
  if c.settings.maxDepth < depth then Run.fail (.depthExceeded c.settings.maxDepth)
  else Run.emit (.visited p.kindName depth)

/-- The answer at a site whose parent is absent. -/
def substitute (c : Scene σ) (site : String) (ty : Ty) : Run σ Resolved := do
  if let some query := Introspector.defaultQuery? ty then Run.emit (.asked query)
  let v ← Run.ofExcept (c.introspector.default ty)
  Run.emit (.substituted site ty)
  return .substituted v

/-- Goes on from a parent that is present; the site of an absent one is answered by a default. -/
def fromParent (c : Scene σ) (parent : Resolved) (site : String) (ty : Ty)
    (proceed : Value → Run σ Resolved) : Run σ Resolved :=
  if parent.value.isAbsent then c.substitute site ty else proceed parent.value

/-- Reads a member of a present value. -/
def readMember (c : Scene σ) (target : Value) (member : MemberSig) : Run σ Resolved := do
  Run.emit (.asked (.readMember target member))
  return .read (← Run.ofAction (c.introspector.readMember target member))

/-- Calls a method of a present value. -/
def invoke (c : Scene σ) (receiver : Value) (method : MethodSig) (args : List Value) :
    Run σ Resolved := do
  Run.emit (.asked (.invoke receiver method args))
  return .read (← Run.ofAction (c.introspector.invoke receiver method args))

/-- Calls an extension of a present value alone. -/
def invokeExtension (c : Scene σ) (method : MethodSig) (receiver : Value) : Run σ Resolved := do
  Run.emit (.asked (.invokeExtension method receiver))
  return .read (← Run.ofAction (c.introspector.invokeExtension method receiver))

/-- Calls an extension of a present value with a lambda. -/
def invokeExtensionWith (c : Scene σ) (method : MethodSig) (receiver : Value)
    (lambda : Value → Run σ Value) : Run σ Resolved := do
  Run.emit (.asked (.invokeExtension method receiver))
  return .read (← (c.introspector.invokeExtensionWith method receiver).run lambda)

end Scene

namespace Path

variable {σ : Type}

mutual

/-- Evaluates a node at a depth, with lambda parameters in scope. -/
def evalAt (c : Scene σ) (bindings : Bindings) (depth : Nat) (p : Path) : Run σ Resolved := do
  c.visit p depth
  match p with
  | .constant value _ => return .read (.ofLiteral value)
  | .parameter name _ => return .read (c.parameter bindings name)
  | .memberAccess target member =>
    let parent ← evalAt c bindings (depth + 1) target
    c.fromParent parent member.name member.ty fun v => c.readMember v member
  | .methodCall receiver method args =>
    let parent ← evalAt c bindings (depth + 1) receiver
    c.fromParent parent method.name method.result fun v => do
      c.invoke v method (← evalAll c bindings (depth + 1) args)
  | .extensionCall method [] => Run.fail (.noReceiver method.name)
  | .extensionCall method (receiver :: rest) =>
    let parent ← evalAt c bindings (depth + 1) receiver
    c.fromParent parent method.name method.result fun v =>
      match rest with
      | [] => c.invokeExtension method v
      | [.lambda param _ body] =>
        c.invokeExtensionWith method v fun item => do
          return (← evalAt c ((param, item) :: bindings) (depth + 2) body).value
      | [other] => Run.fail (.notALambda method.name other.kindName)
      | rest => Run.fail (.tooManyArguments method.name (rest.length + 1))
  | .lambda param _ _ => Run.fail (.strayLambda param)
termination_by structural p

/-- Evaluates nodes left to right. -/
def evalAll (c : Scene σ) (bindings : Bindings) (depth : Nat) (ps : List Path) :
    Run σ (List Value) :=
  match ps with
  | [] => return []
  | p :: ps => do
    let v ← evalAt c bindings depth p
    return v.value :: (← evalAll c bindings depth ps)
termination_by structural ps

end

end Path

end AccessPath
