import AccessPath.Literal

/-!
# Paths

A path describes member reads and method calls that start from a parameter. A call has a receiver
before the dot, or is made extension style, the first argument being the receiver. A lambda is
meant as the second argument of an extension call; a path that has one elsewhere can be built and
written, and fails when evaluation reaches it.

`Path.member`, `Path.call`, `Path.extension` and `Path.extensionWith` extend a path the way a caller
would write it, taking the declared parameter types from the arguments.
-/

namespace AccessPath

/-- A member's name and declared type. -/
structure MemberSig where
  name : String
  ty : Ty
  deriving DecidableEq, Repr

/-- A method's name, declared parameter types and declared result type. -/
structure MethodSig where
  name : String
  params : List Ty
  result : Ty
  deriving DecidableEq, Repr

inductive Path where
  | constant (value : Literal) (ty : Ty)
  /-- The argument of an enclosing lambda with that parameter, or else the root. -/
  | parameter (name : String) (ty : Ty)
  | memberAccess (target : Path) (member : MemberSig)
  | methodCall (receiver : Path) (method : MethodSig) (args : List Path)
  | extensionCall (method : MethodSig) (args : List Path)
  | lambda (param : String) (paramTy : Ty) (body : Path)
  deriving Repr

/-- A function of one parameter, to be passed to an extension. -/
structure Lambda where
  param : String
  paramTy : Ty
  body : Path
  deriving Repr

namespace Path

/-- The type declared for what a path yields. -/
def declaredType : Path → Ty
  | .constant _ ty => ty
  | .parameter _ ty => ty
  | .memberAccess _ member => member.ty
  | .methodCall _ method _ => method.result
  | .extensionCall method _ => method.result
  | .lambda _ paramTy body => .function [paramTy] body.declaredType
termination_by structural p => p

/-- The kind of a path's outermost node. -/
def kindName : Path → String
  | .constant .. => "constant"
  | .parameter .. => "parameter"
  | .memberAccess .. => "member access"
  | .methodCall .. => "method call"
  | .extensionCall .. => "extension call"
  | .lambda .. => "lambda"

end Path

namespace Lambda

/-- The function type of a lambda. -/
def declaredType (f : Lambda) : Ty := .function [f.paramTy] f.body.declaredType

/-- A lambda as a path. -/
def toPath (f : Lambda) : Path := .lambda f.param f.paramTy f.body

end Lambda

namespace Path

/-- A constant of its natural type. -/
def ofLiteral (value : Literal) : Path := .constant value value.naturalType

/-- Reads a member. -/
def member (p : Path) (name : String) (ty : Ty) : Path := .memberAccess p ⟨name, ty⟩

/-- Calls a method. -/
def call (p : Path) (name : String) (args : List Path) (result : Ty) : Path :=
  .methodCall p ⟨name, args.map declaredType, result⟩ args

/-- Calls an extension. -/
def extension (p : Path) (name : String) (result : Ty) : Path :=
  .extensionCall ⟨name, [p.declaredType], result⟩ [p]

/-- Calls an extension with a lambda. -/
def extensionWith (p : Path) (name : String) (f : Lambda) (result : Ty) : Path :=
  .extensionCall ⟨name, [p.declaredType, f.declaredType], result⟩ [p, f.toPath]

mutual

/-- The paths are equal. Double literals are compared as numbers, so a path that carries a NaN
differs from itself. -/
def eqv : Path → Path → Bool
  | .constant v ty, .constant w tz => v.eqv w && decide (ty = tz)
  | .parameter n ty, .parameter m tz => decide (n = m ∧ ty = tz)
  | .memberAccess p m, .memberAccess q n => p.eqv q && decide (m = n)
  | .methodCall p m as, .methodCall q n bs => p.eqv q && decide (m = n) && eqvAll as bs
  | .extensionCall m as, .extensionCall n bs => decide (m = n) && eqvAll as bs
  | .lambda x ty b, .lambda y tz c => decide (x = y ∧ ty = tz) && b.eqv c
  | _, _ => false
termination_by structural p => p

/-- The paths are equal, one by one. -/
def eqvAll : List Path → List Path → Bool
  | [], [] => true
  | p :: ps, q :: qs => p.eqv q && eqvAll ps qs
  | _, _ => false
termination_by structural ps => ps

end

end Path

end AccessPath
