/-!
# Declared types

The static type declared at a point of a path. Defaults are chosen from declared types alone, never
from a value met at run time. A value type is never absent; every other type is a reference or a
container and may be.
-/

namespace AccessPath

inductive Ty where
  | string | bool | int | long | double
  /-- A value type with fields. -/
  | struct (name : String)
  /-- A type of host objects. -/
  | reference (name : String)
  | set (element : Ty)
  | list (element : Ty)
  | sequence (element : Ty)
  | function (params : List Ty) (result : Ty)
  | any
  | void
  deriving Repr, Inhabited

namespace Ty

mutual

/-- The types are the same. -/
def eqv : Ty → Ty → Bool
  | .string, .string | .bool, .bool | .int, .int | .long, .long | .double, .double => true
  | .any, .any | .void, .void => true
  | .struct a, .struct b | .reference a, .reference b => decide (a = b)
  | .set a, .set b | .list a, .list b | .sequence a, .sequence b => a.eqv b
  | .function ps a, .function qs b => eqvAll ps qs && a.eqv b
  | _, _ => false
termination_by structural t => t

/-- The types are the same, one by one. -/
def eqvAll : List Ty → List Ty → Bool
  | [], [] => true
  | a :: as, b :: bs => a.eqv b && eqvAll as bs
  | _, _ => false
termination_by structural ts => ts

end

mutual

theorem eqv_iff : (a b : Ty) → (a.eqv b = true ↔ a = b)
  | a, b => by cases a <;> cases b <;> simp [eqv, eqv_iff, eqvAll_iff]
termination_by structural a => a

theorem eqvAll_iff : (as bs : List Ty) → (eqvAll as bs = true ↔ as = bs)
  | [], [] => by simp [eqvAll]
  | [], _ :: _ => by simp [eqvAll]
  | _ :: _, [] => by simp [eqvAll]
  | a :: as, b :: bs => by simp [eqvAll, eqv_iff a b, eqvAll_iff as bs]
termination_by structural as => as

end

instance : DecidableEq Ty := fun a b => decidable_of_iff _ (eqv_iff a b)

/-- The instances of a value type are never absent. -/
def isValueType : Ty → Bool
  | .bool | .int | .long | .double | .struct _ => true
  | _ => false

/-- The element type of a set type. -/
def setElement? : Ty → Option Ty
  | .set element => some element
  | _ => none

mutual

/-- The text of a type. -/
def render : Ty → String
  | .string => "string"
  | .bool => "bool"
  | .int => "int"
  | .long => "long"
  | .double => "double"
  | .struct name | .reference name => name
  | .set element => "set<" ++ element.render ++ ">"
  | .list element => "list<" ++ element.render ++ ">"
  | .sequence element => "seq<" ++ element.render ++ ">"
  | .function params result => "(" ++ renderAll params ++ ") -> " ++ result.render
  | .any => "any"
  | .void => "void"
termination_by structural t => t

/-- The texts of types, separated by commas. -/
def renderAll : List Ty → String
  | [] => ""
  | [t] => t.render
  | t :: ts => t.render ++ ", " ++ renderAll ts
termination_by structural ts => ts

end

end Ty

end AccessPath
