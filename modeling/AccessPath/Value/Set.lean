import AccessPath.Value.Basic

/-!
# Sets of values

A set keeps its items in the order of their insertion and takes no value that is equal to one it
has. Since a NaN is equal to nothing, a set may take it any number of times.
-/

namespace AccessPath

structure ValueSet where
  element : Ty
  items : List Value
  deriving Repr, Inhabited

namespace ValueSet

/-- The empty set of an element type. -/
def empty (element : Ty) : ValueSet := ⟨element, []⟩

/-- Some item is equal to the value. -/
def contains (s : ValueSet) (v : Value) : Bool := s.items.any fun item => item.eqv v

/-- Adds a value behind the items, unless the set contains it; says whether it was added. -/
def insert (s : ValueSet) (v : Value) : Bool × ValueSet :=
  if s.contains v then (false, s) else (true, ⟨s.element, s.items ++ [v]⟩)

/-- Inserts values in order. -/
def insertAll (s : ValueSet) (vs : List Value) : ValueSet := vs.foldl (fun s v => (s.insert v).2) s

/-- The set of a list's items, inserted in order. -/
def ofItems (element : Ty) (items : List Value) : ValueSet := (empty element).insertAll items

def toValue (s : ValueSet) : Value := .set s.element s.items

end ValueSet

end AccessPath
