import AccessPath.Value.Basic

/-!
# Stores of scripted hosts

A scripted host keeps its objects in a store. An object has named fields and a counter, both of which
its methods may change. The store also keeps what a scripted lambda is to answer next, and what it
was called on.
-/

namespace AccessPath.Host

/-- A host object. Of two fields under one name the first counts. -/
structure Object where
  fields : List (String × Value)
  ticks : Int64
  deriving Repr, Inhabited

/-- The objects, each at the place of its identity, and the state of scripted lambdas. -/
structure Store where
  objects : List Object
  /-- The answers still to be given. -/
  answers : List Value
  /-- The values that a lambda was called on, in order. -/
  heard : List Value
  deriving Repr, Inhabited

namespace Store

def empty : Store := ⟨[], [], []⟩

/-- The object that a reference names. -/
def object (s : Store) (ref : ObjectRef) : Object := (s.objects[ref.identity]?).getD default

/-- A field of an object, absent where it is missing. -/
def field (s : Store) (ref : ObjectRef) (name : String) : Value :=
  ((s.object ref).fields.lookup name).getD .absent

/-- Changes the object that a reference names. -/
def update (s : Store) (ref : ObjectRef) (f : Object → Object) : Store :=
  { s with objects := s.objects.modify ref.identity f }

/-- Gives a field a value. -/
def setField (s : Store) (ref : ObjectRef) (name : String) (v : Value) : Store :=
  s.update ref fun o => { o with fields := (name, v) :: o.fields }

/-- Counts one tick of an object. -/
def tick (s : Store) (ref : ObjectRef) : Store := s.update ref fun o => { o with ticks := o.ticks + 1 }

end Store

end AccessPath.Host
