import AccessPath.Registry.Sequence

/-!
# Registries

What a host has told about its objects: the members and methods of its types, the field layouts of
value types, and extensions. A host type is known by the first display name it is given; of two
registrations under the same name the later one counts. Each getter and method remembers the host
type it was registered for.

A registry is the result of a list of registrations, carried out in order.
-/

namespace AccessPath

/-- A name table, in which the first entry of a key counts. -/
abbrev Table (κ α : Type) := List (κ × α)

/-- The fields of a value type, in declared order. -/
abbrev FieldLayout := List (String × Ty)

/-- Reads a member off objects of a host type. -/
structure Getter (σ : Type) where
  host : HostType
  typeName : String
  read : ObjectRef → σ → Value × σ

/-- A method of the objects of a host type, with the number of arguments it takes. -/
structure Method (σ : Type) where
  host : HostType
  typeName : String
  arity : Nat
  body : ObjectRef → List Value → Action σ Value

/-- The members and methods of a host type, and its display name. -/
structure HostClass (σ : Type) where
  name : String
  getters : Table String (Getter σ)
  methods : Table String (Method σ)

structure Registry (σ : Type) where
  classes : Table HostType (HostClass σ)
  layouts : Table String FieldLayout
  extensions : Table String (Extension σ)

/-- One registration. -/
inductive Registration (σ : Type) where
  | hostClass (host : HostType) (name : String)
      (members : List (String × (ObjectRef → σ → Value × σ)))
      (methods : List (String × Nat × (ObjectRef → List Value → Action σ Value)))
  | valueType (name : String) (fields : FieldLayout)
  | extension (name : String) (body : Extension σ)

namespace HostClass

variable {σ : Type}

/-- A host type under a display name, without members and methods. -/
def named (name : String) : HostClass σ := ⟨name, [], []⟩

/-- Registers a member for objects of `host`. -/
def addMember (host : HostType) (k : HostClass σ)
    (m : String × (ObjectRef → σ → Value × σ)) : HostClass σ :=
  { k with getters := (m.1, ⟨host, k.name, m.2⟩) :: k.getters }

/-- Registers a method for objects of `host`. -/
def addMethod (host : HostType) (k : HostClass σ)
    (m : String × Nat × (ObjectRef → List Value → Action σ Value)) : HostClass σ :=
  { k with methods := (m.1, ⟨host, k.name, m.2.1, m.2.2⟩) :: k.methods }

end HostClass

namespace Registry

variable {σ : Type}

/-- The registry of nothing. -/
def empty : Registry σ := ⟨[], [], []⟩

/-- The registry of the standard sequence extensions. -/
def withSequences : Registry σ := ⟨[], [], Sequence.extensions⟩

/-- What is known of a host type, which gets a display name if it has none. -/
def classFor (r : Registry σ) (host : HostType) (name : String) : HostClass σ :=
  (r.classes.lookup host).getD (.named name)

/-- Carries out a registration. -/
def register (r : Registry σ) : Registration σ → Registry σ
  | .hostClass host name members methods =>
    let known := members.foldl (HostClass.addMember host) (r.classFor host name)
    let known := methods.foldl (HostClass.addMethod host) known
    { r with classes := (host, known) :: r.classes }
  | .valueType name fields => { r with layouts := (name, fields) :: r.layouts }
  | .extension name body => { r with extensions := (name, body) :: r.extensions }

/-- Carries out registrations in order. -/
def registerAll (r : Registry σ) (rs : List (Registration σ)) : Registry σ := rs.foldl register r

/-- An extension of that name is registered. -/
def hasExtension (r : Registry σ) (name : String) : Bool := (r.extensions.lookup name).isSome

end Registry

end AccessPath
