import AccessPath.Registry.Introspect

/-!
# What registrations leave behind

A registry is made by carrying out registrations in order (`Registry.MadeBy`). What it then knows of a host
type is made of the entries for that host type alone: the first one names the class, and all of them add to its
getters and methods, in order. What it knows of a value type is the layout that was registered last.

Both are equations, one for each host type and one for each name (`Registry.Reflects`). Every single
registration keeps them (`Registry.Reflects.register`); so they hold after any sequence of them
(`Registry.MadeBy.reflects`).
-/

namespace AccessPath

variable {σ α β : Type}

namespace Table

/-- The value of the last entry of a name. -/
def last? (t : Table String α) (name : String) : Option α := t.reverse.lookup name

theorem lookup_map (f : α → β) (t : Table String α) (name : String) :
    (t.map fun e => (e.1, f e.2)).lookup name = (t.lookup name).map f := by
  induction t with
  | nil => rfl
  | cons e t ih =>
    obtain ⟨key, a⟩ := e
    simp only [List.map_cons, List.lookup_cons]
    cases name == key with
    | true => rfl
    | false => exact ih

theorem last?_map (f : α → β) (t : Table String α) (name : String) :
    last? (t.map fun e => (e.1, f e.2)) name = (t.last? name).map f := by
  rw [last?, last?, ← List.map_reverse, lookup_map]

end Table

/-- Reads a member off an object. -/
abbrev MemberBody (σ : Type) := ObjectRef → σ → Value × σ

/-- What a method does, behind the number of arguments that it takes. -/
abbrev MethodBody (σ : Type) := Nat × (ObjectRef → List Value → Action σ Value)

/-- What a registration says of a host type. -/
structure ClassEntry (σ : Type) where
  name : String
  members : Table String (MemberBody σ)
  methods : Table String (MethodBody σ)

namespace Registration

/-- The entry that the registration makes for a host type. -/
def asClass? (host : HostType) : Registration σ → Option (ClassEntry σ)
  | .hostClass h name members methods => if h = host then some ⟨name, members, methods⟩ else none
  | .valueType .. | .extension .. => none

/-- The layout that the registration gives to a value type. -/
def layout? : Registration σ → Option (String × FieldLayout)
  | .valueType name fields => some (name, fields)
  | .hostClass .. | .extension .. => none

/-- The entries for a host type, in order. -/
def entriesFor (host : HostType) (rs : List (Registration σ)) : List (ClassEntry σ) :=
  rs.filterMap (asClass? host)

/-- The layout that was registered last for a value type. -/
def lastLayout? (rs : List (Registration σ)) (name : String) : Option FieldLayout :=
  Table.last? (rs.filterMap layout?) name

end Registration

open Registration

namespace ClassEntry

/-- The members of all entries, in order. -/
def allMembers (entries : List (ClassEntry σ)) : Table String (MemberBody σ) := entries.flatMap members

/-- The methods of all entries, in order. -/
def allMethods (entries : List (ClassEntry σ)) : Table String (MethodBody σ) := entries.flatMap methods

end ClassEntry

namespace HostClass

/-- A class of members and methods, all registered for one host type. The last of a name counts. -/
def ofTables (host : HostType) (name : String) (members : Table String (MemberBody σ))
    (methods : Table String (MethodBody σ)) : HostClass σ where
  name := name
  getters := (members.map fun m => (m.1, ⟨host, name, m.2⟩)).reverse
  methods := (methods.map fun m => (m.1, ⟨host, name, m.2.1, m.2.2⟩)).reverse

/-- The class that the entries for a host type make: it has the name that the first one gives. -/
def ofEntries? (host : HostType) (entries : List (ClassEntry σ)) : Option (HostClass σ) :=
  entries.head?.map fun first =>
    ofTables host first.name (ClassEntry.allMembers entries) (ClassEntry.allMethods entries)

variable (host : HostType) (name : String) (members : Table String (MemberBody σ))
  (methods : Table String (MethodBody σ))

theorem foldl_addMember (new : Table String (MemberBody σ)) :
    new.foldl (addMember host) (ofTables host name members methods) =
      ofTables host name (members ++ new) methods := by
  induction new generalizing members with
  | nil => rw [List.append_nil, List.foldl_nil]
  | cons m new ih =>
    have hstep : addMember host (ofTables host name members methods) m =
        ofTables host name (members ++ [m]) methods := by
      simp [addMember, ofTables]
    rw [List.foldl_cons, hstep, ih, List.append_assoc, List.singleton_append]

theorem foldl_addMethod (new : Table String (MethodBody σ)) :
    new.foldl (addMethod host) (ofTables host name members methods) =
      ofTables host name members (methods ++ new) := by
  induction new generalizing methods with
  | nil => rw [List.append_nil, List.foldl_nil]
  | cons m new ih =>
    have hstep : addMethod host (ofTables host name members methods) m =
        ofTables host name members (methods ++ [m]) := by
      simp [addMethod, ofTables]
    rw [List.foldl_cons, hstep, ih, List.append_assoc, List.singleton_append]

/-- One more entry extends the class, or makes one of its own name. -/
theorem ofEntries?_concat (entries : List (ClassEntry σ)) :
    ofEntries? host (entries ++ [⟨name, members, methods⟩]) =
      some (methods.foldl (addMethod host)
        (members.foldl (addMember host) ((ofEntries? host entries).getD (.named name)))) := by
  cases entries with
  | nil =>
    have hnamed : (HostClass.named name : HostClass σ) = ofTables host name [] [] := rfl
    have hnone : ofEntries? host ([] : List (ClassEntry σ)) = none := rfl
    rw [hnone, Option.getD_none, hnamed, foldl_addMember, foldl_addMethod]
    simp [ofEntries?, ClassEntry.allMembers, ClassEntry.allMethods]
  | cons first rest =>
    simp only [ofEntries?, List.cons_append, List.head?_cons, Option.map_some, Option.getD_some,
      foldl_addMember, foldl_addMethod]
    simp [ClassEntry.allMembers, ClassEntry.allMethods]

theorem getters_lookup (member : String) :
    (ofTables host name members methods).getters.lookup member =
      (members.last? member).map fun read => ⟨host, name, read⟩ :=
  Table.last?_map (fun read => (⟨host, name, read⟩ : Getter σ)) members member

theorem methods_lookup (method : String) :
    (ofTables host name members methods).methods.lookup method =
      (methods.last? method).map fun m => ⟨host, name, m.1, m.2⟩ :=
  Table.last?_map (fun m : MethodBody σ => (⟨host, name, m.1, m.2⟩ : Method σ)) methods method

end HostClass

namespace Registry

/-- The registry knows of each host type what its own entries say, and of each value type its last layout. -/
structure Reflects (r : Registry σ) (rs : List (Registration σ)) : Prop where
  classes : ∀ host, r.classes.lookup host = HostClass.ofEntries? host (entriesFor host rs)
  layouts : ∀ name, r.layouts.lookup name = lastLayout? rs name

variable {r : Registry σ} {rs : List (Registration σ)}

/-- A registration adds what it says to what was known before. -/
theorem Reflects.register (h : r.Reflects rs) (x : Registration σ) : (r.register x).Reflects (rs ++ [x]) := by
  have hentries : ∀ host, entriesFor host (rs ++ [x]) = entriesFor host rs ++ (asClass? host x).toList := by
    intro host
    simp only [entriesFor, List.filterMap_append]
    cases hx : asClass? host x <;> simp [hx]
  have hlayouts : ∀ name, lastLayout? (rs ++ [x]) name =
      ((layout? x).toList.lookup name).or (lastLayout? rs name) := by
    intro name
    simp only [lastLayout?, Table.last?, List.filterMap_append, List.reverse_append, List.lookup_append]
    cases hx : layout? x <;> simp [hx]
  cases x with
  | extension name body =>
    refine ⟨fun host => ?_, fun value => ?_⟩
    · rw [hentries, asClass?, Option.toList_none, List.append_nil]
      exact h.classes host
    · rw [hlayouts]
      exact h.layouts value
  | valueType name fields =>
    refine ⟨fun host => ?_, fun value => ?_⟩
    · rw [hentries, asClass?, Option.toList_none, List.append_nil]
      exact h.classes host
    · rw [hlayouts, ← h.layouts value, layout?, Option.toList_some, Registry.register, List.lookup_cons,
        List.lookup_cons]
      cases value == name with
      | true => rfl
      | false => rfl
  | hostClass host name members methods =>
    refine ⟨fun other => ?_, fun value => ?_⟩
    · rw [hentries, asClass?, Registry.register, List.lookup_cons]
      by_cases hhost : host = other
      · subst hhost
        rw [if_pos rfl, Option.toList_some, HostClass.ofEntries?_concat, beq_self_eq_true, classFor,
          h.classes]
      · rw [if_neg hhost, Option.toList_none, List.append_nil, beq_eq_false_iff_ne.mpr (Ne.symm hhost)]
        exact h.classes other
    · rw [hlayouts]
      exact h.layouts value

theorem Reflects.registerAll (h : r.Reflects rs) (xs : List (Registration σ)) :
    (r.registerAll xs).Reflects (rs ++ xs) := by
  induction xs generalizing r rs with
  | nil => rwa [List.append_nil]
  | cons x xs ih =>
    have hrest := ih (h.register x)
    rwa [List.append_assoc, List.singleton_append] at hrest

/-- The registry was made by registrations, out of nothing or of the standard sequence extensions. -/
inductive MadeBy (rs : List (Registration σ)) : Registry σ → Prop
  | fromEmpty : MadeBy rs (Registry.empty.registerAll rs)
  | fromSequences : MadeBy rs (Registry.withSequences.registerAll rs)

/-- After any sequence of registrations a registry reflects them. -/
theorem MadeBy.reflects (h : r.MadeBy rs) : r.Reflects rs := by
  cases h with
  | fromEmpty =>
    have hstart : (Registry.empty : Registry σ).Reflects [] := ⟨fun _ => rfl, fun _ => rfl⟩
    exact hstart.registerAll rs
  | fromSequences =>
    have hstart : (Registry.withSequences : Registry σ).Reflects [] := ⟨fun _ => rfl, fun _ => rfl⟩
    exact hstart.registerAll rs

end Registry

end AccessPath
