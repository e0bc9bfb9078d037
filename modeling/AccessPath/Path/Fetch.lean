import AccessPath.Path.Evaluate

/-!
# Fetching through a path

The entry points. `Path.evaluate` keeps the declared type and whether the value took the place of a
missing one; `Path.fetch` answers the value; `Path.fetchOr` puts a caller's fallback in the place of
an absent result, and of the empty string that stands in for a string of a missing parent;
`Path.fetchAs` converts the value. Zero values and empty sets are never replaced.
-/

namespace AccessPath

/-- The result of evaluating a path. -/
structure Evaluated where
  value : Value
  /-- The type declared for the path. -/
  ty : Ty
  /-- The value took the place of one whose parent is absent. -/
  defaulted : Bool
  deriving Repr

/-- A fallback takes the place of this result. -/
def Evaluated.wantsFallback (e : Evaluated) : Bool :=
  e.value.isAbsent || (e.defaulted && decide (e.ty = .string))

namespace Path

variable {σ : Type}

/-- Evaluates a path against a root. -/
def evaluate (i : Introspector σ) (settings : Settings) (root : Value) (p : Path) :
    Run σ Evaluated := do
  let r ← evalAt ⟨i, settings, root⟩ [] 0 p
  return ⟨r.value, p.declaredType, r.isSubstituted⟩

/-- The value of a path, or the default that takes its place. -/
def fetch (i : Introspector σ) (settings : Settings) (root : Value) (p : Path) : Run σ Value := do
  return (← p.evaluate i settings root).value

/-- The value of a path, or a fallback. -/
def fetchOr (i : Introspector σ) (settings : Settings) (root : Value) (p : Path)
    (fallback : Value) : Run σ Value := do
  let e ← p.evaluate i settings root
  if e.wantsFallback then
    Run.emit (.fellBack e.ty fallback)
    return fallback
  else return e.value

/-- The value of a path as a Lean value. -/
def fetchAs (α : Type) [OfValue α] (i : Introspector σ) (settings : Settings) (root : Value)
    (p : Path) : Run σ α := do
  let v ← p.fetch i settings root
  Run.ofExcept ((ofValue? v).mapError .conversion)

end Path

end AccessPath
