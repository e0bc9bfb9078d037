import AccessPath.Proofs.Chain
import AccessPath.Registry.Introspect

/-!
# The default policy

Which declared types have a present default: a string, the value types and the sets. For every other
type an absent parent is answered by an absent value, and nothing is asked of the introspector
(`Scene.substitute_of_not_present`). A substitution never touches the host.

The zero values of registries and of introspectors that leave the built-in ones alone are present for
every value type, and a registry fails to make one only for a struct.
-/

namespace AccessPath

variable {σ : Type}

/-- The default for the type takes the place of a missing value by a present one. -/
def Ty.hasPresentDefault : Ty → Bool
  | .string | .bool | .int | .long | .double | .struct _ | .set _ => true
  | _ => false

/-- An introspector whose zero values and empty sets are those of a registry, or the built-in ones. -/
def Introspector.Standard (i : Introspector σ) : Prop :=
  (∃ r : Registry σ, i = r.introspector) ∨
    (i.zeroValue = zeroBuiltin ∧ i.emptySet = fun element => (ValueSet.empty element).toValue)

theorem Registry.standard_introspector (r : Registry σ) : r.introspector.Standard :=
  .inl ⟨r, rfl⟩

theorem zeroBuiltin_present {ty : Ty} {v : Value} (hty : ty.isValueType = true)
    (h : zeroBuiltin ty = .ok v) : v.isAbsent = false := by
  cases ty <;> cases h <;> first | rfl | cases hty

/-- The zero value of a value type is present, whatever the layouts. -/
theorem zeroByLayout_present {layouts : Table String FieldLayout} {ty : Ty} {v : Value}
    (hty : ty.isValueType = true) (h : zeroByLayout layouts ty = .ok v) : v.isAbsent = false := by
  cases ty with
  | struct name =>
    rw [zeroByLayout] at h
    split at h
    · cases h
    · next fields _ =>
      simp only [bind, Except.bind] at h
      split at h
      · cases h
      · cases h
        rfl
  | _ => exact zeroBuiltin_present hty (by simpa [zeroByLayout] using h)

theorem zeroByLayout_of_not_struct (layouts : Table String FieldLayout) {ty : Ty}
    (h : ∀ name, ty ≠ .struct name) : zeroByLayout layouts ty = zeroBuiltin ty := by
  cases ty with
  | struct name => exact absurd rfl (h name)
  | _ => rw [zeroByLayout]; exact h

/-- A list of results fails with what one of its members fails with. -/
theorem exists_error_of_mapM {α β ε : Type} {f : α → Except ε β} {e : ε} :
    {l : List α} → l.mapM f = .error e → ∃ a ∈ l, f a = .error e
  | [], h => by cases h
  | a :: l, h => by
    rw [List.mapM_cons] at h
    cases ha : f a with
    | error e' =>
      rw [ha] at h
      cases h
      exact ⟨a, by simp, ha⟩
    | ok b =>
      rw [ha] at h
      cases hl : l.mapM f with
      | error e' =>
        rw [hl] at h
        cases h
        obtain ⟨x, hx, hfx⟩ := exists_error_of_mapM hl
        exact ⟨x, by simp [hx], hfx⟩
      | ok bs =>
        rw [hl] at h
        cases h

/-- Where a zero value is missing, the error is that a type is not registered. -/
theorem zeroByLayout_error {layouts : Table String FieldLayout} {ty : Ty} {e : EvalError}
    (h : zeroByLayout layouts ty = .error e) : ∃ name, e = .unregisteredType name := by
  induction hn : layouts.length using Nat.strongRecOn generalizing layouts ty with
  | _ n ih =>
  cases ty with
  | struct name =>
    rw [zeroByLayout] at h
    split at h
    · cases h
      exact ⟨name, rfl⟩
    · next fields hfields =>
      simp only [bind, Except.bind] at h
      split at h
      · next e' hmap =>
        cases h
        obtain ⟨field, -, hfield⟩ := exists_error_of_mapM hmap
        split at hfield
        · next e'' hzero =>
          cases hfield
          exact ih _ (hn ▸ length_layoutsBut_lt hfields) hzero rfl
        · cases hfield
      · cases h
  | _ => simp [zeroByLayout, zeroBuiltin] at h

namespace Introspector

theorem Standard.zeroValue_present {i : Introspector σ} (hi : i.Standard) {ty : Ty} {v : Value}
    (hty : ty.isValueType = true) (h : i.zeroValue ty = .ok v) : v.isAbsent = false := by
  rcases hi with ⟨r, rfl⟩ | ⟨hzero, -⟩
  · exact zeroByLayout_present hty h
  · exact zeroBuiltin_present hty (hzero ▸ h)

theorem Standard.emptySet_eq {i : Introspector σ} (hi : i.Standard) (element : Ty) :
    i.emptySet element = .set element [] := by
  rcases hi with ⟨r, rfl⟩ | ⟨-, hset⟩
  · rfl
  · rw [hset]
    rfl

/-- A type without a present default is answered by absence, and the introspector is not asked. -/
theorem default_of_not_present (i : Introspector σ) {ty : Ty} (h : ty.hasPresentDefault = false) :
    i.default ty = .ok .absent ∧ defaultQuery? ty = none := by
  cases ty <;> first | exact ⟨rfl, rfl⟩ | cases h

/-- A type with a present default is answered by a present value, if by any. -/
theorem Standard.default_present {i : Introspector σ} (hi : i.Standard) {ty : Ty} {v : Value}
    (hty : ty.hasPresentDefault = true) (h : i.default ty = .ok v) : v.isAbsent = false := by
  cases ty with
  | string => cases h; rfl
  | set element =>
    cases h
    rw [hi.emptySet_eq]
    rfl
  | bool | int | long | double | struct name => exact hi.zeroValue_present rfl h
  | _ => cases hty

end Introspector

/-- The default policy of a registry fails only for a struct type. -/
theorem Registry.default_error {r : Registry σ} {ty : Ty} {e : EvalError}
    (h : r.introspector.default ty = .error e) : ∃ name, ty = .struct name := by
  have hzero : r.introspector.zeroValue = zeroByLayout r.layouts := rfl
  cases ty with
  | struct name => exact ⟨name, rfl⟩
  | _ => simp [Introspector.default, Ty.isValueType, hzero, zeroByLayout, zeroBuiltin] at h

namespace Scene

/-- What a substitution asks, and what it puts in the place of the missing value. -/
def substitution (c : Scene σ) (site : String) (ty : Ty) : List Event :=
  (Introspector.defaultQuery? ty).toList.map .asked ++
    match c.introspector.default ty with
    | .ok _ => [.substituted site ty]
    | .error e => [.failed e]

/-- A substitution answers what the policy says, and leaves the host alone. -/
theorem substitute_apply (c : Scene σ) (site : String) (ty : Ty) (s : σ) :
    c.substitute site ty s =
      ⟨(c.introspector.default ty).map .substituted, s, c.substitution site ty⟩ := by
  unfold substitute substitution
  cases hquery : Introspector.defaultQuery? ty <;> cases hdefault : c.introspector.default ty <;> rfl

/-- Absence is handed on where the declared type has no present default. -/
theorem substitute_of_not_present (c : Scene σ) (site : String) {ty : Ty}
    (h : ty.hasPresentDefault = false) (s : σ) :
    c.substitute site ty s = ⟨.ok (.substituted .absent), s, [.substituted site ty]⟩ := by
  obtain ⟨hdefault, hquery⟩ := c.introspector.default_of_not_present h
  rw [substitute_apply, substitution, hdefault, hquery]
  rfl

end Scene

end AccessPath
