import AccessPath.Eval.Script

/-!
# How runs end

A run that binds two parts ends well only if both do, and fails with what the first failing part
fails with; the host is the one that the last part left.

Of a trace's events, the visits tell which nodes were evaluated, and the calls tell where the
introspector was given a value to work on.
-/

namespace AccessPath

namespace Event

/-- A node is evaluated. -/
def isVisit : Event → Bool
  | .visited .. => true
  | _ => false

/-- A member is read, or a method or an extension invoked. -/
def isCall : Event → Bool
  | .asked (.readMember ..) | .asked (.invoke ..) | .asked (.invokeExtension ..) => true
  | _ => false

end Event

/-- If the result is an error, it has the property. -/
def IfError {α : Type} (P : EvalError → Prop) (r : Except EvalError α) : Prop :=
  ∀ e, r = .error e → P e

theorem IfError.ok {α : Type} {P : EvalError → Prop} (a : α) : IfError P (.ok a) := by
  intro e h
  cases h

theorem IfError.error {α : Type} {P : EvalError → Prop} {e : EvalError} (h : P e) :
    IfError P (.error e : Except EvalError α) := by
  rintro _ ⟨⟩
  exact h

/-- The result is no error that blames the path. -/
abbrev NoUsageError {α : Type} (r : Except EvalError α) : Prop := IfError (·.isUsageError = false) r

namespace Run

variable {σ α β : Type}

theorem pure_apply (a : α) (s : σ) : (pure a : Run σ α) s = ⟨.ok a, s, []⟩ := rfl

theorem fail_apply (e : EvalError) (s : σ) :
    (fail e : Run σ α) s = ⟨.error e, s, [.failed e]⟩ := rfl

theorem fail_bind (e : EvalError) (f : α → Run σ β) : (fail e >>= f) = fail e := rfl

theorem emit_bind_apply (e : Event) (f : Unit → Run σ β) (s : σ) :
    (emit e >>= f) s = ⟨(f () s).result, (f () s).host, e :: (f () s).trace⟩ := rfl

/-- Both parts of a run that ends well end well. -/
theorem ok_of_bind_ok {x : Run σ α} {f : α → Run σ β} {s : σ} {b : β}
    (h : ((x >>= f) s).result = .ok b) :
    ∃ a, (x s).result = .ok a ∧ (f a (x s).host).result = .ok b := by
  cases hx : (x s).result with
  | error e => simp [bind_of_error hx] at h
  | ok a => exact ⟨a, rfl, by simpa [bind_of_ok hx] using h⟩

/-- What a run answers, passed through a function. -/
theorem bind_pure_apply (x : Run σ α) (g : α → β) (s : σ) :
    (x >>= fun a => pure (g a)) s = ⟨(x s).result.map g, (x s).host, (x s).trace⟩ := by
  cases hx : (x s).result with
  | error e => rw [bind_of_error hx]; rfl
  | ok a => rw [bind_of_ok hx]; simp [pure_apply, Except.map]

end Run

end AccessPath
