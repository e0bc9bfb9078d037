import AccessPath.Eval.Script
import AccessPath.Proofs.Runs

/-!
# Calls of a lambda

A script that is carried out calls its lambda on one value after the other, each time on the host as it is then
(`Script.calls`). Nothing else that a lambda would do matters to the run (`Script.run_congr`), and nothing else
that happens leaves a trace, but the error that the script may end with (`Script.run_trace`).
-/

namespace AccessPath

variable {σ α β : Type}

namespace Script

/-- The calls that are made of the lambda, in order: what it is called on, and the host that it is called on it
with. -/
def calls (lambda : Value → Run σ Value) : Script σ α → σ → List (Value × σ)
  | .done _, _ => []
  | .call item resume, s =>
    let o := lambda item s
    (item, s) :: (resume o.result).calls lambda o.host
  | .access next resume, s => (resume s).calls lambda (next s)

/-- The trace that an error leaves. -/
def failure : Except EvalError α → List Event
  | .ok _ => []
  | .error e => [.failed e]

variable {lambda : Value → Run σ Value} {s : σ}

/-- A script that is done does nothing but end. -/
theorem run_done (lambda : Value → Run σ Value) (r : Except EvalError α) (s : σ) :
    (Script.done r).run lambda s = ⟨r, s, failure r⟩ := by
  cases r <;> rfl

/-- A run has the traces of its calls, one after the other, and that of its own failure. -/
theorem run_trace (lambda : Value → Run σ Value) (x : Script σ α) (s : σ) :
    (x.run lambda s).trace =
      (x.calls lambda s).flatMap (fun call => (lambda call.1 call.2).trace) ++
        failure (x.run lambda s).result := by
  induction x generalizing s with
  | done r => simp [run_done, calls]
  | call item resume ih =>
    simp only [run, calls, List.flatMap_cons, List.append_assoc]
    rw [ih]
  | access next resume ih => exact ih s (next s)

/-- Lambdas that do the same wherever the one is called are carried out alike. -/
theorem run_congr {f g : Value → Run σ Value} {x : Script σ α}
    (h : ∀ call ∈ x.calls f s, f call.1 call.2 = g call.1 call.2) : x.run f s = x.run g s := by
  induction x generalizing s with
  | done r => rfl
  | call item resume ih =>
    obtain ⟨hfirst, hrest⟩ := List.forall_mem_cons.mp h
    simp only [run]
    rw [← hfirst, ih _ hrest]
  | access next resume ih => exact ih s h

/-- What goes on behind a script that ends well makes the further calls. -/
theorem calls_bind_of_ok {x : Script σ α} {f : α → Script σ β} {a : α} (h : (x.run lambda s).result = .ok a) :
    (x >>= f).calls lambda s = x.calls lambda s ++ (f a).calls lambda (x.run lambda s).host := by
  show (x.bind f).calls lambda s = _
  induction x generalizing s with
  | done r =>
    cases r with
    | ok b => cases h; rfl
    | error e => cases h
  | call item resume ih =>
    simp only [Script.bind, calls, run, List.cons_append]
    rw [ih _ h]
  | access next resume ih => exact ih s h

/-- Behind a script that fails there are none. -/
theorem calls_bind_of_error {x : Script σ α} {f : α → Script σ β} {e : EvalError}
    (h : (x.run lambda s).result = .error e) : (x >>= f).calls lambda s = x.calls lambda s := by
  show (x.bind f).calls lambda s = _
  induction x generalizing s with
  | done r =>
    cases r with
    | ok b => cases h
    | error e => rfl
  | call item resume ih =>
    simp only [Script.bind, calls]
    rw [ih _ h]
  | access next resume ih => exact ih s h

end Script

end AccessPath
