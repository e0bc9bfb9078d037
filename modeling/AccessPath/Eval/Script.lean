import AccessPath.Eval.Run

/-!
# Scripts of extensions

An extension that is given a lambda may call it, any number of times, on any values, and go on
according to what each call answers; it knows nothing else of the lambda. A `Script` is such a
procedure: it ends, calls the lambda, or reads and changes the host. `Script.run` carries it out with
a given lambda, one part of a script after the other (`run_bind`).
-/

namespace AccessPath

inductive Script (σ α : Type) where
  | done (result : Except EvalError α)
  | call (item : Value) (resume : Except EvalError Value → Script σ α)
  | access (next : σ → σ) (resume : σ → Script σ α)

namespace Script

variable {σ α β : Type}

protected def bind : Script σ α → (α → Script σ β) → Script σ β
  | .done (.ok a), f => f a
  | .done (.error e), _ => .done (.error e)
  | .call item resume, f => .call item fun r => (resume r).bind f
  | .access next resume, f => .access next fun s => (resume s).bind f

instance : Monad (Script σ) where
  pure a := .done (.ok a)
  bind := Script.bind

/-- The script that fails. -/
def fail (e : EvalError) : Script σ α := .done (.error e)

/-- Calls the lambda on a value. If the call fails, so does the script. -/
def ask (item : Value) : Script σ Value := .call item .done

/-- Carries a script out with a lambda. -/
def run (lambda : Value → Run σ Value) : Script σ α → Run σ α
  | .done result => Run.ofExcept result
  | .call item resume => fun s =>
    let o := lambda item s
    let p := (resume o.result).run lambda o.host
    ⟨p.result, p.host, o.trace ++ p.trace⟩
  | .access next resume => fun s => (resume s).run lambda (next s)

theorem run_pure (lambda : Value → Run σ Value) (a : α) :
    (pure a : Script σ α).run lambda = pure a := rfl

theorem run_bind (lambda : Value → Run σ Value) (x : Script σ α) (f : α → Script σ β) :
    (x >>= f).run lambda = x.run lambda >>= fun a => (f a).run lambda := by
  show (x.bind f).run lambda = _
  induction x with
  | done result =>
    cases result with
    | ok a => exact (pure_bind (m := Run σ) a fun a => (f a).run lambda).symm
    | error e => rfl
  | call item resume ih =>
    funext s
    let o := lambda item s
    have step := congrFun (ih o.result) o.host
    cases h : ((resume o.result).run lambda o.host).result with
    | error e =>
      rw [Run.bind_of_error h] at step
      rw [Run.bind_of_error (by exact h)]
      simp only [Script.bind, run]
      rw [step]
    | ok a =>
      rw [Run.bind_of_ok h] at step
      rw [Run.bind_of_ok (by exact h)]
      simp only [Script.bind, run]
      rw [step, List.append_assoc]
  | access next resume ih =>
    funext s
    simp only [Script.bind, run, ih]
    rfl

end Script

end AccessPath
