import AccessPath.Eval.Error
import AccessPath.Path.Basic

/-!
# Runs

A run evaluates something against a host whose objects it may change. It ends with a value or an
error, leaves a host state, and has a trace: which nodes were visited, what the introspector was
asked, where an error arose, and where a default or a fallback took the place of a value.
`Run.bind` runs the second part only if the first one succeeds, from the host that the first one
left, and joins the traces; with it runs are a lawful monad.

An `Action` is what the host itself does: it has no trace.
-/

namespace AccessPath

/-- What an introspector is asked. -/
inductive Query where
  | readMember (target : Value) (member : MemberSig)
  | invoke (receiver : Value) (method : MethodSig) (args : List Value)
  | invokeExtension (method : MethodSig) (receiver : Value)
  | zeroValue (ty : Ty)
  | emptySet (element : Ty)
  deriving Repr

/-- A step of a run. -/
inductive Event where
  /-- A node of that kind was found within the depth limit and is evaluated. -/
  | visited (kind : String) (depth : Nat)
  /-- The introspector is asked. -/
  | asked (query : Query)
  /-- An error arises, or an extension passes one on. -/
  | failed (error : EvalError)
  /-- The parent of a member or method is absent, and a default takes the value's place. -/
  | substituted (site : String) (ty : Ty)
  /-- A caller's fallback takes the place of a result. -/
  | fellBack (ty : Ty) (fallback : Value)
  deriving Repr

/-- How a run ends. -/
structure Outcome (σ α : Type) where
  result : Except EvalError α
  host : σ
  trace : List Event

/-- What a host does to its state, and how that ends. -/
abbrev Action (σ α : Type) := σ → Except EvalError α × σ

/-- The action that leaves the host alone. -/
def Action.ofExcept {σ α : Type} (r : Except EvalError α) : Action σ α := fun s => (r, s)

/-- An evaluation against a host. -/
def Run (σ α : Type) := σ → Outcome σ α

namespace Run

variable {σ α β : Type}

protected def pure (a : α) : Run σ α := fun s => ⟨.ok a, s, []⟩

protected def bind (x : Run σ α) (f : α → Run σ β) : Run σ β := fun s =>
  let o := x s
  match o.result with
  | .ok a =>
    let p := f a o.host
    ⟨p.result, p.host, o.trace ++ p.trace⟩
  | .error e => ⟨.error e, o.host, o.trace⟩

instance : Monad (Run σ) where
  pure := Run.pure
  bind := Run.bind

/-- The run that ends at once with a given result. -/
def ofExcept : Except EvalError α → Run σ α
  | .ok a => fun s => ⟨.ok a, s, []⟩
  | .error e => fun s => ⟨.error e, s, [.failed e]⟩

/-- The run that fails. -/
def fail (e : EvalError) : Run σ α := ofExcept (.error e)

/-- The run of one step. -/
def emit (e : Event) : Run σ Unit := fun s => ⟨.ok (), s, [e]⟩

/-- A host's action as a run. -/
def ofAction (a : Action σ α) : Run σ α := fun s => ofExcept (a s).1 (a s).2

theorem bind_of_ok {x : Run σ α} {f : α → Run σ β} {s : σ} {a : α} (h : (x s).result = .ok a) :
    (x >>= f) s =
      ⟨(f a (x s).host).result, (f a (x s).host).host, (x s).trace ++ (f a (x s).host).trace⟩ := by
  show Run.bind x f s = _
  simp only [Run.bind, h]

theorem bind_of_error {x : Run σ α} {f : α → Run σ β} {s : σ} {e : EvalError}
    (h : (x s).result = .error e) : (x >>= f) s = ⟨.error e, (x s).host, (x s).trace⟩ := by
  show Run.bind x f s = _
  simp only [Run.bind, h]

theorem pure_bind_run (a : α) (f : α → Run σ β) : (pure a : Run σ α) >>= f = f a := by
  funext s
  show Run.bind (Run.pure a) f s = f a s
  simp [Run.bind, Run.pure]

theorem bind_assoc_run {γ : Type} (x : Run σ α) (f : α → Run σ β) (g : β → Run σ γ) :
    x >>= f >>= g = x >>= fun a => f a >>= g := by
  funext s
  cases hx : (x s).result with
  | error e => rw [bind_of_error hx, bind_of_error (by rw [bind_of_error hx]), bind_of_error hx]
  | ok a =>
    rw [bind_of_ok hx]
    cases hf : (f a (x s).host).result with
    | error e => rw [bind_of_error (by rw [bind_of_ok hx, hf]), bind_of_error hf, bind_of_ok hx]
    | ok b =>
      rw [bind_of_ok (by rw [bind_of_ok hx, hf]), bind_of_ok hf, bind_of_ok hx, List.append_assoc]

theorem map_id_run (x : Run σ α) : id <$> x = x := by
  funext s
  show (x >>= fun a => pure (id a)) s = x s
  cases hx : (x s).result with
  | error e => rw [bind_of_error hx, ← hx]
  | ok a =>
    rw [bind_of_ok hx]
    simp [pure, Run.pure, ← hx]

instance : LawfulMonad (Run σ) := LawfulMonad.mk' (Run σ) map_id_run pure_bind_run bind_assoc_run

end Run

end AccessPath
