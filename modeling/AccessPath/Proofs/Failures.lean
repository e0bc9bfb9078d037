import AccessPath.Proofs.Fallback
import AccessPath.Proofs.Invariants
import AccessPath.Proofs.Sequences

/-!
# What evaluations fail with

An error that an evaluation ends with comes from a procedure of the introspector, from the depth limit, or
from a node that stands where it cannot be evaluated. So what is true of the errors of all procedures, and
of the others as far as the path can lead to them, is true of the error that an evaluation ends with
(`Path.evaluate_failsOnly`).

A procedure that is given a lambda may well end with an error of the lambda. What is asked of its own errors
is asked only for lambdas whose errors are such (`Script.FailsOnly`).
-/

namespace AccessPath

variable {σ α β : Type} {P : EvalError → Prop}

namespace EvalError

/-- A node stands where it cannot be evaluated. -/
def isShapeError : EvalError → Bool
  | .unsupportedNode _ | .malformedExtensionCall _ => true
  | _ => false

/-- Such an error blames the path. -/
theorem isShapeError_of_not_usageError {e : EvalError} (h : e.isUsageError = false) :
    e.isShapeError = false := by
  cases e <;> first | rfl | cases h

end EvalError

namespace Run

/-- From whichever host the run starts, an error that it ends with has the property. -/
def FailsOnly (P : EvalError → Prop) (x : Run σ α) : Prop := ∀ s, IfError P (x s).result

theorem FailsOnly.pure (a : α) : (pure a : Run σ α).FailsOnly P := fun _ => .ok a

theorem FailsOnly.emit (e : Event) : (emit e : Run σ Unit).FailsOnly P := fun _ => .ok ()

theorem FailsOnly.ofExcept {r : Except EvalError α} (h : IfError P r) :
    (ofExcept r : Run σ α).FailsOnly P := by
  intro s
  cases r <;> exact h

theorem FailsOnly.ofAction {a : Action σ α} (h : ∀ s, IfError P (a s).1) : (ofAction a).FailsOnly P :=
  fun s => FailsOnly.ofExcept (h s) (a s).2

theorem FailsOnly.bind {x : Run σ α} {f : α → Run σ β} (hx : x.FailsOnly P)
    (hf : ∀ a, (f a).FailsOnly P) : (x >>= f).FailsOnly P := by
  intro s
  cases h : (x s).result with
  | error e =>
    rw [bind_of_error h]
    exact .error (hx s e h)
  | ok a =>
    rw [bind_of_ok h]
    exact hf a (x s).host

end Run

namespace Script

/-- If the errors of its calls have the property, so has an error that the script ends with. -/
def FailsOnly (P : EvalError → Prop) : Script σ α → Prop
  | .done r => IfError P r
  | .call _ resume => ∀ r, IfError P r → (resume r).FailsOnly P
  | .access _ resume => ∀ s, (resume s).FailsOnly P

theorem FailsOnly.run {x : Script σ α} (hx : x.FailsOnly P) {lambda : Value → Run σ Value}
    (hlambda : ∀ item, (lambda item).FailsOnly P) : (x.run lambda).FailsOnly P := by
  induction x with
  | done r => exact Run.FailsOnly.ofExcept hx
  | call item resume ih =>
    intro s
    exact ih _ (hx _ (hlambda item s)) (lambda item s).host
  | access next resume ih => exact fun s => ih s (hx s) (next s)

theorem Plain.failsOnly (hP : ∀ e, e.isUsageError = false → P e) {x : Script σ α} (hx : x.Plain) :
    x.FailsOnly P := by
  induction x with
  | done r => exact fun e he => hP e (hx e he)
  | call item resume ih =>
    intro r hr
    cases r with
    | ok v => exact ih (.ok v) (hx.2 v)
    | error e =>
      rw [hx.1 e]
      exact IfError.error (hr e rfl)
  | access next resume ih => exact hx.elim

end Script

/-- The errors of all procedures have the property; with a lambda, if the lambda's have it. -/
structure Introspector.FailsOnly (P : EvalError → Prop) (i : Introspector σ) : Prop where
  readMember : ∀ v m s, IfError P (i.readMember v m s).1
  invoke : ∀ v m args s, IfError P (i.invoke v m args s).1
  invokeExtension : ∀ m v s, IfError P (i.invokeExtension m v s).1
  invokeExtensionWith : ∀ m v, (i.invokeExtensionWith m v).FailsOnly P
  zeroValue : ∀ ty, IfError P (i.zeroValue ty)

theorem Introspector.FailsOnly.default {i : Introspector σ} (hi : i.FailsOnly P) (ty : Ty) :
    IfError P (i.default ty) := by
  have hzero := hi.zeroValue ty
  cases ty <;> first | exact .ok _ | exact hzero

namespace Scene

variable {c : Scene σ}

theorem substitute_failsOnly (hi : c.introspector.FailsOnly P) (site : String) (ty : Ty) :
    (c.substitute site ty).FailsOnly P := by
  intro s
  have hdefault := hi.default ty
  rw [substitute_apply]
  cases h : c.introspector.default ty with
  | ok v => exact .ok _
  | error e => exact .error (hdefault e h)

theorem asked_failsOnly {query : Query} {answer : Run σ Value} (h : answer.FailsOnly P) :
    (do Run.emit (.asked query); return Resolved.read (← answer)).FailsOnly P :=
  (Run.FailsOnly.emit _).bind fun _ => h.bind fun _ => .pure _

theorem failsOnly_invariant (hi : c.introspector.FailsOnly P) :
    c.Invariant fun _ x => x.FailsOnly P where
  pure := .pure
  bind := .bind
  substitute := substitute_failsOnly hi
  readMember v m _ := asked_failsOnly (.ofAction (hi.readMember v m))
  invoke v m args _ := asked_failsOnly (.ofAction (hi.invoke v m args))
  invokeExtension m v _ := asked_failsOnly (.ofAction (hi.invokeExtension m v))
  invokeExtensionWith m v _ _ hlambda := asked_failsOnly ((hi.invokeExtensionWith m v).run hlambda)

end Scene

namespace Path

theorem isShapeError_of_mem_shapeErrors {p : Path} {e : EvalError} (h : e ∈ p.shapeErrors) :
    e.isShapeError = true := by
  induction p using nodeInduction with
  | constant | parameter => cases h
  | memberAccess t m iht => exact iht h
  | methodCall r m args ihr ihargs =>
    simp only [shapeErrors, shapeErrorsAll_eq_flatMap, List.mem_append, List.mem_flatMap] at h
    rcases h with h | ⟨a, ha, h⟩
    · exact ihr h
    · exact ihargs a ha h
  | noReceiver m =>
    cases List.mem_singleton.mp h
    rfl
  | extensionCall m r rest ihr ihrest ihbody =>
    cases rest with
    | nil => exact ihr (by simpa [shapeErrors] using h)
    | cons a rest =>
      cases rest with
      | nil =>
        cases a with
        | lambda x ty b =>
          rcases List.mem_append.mp h with h | h
          · exact ihr h
          · exact ihbody x ty b List.mem_cons_self h
        | _ =>
          rcases List.mem_append.mp h with h | h
          · exact ihr h
          · cases List.mem_singleton.mp h
            rfl
      | cons a' rest =>
        simp only [shapeErrors, List.mem_append, List.mem_singleton] at h
        rcases h with h | rfl
        · exact ihr h
        · rfl
  | lambda x ty b ih =>
    cases List.mem_singleton.mp h
    rfl

/-- A property of all errors that the procedures make, and of those that the path's own shape and depth can
lead to, is one of the error that an evaluation ends with. -/
theorem evaluate_failsOnly {i : Introspector σ} (hi : i.FailsOnly P) {settings : Settings}
    {p : Path} (hdepth : P (.depthExceeded settings.maxDepth) ∨ p.height ≤ settings.maxDepth)
    (hshape : ∀ e ∈ p.shapeErrors, P e) (root : Value) : (p.evaluate i settings root).FailsOnly P := by
  have hvisit : ∀ q d, d ≤ 0 + p.height → (Scene.visit ⟨i, settings, root⟩ q d).FailsOnly P := by
    intro q d hd
    unfold Scene.visit
    split
    · next hlt =>
      have hlimit : P (.depthExceeded settings.maxDepth) :=
        hdepth.resolve_right fun hle => by simp only at hlt; omega
      exact .ofExcept (.error hlimit)
    · exact .emit _
  have hpath : (p.evalAt ⟨i, settings, root⟩ [] 0).FailsOnly P :=
    evalAt_invariant (Scene.failsOnly_invariant hi) hvisit fun e he => .ofExcept (.error (hshape e he))
  exact hpath.bind fun _ => .pure _

end Path

namespace Registry

/-- The errors of the registered methods and extensions have the property. Getters make none. -/
structure FailsOnly (P : EvalError → Prop) (r : Registry σ) : Prop where
  method : ∀ object known name m, r.classOf object = .ok known → known.methods.lookup name = some m →
    ∀ args s, IfError P (m.body object args s).1
  alone : ∀ name x, r.extensions.lookup name = some x → ∀ m v s, IfError P (x.alone m v s).1
  withLambda : ∀ name x, r.extensions.lookup name = some x → ∀ m v, (x.withLambda m v).FailsOnly P

theorem classOf_error (r : Registry σ) (object : ObjectRef) : NoUsageError (r.classOf object) := by
  intro e he
  unfold classOf at he
  split at he <;> cases he
  rfl

theorem checkHost_error (host : HostType) (typeName : String) (object : ObjectRef) :
    NoUsageError (checkHost host typeName object) := by
  intro e he
  unfold checkHost at he
  split at he <;> cases he
  rfl

theorem checkArity_error (typeName method : String) (arity count : Nat) :
    NoUsageError (checkArity typeName method arity count) := by
  intro e he
  unfold checkArity at he
  split at he <;> cases he
  rfl

theorem invokeBuiltin_error (v : Value) (m : MethodSig) (args : List Value) :
    NoUsageError (invokeBuiltin v m args) := by
  intro e he
  unfold invokeBuiltin at he
  split at he <;> cases he <;> rfl

theorem getter_error (g : Getter σ) (object : ObjectRef) (s : σ) :
    NoUsageError (g.apply object s).1 := by
  unfold Getter.apply
  split
  · next hhost => exact .error (checkHost_error _ _ _ _ hhost)
  · exact .ok _

theorem readMember_error (r : Registry σ) (v : Value) (m : MemberSig) (s : σ) :
    NoUsageError (r.readMember v m s).1 := by
  cases v with
  | object object =>
    simp only [readMember]
    cases hclass : r.classOf object with
    | error e => exact .error (classOf_error r object e hclass)
    | ok known =>
      cases hgetter : known.getters.lookup m.name with
      | none => simp only [hgetter]; exact .error rfl
      | some g => simp only [hgetter]; exact getter_error g object s
  | record typeName fields =>
    simp only [readMember]
    cases hfield : fields.lookup m.name with
    | none => exact .error rfl
    | some v => exact .ok v
  | _ => exact .error rfl

variable {r : Registry σ}

theorem FailsOnly.invoke (hP : ∀ e, e.isUsageError = false → P e) (h : r.FailsOnly P) (v : Value)
    (m : MethodSig) (args : List Value) (s : σ) : IfError P (r.invoke v m args s).1 := by
  have hbuiltin : IfError P (invokeBuiltin v m args) := fun e he => hP e (invokeBuiltin_error v m args e he)
  cases v with
  | object object =>
    simp only [Registry.invoke]
    cases hclass : r.classOf object with
    | error e => exact .error (hP e (classOf_error r object e hclass))
    | ok known =>
      cases hmethod : known.methods.lookup m.name with
      | none => simp only [hmethod]; exact hbuiltin
      | some method =>
        simp only [hmethod, Method.apply]
        split
        · next harity => exact .error (hP _ (checkArity_error _ _ _ _ _ harity))
        · split
          · next hhost => exact .error (hP _ (checkHost_error _ _ _ _ hhost))
          · exact h.method object known m.name method hclass hmethod args s
  | _ => exact hbuiltin

/-- The errors of a registry's own are none that blame the path. -/
theorem FailsOnly.introspector (hP : ∀ e, e.isUsageError = false → P e) (h : r.FailsOnly P) :
    r.introspector.FailsOnly P where
  readMember v m s e he := hP e (readMember_error r v m s e he)
  invoke := h.invoke hP
  invokeExtension m v s := by
    obtain hcall | ⟨x, hx, hcall⟩ := r.invokeExtension_cases m v
    · rw [hcall]
      exact .error (hP _ rfl)
    · rw [hcall]
      exact h.alone m.name x hx m v s
  invokeExtensionWith m v := by
    obtain hcall | ⟨x, hx, hcall⟩ := r.invokeExtensionWith_cases m v
    · rw [hcall]
      exact IfError.error (hP _ rfl)
    · rw [hcall]
      exact h.withLambda m.name x hx m v
  zeroValue ty e he := by
    obtain ⟨name, rfl⟩ := zeroByLayout_error he
    exact hP _ rfl

/-- The standard extensions make none either. -/
theorem withSequences_failsOnly (hP : ∀ e, e.isUsageError = false → P e) :
    (withSequences : Registry σ).FailsOnly P where
  method object known name m hclass := by cases hclass
  alone name x hx m v s e he :=
    hP e ((Sequence.extensions_plain _ (Table.mem_of_lookup hx)).aloneError m v s e he)
  withLambda name x hx m v :=
    ((Sequence.extensions_plain _ (Table.mem_of_lookup hx)).withLambda m v).failsOnly hP

end Registry

end AccessPath
