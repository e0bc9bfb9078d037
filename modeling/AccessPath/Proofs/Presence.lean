import AccessPath.Path.Fetch
import AccessPath.Proofs.Invariants
import AccessPath.Registry.Introspect

/-!
# What an introspector is given

An evaluation reads members of present values alone, and calls methods and extensions on present values
alone: absence is answered before an introspector could be asked (`Path.evalAt_asksPresent`). So it
cannot matter what an introspector would do with an absent value (`Path.evaluate_asks_present`). In the
body of a lambda the same holds of a run that starts over with another item, absent or not.
-/

namespace AccessPath

variable {σ α β : Type}

/-- Where the event is a query, it is not about an absent value. -/
def Event.AsksPresent : Event → Prop
  | .asked query => query.subject? ≠ some .absent
  | _ => True

theorem Path.evalAt_asksPresent (c : Scene σ) (bs : Bindings) (d : Nat) (p : Path) :
    (p.evalAt c bs d).Emits Event.AsksPresent := by
  have hinvariant := c.emits_invariant (P := Event.AsksPresent) (fun _ => trivial) (fun _ h => h)
    fun _ _ => trivial
  exact evalAt_invariant hinvariant (fun q d' _ => Scene.visit_emits trivial fun _ => trivial)
    fun e _ => .ofExcept (fun _ => trivial) _

/-! What it would do otherwise -/

/-- The introspectors make the same defaults and answer every call on a present value alike. With a
lambda they are compared by how the call ends, whatever the lambda. -/
structure Introspector.AgreeOnPresent (i i' : Introspector σ) : Prop where
  zeroValue : i.zeroValue = i'.zeroValue
  emptySet : i.emptySet = i'.emptySet
  readMember : ∀ v m, v ≠ .absent → i.readMember v m = i'.readMember v m
  invoke : ∀ v m args, v ≠ .absent → i.invoke v m args = i'.invoke v m args
  invokeExtension : ∀ m v, v ≠ .absent → i.invokeExtension m v = i'.invokeExtension m v
  invokeExtensionWith : ∀ m v, v ≠ .absent → ∀ (lambda : Value → Run σ Value) (s : σ),
    let o := (i.invokeExtensionWith m v).run lambda s
    let o' := (i'.invokeExtensionWith m v).run lambda s
    o.result = o'.result ∧ o.host = o'.host

namespace Introspector

variable {i i' : Introspector σ}

theorem AgreeOnPresent.agree (h : i.AgreeOnPresent i') : i.Agree .endings i' := by
  have hpresent : ∀ {v : Value}, v.isAbsent = false → v ≠ .absent := Value.isAbsent_eq_false_iff.mp
  have hsame : ∀ {a a' : Action σ Value}, a = a' → a.Agree .endings a' := by
    rintro a _ rfl s -
    exact ⟨rfl, trivial, Comparison.sameResult_refl _ (fun _ => rfl) _⟩
  refine ⟨fun v m hv => hsame (h.readMember v m (hpresent hv)),
    fun v m args hv => hsame (h.invoke v m args (hpresent hv)),
    fun m v hv => hsame (h.invokeExtension m v (hpresent hv)), fun ty => ?_⟩
  cases ty <;> simp [default, h.zeroValue, h.emptySet]

/-- Given lambdas that end alike, the calls end alike: the first introspector does the same with either
lambda, and the second one does with the second lambda what the first one does. -/
theorem AgreeOnPresent.run_agree (h : i.AgreeOnPresent i') {m : MethodSig} {v : Value}
    (hv : v ≠ .absent) {f g : Value → Run σ Value} (hfg : ∀ item, Run.Agree .endings Eq (f item) (g item)) :
    Run.Agree .endings Eq ((i.invokeExtensionWith m v).run f) ((i'.invokeExtensionWith m v).run g) := by
  intro s hs
  have hscript : (i.invokeExtensionWith m v).Agree .endings (i.invokeExtensionWith m v) :=
    Script.agree_refl (fun _ => trivial) (fun _ _ he => he) _
  obtain ⟨hresult, hhost, -, -⟩ := hscript.run hfg s hs
  obtain ⟨hresult', hhost'⟩ := h.invokeExtensionWith m v hv g s
  rw [hresult'] at hresult
  exact ⟨hresult, hhost.trans hhost', trivial, by simp [Comparison.SameTrace, Comparison.endings]⟩

end Introspector

namespace Path

/-- Where two introspectors agree on present values, every node ends alike. -/
theorem evalAt_agreeOnPresent {i i' : Introspector σ} (h : i.AgreeOnPresent i') (settings : Settings)
    (root : Value) (bs : Bindings) (d : Nat) (p : Path) :
    Run.Agree .endings (Comparison.endings : Comparison σ).SameAnswer
      (p.evalAt ⟨i, settings, root⟩ bs d) (p.evalAt ⟨i', settings, root⟩ bs d) := by
  have hi : i.Agree .endings i' := h.agree
  have hvisit : ∀ (q : Path) (d : Nat), Run.Agree .endings Eq
      (Scene.visit ⟨i, settings, root⟩ q d) (Scene.visit ⟨i', settings, root⟩ q d) :=
    fun q d => Scene.visit_agree rfl rfl
  induction p using nodeInduction generalizing bs d with
  | constant v ty =>
    rw [evalAt, evalAt]
    exact (hvisit _ d).bind fun _ _ _ => .pure (Comparison.endings.sameAnswer_refl _)
  | parameter x ty =>
    rw [evalAt, evalAt]
    exact (hvisit _ d).bind fun _ _ _ => .pure (Comparison.endings.sameAnswer_refl _)
  | memberAccess t m iht =>
    exact onto_agree (.member m) (.member m) hi (hvisit _ d) (iht bs (d + 1)) (Link.agree_member hi m)
  | methodCall r m args ihr ihargs =>
    have hargs := evalAll_agree (List.forall₂_same.mpr fun a ha => ihargs a ha bs (d + 1))
    exact onto_agree (.call m args) (.call m args) hi (hvisit _ d) (ihr bs (d + 1))
      (Link.agree_call hi m hargs)
  | noReceiver m =>
    rw [evalAt, evalAt]
    exact (hvisit _ d).bind fun _ _ _ => .fail rfl
  | extensionCall m r rest ihr ihrest ihbody =>
    have hrest : RestAgree .endings .endings ⟨i, settings, root⟩ ⟨i', settings, root⟩ bs bs d d m rest
        rest := by
      refine .same fun x ty b hrest v => ?_
      subst hrest
      exact ihbody x ty b List.mem_cons_self ((x, v) :: bs) (d + 2)
    have hwith : ∀ v : Value, v.isAbsent = false → ∀ f g : Value → Run σ Value,
        (∀ item, Run.Agree .endings Eq (f item) (g item)) →
        Run.Agree .endings Eq ((i.invokeExtensionWith m v).run f)
          ((i'.invokeExtensionWith m v).run g) := by
      intro v hv f g hfg
      exact h.run_agree (Value.isAbsent_eq_false_iff.mp hv) hfg
    exact onto_agree (.extension m rest) (.extension m rest) hi (hvisit _ d) (ihr bs (d + 1))
      (Link.agree_extension_of hi hwith hrest)
  | lambda x ty b ih =>
    rw [evalAt, evalAt]
    exact (hvisit _ d).bind fun _ _ _ => .fail rfl

/-- An introspector is never given an absent value: no member of one is read, and no method or extension
called on one. So two introspectors that agree on present values and on defaults give every evaluation
the same result, on the same host, whatever they would do with an absent value. -/
theorem evaluate_asks_present (i : Introspector σ) (settings : Settings) (root : Value) (p : Path)
    (s : σ) :
    (∀ query, .asked query ∈ (p.evaluate i settings root s).trace → query.subject? ≠ some .absent) ∧
    ∀ i' : Introspector σ, i.AgreeOnPresent i' →
      (p.evaluate i settings root s).result = (p.evaluate i' settings root s).result ∧
      (p.evaluate i settings root s).host = (p.evaluate i' settings root s).host := by
  constructor
  · intro query hquery
    have hemits : (p.evaluate i settings root).Emits Event.AsksPresent :=
      (evalAt_asksPresent ⟨i, settings, root⟩ [] 0 p).bind fun _ => .pure _
    exact hemits s _ hquery
  · intro i' h
    have hagree : Run.Agree .endings Eq (p.evaluate i settings root) (p.evaluate i' settings root) := by
      refine (evalAt_agreeOnPresent h settings root [] 0 p).bind fun r r' hr => .pure ?_
      rw [hr.1, hr.2 trivial]
    obtain ⟨hresult, hhost, -, -⟩ := hagree s trivial
    exact ⟨hresult.eq fun _ _ he => he, hhost⟩

/-- The names of two people, one of them missing, as read by an introspector that refuses to be given
an absent value. -/
theorem evaluate_with_refusal :
    let i : Introspector Unit := Registry.withSequences.introspector
    let refusal : EvalError := .invocation "absent"
    let strict : Introspector Unit := { i with
      readMember := fun v m => if v.isAbsent then Action.ofExcept (.error refusal) else i.readMember v m
      invokeExtensionWith := fun m v =>
        if v.isAbsent then Script.fail refusal else i.invokeExtensionWith m v }
    let names : Path := (parameter "people" (.list .any)).extensionWith "select"
      ⟨"x", .any, (parameter "x" .any).member "name" .string⟩ (.list .string)
    let people : Value := .list [.absent, .record "Person" [("name", .string "Ada")]]
    i.AgreeOnPresent strict ∧
      (names.evaluate strict {} people ()).result =
        .ok ⟨.list [.string "", .string "Ada"], .list .string, false⟩ := by
  intro i refusal strict names people
  have hpresent : ∀ {v : Value}, v ≠ .absent → v.isAbsent = false := Value.isAbsent_eq_false_iff.mpr
  have hagree : i.AgreeOnPresent strict := by
    refine ⟨rfl, rfl, fun v m hv => ?_, fun _ _ _ _ => rfl, fun _ _ _ => rfl, fun m v hv lambda s => ?_⟩
    · simp [strict, hpresent hv]
    · simp [strict, hpresent hv]
  have hlike := ((evaluate_asks_present i {} people names ()).2 strict hagree).1
  exact ⟨hagree, hlike.symm⟩

end Path

end AccessPath
