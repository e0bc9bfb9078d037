import AccessPath.Proofs.Failures

/-!
# The depth limit

The limit is a guard: it decides whether an evaluation goes through, and nothing else. No node is visited
deeper than the path's height, so a limit of at least that height is never met; and an evaluation that does
not end at its limit is the very same under every greater limit, even if there are nodes beyond that it does
not reach (`Path.evaluate_depth_guard`).

Two things are asked of the extensions. One that is given a lambda returns the error of a call that fails
(`Script.ReturnsErrors`): it would otherwise notice the limit and go on. And no procedure makes an error of
its own that says that the limit is exceeded.
-/

namespace AccessPath

variable {σ α β : Type}

namespace Script

/-- The script may end with this result, after calls that were answered so. -/
inductive Ends : Script σ α → List (Except EvalError Value) → Except EvalError α → Prop
  | done (r : Except EvalError α) : Ends (.done r) [] r
  | call {item resume answer answers r} (rest : Ends (resume answer) answers r) :
      Ends (.call item resume) (answer :: answers) r
  | access {next resume answers r} (s : σ) (rest : Ends (resume s) answers r) :
      Ends (.access next resume) answers r

/-- However the calls are answered, if one fails with this error, so does the script. -/
def Returns (e : EvalError) (x : Script σ α) : Prop :=
  ∀ answers r, x.Ends answers r → .error e ∈ answers → r = .error e

/-- The script returns the errors of its lambda unchanged. -/
def ReturnsErrors (x : Script σ α) : Prop := ∀ e, x.Returns e

/-- What a script ends with when it is carried out is one of its ends. -/
theorem exists_ends (x : Script σ α) (lambda : Value → Run σ Value) (s : σ) :
    ∃ answers, x.Ends answers (x.run lambda s).result := by
  induction x generalizing s with
  | done r => exact ⟨[], by cases r <;> exact .done _⟩
  | call item resume ih =>
    obtain ⟨answers, hends⟩ := ih (lambda item s).result (lambda item s).host
    exact ⟨_, .call hends⟩
  | access next resume ih =>
    obtain ⟨answers, hends⟩ := ih s (next s)
    exact ⟨answers, .access s hends⟩

theorem Plain.returnsErrors {x : Script σ α} (hx : x.Plain) : x.ReturnsErrors := by
  intro e answers r hends hmem
  induction hends with
  | done r => cases hmem
  | @call item resume answer answers r rest ih =>
    cases answer with
    | ok v => exact ih (hx.2 v) (by simpa using hmem)
    | error e' =>
      rw [hx.1 e'] at rest
      cases rest
      cases List.mem_singleton.mp hmem
      rfl
  | access s rest ih => exact hx.elim

end Script

/-- The extensions return the errors of their lambdas unchanged. -/
def Registry.ReturnsErrors (r : Registry σ) : Prop :=
  ∀ name x, r.extensions.lookup name = some x → ∀ m v, (x.withLambda m v).ReturnsErrors

theorem Registry.withSequences_returnsErrors : (withSequences : Registry σ).ReturnsErrors :=
  fun _ _ hx m v =>
    ((Sequence.extensions_plain _ (Table.mem_of_lookup hx)).withLambda m v).returnsErrors

theorem Registry.ReturnsErrors.introspector {r : Registry σ} (h : r.ReturnsErrors) (m : MethodSig)
    (v : Value) : (r.introspector.invokeExtensionWith m v).ReturnsErrors := by
  obtain hcall | ⟨x, hx, hcall⟩ := r.invokeExtensionWith_cases m v
  · rw [hcall]
    exact Script.Plain.returnsErrors (.fail rfl)
  · rw [hcall]
    exact h m.name x hx m v

/-! Runs that are the same unless the first one fails in one way -/

/-- Unless the first run ends with this error, the second one has the same outcome. -/
def Run.SameUnless (e : EvalError) (x y : Run σ α) : Prop :=
  ∀ s, (x s).result ≠ .error e → y s = x s

namespace Run

variable {e : EvalError}

theorem SameUnless.refl (x : Run σ α) : SameUnless e x x := fun _ _ => rfl

theorem SameUnless.bind {x y : Run σ α} {f g : α → Run σ β} (hxy : SameUnless e x y)
    (hfg : ∀ a, SameUnless e (f a) (g a)) : SameUnless e (x >>= f) (y >>= g) := by
  intro s hs
  cases hx : (x s).result with
  | error e' =>
    rw [bind_of_error hx] at hs ⊢
    have hother : e' ≠ e := fun h => hs (congrArg _ h)
    have hsame := hxy s (by simpa [hx] using hother)
    rw [bind_of_error (by rw [hsame, hx]), hsame]
  | ok a =>
    rw [bind_of_ok hx] at hs ⊢
    have hsame := hxy s (by simp [hx])
    rw [bind_of_ok (by rw [hsame, hx]), hsame, hfg a (x s).host hs]

/-- A script that returns the error is carried out alike with either lambda. -/
theorem SameUnless.script {x : Script σ α} (hx : x.Returns e) {f g : Value → Run σ Value}
    (hfg : ∀ item, SameUnless e (f item) (g item)) : SameUnless e (x.run f) (x.run g) := by
  induction x with
  | done r => exact .refl _
  | call item resume ih =>
    intro s hs
    by_cases hcall : (f item s).result = .error e
    · -- a call that fails so would have been the end of the first run
      obtain ⟨answers, hends⟩ := (resume (f item s).result).exists_ends f (f item s).host
      exact absurd (hx _ _ (.call hends) (by rw [hcall]; exact List.mem_cons_self)) hs
    · have hresume : (resume (f item s).result).Returns e :=
        fun answers r hends hmem => hx _ _ (.call hends) (List.mem_cons_of_mem _ hmem)
      have hrest := ih (f item s).result hresume (f item s).host hs
      simp only [Script.run]
      rw [hfg item s hcall, hrest]
  | access next resume ih =>
    intro s hs
    exact ih s (fun answers r hends hmem => hx answers r (.access s hends) hmem) (next s) hs

end Run

namespace Path

section

variable {i : Introspector σ} {settings settings' : Settings} {root : Value}

theorem visit_sameUnless (hle : settings.maxDepth ≤ settings'.maxDepth) (q : Path) (d : Nat) :
    Run.SameUnless (.depthExceeded settings.maxDepth) (Scene.visit ⟨i, settings, root⟩ q d)
      (Scene.visit ⟨i, settings', root⟩ q d) := by
  intro s hs
  simp only [Scene.visit] at hs ⊢
  by_cases hd : settings.maxDepth < d
  · rw [if_pos hd] at hs
    exact absurd rfl hs
  · rw [if_neg hd, if_neg (by omega)]

/-- Nodes are the same if their visits, their parents and their links are. -/
theorem onto_sameUnless {bs : Bindings} {d : Nat} {e : EvalError} (l : Link) {p : Path}
    (hvisit : Run.SameUnless e (Scene.visit ⟨i, settings, root⟩ (l.onto p) d)
      (Scene.visit ⟨i, settings', root⟩ (l.onto p) d))
    (hparent : Run.SameUnless e (p.evalAt ⟨i, settings, root⟩ bs (d + 1))
      (p.evalAt ⟨i, settings', root⟩ bs (d + 1)))
    (hlink : ∀ v, Run.SameUnless e (l.proceed ⟨i, settings, root⟩ bs d v)
      (l.proceed ⟨i, settings', root⟩ bs d v)) :
    Run.SameUnless e ((l.onto p).evalAt ⟨i, settings, root⟩ bs d)
      ((l.onto p).evalAt ⟨i, settings', root⟩ bs d) := by
  rw [evalAt_onto, evalAt_onto]
  refine hvisit.bind fun _ => hparent.bind fun r => ?_
  cases h : r.value.isAbsent with
  | true =>
    have habsent := Value.isAbsent_iff.mp h
    rw [Link.answer_of_absent _ _ _ _ habsent, Link.answer_of_absent _ _ _ _ habsent]
    exact .refl _
  | false =>
    rw [Link.answer_of_present _ _ _ _ h, Link.answer_of_present _ _ _ _ h]
    exact hlink r.value

theorem evalAll_sameUnless {bs : Bindings} {d : Nat} {e : EvalError} {ps : List Path}
    (h : ∀ p ∈ ps, Run.SameUnless e (p.evalAt ⟨i, settings, root⟩ bs d)
      (p.evalAt ⟨i, settings', root⟩ bs d)) :
    Run.SameUnless e (evalAll ⟨i, settings, root⟩ bs d ps) (evalAll ⟨i, settings', root⟩ bs d ps) := by
  induction ps with
  | nil => exact .refl _
  | cons p ps ih =>
    refine (h p List.mem_cons_self).bind fun r => ?_
    exact (ih fun q hq => h q (List.mem_cons_of_mem _ hq)).bind fun _ => .refl _

/-- Unless a node ends at the limit, it is evaluated alike under a greater one. -/
theorem evalAt_sameUnless (hle : settings.maxDepth ≤ settings'.maxDepth)
    (hreturns : ∀ m v, (i.invokeExtensionWith m v).ReturnsErrors) (p : Path) (bs : Bindings) (d : Nat) :
    Run.SameUnless (.depthExceeded settings.maxDepth) (p.evalAt ⟨i, settings, root⟩ bs d)
      (p.evalAt ⟨i, settings', root⟩ bs d) := by
  induction p using nodeInduction generalizing bs d with
  | constant v ty =>
    rw [evalAt, evalAt]
    exact (visit_sameUnless hle _ d).bind fun _ => .refl _
  | parameter x ty =>
    rw [evalAt, evalAt]
    exact (visit_sameUnless hle _ d).bind fun _ => .refl _
  | memberAccess t m iht =>
    exact onto_sameUnless (.member m) (visit_sameUnless hle _ d) (iht bs (d + 1)) fun v => .refl _
  | methodCall r m args ihr ihargs =>
    have hargs := evalAll_sameUnless fun a ha => ihargs a ha bs (d + 1)
    exact onto_sameUnless (.call m args) (visit_sameUnless hle _ d) (ihr bs (d + 1))
      fun v => hargs.bind fun vs => .refl _
  | noReceiver m =>
    rw [evalAt, evalAt]
    exact (visit_sameUnless hle _ d).bind fun _ => .refl _
  | extensionCall m r rest ihr ihrest ihbody =>
    refine onto_sameUnless (.extension m rest) (visit_sameUnless hle _ d) (ihr bs (d + 1)) fun v => ?_
    simp only [Link.proceed]
    split
    · exact .refl _
    · next x ty b =>
      have hbody := fun item =>
        (ihbody x ty b List.mem_cons_self ((x, item) :: bs) (d + 2)).bind
          (f := fun r => pure r.value) fun r => .refl _
      exact (Run.SameUnless.refl _).bind fun _ =>
        (Run.SameUnless.script (hreturns m v _) hbody).bind fun _ => .refl _
    · exact .refl _
    · exact .refl _
  | lambda x ty b ih =>
    rw [evalAt, evalAt]
    exact (visit_sameUnless hle _ d).bind fun _ => .refl _

end

/-- No node is visited deeper than the path's height. -/
theorem visited_le_height (i : Introspector σ) (settings : Settings) (root : Value) (p : Path) (s : σ)
    {kind : String} {d : Nat} (h : .visited kind d ∈ (p.evaluate i settings root s).trace) :
    d ≤ p.height := by
  let within : Event → Prop := fun e => ∀ kind d, e = .visited kind d → d ≤ p.height
  have hinvariant := Scene.emits_invariant (c := ⟨i, settings, root⟩) (P := within)
    (fun _ _ _ he => by cases he) (fun _ _ _ _ he => by cases he) fun _ _ _ _ he => by cases he
  have hvisit : ∀ q d, d ≤ 0 + p.height → (Scene.visit ⟨i, settings, root⟩ q d).Emits within := by
    intro q d hd
    refine Scene.visit_emits ?_ fun _ _ _ he => by cases he
    rintro _ _ ⟨⟩
    omega
  have hpath : (p.evaluate i settings root).Emits within :=
    (evalAt_invariant hinvariant hvisit fun e _ => .ofExcept (fun _ _ _ he => by cases he) _).bind
      fun _ => .pure _
  exact hpath s _ h kind d rfl

/-- The depth limit is only a guard. No node is visited deeper than the path's height; under a limit of
at least that height, no evaluation fails for its depth, if no method or extension does on its own; and
an evaluation that does not end at its limit has the same outcome under every greater one: the same value
or error, the same host and the same trace. -/
theorem evaluate_depth_guard {r : Registry σ} (hreturns : r.ReturnsErrors)
    (hfails : r.FailsOnly fun e => ∀ n, e ≠ .depthExceeded n) (root : Value) (p : Path) (s : σ) :
    (∀ settings kind d, .visited kind d ∈ (p.evaluate r.introspector settings root s).trace →
      d ≤ p.height) ∧
    (∀ settings, p.height ≤ settings.maxDepth → ∀ n,
      (p.evaluate r.introspector settings root s).result ≠ .error (.depthExceeded n)) ∧
    ∀ settings settings', settings.maxDepth ≤ settings'.maxDepth →
      (p.evaluate r.introspector settings root s).result ≠ .error (.depthExceeded settings.maxDepth) →
      p.evaluate r.introspector settings' root s = p.evaluate r.introspector settings root s := by
  refine ⟨fun settings kind d => visited_le_height _ _ _ _ _, ?_, ?_⟩
  · intro settings hheight n hresult
    have hi := hfails.introspector (by rintro e he n rfl; cases he)
    have hshape : ∀ e ∈ p.shapeErrors, ∀ n, e ≠ .depthExceeded n := by
      rintro e he n rfl
      cases isShapeError_of_mem_shapeErrors he
    exact evaluate_failsOnly hi (.inr hheight) hshape root s _ hresult n rfl
  · intro settings settings' hle hends
    have hsame : Run.SameUnless (.depthExceeded settings.maxDepth)
        (p.evaluate r.introspector settings root) (p.evaluate r.introspector settings' root) :=
      (evalAt_sameUnless hle hreturns.introspector p [] 0).bind fun _ => .refl _
    exact hsame s hends

/-- The lines of an order that are equal to one: the height is that of the lambda's body, and is needed for
the first line that there is. An order without lines goes through under a lesser limit. -/
theorem evaluate_order_lines :
    let r : Registry Unit := Registry.withSequences
    let lines : Path := (parameter "o" (.reference "Order")).member "lines" (.list .int)
    let p : Path := lines.extensionWith "where"
      ⟨"x", .int, (parameter "x" .int).call "equals" [.ofLiteral (.int 1)] .bool⟩ (.list .int)
    let order (ls : List Value) : Value := .record "Order" [("lines", .list ls)]
    r.ReturnsErrors ∧ (r.FailsOnly fun e => ∀ n, e ≠ .depthExceeded n) ∧ p.height = 3 ∧
      (p.evaluate r.introspector ⟨2⟩ (order [.int 1]) ()).result = .error (.depthExceeded 2) ∧
      (∀ n, (p.evaluate r.introspector ⟨3⟩ (order [.int 1]) ()).result ≠ .error (.depthExceeded n)) ∧
      (p.evaluate r.introspector ⟨2⟩ (order []) ()).result =
        .ok ⟨.list [], .list .int, false⟩ ∧
      p.evaluate r.introspector {} (order []) () = p.evaluate r.introspector ⟨2⟩ (order []) () := by
  intro r lines p order
  have hreturns : r.ReturnsErrors := Registry.withSequences_returnsErrors
  have hfails : r.FailsOnly fun e => ∀ n, e ≠ .depthExceeded n :=
    Registry.withSequences_failsOnly (by rintro e he n rfl; cases he)
  have hheight : p.height = 3 := rfl
  have hsome := evaluate_depth_guard hreturns hfails (order [.int 1]) p ()
  have hnone := evaluate_depth_guard hreturns hfails (order []) p ()
  have hends : (p.evaluate r.introspector ⟨2⟩ (order []) ()).result =
      .ok ⟨.list [], .list .int, false⟩ := rfl
  refine ⟨hreturns, hfails, hheight, rfl, ?_, hends, ?_⟩
  · exact hsome.2.1 ⟨3⟩ (Nat.le_of_eq hheight)
  · exact hnone.2.2 ⟨2⟩ {} (by decide) (by rw [hends]; simp)

end Path

end AccessPath
