import AccessPath.Proofs.Fallback
import AccessPath.Proofs.Nodes
import AccessPath.Proofs.Sequences
import AccessPath.Registry.Introspect

/-!
# Where declared types matter

A declared type is looked at where a parent is absent, to choose the default, and by the extension
`to_set`, for the element type of its answer. A host's own extensions may look at the types of the method
they are called as. Nothing else does: two paths that differ in other types alone evaluate alike, as long
as no default is taken (`Path.evaluate_sameButTypes`).

That no default is taken is read off the trace (`Event.isDefaulting`): every substitution leaves an event
there, whether or not there is a value to take, and nothing else leaves such an event.
-/

namespace AccessPath

variable {σ α β γ δ : Type}

/-- The event belongs to a substitution: a default is asked for, or takes a value's place. -/
def Event.isDefaulting : Event → Bool
  | .substituted .. | .asked (.zeroValue _) | .asked (.emptySet _) => true
  | _ => false

/-! Runs that agree unless something happens -/

/-- Unless a bad event happens in the first run, both runs end alike and leave the same host. -/
def Run.AgreeUnless (bad : Event → Bool) (same : α → β → Prop) (x : Run σ α) (y : Run σ β) : Prop :=
  ∀ s, (∀ e ∈ (x s).trace, bad e = false) →
    (Comparison.endings : Comparison σ).SameResult same (x s).result (y s).result ∧
      (x s).host = (y s).host

namespace Run

variable {bad : Event → Bool} {same : α → β → Prop} {same' : γ → δ → Prop}

theorem Agree.unless {x : Run σ α} {y : Run σ β} (h : Run.Agree .endings same x y) :
    Run.AgreeUnless bad same x y :=
  fun s _ => ⟨(h s trivial).result, (h s trivial).host⟩

theorem AgreeUnless.refl (x : Run σ α) : Run.AgreeUnless bad Eq x x :=
  fun _ _ => ⟨Comparison.sameResult_refl _ (fun _ => rfl) _, rfl⟩

theorem AgreeUnless.bind {x : Run σ α} {y : Run σ β} {f : α → Run σ γ} {g : β → Run σ δ}
    (hxy : Run.AgreeUnless bad same x y)
    (hfg : ∀ a b, same a b → Run.AgreeUnless bad same' (f a) (g b)) :
    Run.AgreeUnless bad same' (x >>= f) (y >>= g) := by
  intro s hquiet
  have hfirst : ∀ e ∈ (x s).trace, bad e = false := by
    intro e he
    apply hquiet e
    cases hx : (x s).result with
    | error err =>
      rw [bind_of_error hx]
      exact he
    | ok a =>
      rw [bind_of_ok hx]
      exact List.mem_append_left _ he
  obtain ⟨hresult, hhost⟩ := hxy s hfirst
  cases hx : (x s).result with
  | error err =>
    obtain ⟨err', hy, herr⟩ := hresult.exists_error hx
    rw [bind_of_error hx, bind_of_error hy]
    exact ⟨herr, hhost⟩
  | ok a =>
    cases hy : (y s).result with
    | error err => rw [hx, hy] at hresult; exact hresult.elim
    | ok b =>
      rw [hx, hy] at hresult
      rw [bind_of_ok hx] at hquiet ⊢
      rw [bind_of_ok hy, ← hhost]
      exact hfg a b hresult (x s).host fun e he => hquiet e (List.mem_append_right _ he)

/-- A script is carried out alike with two lambdas that agree unless something happens. -/
theorem AgreeUnless.script {f g : Value → Run σ Value}
    (hfg : ∀ item, Run.AgreeUnless bad Eq (f item) (g item)) (x : Script σ α) :
    Run.AgreeUnless bad Eq (x.run f) (x.run g) := by
  induction x with
  | done r => exact .refl _
  | call item resume ih =>
    intro s hquiet
    obtain ⟨hresult, hhost⟩ := hfg item s fun e he => hquiet e (List.mem_append_left _ he)
    have hsame : (f item s).result = (g item s).result := hresult.eq fun _ _ he => he
    have hrest := ih (f item s).result (f item s).host fun e he => hquiet e (List.mem_append_right _ he)
    simp only [Script.run]
    rw [← hsame, ← hhost]
    exact hrest
  | access next resume ih => exact fun s hquiet => ih s (next s) hquiet

end Run

/-! Questions that do not depend on types -/

namespace Registry

/-- The extension calls are the same, or of one name that the registry does not know, or that it knows as
a standard extension other than `to_set`. -/
inductive SameExtension (r : Registry σ) : MethodSig → MethodSig → Prop
  | refl (m : MethodSig) : SameExtension r m m
  | unknown {m m' : MethodSig} (name : m.name = m'.name) (missing : r.extensions.lookup m.name = none) :
      SameExtension r m m'
  | standard {m m' : MethodSig} {x : Extension σ} (name : m.name = m'.name) (noSet : m.name ≠ "to_set")
      (known : Sequence.extensions.lookup m.name = some x) (kept : r.extensions.lookup m.name = some x) :
      SameExtension r m m'

theorem readMember_congr (r : Registry σ) (v : Value) {m m' : MemberSig} (h : m.name = m'.name) :
    r.readMember v m = r.readMember v m' := by
  unfold readMember
  rw [h]

theorem invoke_congr (r : Registry σ) (v : Value) {m m' : MethodSig} (h : m.name = m'.name)
    (args : List Value) : r.invoke v m args = r.invoke v m' args := by
  unfold invoke invokeBuiltin
  rw [h]

end Registry

/-- The extension does not look at the types of the method that it is called as. -/
def Extension.IgnoresTypes (x : Extension σ) : Prop :=
  ∀ m m' : MethodSig, m.name = m'.name → x.alone m = x.alone m' ∧ x.withLambda m = x.withLambda m'

namespace Sequence

theorem items_congr {m m' : MethodSig} (h : m.name = m'.name) : items m = items m' := by
  funext v
  unfold items
  rw [h]

theorem ofItems_ignoresTypes (f : List Value → Value) :
    (ofItems fun _ => f : Extension σ).IgnoresTypes := by
  intro m m' hm
  simp only [ofItems, items_congr hm, hm, and_self]

theorem ofMatches_ignoresTypes (f : List Value → Except EvalError Value) :
    (ofMatches f : Extension σ).IgnoresTypes := by
  intro m m' hm
  simp only [ofMatches, items_congr hm, and_self]

theorem ofLambda_ignoresTypes (f : List Value → Script σ Value) : (ofLambda f).IgnoresTypes := by
  intro m m' hm
  simp only [ofLambda, items_congr hm, hm, and_self]

theorem any_ignoresTypes : (any : Extension σ).IgnoresTypes := by
  intro m m' hm
  simp only [any, items_congr hm, and_self]

theorem extensions_ignoreTypes {name : String} {x : Extension σ} (hname : name ≠ "to_set")
    (h : extensions.lookup name = some x) : x.IgnoresTypes := by
  have hmem := Table.mem_of_lookup h
  simp only [extensions, List.mem_cons, Prod.mk.injEq, List.not_mem_nil, or_false] at hmem
  rcases hmem with ⟨-, rfl⟩ | ⟨hset, -⟩ | ⟨-, rfl⟩ | ⟨-, rfl⟩ | ⟨-, rfl⟩ | ⟨-, rfl⟩ | ⟨-, rfl⟩ | ⟨-, rfl⟩
  · exact ofItems_ignoresTypes _
  · exact absurd hset hname
  · exact ofMatches_ignoresTypes _
  · exact any_ignoresTypes
  · exact ofMatches_ignoresTypes _
  · exact ofMatches_ignoresTypes _
  · exact ofLambda_ignoresTypes _
  · exact ofLambda_ignoresTypes _

end Sequence

namespace Registry.SameExtension

variable {r : Registry σ} {m m' : MethodSig}

theorem name_eq (h : r.SameExtension m m') : m.name = m'.name := by
  cases h with
  | refl => rfl
  | unknown name => exact name
  | standard name => exact name

theorem invokeExtension_eq (h : r.SameExtension m m') (v : Value) :
    r.introspector.invokeExtension m v = r.introspector.invokeExtension m' v := by
  cases h with
  | refl => rfl
  | unknown name missing => simp only [introspector, ← name, missing]
  | standard name noSet known kept =>
    simp only [introspector, ← name, kept]
    rw [(Sequence.extensions_ignoreTypes noSet known m m' name).1]

theorem invokeExtensionWith_eq (h : r.SameExtension m m') (v : Value) :
    r.introspector.invokeExtensionWith m v = r.introspector.invokeExtensionWith m' v := by
  cases h with
  | refl => rfl
  | unknown name missing => simp only [introspector, ← name, missing]
  | standard name noSet known kept =>
    simp only [introspector, ← name, kept]
    rw [(Sequence.extensions_ignoreTypes noSet known m m' name).2]

end Registry.SameExtension

/-! Nodes -/

theorem forall₂_of_mem {R S : α → β → Prop} {as : List α} {bs : List β} (h : List.Forall₂ R as bs)
    (hRS : ∀ a b, a ∈ as → R a b → S a b) : List.Forall₂ S as bs := by
  induction h with
  | nil => exact .nil
  | cons hab _ ih =>
    refine .cons (hRS _ _ List.mem_cons_self hab) (ih fun a b ha => ?_)
    exact hRS a b (List.mem_cons_of_mem _ ha)

namespace Path

/-- The paths differ in declared types alone. Calls of extensions that may look at types keep theirs. -/
inductive SameButTypes (r : Registry σ) : Path → Path → Prop
  | constant {v ty ty'} : SameButTypes r (.constant v ty) (.constant v ty')
  | parameter {x ty ty'} : SameButTypes r (.parameter x ty) (.parameter x ty')
  | memberAccess {p q m m'} (target : SameButTypes r p q) (name : m.name = m'.name) :
      SameButTypes r (.memberAccess p m) (.memberAccess q m')
  | methodCall {p q m m' ps qs} (receiver : SameButTypes r p q) (name : m.name = m'.name)
      (args : List.Forall₂ (SameButTypes r) ps qs) :
      SameButTypes r (.methodCall p m ps) (.methodCall q m' qs)
  | extensionCall {m m' ps qs} (method : r.SameExtension m m')
      (args : List.Forall₂ (SameButTypes r) ps qs) :
      SameButTypes r (.extensionCall m ps) (.extensionCall m' qs)
  | lambda {x ty ty' b c} (body : SameButTypes r b c) :
      SameButTypes r (.lambda x ty b) (.lambda x ty' c)

theorem SameButTypes.kindName_eq {r : Registry σ} {p q : Path} (h : p.SameButTypes r q) :
    p.kindName = q.kindName := by
  cases h <;> rfl

end Path

/-- The answers are equal, and both were read. -/
def Resolved.BothRead (a b : Resolved) : Prop :=
  a.value = b.value ∧ a.isSubstituted = false ∧ b.isSubstituted = false

section

variable {c : Scene σ} {bs : Bindings} {d : Nat}

namespace Scene

theorem visit_agreeUnless {p q : Path} (h : p.kindName = q.kindName) :
    Run.AgreeUnless Event.isDefaulting Eq (c.visit p d) (c.visit q d) :=
  (visit_agree rfl h).unless

/-- Whether or not there is a default to take, a substitution shows in the trace. -/
theorem exists_defaulting_of_substitute (site : String) (ty : Ty) (s : σ) :
    ∃ e ∈ (c.substitute site ty s).trace, e.isDefaulting = true := by
  rw [substitute_apply]
  cases hdefault : c.introspector.default ty with
  | ok v => exact ⟨.substituted site ty, by simp [substitution, hdefault], rfl⟩
  | error err =>
    -- only a value type can lack a default, and its zero value was asked for
    have hasked : Introspector.defaultQuery? ty = some (.zeroValue ty) := by
      cases ty <;> first | rfl | cases hdefault
    exact ⟨.asked (.zeroValue ty), by simp [substitution, hasked], rfl⟩

theorem asked_agreeUnless {q q' : Query} {x y : Run σ Value}
    (h : Run.AgreeUnless Event.isDefaulting Eq x y) :
    Run.AgreeUnless Event.isDefaulting Resolved.BothRead
      (do Run.emit (.asked q); return .read (← x)) (do Run.emit (.asked q'); return .read (← y)) := by
  refine (Run.Agree.emit_uncounted rfl rfl).unless.bind fun _ _ _ => h.bind fun v w hvw => ?_
  subst hvw
  exact (Run.Agree.pure ⟨rfl, rfl, rfl⟩).unless

end Scene

namespace Path

/-- Unless a default is taken, a node is answered by what its link does to its present parent. -/
theorem onto_agreeUnless (l l' : Link) (hkind : l.kindName = l'.kindName) {p p' : Path}
    (hparent : Run.AgreeUnless Event.isDefaulting Resolved.BothRead
      (p.evalAt c bs (d + 1)) (p'.evalAt c bs (d + 1)))
    (hlink : ∀ v, Run.AgreeUnless Event.isDefaulting Resolved.BothRead
      (l.proceed c bs d v) (l'.proceed c bs d v)) :
    Run.AgreeUnless Event.isDefaulting Resolved.BothRead
      ((l.onto p).evalAt c bs d) ((l'.onto p').evalAt c bs d) := by
  rw [evalAt_onto, evalAt_onto]
  have hvisit := Scene.visit_agreeUnless (c := c) (d := d) (p := l.onto p) (q := l'.onto p')
    (by rw [Link.kindName_onto, Link.kindName_onto, hkind])
  refine hvisit.bind fun _ _ _ => hparent.bind fun a b hab => ?_
  by_cases habsent : a.value = .absent
  · intro s hquiet
    rw [Link.answer_of_absent _ _ _ _ habsent] at hquiet
    obtain ⟨e, he, hdefaulting⟩ := Scene.exists_defaulting_of_substitute (c := c) l.site l.ty s
    rw [hquiet e he] at hdefaulting
    cases hdefaulting
  · have hpresent : a.value.isAbsent = false := Value.isAbsent_eq_false_iff.mpr habsent
    rw [Link.answer_of_present _ _ _ _ hpresent, Link.answer_of_present _ _ _ _ (hab.1 ▸ hpresent),
      ← hab.1]
    exact hlink a.value

theorem evalAll_agreeUnless {ps qs : List Path}
    (h : List.Forall₂ (fun p q => Run.AgreeUnless Event.isDefaulting Resolved.BothRead
      (p.evalAt c bs d) (q.evalAt c bs d)) ps qs) :
    Run.AgreeUnless Event.isDefaulting Eq (evalAll c bs d ps) (evalAll c bs d qs) := by
  induction h with
  | nil => exact (Run.Agree.pure rfl).unless
  | cons hpq _ ih =>
    refine hpq.bind fun a b hab => ih.bind fun vs ws hvs => (Run.Agree.pure ?_).unless
    rw [hab.1, hvs]

end Path

end

namespace Path

variable {r : Registry σ} {settings : Settings} {root : Value}

/-- What an extension call does with a present receiver, given that the bodies of lambdas agree. -/
theorem extension_agreeUnless {m m' : MethodSig} (hm : r.SameExtension m m') {ps qs : List Path}
    (hargs : List.Forall₂ (SameButTypes r) ps qs) (bs : Bindings) (d : Nat)
    (hbody : ∀ x ty b b', .lambda x ty b ∈ ps → b.SameButTypes r b' → ∀ v,
      Run.AgreeUnless Event.isDefaulting Resolved.BothRead
        (b.evalAt ⟨r.introspector, settings, root⟩ ((x, v) :: bs) (d + 2))
        (b'.evalAt ⟨r.introspector, settings, root⟩ ((x, v) :: bs) (d + 2))) (v : Value) :
    Run.AgreeUnless Event.isDefaulting Resolved.BothRead
      ((Link.extension m ps).proceed ⟨r.introspector, settings, root⟩ bs d v)
      ((Link.extension m' qs).proceed ⟨r.introspector, settings, root⟩ bs d v) := by
  match ps, qs, hargs with
  | [], [], .nil =>
    simp only [Link.proceed, Scene.invokeExtension, hm.invokeExtension_eq]
    exact Scene.asked_agreeUnless (.refl _)
  | [p], [q], .cons hpq .nil =>
    by_cases hlambda : ∃ x ty b, p = .lambda x ty b
    · obtain ⟨x, ty, b, rfl⟩ := hlambda
      cases hpq with
      | @lambda _ _ ty' _ b' body =>
        simp only [Link.proceed, Scene.invokeExtensionWith, hm.invokeExtensionWith_eq]
        refine Scene.asked_agreeUnless (.script (fun item => ?_) _)
        refine (hbody x ty b b' List.mem_cons_self body item).bind fun a a' haa' => ?_
        rw [haa'.1]
        exact .refl _
    · have hplain : ∀ x ty b, p ≠ .lambda x ty b := fun x ty b hp => hlambda ⟨x, ty, b, hp⟩
      have hplain' : ∀ x ty b, q ≠ .lambda x ty b := by
        rintro x ty b rfl
        cases hpq with
        | lambda body => exact hplain _ _ _ rfl
      rw [Link.proceed_of_plain hplain, Link.proceed_of_plain hplain', hm.name_eq, hpq.kindName_eq]
      exact (Run.Agree.fail rfl).unless
  | p :: p' :: ps, q :: q' :: qs, .cons _ (.cons _ hrest) =>
    rw [Link.proceed_of_several (by simp), Link.proceed_of_several (by simp), hm.name_eq]
    simp only [List.length_cons, hrest.length_eq]
    exact (Run.Agree.fail rfl).unless

theorem evalAt_sameButTypes {p q : Path} (h : p.SameButTypes r q) (bs : Bindings) (d : Nat) :
    Run.AgreeUnless Event.isDefaulting Resolved.BothRead
      (p.evalAt ⟨r.introspector, settings, root⟩ bs d)
      (q.evalAt ⟨r.introspector, settings, root⟩ bs d) := by
  induction p using nodeInduction generalizing q bs d with
  | constant v ty =>
    cases h
    rw [evalAt, evalAt]
    exact (Scene.visit_agreeUnless rfl).bind fun _ _ _ => (Run.Agree.pure ⟨rfl, rfl, rfl⟩).unless
  | parameter x ty =>
    cases h
    rw [evalAt, evalAt]
    exact (Scene.visit_agreeUnless rfl).bind fun _ _ _ => (Run.Agree.pure ⟨rfl, rfl, rfl⟩).unless
  | memberAccess t m iht =>
    cases h with
    | @memberAccess _ t' _ m' target name =>
      refine onto_agreeUnless (.member m) (.member m') rfl (iht target bs (d + 1)) fun v => ?_
      have hread : r.introspector.readMember v m = r.introspector.readMember v m' :=
        r.readMember_congr v name
      simp only [Link.proceed, Scene.readMember, hread]
      exact Scene.asked_agreeUnless (.refl _)
  | methodCall t m args iht ihargs =>
    cases h with
    | @methodCall _ t' _ m' _ args' receiver name hargs =>
      refine onto_agreeUnless (.call m args) (.call m' args') rfl
        (iht receiver bs (d + 1)) fun v => ?_
      have heach := evalAll_agreeUnless (forall₂_of_mem hargs fun a a' ha haa' =>
        ihargs a ha haa' bs (d + 1))
      refine heach.bind fun vs ws hvs => ?_
      have hinvoke : r.introspector.invoke v m vs = r.introspector.invoke v m' ws := by
        rw [hvs]
        exact r.invoke_congr v name ws
      simp only [Scene.invoke, hinvoke]
      exact Scene.asked_agreeUnless (.refl _)
  | noReceiver m =>
    cases h with
    | extensionCall method args =>
      cases args
      rw [evalAt, evalAt, method.name_eq]
      exact (Scene.visit_agreeUnless rfl).bind fun _ _ _ => (Run.Agree.fail rfl).unless
  | extensionCall m t rest iht ihrest ihbody =>
    cases h with
    | @extensionCall _ m' _ _ method hargs =>
      cases hargs with
      | @cons _ t' _ rest' receiver hrest =>
        refine onto_agreeUnless (.extension m rest) (.extension m' rest') rfl
          (iht receiver bs (d + 1)) (extension_agreeUnless method hrest bs d ?_)
        exact fun x ty b b' hb hbb' v => ihbody x ty b hb hbb' ((x, v) :: bs) (d + 2)
  | lambda x ty b ih =>
    cases h
    rw [evalAt, evalAt]
    exact (Scene.visit_agreeUnless rfl).bind fun _ _ _ => (Run.Agree.fail rfl).unless

/-- Declared types matter only where a parent is absent. If no default is taken while a path is
evaluated, in the bodies of lambdas neither, then a path that differs from it in declared types alone
ends with the same value or the same error, and on the same host; neither result is a default. -/
theorem evaluate_sameButTypes {p q : Path} (h : p.SameButTypes r q) (s : σ)
    (hpresent : ∀ e ∈ (p.evaluate r.introspector settings root s).trace, e.isDefaulting = false) :
    let o := p.evaluate r.introspector settings root s
    let o' := q.evaluate r.introspector settings root s
    o.result.map Evaluated.value = o'.result.map Evaluated.value ∧ o.host = o'.host ∧
      (∀ e, o.result = .ok e → e.defaulted = false) ∧
      ∀ e, o'.result = .ok e → e.defaulted = false := by
  intro o o'
  let c : Scene σ := ⟨r.introspector, settings, root⟩
  have htrace : o.trace = (p.evalAt c [] 0 s).trace := congrArg Outcome.trace (Run.bind_pure_apply _ _ s)
  have hagree : Run.AgreeUnless Event.isDefaulting Resolved.BothRead (p.evalAt c [] 0) (q.evalAt c [] 0) :=
    evalAt_sameButTypes h [] 0
  obtain ⟨hresult, hhost⟩ := hagree s (htrace ▸ hpresent)
  have ho : o.result = (p.evalAt c [] 0 s).result.map _ := evaluate_result r.introspector settings root p s
  have ho' : o'.result = (q.evalAt c [] 0 s).result.map _ :=
    evaluate_result r.introspector settings root q s
  have hhosts : o.host = o'.host := by
    simp only [o, o']
    rw [evaluate_host, evaluate_host]
    exact hhost
  cases hp : (p.evalAt c [] 0 s).result with
  | error err =>
    obtain ⟨err', hq, herr⟩ := hresult.exists_error hp
    cases herr
    rw [ho, ho', hp, hq]
    refine ⟨rfl, hhosts, fun _ he => ?_, fun _ he => ?_⟩ <;> cases he
  | ok a =>
    cases hq : (q.evalAt c [] 0 s).result with
    | error err => rw [hp, hq] at hresult; exact hresult.elim
    | ok b =>
      rw [hp, hq] at hresult
      obtain ⟨hvalue, hread, hread'⟩ := hresult
      rw [ho, ho', hp, hq]
      refine ⟨congrArg Except.ok hvalue, hhosts, fun _ he => ?_, fun _ he => ?_⟩
      · cases he
        exact hread
      · cases he
        exact hread'

/-- The flags of an order that are set, counted. On the other side every declared type is another one,
also those of the lambda and of the extensions. -/
theorem evaluate_retyped_orders :
    let r : Registry Unit := Registry.withSequences
    let path (a b c : Ty) : Path :=
      .extensionCall ⟨"count", [a], c⟩ [.extensionCall ⟨"where", [a, b], c⟩
        [.memberAccess (.parameter "o" a) ⟨"flags", b⟩,
          .lambda "x" c (.methodCall (.parameter "x" b) ⟨"equals", [c], a⟩ [.constant (.bool true) b])]]
    let root : Value := .record "Order" [("flags", .list [.bool true, .bool false, .bool true])]
    let p := path .string .int .bool
    let q := path .any (.set .int) (.struct "Nowhere")
    p.SameButTypes r q ∧
      (∀ e ∈ (p.evaluate r.introspector {} root ()).trace, e.isDefaulting = false) ∧
      (q.evaluate r.introspector {} root ()).result.map Evaluated.value = .ok (.int 2) := by
  intro r path root p q
  have hstandard : ∀ name x, name ≠ "to_set" → Sequence.extensions.lookup name = some x →
      ∀ ps ps' t t', r.SameExtension ⟨name, ps, t⟩ ⟨name, ps', t'⟩ :=
    fun name x hname hx ps ps' t t' => .standard rfl hname hx hx
  have hsame : p.SameButTypes r q :=
    .extensionCall (hstandard "count" _ (by decide) rfl _ _ _ _)
      (.cons (.extensionCall (hstandard "where" _ (by decide) rfl _ _ _ _)
        (.cons (.memberAccess .parameter rfl)
          (.cons (.lambda (.methodCall .parameter rfl (.cons .constant .nil))) .nil))) .nil)
  have hpresent : ∀ e ∈ (p.evaluate r.introspector {} root ()).trace, e.isDefaulting = false := by
    decide
  have hlike := (evaluate_sameButTypes hsame () hpresent).1
  exact ⟨hsame, hpresent, hlike.symm⟩

end Path

end AccessPath
