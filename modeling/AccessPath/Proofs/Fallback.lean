import AccessPath.Path.Fetch
import AccessPath.Proofs.Defaults

/-!
# Defaults and fallbacks

A result is flagged as defaulted exactly when the parent of the outermost node is absent in that run;
its value is then the default for the path's declared type, and the host is as the parent's evaluation
left it (`Path.evalAt_defaulting`). The defaults that take the place of values further in leave no mark.

A fallback replaces an absent value, and the empty string that stands in for a string of a missing
parent; it replaces nothing else (`Path.evaluate_defaulting_exact`).
-/

namespace AccessPath

variable {σ : Type}

/-- What a link answers to a present parent is read, and no substitute. -/
theorem Link.proceed_read {c : Scene σ} {bindings : Bindings} {depth : Nat} {l : Link} {v : Value}
    {s : σ} {r : Resolved} (h : (l.proceed c bindings depth v s).result = .ok r) :
    r.isSubstituted = false := by
  -- an introspector is asked, and its answer is wrapped as read
  have wrapped : ∀ (query : Query) (answer : Run σ Value) (t : σ),
      ((do Run.emit (.asked query); return Resolved.read (← answer)) t).result = .ok r →
      r.isSubstituted = false := by
    intro query answer t hr
    rw [Run.emit_bind_apply, Run.bind_pure_apply] at hr
    cases hv : (answer t).result with
    | error e => rw [hv] at hr; cases hr
    | ok v => rw [hv] at hr; cases hr; rfl
  cases l with
  | member m => exact wrapped _ _ _ h
  | call m args =>
    obtain ⟨vs, -, hinvoke⟩ := Run.ok_of_bind_ok h
    exact wrapped _ _ _ hinvoke
  | extension m rest =>
    simp only [Link.proceed] at h
    split at h
    · exact wrapped _ _ _ h
    · exact wrapped _ _ _ h
    · cases h
    · cases h

namespace Path

/-- The path's parent is absent when the path is evaluated at a depth, from a given host. -/
def LacksParentAt (c : Scene σ) (bindings : Bindings) (depth : Nat) (s : σ) (p : Path) : Prop :=
  ∃ q, p.parent? = some q ∧ q.AbsentAt c bindings (depth + 1) s

/-- A node without a parent answers with what it reads, if at all: a constant or a parameter. -/
theorem evalAt_ok_of_parent?_none {c : Scene σ} {bindings : Bindings} {depth : Nat} {p : Path}
    {s : σ} {r : Resolved} (hp : p.parent? = none)
    (h : (p.evalAt c bindings depth s).result = .ok r) :
    (∃ v ty, p = .constant v ty ∧ r = .read (.ofLiteral v)) ∨
      ∃ x ty, p = .parameter x ty ∧ r = .read (c.parameter bindings x) := by
  cases p with
  | constant v ty =>
    rw [evalAt] at h
    obtain ⟨_, -, hr⟩ := Run.ok_of_bind_ok h
    cases hr
    exact .inl ⟨v, ty, rfl, rfl⟩
  | parameter x ty =>
    rw [evalAt] at h
    obtain ⟨_, -, hr⟩ := Run.ok_of_bind_ok h
    cases hr
    exact .inr ⟨x, ty, rfl, rfl⟩
  | lambda =>
    rw [evalAt] at h
    obtain ⟨_, -, hr⟩ := Run.ok_of_bind_ok h
    cases hr
  | extensionCall m args =>
    cases args with
    | nil =>
      rw [evalAt] at h
      obtain ⟨_, -, hr⟩ := Run.ok_of_bind_ok h
      cases hr
    | cons receiver rest => cases hp
  | _ => cases hp

/-- A node is answered by a default exactly when its parent is absent, and then by the default for its
declared type, from the host that the parent's evaluation left. -/
theorem evalAt_defaulting {c : Scene σ} {bindings : Bindings} {depth : Nat} {p : Path} {s : σ}
    {r : Resolved} (h : (p.evalAt c bindings depth s).result = .ok r) :
    (r.isSubstituted = true ↔ p.LacksParentAt c bindings depth s) ∧
    (p.LacksParentAt c bindings depth s →
      c.introspector.default p.declaredType = .ok r.value ∧
      ∀ q, p.parent? = some q →
        (p.evalAt c bindings depth s).host = (q.evalAt c bindings (depth + 1) s).host) := by
  cases hp : p.parent? with
  | none =>
    have hread : r.isSubstituted = false := by
      obtain ⟨_, _, -, rfl⟩ | ⟨_, _, -, rfl⟩ := evalAt_ok_of_parent?_none hp h <;> rfl
    have hnone : ¬ p.LacksParentAt c bindings depth s := by
      rintro ⟨q, hq, -⟩
      rw [hp] at hq
      cases hq
    exact ⟨by simp [hread, hnone], fun hlacks => absurd hlacks hnone⟩
  | some q =>
    obtain ⟨l, rfl⟩ := exists_onto_of_parent? hp
    have hdepth := depth_le_of_ok h
    have heval := evalAt_onto_of_le hdepth bindings l q s
    rw [heval] at h
    obtain ⟨parent, hparent, hanswer⟩ := Run.ok_of_bind_ok h
    rw [heval, Run.bind_of_ok hparent]
    by_cases habsent : parent.value = .absent
    · have hlacks : (l.onto q).LacksParentAt c bindings depth s :=
        ⟨q, parent?_onto l q, parent, hparent, habsent⟩
      rw [Link.answer_of_absent _ _ _ _ habsent, Scene.substitute_apply] at hanswer ⊢
      rw [Link.declaredType_onto]
      cases hdefault : c.introspector.default l.ty with
      | error e => rw [hdefault] at hanswer; cases hanswer
      | ok v =>
        rw [hdefault] at hanswer
        cases hanswer
        refine ⟨by simp [hlacks, Resolved.isSubstituted], fun _ => ⟨rfl, ?_⟩⟩
        intro q' hq'
        cases hq'
        rfl
    · have hpresent : ¬ (l.onto q).LacksParentAt c bindings depth s := by
        rintro ⟨q', hq', other, hother, hvalue⟩
        rw [parent?_onto] at hq'
        cases hq'
        rw [hparent] at hother
        cases hother
        exact habsent hvalue
      rw [Link.answer_of_present _ _ _ _ (Value.isAbsent_eq_false_iff.mpr habsent)] at hanswer
      exact ⟨by simp [Link.proceed_read hanswer, hpresent], fun hlacks => absurd hlacks hpresent⟩

/-- A fallback may take the place of the value `v` of a path: it is absent, or it is the empty string
that stands in for a string of a missing parent. -/
def GivesWay (c : Scene σ) (s : σ) (p : Path) (v : Value) : Prop :=
  v = .absent ∨ (p.declaredType = .string ∧ v = .string "" ∧ p.LacksParentAt c [] 0 s)

/-- How an evaluation ends: as that of the outermost node. -/
theorem evaluate_result (i : Introspector σ) (settings : Settings) (root : Value) (p : Path) (s : σ) :
    (p.evaluate i settings root s).result = (p.evalAt ⟨i, settings, root⟩ [] 0 s).result.map
      fun r => ⟨r.value, p.declaredType, r.isSubstituted⟩ :=
  congrArg Outcome.result (Run.bind_pure_apply _ _ s)

/-- What an evaluation answers is what the outermost node does. -/
theorem exists_of_evaluate_ok {i : Introspector σ} {settings : Settings} {root : Value} {p : Path}
    {s : σ} {e : Evaluated} (h : (p.evaluate i settings root s).result = .ok e) :
    ∃ r, (p.evalAt ⟨i, settings, root⟩ [] 0 s).result = .ok r ∧
      e = ⟨r.value, p.declaredType, r.isSubstituted⟩ := by
  rw [evaluate_result] at h
  cases hr : (p.evalAt ⟨i, settings, root⟩ [] 0 s).result with
  | error err => rw [hr] at h; cases h
  | ok r =>
    rw [hr] at h
    cases h
    exact ⟨r, rfl, rfl⟩

theorem evaluate_host (i : Introspector σ) (settings : Settings) (root : Value) (p : Path) (s : σ) :
    (p.evaluate i settings root s).host = (p.evalAt ⟨i, settings, root⟩ [] 0 s).host :=
  congrArg Outcome.host (Run.bind_pure_apply _ _ s)

theorem fetch_result (i : Introspector σ) (settings : Settings) (root : Value) (p : Path) (s : σ) :
    (p.fetch i settings root s).result =
      (p.evaluate i settings root s).result.map Evaluated.value :=
  congrArg Outcome.result (Run.bind_pure_apply _ _ s)

theorem fetch_result_evalAt (i : Introspector σ) (settings : Settings) (root : Value) (p : Path)
    (s : σ) : (p.fetch i settings root s).result =
      (p.evalAt ⟨i, settings, root⟩ [] 0 s).result.map Resolved.value := by
  rw [fetch_result, evaluate_result]
  cases (p.evalAt ⟨i, settings, root⟩ [] 0 s).result <;> rfl

theorem fetch_host (i : Introspector σ) (settings : Settings) (root : Value) (p : Path) (s : σ) :
    (p.fetch i settings root s).host = (p.evaluate i settings root s).host :=
  congrArg Outcome.host (Run.bind_pure_apply _ _ s)

theorem fetchOr_of_ok {i : Introspector σ} {settings : Settings} {root : Value} {p : Path} {s : σ}
    {e : Evaluated} (h : (p.evaluate i settings root s).result = .ok e) (fallback : Value) :
    (p.fetchOr i settings root fallback s).result =
        .ok (if e.wantsFallback then fallback else e.value) ∧
      (p.fetchOr i settings root fallback s).host = (p.evaluate i settings root s).host := by
  unfold fetchOr
  rw [Run.bind_of_ok h]
  cases e.wantsFallback <;> exact ⟨rfl, rfl⟩

theorem fetchOr_of_error {i : Introspector σ} {settings : Settings} {root : Value} {p : Path} {s : σ}
    {e : EvalError} (h : (p.evaluate i settings root s).result = .error e) (fallback : Value) :
    (p.fetchOr i settings root fallback s).result = .error e ∧
      (p.fetchOr i settings root fallback s).host = (p.evaluate i settings root s).host := by
  unfold fetchOr
  rw [Run.bind_of_error h]
  exact ⟨rfl, rfl⟩

/-- The flag of a result says that the parent is missing, and then the value is the default. -/
theorem evaluate_defaulting {i : Introspector σ} {settings : Settings} {root : Value} {p : Path}
    {s : σ} {e : Evaluated} (h : (p.evaluate i settings root s).result = .ok e) :
    let c : Scene σ := ⟨i, settings, root⟩
    e.ty = p.declaredType ∧
    (e.defaulted = true ↔ p.LacksParentAt c [] 0 s) ∧
    (p.LacksParentAt c [] 0 s → i.default e.ty = .ok e.value ∧
      ∀ q, p.parent? = some q → (p.evaluate i settings root s).host = (q.evalAt c [] 1 s).host) := by
  intro c
  obtain ⟨r, hr, rfl⟩ := exists_of_evaluate_ok h
  rw [evaluate_host]
  exact ⟨rfl, evalAt_defaulting hr⟩

/-- A result wants a fallback exactly where its value gives way to one. -/
theorem wantsFallback_iff {i : Introspector σ} {settings : Settings} {root : Value} {p : Path}
    {s : σ} {e : Evaluated} (h : (p.evaluate i settings root s).result = .ok e) :
    e.wantsFallback = true ↔ p.GivesWay ⟨i, settings, root⟩ s e.value := by
  obtain ⟨hty, hflag, hdefault⟩ := evaluate_defaulting h
  simp only [Evaluated.wantsFallback, Bool.or_eq_true, Bool.and_eq_true, decide_eq_true_eq,
    Value.isAbsent_iff, hflag, GivesWay, ← hty]
  constructor
  · rintro (habsent | ⟨hlacks, hstring⟩)
    · exact .inl habsent
    · have hempty : Except.ok (.string "") = i.default e.ty := by rw [hstring]; rfl
      rw [(hdefault hlacks).1] at hempty
      exact .inr ⟨hstring, (Except.ok.inj hempty).symm, hlacks⟩
  · rintro (habsent | ⟨hstring, -, hlacks⟩)
    · exact .inl habsent
    · exact .inr ⟨hlacks, hstring⟩

/-- A default for a value type or a set is kept: it is present. -/
theorem not_givesWay_of_default {i : Introspector σ} (hi : i.Standard) {settings : Settings}
    {root : Value} {p : Path} {s : σ} {e : Evaluated}
    (h : (p.evaluate i settings root s).result = .ok e)
    (hlacks : p.LacksParentAt ⟨i, settings, root⟩ [] 0 s)
    (hty : p.declaredType.hasPresentDefault = true) (hstring : p.declaredType ≠ .string) :
    ¬ p.GivesWay ⟨i, settings, root⟩ s e.value := by
  obtain ⟨htype, -, hdefault⟩ := evaluate_defaulting h
  have hpresent := hi.default_present (by rw [htype]; exact hty) (hdefault hlacks).1
  rintro (habsent | ⟨hdeclared, -⟩)
  · rw [habsent] at hpresent
    cases hpresent
  · exact hstring hdeclared

/-- Defaults and fallbacks, exactly. A result has the declared type; it is flagged exactly when the
parent is absent in this run, and then it is the default for that type, on the host that the parent
left. A fetch with a fallback answers the fallback where the value gives way to one and the value
everywhere else, fails exactly as the fetch without one does, and leaves the same host. Values that
were read and are present never give way, nor do the defaults for value types and sets. -/
theorem evaluate_defaulting_exact (i : Introspector σ) (hi : i.Standard) (settings : Settings)
    (root : Value) (p : Path) (s : σ) (fallback : Value) :
    let c : Scene σ := ⟨i, settings, root⟩
    let fetched := p.fetch i settings root s
    let fetchedOr := p.fetchOr i settings root fallback s
    (∀ e, (p.evaluate i settings root s).result = .ok e →
      e.ty = p.declaredType ∧
      (e.defaulted = true ↔ p.LacksParentAt c [] 0 s) ∧
      (p.LacksParentAt c [] 0 s → i.default e.ty = .ok e.value ∧
        ∀ q, p.parent? = some q →
          (p.evaluate i settings root s).host = (q.evalAt c [] 1 s).host)) ∧
    (∀ v, fetched.result = .ok v →
      (p.GivesWay c s v → fetchedOr.result = .ok fallback) ∧
      (¬ p.GivesWay c s v → fetchedOr.result = .ok v) ∧
      (¬ p.LacksParentAt c [] 0 s → v ≠ .absent → ¬ p.GivesWay c s v) ∧
      (p.LacksParentAt c [] 0 s → p.declaredType.hasPresentDefault = true →
        p.declaredType ≠ .string → ¬ p.GivesWay c s v)) ∧
    (∀ err, fetchedOr.result = .error err ↔ fetched.result = .error err) ∧
    fetchedOr.host = fetched.host := by
  intro c fetched fetchedOr
  refine ⟨fun e he => evaluate_defaulting he, ?_, ?_, ?_⟩
  · intro v hv
    simp only [fetched] at hv
    rw [fetch_result] at hv
    cases he : (p.evaluate i settings root s).result with
    | error err => rw [he] at hv; cases hv
    | ok e =>
      rw [he] at hv
      cases hv
      have hwants := wantsFallback_iff he
      have hor := (fetchOr_of_ok he fallback).1
      refine ⟨?_, ?_, ?_, fun hlacks => not_givesWay_of_default hi he hlacks⟩
      · intro hgives
        rw [hwants.mpr hgives] at hor
        exact hor
      · intro hkeeps
        rw [if_neg (by simpa [hwants] using hkeeps)] at hor
        exact hor
      · rintro hparent hpresent (habsent | ⟨-, -, hlacks⟩)
        · exact hpresent habsent
        · exact hparent hlacks
  · intro err
    simp only [fetched, fetchedOr]
    rw [fetch_result]
    cases he : (p.evaluate i settings root s).result with
    | error err' => rw [(fetchOr_of_error he fallback).1]; simp [Except.map]
    | ok e => rw [(fetchOr_of_ok he fallback).1]; simp [Except.map]
  · simp only [fetched, fetchedOr]
    rw [fetch_host]
    cases he : (p.evaluate i settings root s).result with
    | error err => exact (fetchOr_of_error he fallback).2
    | ok e => exact (fetchOr_of_ok he fallback).2

/-- The name of an absent object gives way to a fallback; the empty set of its tags does not. -/
theorem fetchOr_absent_root :
    let i : Introspector Unit := Registry.withSequences.introspector
    let o := parameter "o" (.reference "Order")
    i.Standard ∧
      ((o.member "name" .string).fetchOr i {} .absent (.string "none") ()).result
        = .ok (.string "none") ∧
      ((o.member "tags" (.set .string)).fetchOr i {} .absent (.string "none") ()).result
        = .ok (.set .string []) := by
  intro i o
  have hi : i.Standard := Registry.standard_introspector _
  have hlacks : ∀ name ty, (o.member name ty).LacksParentAt ⟨i, {}, .absent⟩ [] 0 () :=
    fun _ _ => ⟨o, rfl, .read .absent, rfl, rfl⟩
  have hname := evaluate_defaulting_exact i hi {} .absent (o.member "name" .string) () (.string "none")
  have htags := evaluate_defaulting_exact i hi {} .absent (o.member "tags" (.set .string)) ()
    (.string "none")
  have hgives := (hname.2.1 (.string "") rfl).1 (.inr ⟨rfl, rfl, hlacks _ _⟩)
  have hkeeps := htags.2.1 (.set .string []) rfl
  exact ⟨hi, hgives, hkeeps.2.1 (hkeeps.2.2.2 (hlacks _ _) rfl (by simp [member, declaredType]))⟩

end Path

end AccessPath
