import AccessPath.Host.Rules
import AccessPath.Proofs.Fallback

/-!
# Value types

The defaults for value types are present, so absence is never put in the place of a value of such a type. It
can still be read: from a null constant, from an absent root, and from the answer that a member, a method or
an extension gives to a present value (`Path.ReadsAbsent`). Declared types are not compared with what is read,
and an absent answer is passed on as it is. There a fallback takes the value's place, as it does for any other
type; everywhere else a path of a value type has a present value, and no fallback counts
(`Path.evaluate_valueType`).
-/

namespace AccessPath

variable {σ : Type}

/-- Value types have present defaults. -/
theorem Ty.hasPresentDefault_of_isValueType {ty : Ty} (h : ty.isValueType = true) :
    ty.hasPresentDefault = true := by
  cases ty <;> first | rfl | cases h

theorem Value.ofLiteral_eq_absent_iff {v : Literal} : Value.ofLiteral v = .absent ↔ v = .null := by
  cases v <;> simp [ofLiteral]

/-- The link's answer to the parent, which is present, is itself absent. -/
def Link.AnswersAbsent (c : Scene σ) (s : σ) (l : Link) (parent : Path) : Prop :=
  ∃ v r, (parent.evalAt c [] 1 s).result = .ok v ∧ v.value ≠ .absent ∧
    (l.proceed c [] 0 v.value (parent.evalAt c [] 1 s).host).result = .ok r ∧ r.value = .absent

namespace Path

/-- The outermost node reads absence: it is a null constant or an absent root, or what it reads off a
present parent or calls on it answers so. -/
def ReadsAbsent (c : Scene σ) (s : σ) : Path → Prop
  | .constant v _ => v = .null
  | .parameter _ _ => c.root = .absent
  | .memberAccess target m => (Link.member m).AnswersAbsent c s target
  | .methodCall receiver m args => (Link.call m args).AnswersAbsent c s receiver
  | .extensionCall m (receiver :: rest) => (Link.extension m rest).AnswersAbsent c s receiver
  | .extensionCall _ [] | .lambda .. => False

theorem readsAbsent_onto {c : Scene σ} {s : σ} {l : Link} {p : Path} :
    (l.onto p).ReadsAbsent c s ↔ l.AnswersAbsent c s p := by
  cases l <;> exact Iff.rfl

/-- With a value type declared, absence is yielded exactly where the outermost node reads it. -/
theorem evalAt_absent_iff {c : Scene σ} (hi : c.introspector.Standard) {p : Path}
    (hty : p.declaredType.isValueType = true) {s : σ} {r : Resolved}
    (h : (p.evalAt c [] 0 s).result = .ok r) : r.value = .absent ↔ p.ReadsAbsent c s := by
  cases hp : p.parent? with
  | none =>
    obtain ⟨v, ty, rfl, rfl⟩ | ⟨x, ty, rfl, rfl⟩ := evalAt_ok_of_parent?_none hp h
    · exact Value.ofLiteral_eq_absent_iff
    · exact Iff.rfl
  | some q =>
    obtain ⟨l, rfl⟩ := exists_onto_of_parent? hp
    have hnode := h
    rw [evalAt_onto_of_le (depth_le_of_ok h)] at hnode
    obtain ⟨parent, hparent, hanswer⟩ := Run.ok_of_bind_ok hnode
    rw [readsAbsent_onto]
    by_cases habsent : parent.value = .absent
    · have hlacks : (l.onto q).LacksParentAt c [] 0 s := ⟨q, parent?_onto l q, parent, hparent, habsent⟩
      have hdefault := ((evalAt_defaulting h).2 hlacks).1
      have hpresent := hi.default_present (Ty.hasPresentDefault_of_isValueType hty) hdefault
      constructor
      · exact fun hr => absurd hr (Value.isAbsent_eq_false_iff.mp hpresent)
      · rintro ⟨v, _, hv, hvpresent, -⟩
        cases hparent.symm.trans hv
        exact absurd habsent hvpresent
    · rw [Link.answer_of_present _ _ _ _ (Value.isAbsent_eq_false_iff.mpr habsent)] at hanswer
      constructor
      · exact fun hr => ⟨parent, r, hparent, habsent, hanswer, hr⟩
      · rintro ⟨v, r', hv, -, hr', hr'absent⟩
        cases hparent.symm.trans hv
        cases hanswer.symm.trans hr'
        exact hr'absent

/-- Reading absence is no failure. -/
theorem evaluate_ok_of_readsAbsent {i : Introspector σ} {settings : Settings} {root : Value} {p : Path}
    {s : σ} (h : p.ReadsAbsent ⟨i, settings, root⟩ s) :
    ∃ e, (p.evaluate i settings root s).result = .ok e := by
  have hnode : ∃ r, (p.evalAt ⟨i, settings, root⟩ [] 0 s).result = .ok r := by
    cases hp : p.parent? with
    | some q =>
      obtain ⟨l, rfl⟩ := exists_onto_of_parent? hp
      obtain ⟨parent, r, hparent, hpresent, hanswer, -⟩ := readsAbsent_onto.mp h
      rw [evalAt_onto_of_le (Nat.zero_le _), Run.bind_of_ok hparent,
        Link.answer_of_present _ _ _ _ (Value.isAbsent_eq_false_iff.mpr hpresent)]
      exact ⟨r, hanswer⟩
    | none =>
      cases p with
      | constant | parameter =>
        rw [evalAt, visit_of_le (Nat.zero_le _)]
        exact ⟨_, rfl⟩
      | extensionCall m args =>
        cases args with
        | nil => exact h.elim
        | cons receiver rest => cases hp
      | lambda => exact h.elim
      | _ => cases hp
  obtain ⟨r, hr⟩ := hnode
  exact ⟨_, by rw [evaluate_result, hr]; rfl⟩

section

variable {p : Path} (hty : p.declaredType.isValueType = true) {r : Registry σ} {settings : Settings}
  {root : Value} {s : σ} {e : Evaluated}
  (he : (p.evaluate r.introspector settings root s).result = .ok e)

include hty he

theorem evaluate_absent_iff : e.value = .absent ↔ p.ReadsAbsent ⟨r.introspector, settings, root⟩ s := by
  obtain ⟨_, hr, rfl⟩ := exists_of_evaluate_ok he
  exact evalAt_absent_iff r.standard_introspector hty hr

/-- No empty string stands in for a value of a value type: a fallback is wanted for absence alone. -/
theorem wantsFallback_iff_readsAbsent :
    e.wantsFallback = true ↔ p.ReadsAbsent ⟨r.introspector, settings, root⟩ s := by
  rw [wantsFallback_iff he, ← evaluate_absent_iff hty he]
  refine ⟨fun h => h.resolve_right ?_, .inl⟩
  rintro ⟨hstring, -⟩
  rw [hstring] at hty
  cases hty

theorem evaluate_defaulted_present (hflag : e.defaulted = true) : e.value ≠ .absent := by
  obtain ⟨htype, hlacks, hdefault⟩ := evaluate_defaulting he
  have hpresent := r.standard_introspector.default_present
    (by rw [htype]; exact Ty.hasPresentDefault_of_isValueType hty) (hdefault (hlacks.mp hflag)).1
  exact Value.isAbsent_eq_false_iff.mp hpresent

end

/-- Paths of a value type. The value is absent exactly where the outermost node reads absence, and never
where it takes the place of one that is missing. Where no absence is read, fetching with a fallback is
fetching without one; where it is, the fallback is the answer. -/
theorem evaluate_valueType {p : Path} (hty : p.declaredType.isValueType = true) (r : Registry σ)
    (settings : Settings) (root : Value) (s : σ) :
    let i := r.introspector
    let c : Scene σ := ⟨i, settings, root⟩
    (∀ e, (p.evaluate i settings root s).result = .ok e →
      (e.value = .absent ↔ p.ReadsAbsent c s) ∧ (e.defaulted = true → e.value ≠ .absent)) ∧
    (¬ p.ReadsAbsent c s → ∀ fallback,
      p.fetchOr i settings root fallback s = p.fetch i settings root s) ∧
    (p.ReadsAbsent c s → ∀ fallback,
      (p.fetchOr i settings root fallback s).result = .ok fallback) := by
  intro i c
  refine ⟨fun e he => ⟨evaluate_absent_iff hty he, evaluate_defaulted_present hty he⟩,
    fun hreads fallback => ?_, fun hreads fallback => ?_⟩
  · unfold fetchOr fetch
    cases he : (p.evaluate i settings root s).result with
    | error err => rw [Run.bind_of_error he, Run.bind_of_error he]
    | ok e =>
      have hkeeps : e.wantsFallback = false := by
        rw [← Bool.not_eq_true, wantsFallback_iff_readsAbsent hty he]
        exact hreads
      rw [Run.bind_of_ok he, Run.bind_of_ok he, hkeeps]
      rfl
  · obtain ⟨e, he⟩ := evaluate_ok_of_readsAbsent hreads
    rw [(fetchOr_of_ok he fallback).1, (wantsFallback_iff_readsAbsent hty he).mpr hreads]
    rfl

/-- The balance of a person's account: zero, if there is no account. -/
theorem fetchOr_missing_account :
    let r : Registry Unit := Registry.withSequences
    let i := r.introspector
    let balance := ((parameter "p" (.reference "Person")).member "account" (.reference "Account")).member
      "balance" .int
    let person : Value := .record "Person" [("account", .absent)]
    balance.declaredType.isValueType = true ∧ ¬ balance.ReadsAbsent ⟨i, {}, person⟩ () ∧
      (balance.fetchOr i {} person (.int (-1)) ()).result = .ok (.int 0) := by
  intro r i balance person
  have hty : balance.declaredType.isValueType = true := rfl
  have hreads : ¬ balance.ReadsAbsent ⟨i, {}, person⟩ () := by
    rintro ⟨account, _, haccount, hpresent, -⟩
    cases haccount
    exact hpresent rfl
  have hfetch := (evaluate_valueType hty r {} person ()).2.1 hreads (.int (-1))
  have hzero : i.default .int = .ok (.int 0) := zeroByLayout_of_not_struct [] (by simp)
  have hbalance := evalAt_onto_of_le (c := ⟨i, {}, person⟩) (Nat.zero_le _) [] (.member ⟨"balance", .int⟩)
    ((parameter "p" (.reference "Person")).member "account" (.reference "Account")) ()
  rw [Run.bind_of_ok (a := .read .absent) rfl, Link.answer_of_absent _ _ _ _ rfl, Scene.substitute_apply]
    at hbalance
  refine ⟨hty, hreads, ?_⟩
  rw [hfetch, fetch_result_evalAt]
  refine (congrArg (fun o => o.result.map Resolved.value) hbalance).trans ?_
  show ((i.default .int).map Resolved.substituted).map Resolved.value = .ok (.int 0)
  rw [hzero]
  rfl

/-- The balance of an account whose field is missing is read as absent, though it is declared an int, and
gives way to a fallback. -/
theorem fetchOr_missing_balance :
    let account : HostType := ⟨0, "Account"⟩
    let r : Registry Host.Store := Registry.withSequences.register
      (Host.classRegistration account "Account" [("balance", .field "balance")] [])
    let i := r.introspector
    let balance := (parameter "a" (.reference "Account")).member "balance" .int
    let root : Value := .object ⟨0, account⟩
    let store : Host.Store := ⟨[⟨[], 0⟩], [], []⟩
    balance.declaredType.isValueType = true ∧
      (balance.evaluate i {} root store).result = .ok ⟨.absent, .int, false⟩ ∧
      (balance.fetch i {} root store).result = .ok .absent ∧
      (balance.fetchOr i {} root (.int (-1)) store).result = .ok (.int (-1)) :=
  ⟨rfl, rfl, rfl, rfl⟩

end Path

end AccessPath
