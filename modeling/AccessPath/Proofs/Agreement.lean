import Mathlib.Data.List.Forall2
import AccessPath.Path.Evaluate
import AccessPath.Proofs.Runs

/-!
# Agreement of runs

Two runs from the same host agree if they end alike and leave the same host, and if those of their
events that count are the same one by one. A `Comparison` says which hosts the runs may meet, which
events count, and which errors and which answers pass for the same.

Agreement is kept by everything that runs are made of (`Run.Agree.bind`), and by handing agreeing
lambdas to a script that takes errors for the same that pass for the same (`Script.Agree.run`). If only
equal errors do, every script is such (`Script.agree_refl`). What agrees in a finer comparison agrees in
a coarser one (`Run.Agree.mono`).
-/

namespace AccessPath

variable {σ α β : Type}

/-- What two runs are compared by. -/
structure Comparison (σ : Type) where
  /-- The hosts that the runs may meet. -/
  hosts : σ → Prop
  /-- The events that count. -/
  counts : Event → Bool
  /-- The errors that pass for the same. -/
  sameError : EvalError → EvalError → Prop
  /-- It counts whether a value was read or took the place of a missing one. -/
  flags : Prop
  sameError_refl : ∀ e, sameError e e
  counts_failed : ∀ {e e'}, sameError e e' → counts (.failed e) = counts (.failed e')

namespace Comparison

/-- The events pass for the same: they are, or are failures with errors that do. -/
inductive SameEvent (k : Comparison σ) : Event → Event → Prop
  | refl (e : Event) : k.SameEvent e e
  | failed {e e' : EvalError} (h : k.sameError e e') : k.SameEvent (.failed e) (.failed e')

/-- The events that count pass for the same, one by one. -/
def SameTrace (k : Comparison σ) (t t' : List Event) : Prop :=
  List.Forall₂ k.SameEvent (t.filter k.counts) (t'.filter k.counts)

/-- The results pass for the same, given which values do. -/
def SameResult (k : Comparison σ) (same : α → β → Prop) : Except EvalError α → Except EvalError β → Prop
  | .ok a, .ok b => same a b
  | .error e, .error e' => k.sameError e e'
  | _, _ => False

/-- The answers of two nodes pass for the same. -/
def SameAnswer (k : Comparison σ) (r r' : Resolved) : Prop :=
  r.value = r'.value ∧ (k.flags → r.isSubstituted = r'.isSubstituted)

theorem sameResult_refl (k : Comparison σ) {same : α → α → Prop} (hsame : ∀ a, same a a)
    (r : Except EvalError α) : k.SameResult same r r := by
  cases r with
  | ok a => exact hsame a
  | error e => exact k.sameError_refl e

theorem SameResult.map {γ δ : Type} {k : Comparison σ} {same : α → β → Prop} {same' : γ → δ → Prop}
    {r : Except EvalError α} {r' : Except EvalError β} (h : k.SameResult same r r') {f : α → γ}
    {g : β → δ} (hfg : ∀ a b, same a b → same' (f a) (g b)) :
    k.SameResult same' (r.map f) (r'.map g) := by
  cases r <;> cases r'
  · exact h
  · exact h.elim
  · exact h.elim
  · exact hfg _ _ h

theorem SameResult.eq {k : Comparison σ} (herror : ∀ e e', k.sameError e e' → e = e')
    {r r' : Except EvalError α} (h : k.SameResult Eq r r') : r = r' := by
  cases r <;> cases r'
  · exact congrArg _ (herror _ _ h)
  · exact h.elim
  · exact h.elim
  · exact congrArg _ h

theorem SameResult.ok_iff {k : Comparison σ} {r r' : Except EvalError α} (h : k.SameResult Eq r r')
    (a : α) : r = .ok a ↔ r' = .ok a := by
  cases r <;> cases r' <;> simp_all [SameResult]

theorem SameResult.exists_error {k : Comparison σ} {same : α → β → Prop} {r : Except EvalError α}
    {r' : Except EvalError β} (h : k.SameResult same r r') {e : EvalError} (hr : r = .error e) :
    ∃ e', r' = .error e' ∧ k.sameError e e' := by
  subst hr
  cases r' with
  | ok b => exact h.elim
  | error e' => exact ⟨e', rfl, h⟩

theorem SameTrace.append {k : Comparison σ} {t t' u u' : List Event} (ht : k.SameTrace t t')
    (hu : k.SameTrace u u') : k.SameTrace (t ++ u) (t' ++ u') := by
  unfold SameTrace at *
  rw [List.filter_append, List.filter_append]
  exact List.rel_append ht hu

theorem sameTrace_refl (k : Comparison σ) (t : List Event) : k.SameTrace t t :=
  List.forall₂_same.mpr fun e _ => .refl e

theorem sameTrace_failed {k : Comparison σ} {e e' : EvalError} (h : k.sameError e e') :
    k.SameTrace [.failed e] [.failed e'] := by
  have hcounts := k.counts_failed h
  unfold SameTrace
  cases hc : k.counts (.failed e') with
  | true => simp [hcounts, hc, SameEvent.failed h]
  | false => simp [hcounts, hc]

/-- If only equal errors pass for the same, so do only equal events. -/
theorem SameTrace.eq {k : Comparison σ} (herror : ∀ e e', k.sameError e e' → e = e')
    {t t' : List Event} (h : k.SameTrace t t') : t.filter k.counts = t'.filter k.counts := by
  have heq : ∀ e e', k.SameEvent e e' → e = e' := by
    rintro _ _ (_ | hsame)
    · rfl
    · rw [herror _ _ hsame]
  exact List.forall₂_eq_eq_eq ▸ List.Forall₂.imp heq h

theorem sameAnswer_refl (k : Comparison σ) (r : Resolved) : k.SameAnswer r r :=
  ⟨rfl, fun _ => rfl⟩

end Comparison

/-- Everything counts, and nothing passes for the same that is not equal. -/
def Comparison.exact : Comparison σ where
  hosts _ := True
  counts _ := true
  sameError := Eq
  flags := True
  sameError_refl _ := rfl
  counts_failed _ := rfl

/-- It counts how a run ends and on which host, and not what happens on the way. -/
def Comparison.endings : Comparison σ where
  hosts _ := True
  counts _ := false
  sameError := Eq
  flags := True
  sameError_refl _ := rfl
  counts_failed _ := rfl

/-- What passes for the same in the first comparison does so in the second. -/
structure Comparison.Finer (k k' : Comparison σ) : Prop where
  hosts : ∀ s, k.hosts s ↔ k'.hosts s
  counts : k.counts = k'.counts
  sameError : ∀ e e', k.sameError e e' → k'.sameError e e'
  flags : k'.flags → k.flags

theorem Comparison.Finer.refl (k : Comparison σ) : k.Finer k :=
  ⟨fun _ => .rfl, rfl, fun _ _ h => h, id⟩

theorem Comparison.Finer.sameResult {k k' : Comparison σ} (hk : k.Finer k')
    {same same' : α → β → Prop} (hsame : ∀ a b, same a b → same' a b) {r : Except EvalError α}
    {r' : Except EvalError β} (h : k.SameResult same r r') : k'.SameResult same' r r' := by
  cases r <;> cases r'
  · exact hk.sameError _ _ h
  · exact h.elim
  · exact h.elim
  · exact hsame _ _ h

theorem Comparison.Finer.sameAnswer {k k' : Comparison σ} (hk : k.Finer k') {r r' : Resolved}
    (h : k.SameAnswer r r') : k'.SameAnswer r r' :=
  ⟨h.1, fun hflags => h.2 (hk.flags hflags)⟩

theorem Comparison.Finer.sameTrace {k k' : Comparison σ} (hk : k.Finer k') {t t' : List Event}
    (h : k.SameTrace t t') : k'.SameTrace t t' := by
  have hevent : ∀ e e', k.SameEvent e e' → k'.SameEvent e e' := by
    rintro _ _ (_ | hsame)
    · exact .refl _
    · exact .failed (hk.sameError _ _ hsame)
  unfold SameTrace at *
  rw [← hk.counts]
  exact List.Forall₂.imp hevent h

/-- The outcomes agree: they end alike, on the same host, after the same events. -/
structure Outcome.Agree (k : Comparison σ) (same : α → β → Prop) (o : Outcome σ α) (o' : Outcome σ β) :
    Prop where
  result : k.SameResult same o.result o'.result
  host : o.host = o'.host
  admitted : k.hosts o.host
  trace : k.SameTrace o.trace o'.trace

theorem Outcome.Agree.eq {o o' : Outcome σ α} (h : Outcome.Agree .exact Eq o o') : o = o' := by
  obtain ⟨hresult, hhost, -, htrace⟩ := h
  have hresults : o.result = o'.result := hresult.eq fun _ _ he => he
  have hevents : o.trace = o'.trace := by
    simpa [Comparison.exact] using htrace.eq fun _ _ he => he
  cases o
  cases o'
  cases hresults
  cases hhost
  cases hevents
  rfl

/-- The runs agree from every host that they may meet. -/
def Run.Agree (k : Comparison σ) (same : α → β → Prop) (x : Run σ α) (y : Run σ β) : Prop :=
  ∀ s, k.hosts s → Outcome.Agree k same (x s) (y s)

/-- The actions agree from every host that they may meet. -/
def Action.Agree (k : Comparison σ) (a a' : Action σ α) : Prop :=
  ∀ s, k.hosts s → (a s).2 = (a' s).2 ∧ k.hosts (a s).2 ∧ k.SameResult Eq (a s).1 (a' s).1

/-- The scripts agree: they make the same calls and accesses, whatever the calls answer, as long as
they answer alike. -/
def Script.Agree (k : Comparison σ) : Script σ α → Script σ α → Prop
  | .done r, .done r' => k.SameResult Eq r r'
  | .call item resume, .call item' resume' =>
    item = item' ∧ ∀ r r', k.SameResult Eq r r' → (resume r).Agree k (resume' r')
  | .access next resume, .access next' resume' =>
    ∀ s, k.hosts s → next s = next' s ∧ k.hosts (next s) ∧ (resume s).Agree k (resume' s)
  | _, _ => False

namespace Run

variable {k : Comparison σ} {same : α → β → Prop}

theorem Agree.pure {a : α} {b : β} (h : same a b) :
    Run.Agree k same (pure a : Run σ α) (pure b : Run σ β) :=
  fun _ hs => ⟨h, rfl, hs, k.sameTrace_refl []⟩

/-- Runs that agree go on in agreement, if they do so from any two values that pass for the same. -/
theorem Agree.bind {γ δ : Type} {same' : γ → δ → Prop} {x : Run σ α} {y : Run σ β} {f : α → Run σ γ}
    {g : β → Run σ δ} (hx : Run.Agree k same x y)
    (hf : ∀ a b, same a b → Run.Agree k same' (f a) (g b)) :
    Run.Agree k same' (x >>= f) (y >>= g) := by
  intro s hs
  obtain ⟨hresult, hhost, hadmitted, htrace⟩ := hx s hs
  cases hxr : (x s).result with
  | error e =>
    cases hyr : (y s).result with
    | error e' =>
      rw [hxr, hyr] at hresult
      rw [bind_of_error hxr, bind_of_error hyr]
      exact ⟨hresult, hhost, hadmitted, htrace⟩
    | ok b => rw [hxr, hyr] at hresult; exact hresult.elim
  | ok a =>
    cases hyr : (y s).result with
    | error e' => rw [hxr, hyr] at hresult; exact hresult.elim
    | ok b =>
      rw [hxr, hyr] at hresult
      obtain ⟨hresult', hhost', hadmitted', htrace'⟩ := hf a b hresult (x s).host hadmitted
      rw [bind_of_ok hxr, bind_of_ok hyr]
      rw [hhost] at hresult' hhost' htrace' hadmitted' ⊢
      exact ⟨hresult', hhost', hadmitted', htrace.append htrace'⟩

theorem Agree.emit (e : Event) : Run.Agree k Eq (emit e) (emit e : Run σ Unit) :=
  fun _ hs => ⟨rfl, rfl, hs, k.sameTrace_refl [e]⟩

theorem Agree.emit_uncounted {e e' : Event} (h : k.counts e = false) (h' : k.counts e' = false) :
    Run.Agree k Eq (Run.emit e) (Run.emit e' : Run σ Unit) := by
  intro s hs
  have htrace : k.SameTrace [e] [e'] := by simp [Comparison.SameTrace, h, h']
  exact ⟨rfl, rfl, hs, htrace⟩

/-- An event that does not count may come first. -/
theorem Agree.after_uncounted {x : Run σ α} {y : Run σ β} (hxy : Run.Agree k same x y) {e : Event}
    (h : k.counts e = false) : Run.Agree k same x (do Run.emit e; y) := by
  intro s hs
  obtain ⟨hresult, hhost, hadmitted, htrace⟩ := hxy s hs
  rw [emit_bind_apply]
  exact ⟨hresult, hhost, hadmitted, by simpa [Comparison.SameTrace, h] using htrace⟩

theorem Agree.fail {e e' : EvalError} (h : k.sameError e e') :
    Run.Agree k same (fail e : Run σ α) (fail e' : Run σ β) :=
  fun _ hs => ⟨h, rfl, hs, Comparison.sameTrace_failed h⟩

theorem Agree.mono {k' : Comparison σ} (hk : k.Finer k') {same' : α → β → Prop}
    (hsame : ∀ a b, same a b → same' a b) {x : Run σ α} {y : Run σ β} (h : Run.Agree k same x y) :
    Run.Agree k' same' x y := by
  intro s hs
  obtain ⟨hresult, hhost, hadmitted, htrace⟩ := h s ((hk.hosts s).mpr hs)
  exact ⟨hk.sameResult hsame hresult, hhost, (hk.hosts _).mp hadmitted, hk.sameTrace htrace⟩

theorem Agree.ofExcept {r : Except EvalError α} {r' : Except EvalError β}
    (h : k.SameResult same r r') : Run.Agree k same (ofExcept r) (ofExcept r' : Run σ β) := by
  cases r with
  | ok a =>
    cases r' with
    | ok b => exact .pure h
    | error e' => exact h.elim
  | error e =>
    cases r' with
    | ok b => exact h.elim
    | error e' => exact .fail h

theorem Agree.ofAction {a a' : Action σ α} (h : a.Agree k a') :
    Run.Agree k Eq (ofAction a) (ofAction a') := by
  intro s hs
  obtain ⟨hhost, hadmitted, hresult⟩ := h s hs
  simp only [Run.ofAction]
  rw [← hhost]
  exact Agree.ofExcept hresult (a s).2 hadmitted

end Run

namespace Script

variable {k : Comparison σ}

/-- Agreeing scripts, carried out with agreeing lambdas, agree. -/
theorem Agree.run {x y : Script σ α} (h : x.Agree k y) {f g : Value → Run σ Value}
    (hf : ∀ v, Run.Agree k Eq (f v) (g v)) : Run.Agree k Eq (x.run f) (y.run g) := by
  induction x generalizing y with
  | done r =>
    cases y with
    | done r' => exact .ofExcept h
    | _ => exact h.elim
  | call item resume ih =>
    cases y with
    | call item' resume' =>
      obtain ⟨rfl, hresume⟩ := h
      intro s hs
      obtain ⟨hresult, hhost, hadmitted, htrace⟩ := hf item s hs
      obtain ⟨hresult', hhost', hadmitted', htrace'⟩ :=
        ih _ (hresume _ _ hresult) (f item s).host hadmitted
      simp only [Script.run]
      rw [hhost] at hresult' hhost' htrace' hadmitted' ⊢
      exact ⟨hresult', hhost', hadmitted', htrace.append htrace'⟩
    | _ => exact h.elim
  | access next resume ih =>
    cases y with
    | access next' resume' =>
      intro s hs
      obtain ⟨hnext, hadmitted, hresume⟩ := h s hs
      simp only [Script.run]
      rw [← hnext]
      exact ih s hresume (next s) hadmitted
    | _ => exact h.elim

/-- Every script agrees with itself where only equal errors pass for the same and any host may be
met. -/
theorem agree_refl (hhosts : ∀ s, k.hosts s) (herror : ∀ e e', k.sameError e e' → e = e')
    (x : Script σ α) : x.Agree k x := by
  induction x with
  | done r => exact k.sameResult_refl (fun _ => rfl) r
  | call item resume ih =>
    refine ⟨rfl, fun r r' h => ?_⟩
    rw [h.eq herror]
    exact ih r'
  | access next resume ih => exact fun s _ => ⟨rfl, hhosts _, ih s⟩

end Script

end AccessPath
