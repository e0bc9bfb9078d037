import AccessPath.Host.Rules
import AccessPath.Proofs.Sequences

/-!
# Predicates of sequence extensions

`where`, `count`, `first` and `single` ask a predicate about every item, `any` up to the first match. They agree
all the same (`Sequence.predicates_agree`): where `where` answers, the others answer about its list; where it
fails, `count`, `first` and `single` fail with it, and `any` does unless it had its match before.

What the items are asked and what comes of it is stated without the extensions: the items in turn, each on the
host that the call before has left, are given verdicts (`Sequence.Judged`), until one call gives none
(`Sequence.judged_or_refused`). So a predicate may answer by what it was asked before, and may fail at any item.
-/

namespace AccessPath

variable {σ : Type}

namespace Sequence

/-- The verdict of a predicate on an item: an answer that is no truth value is none. -/
def verdict (lambda : Value → Run σ Value) (item : Value) (s : σ) : Except EvalError Bool :=
  match (lambda item s).result with
  | .ok (.bool b) => .ok b
  | .ok v => .error (.notATruthValue v.typeName)
  | .error e => .error e

/-- Asked about the items in turn, from one host to another, the predicate gives these verdicts. -/
inductive Judged (lambda : Value → Run σ Value) : σ → List Value → List Bool → σ → Prop
  | nil (s : σ) : Judged lambda s [] [] s
  | cons {s s' : σ} {item : Value} {items : List Value} {b : Bool} {bs : List Bool}
      (first : verdict lambda item s = .ok b) (rest : Judged lambda (lambda item s).host items bs s') :
      Judged lambda s (item :: items) (b :: bs) s'

/-- The items with a favourable verdict. -/
def accepted : List Value → List Bool → List Value
  | item :: items, true :: bs => item :: accepted items bs
  | _ :: items, false :: bs => accepted items bs
  | _, _ => []

variable {lambda : Value → Run σ Value} {s s' : σ} {items : List Value} {bs : List Bool}

theorem accepted_sublist (items : List Value) (bs : List Bool) : (accepted items bs).Sublist items := by
  fun_induction accepted items bs with
  | case1 item items bs ih => exact ih.cons_cons item
  | case2 item items bs ih => exact ih.cons item
  | case3 => exact List.nil_sublist _

/-- Something is accepted exactly if some verdict is favourable. -/
theorem Judged.accepted_eq_nil_iff (h : Judged lambda s items bs s') :
    accepted items bs = [] ↔ true ∉ bs := by
  induction h with
  | nil => simp [accepted]
  | @cons _ _ _ _ b _ _ _ ih =>
    cases b with
    | true => simp [accepted]
    | false => simpa [accepted] using ih

/-- Either all items are judged, or those before one on which there is no verdict. -/
theorem judged_or_refused (lambda : Value → Run σ Value) (items : List Value) (s : σ) :
    (∃ bs s', Judged lambda s items bs s') ∨
      ∃ before item after bs s' e, items = before ++ item :: after ∧ Judged lambda s before bs s' ∧
        verdict lambda item s' = .error e := by
  induction items generalizing s with
  | nil => exact .inl ⟨[], s, .nil s⟩
  | cons item items ih =>
    cases hverdict : verdict lambda item s with
    | error e => exact .inr ⟨[], item, items, [], s, e, rfl, .nil s, hverdict⟩
    | ok b =>
      rcases ih (lambda item s).host with ⟨bs, s', hrest⟩ | ⟨before, x, after, bs, s', e, rfl, hrest, he⟩
      · exact .inl ⟨b :: bs, s', .cons hverdict hrest⟩
      · exact .inr ⟨item :: before, x, after, b :: bs, s', e, rfl, .cons hverdict hrest, he⟩

/-- A predicate that accepts whatever it is asked about accepts all. -/
theorem judged_always {always : Value → Run σ Value}
    (halways : ∀ item s, (always item s).result = .ok (.bool true)) (items : List Value) (s : σ) :
    ∃ s', Judged always s items (items.map fun _ => true) s' := by
  induction items generalizing s with
  | nil => exact ⟨s, .nil s⟩
  | cons item items ih =>
    obtain ⟨s', hrest⟩ := ih (always item s).host
    have hverdict : verdict always item s = .ok true := by rw [verdict, halways]
    exact ⟨s', .cons hverdict hrest⟩

theorem accepted_all (items : List Value) : accepted items (items.map fun _ => true) = items := by
  induction items with
  | nil => rfl
  | cons item items ih => rw [List.map_cons, accepted, ih]

/-! What the scripts do -/

/-- Testing an item ends with the verdict on it, on the host that the call has left. -/
theorem run_test (lambda : Value → Run σ Value) (item : Value) (s : σ) :
    ((test item).run lambda s).result = verdict lambda item s ∧
      ((test item).run lambda s).host = (lambda item s).host := by
  have hask : ((Script.ask item).run lambda s).result = (lambda item s).result ∧
      ((Script.ask item).run lambda s).host = (lambda item s).host := by
    simp only [Script.ask, Script.run]
    cases (lambda item s).result <;> exact ⟨rfl, rfl⟩
  rw [test, Script.run_bind, verdict]
  cases hcall : (lambda item s).result with
  | error e =>
    rw [Run.bind_of_error (hask.1.trans hcall)]
    exact ⟨rfl, hask.2⟩
  | ok v =>
    rw [Run.bind_of_ok (hask.1.trans hcall)]
    cases v <;> exact ⟨rfl, hask.2⟩

/-- Filtering goes on behind judged items, and keeps those that were accepted. -/
theorem Judged.filter_append (h : Judged lambda s items bs s') (rest : List Value) :
    ((filter (items ++ rest)).run lambda s).result =
        ((filter rest).run lambda s').result.map (accepted items bs ++ ·) ∧
      ((filter (items ++ rest)).run lambda s).host = ((filter rest).run lambda s').host := by
  induction h with
  | nil s =>
    cases hrest : ((filter rest).run lambda s).result <;> simp [hrest, accepted, Except.map]
  | @cons s s' item items b bs first _ ih =>
    obtain ⟨hresult, hhost⟩ := run_test lambda item s
    obtain ⟨ihresult, ihhost⟩ := ih
    rw [List.cons_append, filter, Script.run_bind, Run.bind_of_ok (hresult.trans first), hhost, Script.run_bind]
    simp only [Script.run_pure, Run.bind_pure_apply, ihresult]
    refine ⟨?_, ihhost⟩
    cases ((filter rest).run lambda s').result with
    | error e => rfl
    | ok kept => cases b <;> rfl

/-- Looking for a match goes on behind judged items, unless one of them was accepted. -/
theorem Judged.anyMatch_append (h : Judged lambda s items bs s') (rest : List Value) :
    ((anyMatch (items ++ rest)).run lambda s).result =
      if true ∈ bs then .ok true else ((anyMatch rest).run lambda s').result := by
  induction h with
  | nil s => rw [if_neg List.not_mem_nil, List.nil_append]
  | @cons s s' item items b bs first _ ih =>
    obtain ⟨hresult, hhost⟩ := run_test lambda item s
    rw [List.cons_append, anyMatch, Script.run_bind, Run.bind_of_ok (hresult.trans first), hhost]
    cases b with
    | true =>
      rw [if_pos List.mem_cons_self]
      rfl
    | false => simpa using ih

/-- A filter keeps what was accepted, if all items are judged. -/
theorem Judged.filter_result (h : Judged lambda s items bs s') :
    ((filter items).run lambda s).result = .ok (accepted items bs) := by
  have happend := (h.filter_append []).1
  rw [List.append_nil] at happend
  rw [happend]
  simp [filter, Script.run_pure, Run.pure_apply, Except.map]

theorem Judged.anyMatch_result (h : Judged lambda s items bs s') :
    ((anyMatch items).run lambda s).result = .ok !(accepted items bs).isEmpty := by
  have happend := h.anyMatch_append []
  rw [List.append_nil] at happend
  rw [happend]
  cases hkept : accepted items bs with
  | nil =>
    rw [if_neg (h.accepted_eq_nil_iff.mp hkept)]
    rfl
  | cons first rest =>
    have hsome : true ∈ bs := by
      by_contra hnone
      rw [h.accepted_eq_nil_iff.mpr hnone] at hkept
      cases hkept
    rw [if_pos hsome]
    rfl

/-- A filter fails where there is no verdict, and what was accepted before is lost. -/
theorem Judged.filter_refused (h : Judged lambda s items bs s') {item : Value} {e : EvalError}
    (he : verdict lambda item s' = .error e) (after : List Value) :
    ((filter (items ++ item :: after)).run lambda s).result = .error e := by
  have htest := (run_test lambda item s').1.trans he
  rw [(h.filter_append _).1, filter, Script.run_bind, Run.bind_of_error htest]
  rfl

/-- Looking for a match fails there, unless there was one before. -/
theorem Judged.anyMatch_refused (h : Judged lambda s items bs s') {item : Value} {e : EvalError}
    (he : verdict lambda item s' = .error e) (after : List Value) :
    ((anyMatch (items ++ item :: after)).run lambda s).result =
      if true ∈ bs then .ok true else .error e := by
  have htest := (run_test lambda item s').1.trans he
  rw [h.anyMatch_append, anyMatch, Script.run_bind, Run.bind_of_error htest]

/-! What the extensions do -/

/-- With the items of the receiver at hand, a script goes on with them. -/
theorem run_items_bind {m : MethodSig} {v : Value} (hitems : Sequence.items m v = .ok items)
    (f : List Value → Script σ Value) :
    ((Script.done (Sequence.items m v) >>= f).run lambda) = (f items).run lambda := by
  rw [hitems, Script.run_bind]
  exact pure_bind (m := Run σ) items fun items => (f items).run lambda

theorem ofMatches_result {f : List Value → Except EvalError Value} {m : MethodSig} {v : Value}
    (hitems : Sequence.items m v = .ok items) :
    (((ofMatches f).withLambda m v).run lambda s).result = ((filter items).run lambda s).result.bind f := by
  simp only [ofMatches, run_items_bind hitems, Script.run_bind]
  cases h : ((filter items).run lambda s).result with
  | error e => rw [Run.bind_of_error h]; rfl
  | ok kept =>
    rw [Run.bind_of_ok h, Except.bind]
    cases f kept <;> rfl

theorem any_result {m : MethodSig} {v : Value} (hitems : Sequence.items m v = .ok items) :
    ((any.withLambda m v).run lambda s).result =
      ((anyMatch items).run lambda s).result.map Value.bool := by
  simp only [any, run_items_bind hitems, Script.run_bind, Script.run_pure, Run.bind_pure_apply]

theorem where_result {m : MethodSig} {v : Value} (hitems : Sequence.items m v = .ok items) :
    (((ofLambda fun items => do return .list (← filter items)).withLambda m v).run lambda s).result =
      ((filter items).run lambda s).result.map Value.list := by
  simp only [ofLambda, run_items_bind hitems, Script.run_bind, Script.run_pure, Run.bind_pure_apply]

/-- Called alone, an extension answers as with a predicate that accepts everything, and leaves the host. -/
theorem ofMatches_alone {always : Value → Run σ Value}
    (halways : ∀ item s, (always item s).result = .ok (.bool true)) {f : List Value → Except EvalError Value}
    {m : MethodSig} {v : Value} (hitems : Sequence.items m v = .ok items) (s : σ) :
    (ofMatches f).alone m v s = ((((ofMatches f).withLambda m v).run always s).result, s) := by
  obtain ⟨s', hjudged⟩ := judged_always halways items s
  rw [ofMatches_result hitems, hjudged.filter_result, accepted_all]
  simp only [ofMatches, hitems]
  rfl

theorem any_alone {always : Value → Run σ Value}
    (halways : ∀ item s, (always item s).result = .ok (.bool true)) {m : MethodSig} {v : Value}
    (hitems : Sequence.items m v = .ok items) (s : σ) :
    any.alone m v s = (((any.withLambda m v).run always s).result, s) := by
  obtain ⟨s', hjudged⟩ := judged_always halways items s
  rw [any_result hitems, hjudged.anyMatch_result, accepted_all]
  simp only [any, hitems]
  rfl

/-- A set is to every extension what the list of its items is. -/
theorem extensions_set (x : String × Extension σ) (hx : x ∈ extensions) (m : MethodSig) (element : Ty)
    (items : List Value) :
    x.2.alone m (.set element items) = x.2.alone m (.list items) ∧
      x.2.withLambda m (.set element items) = x.2.withLambda m (.list items) := by
  simp only [extensions, List.mem_cons, List.not_mem_nil, or_false] at hx
  rcases hx with rfl | rfl | rfl | rfl | rfl | rfl | rfl | rfl <;> exact ⟨rfl, rfl⟩

theorem exists_countOf (h : items.length ≤ maxCount) :
    ∃ n : Int32, countOf items = .ok (.int n) ∧ n.toInt = items.length := by
  refine ⟨Int32.ofNat items.length, if_pos h, Int32.toInt_ofNat_of_lt ?_⟩
  unfold maxCount at h
  omega

theorem singleOf_eq_ok_iff {item : Value} : singleOf items = .ok item ↔ items = [item] := by
  match items with
  | [] => simp [singleOf]
  | [x] => simp [singleOf]
  | x :: y :: rest => simp [singleOf]

theorem singleOf_of_length_ne (h : items.length ≠ 1) :
    ∃ reason, singleOf items = .error (.invocation reason) := by
  match items, h with
  | [], _ => exact ⟨_, rfl⟩
  | _ :: _ :: _, _ => exact ⟨_, rfl⟩

end Sequence

namespace Registry

/-- The standard extensions are registered under their names. -/
def KeepsSequences (r : Registry σ) : Prop :=
  ∀ name x, Sequence.extensions.lookup name = some x → r.extensions.lookup name = some x

namespace KeepsSequences

variable {r : Registry σ} {m : MethodSig} {v : Value} {items : List Value}
  {lambda : Value → Run σ Value} {s : σ}

theorem invokeExtension_eq (h : r.KeepsSequences) {x : Extension σ}
    (hx : Sequence.extensions.lookup m.name = some x) (v : Value) :
    r.introspector.invokeExtension m v = x.alone m v := by
  simp only [introspector, h _ x hx]

theorem invokeExtensionWith_eq (h : r.KeepsSequences) {x : Extension σ}
    (hx : Sequence.extensions.lookup m.name = some x) (v : Value) :
    r.introspector.invokeExtensionWith m v = x.withLambda m v := by
  simp only [introspector, h _ x hx]

theorem where_result (h : r.KeepsSequences) (hm : m.name = "where") (hitems : Sequence.items m v = .ok items) :
    ((r.introspector.invokeExtensionWith m v).run lambda s).result =
      ((Sequence.filter items).run lambda s).result.map .list := by
  obtain ⟨name, params, result⟩ := m
  obtain rfl : name = "where" := hm
  rw [h.invokeExtensionWith_eq rfl]
  exact Sequence.where_result hitems

theorem matches_result (h : r.KeepsSequences) {f : List Value → Except EvalError Value}
    (hm : Sequence.extensions.lookup m.name = some (Sequence.ofMatches f : Extension σ))
    (hitems : Sequence.items m v = .ok items) :
    ((r.introspector.invokeExtensionWith m v).run lambda s).result =
      ((Sequence.filter items).run lambda s).result.bind f := by
  rw [h.invokeExtensionWith_eq hm]
  exact Sequence.ofMatches_result hitems

theorem any_result (h : r.KeepsSequences) (hm : m.name = "any") (hitems : Sequence.items m v = .ok items) :
    ((r.introspector.invokeExtensionWith m v).run lambda s).result =
      ((Sequence.anyMatch items).run lambda s).result.map .bool := by
  obtain ⟨name, params, result⟩ := m
  obtain rfl : name = "any" := hm
  rw [h.invokeExtensionWith_eq rfl]
  exact Sequence.any_result hitems

/-- The extensions that may be called alone answer then as with a predicate that accepts everything. -/
theorem alone_eq (h : r.KeepsSequences) (hm : m.name ∈ ["count", "any", "first", "single"])
    (hitems : Sequence.items m v = .ok items) {always : Value → Run σ Value}
    (halways : ∀ item s, (always item s).result = .ok (.bool true)) (s : σ) :
    r.introspector.invokeExtension m v s =
      (((r.introspector.invokeExtensionWith m v).run always s).result, s) := by
  obtain ⟨name, params, result⟩ := m
  simp only [List.mem_cons, List.not_mem_nil, or_false] at hm
  rcases hm with rfl | rfl | rfl | rfl <;> rw [h.invokeExtension_eq rfl, h.invokeExtensionWith_eq rfl]
  · exact Sequence.ofMatches_alone halways hitems s
  · exact Sequence.any_alone halways hitems s
  · exact Sequence.ofMatches_alone halways hitems s
  · exact Sequence.ofMatches_alone halways hitems s

/-- A standard extension answers about a set as about the list of its items. -/
theorem set_eq (h : r.KeepsSequences) {x : Extension σ} (hx : Sequence.extensions.lookup m.name = some x)
    (element : Ty) (items : List Value) :
    r.introspector.invokeExtension m (.set element items) = r.introspector.invokeExtension m (.list items) ∧
      r.introspector.invokeExtensionWith m (.set element items) =
        r.introspector.invokeExtensionWith m (.list items) := by
  obtain ⟨hsame, hsameWith⟩ := Sequence.extensions_set _ (Table.mem_of_lookup hx) m element items
  rw [h.invokeExtension_eq hx, h.invokeExtension_eq hx, h.invokeExtensionWith_eq hx, h.invokeExtensionWith_eq hx]
  exact ⟨hsame, hsameWith⟩

end KeepsSequences

end Registry

namespace Sequence

/-- The extensions that take a predicate agree with `where`, whatever they are declared as and whatever the
predicate is, each of them called on the same host.

If `where` answers, then with the items that the predicate has accepted, asked about each in turn; `count` answers
how many they are, `any` whether there are any, `first` the first of them, if there is one, and `single` answers
the one that there is, if it is the only one. If `where` fails, `count`, `first` and `single` fail with the same
error; `any` does unless an item before the one that made `where` fail was accepted.

Called alone, all but `where` answer as with any predicate that accepts everything. A set is to all standard
extensions what the list of its items is. -/
theorem predicates_agree {r : Registry σ} (hr : r.KeepsSequences) (declared : String → List Ty × Ty)
    {receiver : Value} {items : List Value}
    (hreceiver : receiver = .list items ∨ ∃ element, receiver = .set element items)
    (hlength : items.length ≤ maxCount) (lambda : Value → Run σ Value) (s : σ) :
    let sig (name : String) : MethodSig := ⟨name, (declared name).1, (declared name).2⟩
    let call (name : String) (f : Value → Run σ Value) : Except EvalError Value :=
      ((r.introspector.invokeExtensionWith (sig name) receiver).run f s).result
    (∀ answer, call "where" lambda = .ok answer → ∃ kept, answer = .list kept) ∧
    (∀ kept, call "where" lambda = .ok (.list kept) →
      (∃ bs s', Judged lambda s items bs s' ∧ kept = accepted items bs) ∧
      (∃ n : Int32, call "count" lambda = .ok (.int n) ∧ n.toInt = kept.length) ∧
      call "any" lambda = .ok (.bool !kept.isEmpty) ∧
      (∀ first rest, kept = first :: rest → call "first" lambda = .ok first) ∧
      (kept = [] → ∃ reason, call "first" lambda = .error (.invocation reason)) ∧
      (∀ item, call "single" lambda = .ok item ↔ kept = [item]) ∧
      (kept.length ≠ 1 → ∃ reason, call "single" lambda = .error (.invocation reason))) ∧
    (∀ e, call "where" lambda = .error e →
      call "count" lambda = .error e ∧ call "first" lambda = .error e ∧ call "single" lambda = .error e ∧
      ∃ before item after bs s', items = before ++ item :: after ∧ Judged lambda s before bs s' ∧
        verdict lambda item s' = .error e ∧
        call "any" lambda = if true ∈ bs then .ok (.bool true) else .error e) ∧
    (∀ name ∈ ["count", "any", "first", "single"], ∀ always : Value → Run σ Value,
      (∀ item s', (always item s').result = .ok (.bool true)) →
      r.introspector.invokeExtension (sig name) receiver s = (call name always, s)) ∧
    ∀ (m : MethodSig) (x : Extension σ), extensions.lookup m.name = some x → ∀ element,
      r.introspector.invokeExtension m (.set element items) =
        r.introspector.invokeExtension m (.list items) ∧
      r.introspector.invokeExtensionWith m (.set element items) =
        r.introspector.invokeExtensionWith m (.list items) := by
  intro sig call
  have hitems : ∀ m, Sequence.items m receiver = .ok items := by
    rcases hreceiver with rfl | ⟨element, rfl⟩ <;> exact fun _ => rfl
  have hwhere : call "where" lambda = _ := hr.where_result rfl (hitems _)
  have hany : call "any" lambda = _ := hr.any_result rfl (hitems _)
  have hcount : call "count" lambda = _ := hr.matches_result (f := countOf) rfl (hitems _)
  have hfirst : call "first" lambda = _ := hr.matches_result (f := firstOf) rfl (hitems _)
  have hsingle : call "single" lambda = _ := hr.matches_result (f := singleOf) rfl (hitems _)
  have halone : ∀ name ∈ ["count", "any", "first", "single"], ∀ always : Value → Run σ Value,
      (∀ item s', (always item s').result = .ok (.bool true)) →
      r.introspector.invokeExtension (sig name) receiver s = (call name always, s) :=
    fun name hname always halways => hr.alone_eq hname (hitems _) halways s
  have hset := fun (m : MethodSig) (x : Extension σ) (hx : extensions.lookup m.name = some x) element =>
    hr.set_eq hx element items
  rcases judged_or_refused lambda items s with
    ⟨bs, s', hjudged⟩ | ⟨before, item, after, bs, s', e, rfl, hjudged, he⟩
  · rw [hjudged.filter_result] at hwhere hcount hfirst hsingle
    rw [hjudged.anyMatch_result] at hany
    refine ⟨fun answer hanswer => ?_, fun kept hkept => ?_, fun e he => ?_, halone, hset⟩
    · cases hwhere.symm.trans hanswer
      exact ⟨_, rfl⟩
    · cases hwhere.symm.trans hkept
      have hcounted : (accepted items bs).length ≤ maxCount :=
        Nat.le_trans (accepted_sublist items bs).length_le hlength
      obtain ⟨n, hn, hlength⟩ := exists_countOf hcounted
      refine ⟨⟨bs, s', hjudged, rfl⟩, ⟨n, hcount.trans hn, hlength⟩, hany, fun first rest hcons => ?_,
        fun hnil => ?_, fun item => ?_, fun hlength => ?_⟩
      · rw [hfirst, hcons]
        rfl
      · rw [hfirst, hnil]
        exact ⟨_, rfl⟩
      · rw [hsingle]
        exact singleOf_eq_ok_iff
      · rw [hsingle]
        exact singleOf_of_length_ne hlength
    · cases hwhere.symm.trans he
  · rw [hjudged.filter_refused he] at hwhere hcount hfirst hsingle
    rw [hjudged.anyMatch_refused he] at hany
    refine ⟨fun answer hanswer => ?_, fun kept hkept => ?_, fun e' he' => ?_, halone, hset⟩
    · cases hwhere.symm.trans hanswer
    · cases hwhere.symm.trans hkept
    · cases hwhere.symm.trans he'
      refine ⟨hcount, hfirst, hsingle, before, item, after, bs, s', rfl, hjudged, he, ?_⟩
      rw [hany]
      split <;> rfl

/-- A lambda whose answers run out in turn, asked about the items of a set: one of them is refused first, and
the second time one answer is no truth value. -/
theorem predicates_agree_scripted :
    let r : Registry Host.Store := Registry.withSequences
    let items : List Value := [.int 1, .int 2, .int 3]
    let host (answers : List Value) : Host.Store := ⟨[], answers, []⟩
    let call (name : String) (answers : List Value) : Except EvalError Value :=
      ((r.introspector.invokeExtensionWith ⟨name, [], .any⟩ (.set .int items)).run
        Host.LambdaRule.script.lambda (host answers)).result
    let mixed : List Value := [.bool false, .bool true, .bool true]
    let failing : List Value := [.bool true, .int 0]
    r.KeepsSequences ∧ items.length ≤ maxCount ∧
      call "where" mixed = .ok (.list [.int 2, .int 3]) ∧
      (∃ n : Int32, call "count" mixed = .ok (.int n) ∧ n.toInt = 2) ∧
      call "first" mixed = .ok (.int 2) ∧ call "any" mixed = .ok (.bool true) ∧
      (∃ reason, call "single" mixed = .error (.invocation reason)) ∧
      call "where" failing = .error (.notATruthValue "int") ∧
      call "count" failing = .error (.notATruthValue "int") ∧
      call "single" failing = .error (.notATruthValue "int") ∧ call "any" failing = .ok (.bool true) := by
  intro r items host call mixed failing
  have hr : r.KeepsSequences := fun _ _ h => h
  have hlength : items.length ≤ maxCount := by decide
  have hagree := fun answers => predicates_agree hr (fun _ => ([], .any)) (.inr ⟨.int, rfl⟩) hlength
    Host.LambdaRule.script.lambda (host answers)
  have hwhere : call "where" mixed = .ok (.list [.int 2, .int 3]) := rfl
  have hfails : call "where" failing = .error (.notATruthValue "int") := rfl
  obtain ⟨-, hcount, hany, hfirst, -, -, hsingle⟩ := (hagree mixed).2.1 _ hwhere
  obtain ⟨hcount', -, hsingle', -⟩ := (hagree failing).2.2.1 _ hfails
  exact ⟨hr, hlength, hwhere, hcount, hfirst _ _ rfl, hany, hsingle (by decide), hfails, hcount', hsingle', rfl⟩

end Sequence

end AccessPath
