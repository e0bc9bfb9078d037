import AccessPath.Proofs.Calls
import AccessPath.Proofs.Predicates

/-!
# Calls of the lambda by the standard extensions

The standard extensions call their lambda on the items of the receiver in turn, on each at most once
(`Sequence.calls_in_turn`). They stop where a call fails or, if they ask for a verdict, gives none; `any` also
stops at the first match.

How a loop over the items goes is stated without the loops (`Sequence.InTurn`). Filtering, looking for a match and
collecting answers are instances; what is made of the loop's result, and which guards stand before it, calls
nothing.
-/

namespace AccessPath

variable {σ α β : Type}

/-- Both parts of what ends well end well. -/
theorem Except.ok_of_bind_ok {ε : Type} {x : Except ε α} {f : α → Except ε β} {b : β} (h : x.bind f = .ok b) :
    ∃ a, x = .ok a ∧ f a = .ok b := by
  cases x with
  | error e => cases h
  | ok a => exact ⟨a, rfl, h⟩

namespace Sequence

/-- Each call is made on the host that the one before has left. -/
inductive Turns (lambda : Value → Run σ Value) : σ → List (Value × σ) → σ → Prop
  | nil (s : σ) : Turns lambda s [] s
  | cons {s s' : σ} {item : Value} {calls : List (Value × σ)} (rest : Turns lambda (lambda item s).host calls s') :
      Turns lambda s ((item, s) :: calls) s'

/-- The items are asked about in turn, as long as replies come that are not the last wanted. It ends with such a
reply or with an error, if not with the last item. -/
inductive InTurn (lambda : Value → Run σ Value) (reply : Value × σ → Except EvalError Value)
    (wanted : Value → Prop) : σ → List Value → List (Value × σ) → Option (Except EvalError Value) → σ → Prop
  | done (s : σ) : InTurn lambda reply wanted s [] [] none s
  | next {s s' : σ} {item answer : Value} {items : List Value} {calls : List (Value × σ)}
      {ending : Option (Except EvalError Value)} (hreply : reply (item, s) = .ok answer) (hgoes : ¬ wanted answer)
      (rest : InTurn lambda reply wanted (lambda item s).host items calls ending s') :
      InTurn lambda reply wanted s (item :: items) ((item, s) :: calls) ending s'
  | refused {s : σ} {item : Value} {items : List Value} {e : EvalError} (hreply : reply (item, s) = .error e) :
      InTurn lambda reply wanted s (item :: items) [(item, s)] (some (.error e)) (lambda item s).host
  | found {s : σ} {item answer : Value} {items : List Value} (hreply : reply (item, s) = .ok answer)
      (hwanted : wanted answer) :
      InTurn lambda reply wanted s (item :: items) [(item, s)] (some (.ok answer)) (lambda item s).host

/-- The reply to a call lets the loop go on. -/
def GoesOn (reply : Value × σ → Except EvalError Value) (wanted : Value → Prop) (call : Value × σ) : Prop :=
  ∃ answer, reply call = .ok answer ∧ ¬ wanted answer

namespace InTurn

variable {lambda : Value → Run σ Value} {reply : Value × σ → Except EvalError Value} {wanted : Value → Prop}
  {s s' : σ} {items : List Value} {calls : List (Value × σ)} {ending : Option (Except EvalError Value)}

theorem turns (h : InTurn lambda reply wanted s items calls ending s') : Turns lambda s calls s' := by
  induction h with
  | done s => exact .nil s
  | next _ _ _ ih => exact .cons ih
  | refused _ => exact .cons (.nil _)
  | found _ _ => exact .cons (.nil _)

theorem items_prefix (h : InTurn lambda reply wanted s items calls ending s') : calls.map Prod.fst <+: items := by
  induction h with
  | done s => exact List.prefix_refl _
  | next _ _ _ ih => exact (List.prefix_cons_inj _).mpr ih
  | refused _ => exact (List.prefix_cons_inj _).mpr (List.nil_prefix)
  | found _ _ => exact (List.prefix_cons_inj _).mpr (List.nil_prefix)

/-- Without an ending, all items were asked about. -/
theorem all_of_none (h : InTurn lambda reply wanted s items calls none s') :
    calls.map Prod.fst = items ∧ ∀ call ∈ calls, GoesOn reply wanted call := by
  generalize hending : (none : Option (Except EvalError Value)) = ending at h
  induction h with
  | done s => exact ⟨rfl, by simp⟩
  | next hreply hgoes _ ih =>
    obtain ⟨hitems, hcalls⟩ := ih hending
    exact ⟨congrArg (_ :: ·) hitems, List.forall_mem_cons.mpr ⟨⟨_, hreply, hgoes⟩, hcalls⟩⟩
  | refused _ => cases hending
  | found _ _ => cases hending

/-- With an ending, that was the reply to the last call. -/
theorem last_of_some {ending : Except EvalError Value}
    (h : InTurn lambda reply wanted s items calls (some ending) s') :
    ∃ before last, calls = before ++ [last] ∧ (∀ call ∈ before, GoesOn reply wanted call) ∧
      reply last = ending ∧ ∀ answer, ending = .ok answer → wanted answer := by
  generalize hending : some ending = ending' at h
  induction h with
  | done s => cases hending
  | next hreply hgoes _ ih =>
    obtain ⟨before, last, rfl, hbefore, hlast⟩ := ih hending
    exact ⟨_ :: before, last, rfl, List.forall_mem_cons.mpr ⟨⟨_, hreply, hgoes⟩, hbefore⟩, hlast⟩
  | refused hreply =>
    cases hending
    exact ⟨[], _, rfl, by simp, hreply, nofun⟩
  | found hreply hwanted =>
    cases hending
    refine ⟨[], _, rfl, by simp, hreply, ?_⟩
    rintro _ ⟨⟩
    exact hwanted

end InTurn

/-! What the scripts ask -/

/-- A script calls the lambda on one item, and has a reply of it. -/
structure Asks (lambda : Value → Run σ Value) (item : Value) (reply : σ → Except EvalError β) (x : Script σ β) :
    Prop where
  calls : ∀ s, x.calls lambda s = [(item, s)]
  result : ∀ s, (x.run lambda s).result = reply s
  host : ∀ s, (x.run lambda s).host = (lambda item s).host

variable {lambda : Value → Run σ Value} {s : σ}

theorem asks_ask (lambda : Value → Run σ Value) (item : Value) :
    Asks lambda item (fun s => (lambda item s).result) (Script.ask item) where
  calls _ := rfl
  result s := by
    simp only [Script.ask, Script.run]
    cases (lambda item s).result <;> rfl
  host s := by
    simp only [Script.ask, Script.run]
    cases (lambda item s).result <;> rfl

theorem asks_test (lambda : Value → Run σ Value) (item : Value) :
    Asks lambda item (verdict lambda item) (test item) where
  calls s := by
    have hask := asks_ask lambda item
    rw [test]
    cases hcall : (lambda item s).result with
    | error e => exact (Script.calls_bind_of_error ((hask.result s).trans hcall)).trans (hask.calls s)
    | ok v =>
      rw [Script.calls_bind_of_ok ((hask.result s).trans hcall), hask.calls s]
      cases v <;> rfl
  result s := (run_test lambda item s).1
  host s := (run_test lambda item s).2

namespace Asks

variable {item : Value} {reply : σ → Except EvalError β} {x : Script σ β}

theorem bind_of_ok (h : Asks lambda item reply x) {b : β} (hreply : reply s = .ok b) (f : β → Script σ α) :
    (x >>= f).calls lambda s = (item, s) :: (f b).calls lambda (lambda item s).host ∧
      ((x >>= f).run lambda s).result = ((f b).run lambda (lambda item s).host).result ∧
      ((x >>= f).run lambda s).host = ((f b).run lambda (lambda item s).host).host := by
  have hx := (h.result s).trans hreply
  rw [Script.calls_bind_of_ok hx, Script.run_bind, Run.bind_of_ok hx, h.calls, h.host]
  exact ⟨rfl, rfl, rfl⟩

theorem bind_of_error (h : Asks lambda item reply x) {e : EvalError} (hreply : reply s = .error e)
    (f : β → Script σ α) :
    (x >>= f).calls lambda s = [(item, s)] ∧ ((x >>= f).run lambda s).result = .error e ∧
      ((x >>= f).run lambda s).host = (lambda item s).host := by
  have hx := (h.result s).trans hreply
  rw [Script.calls_bind_of_error hx, Script.run_bind, Run.bind_of_error hx, h.calls, h.host]
  exact ⟨rfl, rfl, rfl⟩

end Asks

/-- What a script ends with is made of its loop's result without any call. -/
theorem calls_bind_done (lambda : Value → Run σ Value) (x : Script σ α) (f : α → Except EvalError β) (s : σ) :
    (x >>= fun a => .done (f a)).calls lambda s = x.calls lambda s ∧
      ((x >>= fun a => .done (f a)).run lambda s).result = (x.run lambda s).result.bind f ∧
      ((x >>= fun a => .done (f a)).run lambda s).host = (x.run lambda s).host := by
  rw [Script.run_bind]
  cases hx : (x.run lambda s).result with
  | error e =>
    rw [Script.calls_bind_of_error hx, Run.bind_of_error hx]
    exact ⟨rfl, rfl, rfl⟩
  | ok a =>
    rw [Script.calls_bind_of_ok hx, Run.bind_of_ok hx, Script.run_done]
    exact ⟨List.append_nil _, rfl, rfl⟩

/-! How the loops go -/

/-- A script whose loop asks about the items in turn, and passes an error on. -/
structure Looped (lambda : Value → Run σ Value) (reply : Value × σ → Except EvalError Value)
    (wanted : Value → Prop) (s : σ) (items : List Value) (x : Script σ α)
    (ending : Option (Except EvalError Value)) : Prop where
  inTurn : InTurn lambda reply wanted s items (x.calls lambda s) ending (x.run lambda s).host
  refused : ∀ e, ending = some (.error e) → (x.run lambda s).result = .error e

namespace Looped

variable {reply : Value × σ → Except EvalError Value} {wanted : Value → Prop} {items : List Value} {item : Value}
  {ending : Option (Except EvalError Value)} {ask : σ → Except EvalError β} {x : Script σ β} {f : β → Script σ α}

theorem of_refused (hx : Asks lambda item ask x) {e : EvalError} (hask : ask s = .error e)
    (hreply : reply (item, s) = .error e) :
    Looped lambda reply wanted s (item :: items) (x >>= f) (some (.error e)) := by
  obtain ⟨hcalls, hresult, hhost⟩ := hx.bind_of_error hask f
  refine ⟨?_, ?_⟩
  · rw [hcalls, hhost]
    exact .refused hreply
  · rintro _ ⟨⟩
    exact hresult

theorem of_next (hx : Asks lambda item ask x) {b : β} (hask : ask s = .ok b) {answer : Value}
    (hreply : reply (item, s) = .ok answer) (hgoes : ¬ wanted answer)
    (h : Looped lambda reply wanted (lambda item s).host items (f b) ending) :
    Looped lambda reply wanted s (item :: items) (x >>= f) ending := by
  obtain ⟨hcalls, hresult, hhost⟩ := hx.bind_of_ok hask f
  refine ⟨?_, fun e he => hresult.trans (h.refused e he)⟩
  rw [hcalls, hhost]
  exact .next hreply hgoes h.inTurn

theorem of_found (hx : Asks lambda item ask x) {b : β} (hask : ask s = .ok b) {answer : Value}
    (hreply : reply (item, s) = .ok answer) (hwanted : wanted answer) {a : α} (hf : f b = pure a) :
    Looped lambda reply wanted s (item :: items) (x >>= f) (some (.ok answer)) := by
  obtain ⟨hcalls, -, hhost⟩ := hx.bind_of_ok hask f
  refine ⟨?_, nofun⟩
  rw [hcalls, hhost, hf]
  exact .found hreply hwanted

theorem bind_done (h : Looped lambda reply wanted s items x ending) (g : β → Except EvalError α) :
    Looped lambda reply wanted s items (x >>= fun b => .done (g b)) ending := by
  obtain ⟨hcalls, hresult, hhost⟩ := calls_bind_done lambda x g s
  refine ⟨?_, fun e he => ?_⟩
  · rw [hcalls, hhost]
    exact h.inTurn
  · rw [hresult, h.refused e he]
    rfl

end Looped

/-- The reply to a call of the lambda of a standard extension: `select` takes any answer, the others ask for a
verdict. -/
def reply (name : String) (lambda : Value → Run σ Value) (call : Value × σ) : Except EvalError Value :=
  if name = "select" then (lambda call.1 call.2).result else (verdict lambda call.1 call.2).map .bool

/-- The reply that is the last an extension asks for: `any` looks for a match. -/
def Wanted (name : String) (answer : Value) : Prop := name = "any" ∧ answer = .bool true

theorem reply_of_verdict {name : String} {r : Except EvalError Bool} (hname : name ≠ "select") {item : Value}
    (h : verdict lambda item s = r) : reply name lambda (item, s) = r.map .bool := by
  rw [reply, if_neg hname, h]

theorem filter_looped (name : String) (hselect : name ≠ "select") (hany : name ≠ "any")
    (lambda : Value → Run σ Value) (items : List Value) (s : σ) :
    ∃ ending, Looped lambda (reply name lambda) (Wanted name) s items (filter items) ending := by
  induction items generalizing s with
  | nil => exact ⟨none, .done s, nofun⟩
  | cons item items ih =>
    cases hverdict : verdict lambda item s with
    | error e => exact ⟨_, .of_refused (asks_test lambda item) hverdict (reply_of_verdict hselect hverdict)⟩
    | ok b =>
      obtain ⟨ending, hrest⟩ := ih (lambda item s).host
      have hgoes : ¬ Wanted name (.bool b) := fun h => hany h.1
      exact ⟨ending, .of_next (asks_test lambda item) hverdict (reply_of_verdict hselect hverdict) hgoes
        (hrest.bind_done _)⟩

theorem anyMatch_looped (lambda : Value → Run σ Value) (items : List Value) (s : σ) :
    ∃ ending, Looped lambda (reply "any" lambda) (Wanted "any") s items (anyMatch items) ending ∧
      ∀ answer, ending = some (.ok answer) →
        answer = .bool true ∧ ((anyMatch items).run lambda s).result = .ok true := by
  induction items generalizing s with
  | nil => exact ⟨none, ⟨.done s, nofun⟩, nofun⟩
  | cons item items ih =>
    have htest := asks_test lambda item
    cases hverdict : verdict lambda item s with
    | error e =>
      exact ⟨_, .of_refused htest hverdict (reply_of_verdict (by decide) hverdict), nofun⟩
    | ok b =>
      have hreply : reply "any" lambda (item, s) = .ok (.bool b) := reply_of_verdict (by decide) hverdict
      have hresult := (htest.bind_of_ok hverdict fun b => if b then return true else anyMatch items).2.1
      cases b with
      | true =>
        refine ⟨_, .of_found htest hverdict hreply ⟨rfl, rfl⟩ (if_pos rfl), ?_⟩
        rintro _ ⟨⟩
        exact ⟨rfl, hresult⟩
      | false =>
        obtain ⟨ending, hrest, hfound⟩ := ih (lambda item s).host
        refine ⟨ending, .of_next htest hverdict hreply (fun h => nomatch h.2) hrest, fun answer hanswer => ?_⟩
        exact ⟨(hfound answer hanswer).1, hresult.trans (hfound answer hanswer).2⟩

theorem answers_looped (lambda : Value → Run σ Value) (items : List Value) (s : σ) :
    ∃ ending, Looped lambda (reply "select" lambda) (Wanted "select") s items (answers items) ending := by
  induction items generalizing s with
  | nil => exact ⟨none, .done s, nofun⟩
  | cons item items ih =>
    cases hanswer : (lambda item s).result with
    | error e => exact ⟨_, .of_refused (asks_ask lambda item) hanswer hanswer⟩
    | ok answer =>
      obtain ⟨ending, hrest⟩ := ih (lambda item s).host
      have hgoes : ¬ Wanted "select" answer := fun h => absurd h.1 (by decide)
      exact ⟨ending, .of_next (asks_ask lambda item) hanswer hanswer hgoes (hrest.bind_done _)⟩

theorem answers_cons {item answer : Value} (hanswer : (lambda item s).result = .ok answer) (items : List Value) :
    (answers (item :: items)).calls lambda s = (item, s) :: (answers items).calls lambda (lambda item s).host ∧
      ((answers (item :: items)).run lambda s).result =
        ((answers items).run lambda (lambda item s).host).result.bind fun rest => .ok (answer :: rest) := by
  obtain ⟨hcalls, hresult, -⟩ := (asks_ask lambda item).bind_of_ok hanswer fun answer : Value => do
    return answer :: (← answers items)
  obtain ⟨hcalls', hresult', -⟩ := calls_bind_done lambda (answers items)
    (fun rest => .ok (answer :: rest)) (lambda item s).host
  exact ⟨hcalls.trans (congrArg _ hcalls'), hresult.trans hresult'⟩

/-- What `select` collects is what the calls answered. -/
theorem answers_forall₂ (lambda : Value → Run σ Value) (items : List Value) (s : σ) (collected : List Value)
    (hcollected : ((answers items).run lambda s).result = .ok collected) :
    List.Forall₂ (fun call answer => (lambda call.1 call.2).result = .ok answer)
      ((answers items).calls lambda s) collected := by
  induction items generalizing s collected with
  | nil =>
    cases hcollected
    exact .nil
  | cons item items ih =>
    cases hanswer : (lambda item s).result with
    | error e => cases ((asks_ask lambda item).bind_of_error hanswer _).2.1.symm.trans hcollected
    | ok answer =>
      obtain ⟨hcalls, hresult⟩ := answers_cons hanswer items
      obtain ⟨rest, hrest, hcons⟩ := Except.ok_of_bind_ok (hresult.symm.trans hcollected)
      cases hcons
      rw [hcalls]
      exact .cons hanswer (ih _ rest hrest)

/-! What the extensions do -/

variable {m : MethodSig} {v : Value} {items : List Value}

theorem items_bind (hitems : Sequence.items m v = .ok items) (f : List Value → Script σ α) :
    (Script.done (Sequence.items m v) >>= f) = f items := by
  rw [hitems]
  rfl

/-- The loop of the extension of a name asks about the items in turn, and `any` ends with a match that it finds. -/
def Loops (name : String) (loop : List Value → Script σ Value) : Prop :=
  ∀ lambda items s, ∃ ending, Looped lambda (reply name lambda) (Wanted name) s items (loop items) ending ∧
    (name = "any" → ∀ answer, ending = some (.ok answer) →
      answer = .bool true ∧ ((loop items).run lambda s).result = .ok (.bool true))

/-- Whatever is made of the items that are kept, the loop that filters them goes the same way. -/
theorem loops_filter {name : String} (hselect : name ≠ "select") (hany : name ≠ "any")
    (f : List Value → Except EvalError Value) :
    Loops (σ := σ) name fun items => filter items >>= fun kept => .done (f kept) := by
  intro lambda items s
  obtain ⟨ending, h⟩ := filter_looped name hselect hany lambda items s
  exact ⟨ending, h.bind_done f, fun h => absurd h hany⟩

theorem loops_any : Loops (σ := σ) "any" fun items => anyMatch items >>= fun b => .done (.ok (.bool b)) := by
  intro lambda items s
  obtain ⟨ending, h, hfound⟩ := anyMatch_looped lambda items s
  obtain ⟨-, hresult, -⟩ := calls_bind_done lambda (anyMatch items) (fun b => .ok (Value.bool b)) s
  refine ⟨ending, h.bind_done fun b => .ok (Value.bool b), fun _ answer hanswer => ?_⟩
  obtain ⟨hmatch, hend⟩ := hfound answer hanswer
  rw [hend] at hresult
  exact ⟨hmatch, hresult⟩

theorem loops_select :
    Loops (σ := σ) "select" fun items => answers items >>= fun collected => .done (.ok (.list collected)) := by
  intro lambda items s
  obtain ⟨ending, h⟩ := answers_looped lambda items s
  exact ⟨ending, h.bind_done fun collected => .ok (Value.list collected), fun h => absurd h (by decide)⟩

/-- An extension that takes the lambda asks for the items of the receiver first, and then its loop begins. -/
theorem extensions_loop {x : Extension σ} (hm : extensions.lookup m.name = some x) (hlist : m.name ≠ "to_list")
    (hset : m.name ≠ "to_set") :
    ∃ loop, (∀ v, x.withLambda m v = Script.done (Sequence.items m v) >>= loop) ∧ Loops m.name loop := by
  have hmem := Table.mem_of_lookup hm
  obtain ⟨name, params, result⟩ := m
  simp only [extensions, List.mem_cons, List.not_mem_nil, or_false, Prod.mk.injEq] at hmem hlist hset ⊢
  rcases hmem with ⟨rfl, rfl⟩ | ⟨rfl, rfl⟩ | ⟨rfl, rfl⟩ | ⟨rfl, rfl⟩ | ⟨rfl, rfl⟩ | ⟨rfl, rfl⟩ | ⟨rfl, rfl⟩ |
    ⟨rfl, rfl⟩
  · exact absurd rfl hlist
  · exact absurd rfl hset
  · exact ⟨_, fun _ => rfl, loops_filter (by decide) (by decide) countOf⟩
  · exact ⟨_, fun _ => rfl, loops_any⟩
  · exact ⟨_, fun _ => rfl, loops_filter (by decide) (by decide) singleOf⟩
  · exact ⟨_, fun _ => rfl, loops_filter (by decide) (by decide) firstOf⟩
  · exact ⟨_, fun _ => rfl, loops_filter (by decide) (by decide) fun kept => .ok (.list kept)⟩
  · exact ⟨_, fun _ => rfl, loops_select⟩

/-- What `select` answers is the list of what the calls answered. -/
theorem select_collects {x : Extension σ} (hm : extensions.lookup m.name = some x) (hselect : m.name = "select")
    (hitems : Sequence.items m v = .ok items) (lambda : Value → Run σ Value) (s : σ) {answer : Value}
    (hanswer : ((x.withLambda m v).run lambda s).result = .ok answer) :
    ∃ collected, answer = .list collected ∧
      List.Forall₂ (fun call a => (lambda call.1 call.2).result = .ok a) ((x.withLambda m v).calls lambda s)
        collected := by
  obtain ⟨name, params, result⟩ := m
  obtain rfl : name = "select" := hselect
  obtain rfl : ofLambda (fun items => do return .list (← answers items)) = x := Option.some.inj hm
  simp only [ofLambda, items_bind hitems] at hanswer ⊢
  obtain ⟨hcalls, hresult, -⟩ := calls_bind_done lambda (answers items)
    (fun collected => .ok (Value.list collected)) s
  obtain ⟨collected, hcollected, hmade⟩ := Except.ok_of_bind_ok (hresult.symm.trans hanswer)
  cases hmade
  exact ⟨collected, rfl, hcalls.symm ▸ answers_forall₂ lambda items s collected hcollected⟩

/-- Where the lambda is refused, or the receiver has no items, nothing is called. -/
theorem extensions_refuse {x : Extension σ} (hm : extensions.lookup m.name = some x)
    (h : m.name = "to_list" ∨ m.name = "to_set" ∨
      ∃ reason, Sequence.items m v = .error (.argumentMismatch reason)) :
    ∃ reason, x.withLambda m v = .done (.error (.argumentMismatch reason)) := by
  by_cases hlist : m.name = "to_list"
  · rw [hlist] at hm
    cases hm
    exact ⟨_, rfl⟩
  by_cases hset : m.name = "to_set"
  · rw [hset] at hm
    cases hm
    exact ⟨_, rfl⟩
  obtain ⟨reason, hitems⟩ := (h.resolve_left hlist).resolve_left hset
  obtain ⟨loop, hloop, -⟩ := extensions_loop hm hlist hset
  refine ⟨reason, ?_⟩
  rw [hloop, hitems]
  rfl

/-- The standard extensions call their lambda on the receiver's items in turn, whatever they are declared as, and
whatever the lambda answers, does to the host and notes: nothing else of the run leaves a trace, but the error that
it may end with.

`to_list` and `to_set` refuse the lambda, and all refuse a receiver that has no items, without a call. Otherwise
the calls are on a beginning of the items, each made on the host that the one before has left. Either they are on
all items, and every reply lets the loop go on, or the last is the first that does not: it has failed or given no
verdict, and that error is the result, or it is the first match of `any`, which then answers so. `select` answers
what each call has answered, one answer for each item. -/
theorem calls_in_turn {r : Registry σ} {m : MethodSig} {x : Extension σ} (hm : extensions.lookup m.name = some x)
    (hr : r.extensions.lookup m.name = some x) (receiver : Value) (lambda : Value → Run σ Value) (s : σ) :
    let script := r.introspector.invokeExtensionWith m receiver
    let o := script.run lambda s
    let calls := script.calls lambda s
    o.trace = calls.flatMap (fun call => (lambda call.1 call.2).trace) ++ Script.failure o.result ∧
    (m.name = "to_list" ∨ m.name = "to_set" ∨
        ((∀ items, receiver ≠ .list items) ∧ ∀ element items, receiver ≠ .set element items) →
      calls = [] ∧ o.host = s ∧ ∃ reason, o.result = .error (.argumentMismatch reason)) ∧
    (m.name ≠ "to_list" → m.name ≠ "to_set" → ∀ items,
      receiver = .list items ∨ (∃ element, receiver = .set element items) →
      Turns lambda s calls o.host ∧ calls.map Prod.fst <+: items ∧
      ((calls.map Prod.fst = items ∧ ∀ call ∈ calls, GoesOn (reply m.name lambda) (Wanted m.name) call) ∨
        ∃ before last, calls = before ++ [last] ∧
          (∀ call ∈ before, GoesOn (reply m.name lambda) (Wanted m.name) call) ∧
          ((∃ e, reply m.name lambda last = .error e ∧ o.result = .error e) ∨
            (m.name = "any" ∧ reply m.name lambda last = .ok (.bool true) ∧ o.result = .ok (.bool true)))) ∧
      (m.name = "select" → ∀ answer, o.result = .ok answer →
        ∃ collected, answer = .list collected ∧ collected.length = items.length ∧
          List.Forall₂ (fun call a => (lambda call.1 call.2).result = .ok a) calls collected)) := by
  intro script o calls
  have hscript : script = x.withLambda m receiver := by simp only [script, Registry.introspector, hr]
  refine ⟨Script.run_trace lambda script s, fun hrefused => ?_, fun hlist hset items hreceiver => ?_⟩
  · have hitems : (∀ items, receiver ≠ .list items) ∧ (∀ element items, receiver ≠ .set element items) →
        ∃ reason, Sequence.items m receiver = .error (.argumentMismatch reason) := by
      rintro ⟨hnolist, hnoset⟩
      cases receiver with
      | list items => exact absurd rfl (hnolist items)
      | set element items => exact absurd rfl (hnoset element items)
      | _ => exact ⟨_, rfl⟩
    obtain ⟨reason, hdone⟩ := extensions_refuse hm (hrefused.imp_right fun h => h.imp_right hitems)
    simp only [o, calls, hscript, hdone]
    exact ⟨rfl, rfl, reason, rfl⟩
  · have hitems : Sequence.items m receiver = .ok items := by
      rcases hreceiver with rfl | ⟨element, rfl⟩ <;> rfl
    obtain ⟨loop, hloop, hloops⟩ := extensions_loop hm hlist hset
    obtain ⟨ending, hlooped, hfound⟩ := hloops lambda items s
    rw [← items_bind hitems loop, ← hloop, ← hscript] at hlooped hfound
    have hends : (calls.map Prod.fst = items ∧ ∀ call ∈ calls, GoesOn (reply m.name lambda) (Wanted m.name) call) ∨
        ∃ before last, calls = before ++ [last] ∧
          (∀ call ∈ before, GoesOn (reply m.name lambda) (Wanted m.name) call) ∧
          ((∃ e, reply m.name lambda last = .error e ∧ o.result = .error e) ∨
            (m.name = "any" ∧ reply m.name lambda last = .ok (.bool true) ∧ o.result = .ok (.bool true))) := by
      rcases ending with _ | e | answer
      · exact .inl hlooped.inTurn.all_of_none
      · obtain ⟨before, last, hcalls, hbefore, hlast, -⟩ := hlooped.inTurn.last_of_some
        exact .inr ⟨before, last, hcalls, hbefore, .inl ⟨e, hlast, hlooped.refused e rfl⟩⟩
      · obtain ⟨before, last, hcalls, hbefore, hlast, hwanted⟩ := hlooped.inTurn.last_of_some
        obtain ⟨hany, rfl⟩ := hwanted answer rfl
        exact .inr ⟨before, last, hcalls, hbefore, .inr ⟨hany, hlast, (hfound hany _ rfl).2⟩⟩
    refine ⟨hlooped.inTurn.turns, hlooped.inTurn.items_prefix, hends, fun hselect answer hanswer => ?_⟩
    have hcollects := select_collects hm hselect hitems lambda s (by rw [← hscript]; exact hanswer)
    rw [← hscript] at hcollects
    obtain ⟨collected, hlist, hforall⟩ := hcollects
    refine ⟨collected, hlist, ?_, hforall⟩
    rcases hends with ⟨hall, -⟩ | ⟨before, last, -, -, ⟨e, -, hfail⟩ | ⟨hany, -⟩⟩
    · rw [← hforall.length_eq, ← hall, List.length_map]
    · cases hfail.symm.trans hanswer
    · rw [hselect] at hany
      exact absurd hany (by decide)

/-- A lambda whose answers run out in turn, called on the items of a set: `any` stops at a match and `single` at an
answer that is no truth value, `select` keeps equal answers, and `to_list` refuses the lambda. -/
theorem calls_in_turn_scripted :
    let r : Registry Host.Store := Registry.withSequences
    let items : List Value := [.int 1, .int 2, .int 3]
    let script (name : String) : Script Host.Store Value :=
      r.introspector.invokeExtensionWith ⟨name, [], .any⟩ (.set .int items)
    let lambda := Host.LambdaRule.script.lambda
    let host (answers : List Value) : Host.Store := ⟨[], answers, []⟩
    let called (name : String) (answers : List Value) : List Value :=
      ((script name).calls lambda (host answers)).map Prod.fst
    let result (name : String) (answers : List Value) : Except EvalError Value :=
      ((script name).run lambda (host answers)).result
    r.KeepsSequences ∧
    called "any" [.bool false, .bool true, .bool true] = [.int 1, .int 2] ∧
    called "any" [.bool false, .bool true, .bool true] <+: items ∧
    result "any" [.bool false, .bool true, .bool true] = .ok (.bool true) ∧
    called "single" [.bool true, .int 0, .bool true] = [.int 1, .int 2] ∧
    result "single" [.bool true, .int 0, .bool true] = .error (.notATruthValue "int") ∧
    called "select" [.int 4, .int 4, .int 4] = items ∧
    (∃ collected, result "select" [.int 4, .int 4, .int 4] = .ok (.list collected) ∧
      collected.length = items.length) ∧
    called "to_list" [.int 4] = [] ∧ ∃ reason, result "to_list" [.int 4] = .error (.argumentMismatch reason) := by
  intro r items script lambda host called result
  have hreceiver : Value.set .int items = .list items ∨ ∃ element, Value.set .int items = .set element items :=
    .inr ⟨.int, rfl⟩
  obtain ⟨-, -, hany⟩ := calls_in_turn (m := ⟨"any", [], .any⟩) (r := r) rfl rfl (.set .int items) lambda
    (host [.bool false, .bool true, .bool true])
  obtain ⟨-, -, hselect⟩ := calls_in_turn (m := ⟨"select", [], .any⟩) (r := r) rfl rfl (.set .int items) lambda
    (host [.int 4, .int 4, .int 4])
  obtain ⟨-, hrefused, -⟩ := calls_in_turn (m := ⟨"to_list", [], .any⟩) (r := r) rfl rfl (.set .int items) lambda
    (host [.int 4])
  obtain ⟨-, hprefix, -⟩ := hany (by decide) (by decide) items hreceiver
  obtain ⟨-, -, -, hcollected⟩ := hselect (by decide) (by decide) items hreceiver
  obtain ⟨collected, hlist, hlength, -⟩ := hcollected rfl _ rfl
  obtain ⟨hnone, -, hmismatch⟩ := hrefused (.inl rfl)
  have hcalled : called "to_list" [.int 4] = [] := congrArg (List.map Prod.fst) hnone
  exact ⟨fun _ _ h => h, rfl, hprefix, rfl, rfl, rfl, rfl, ⟨collected, congrArg Except.ok hlist, hlength⟩, hcalled,
    hmismatch⟩

end Sequence

end AccessPath
