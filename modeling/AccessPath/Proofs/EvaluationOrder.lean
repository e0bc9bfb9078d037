import AccessPath.Proofs.Absence
import AccessPath.Proofs.FailFast
import AccessPath.Proofs.Fallback
import AccessPath.Proofs.Listing

/-!
# The order of an evaluation

Where no extension is called with a lambda, an evaluation goes through the nodes of its path once, in pre-order.
It leaves out the arguments of method calls whose receiver it finds absent, and those of extension calls, and ends
early if it fails. It reads a node's member or makes its call right behind all that is below the node
(`Path.evaluate_in_order`).

Which parents are absent is told by a function on positions (`MarksAbsent`), and what is to be done then is the
itinerary. What one run does follows a list of acts if it does them in order, all if it ends well, and leaves the
host as they do (`Outcome.Follows`).
-/

namespace AccessPath

variable {σ α β : Type}

/-- What an event does at the node where it happens. -/
def Event.act? : Event → Option Act
  | .visited kind depth => some (.visit kind depth)
  | .asked (.readMember _ m) => some (.read m)
  | .asked (.invoke _ m _) => some (.invoke m)
  | .asked (.invokeExtension m _) => some (.extend m)
  | _ => none

namespace Introspector

variable (i : Introspector σ)

/-- The host behind an event, where extensions are called alone. -/
def effectAlone (s : σ) : Event → σ
  | .asked (.invokeExtension m v) => (i.invokeExtension m v s).2
  | e => i.effect s e

/-- The host behind the events of a trace. -/
def replayAlone (s : σ) (t : List Event) : σ := t.foldl i.effectAlone s

theorem replayAlone_append (s : σ) (t t' : List Event) :
    i.replayAlone s (t ++ t') = i.replayAlone (i.replayAlone s t) t' := List.foldl_append

theorem replayAlone_quiet (s : σ) {t : List Event} (h : ∀ e ∈ t, ∀ s, i.effectAlone s e = s) :
    i.replayAlone s t = s := by
  induction t with
  | nil => rfl
  | cons e t ih =>
    obtain ⟨he, ht⟩ := List.forall_mem_cons.mp h
    rw [replayAlone, List.foldl_cons, he s]
    exact ih ht

end Introspector

/-- An event that neither visits a node nor makes a call is no act, and leaves the host. -/
theorem Event.quiet {i : Introspector σ} {e : Event} (hcall : e.isCall = false) (hvisit : e.isVisit = false) :
    e.act? = none ∧ ∀ s, i.effectAlone s e = s := by
  cases e with
  | visited kind depth => cases hvisit
  | asked query =>
    cases query with
    | zeroValue | emptySet => exact ⟨rfl, fun _ => rfl⟩
    | _ => cases hcall
  | _ => exact ⟨rfl, fun _ => rfl⟩

/-- The acts of a run are the first of those planned, or all if it ends well, and the host is as its calls have
left it. -/
structure Outcome.Follows (i : Introspector σ) (s : σ) (plan : List Act) (o : Outcome σ α) : Prop where
  acts : o.trace.filterMap Event.act? <+: plan
  all : ∀ a, o.result = .ok a → o.trace.filterMap Event.act? = plan
  host : o.host = i.replayAlone s o.trace

namespace Run

variable {i : Introspector σ} {s : σ} {plan plan' : List Act}

theorem follows_pure (a : α) : ((pure a : Run σ α) s).Follows i s [] := ⟨List.prefix_refl _, fun _ _ => rfl, rfl⟩

theorem follows_fail (e : EvalError) (plan : List Act) : ((fail e : Run σ α) s).Follows i s plan :=
  ⟨List.nil_prefix, nofun, rfl⟩

theorem follows_emit {e : Event} {a : Act} (hact : e.act? = some a) (heffect : i.effectAlone s e = s) :
    ((emit e : Run σ Unit) s).Follows i s [a] := by
  have hacts : [e].filterMap Event.act? = [a] := by simp [hact]
  exact ⟨hacts ▸ List.prefix_refl _, fun _ _ => hacts, heffect.symm⟩

/-- Where the first part of a run fails, the second one does nothing. -/
theorem follows_bind {x : Run σ α} {f : α → Run σ β} (hx : (x s).Follows i s plan)
    (hf : ∀ a, (x s).result = .ok a → (f a (x s).host).Follows i (x s).host plan') :
    ((x >>= f) s).Follows i s (plan ++ plan') := by
  cases hresult : (x s).result with
  | error e =>
    rw [bind_of_error hresult]
    exact ⟨hx.acts.trans (List.prefix_append plan plan'), nofun, hx.host⟩
  | ok a =>
    have hrest := hf a hresult
    rw [bind_of_ok hresult]
    refine ⟨?_, fun b hb => ?_, ?_⟩
    · rw [List.filterMap_append, hx.all a hresult]
      exact (List.prefix_append_right_inj plan).mpr hrest.acts
    · rw [List.filterMap_append, hx.all a hresult, hrest.all b hb]
    · rw [i.replayAlone_append, ← hx.host]
      exact hrest.host

/-- What is made of a run's answer adds nothing to what it does. -/
theorem follows_map {x : Run σ α} (hx : (x s).Follows i s plan) (g : α → β) :
    ((x >>= fun a => pure (g a)) s).Follows i s plan := by
  have hbind : ((x >>= fun a => pure (g a)) s).Follows i s (plan ++ []) :=
    follows_bind hx fun a _ => follows_pure (g a)
  rwa [List.append_nil] at hbind

end Run

namespace Scene

variable {c : Scene σ} {s : σ}

/-- An introspector is asked once, and the host is as its procedure leaves it. -/
theorem asked_follows {i : Introspector σ} {query : Query} {a : Act} {action : Action σ Value}
    (hact : (Event.asked query).act? = some a) (heffect : i.effectAlone s (.asked query) = (action s).2) :
    ((do Run.emit (.asked query); return Resolved.read (← Run.ofAction action) : Run σ Resolved) s).Follows i s
      [a] := by
  rw [Run.emit_bind_apply, Run.bind_pure_apply]
  have hfailed : ∀ e, (Event.failed e).act? = none := fun _ => rfl
  cases haction : (action s).1 with
  | ok v =>
    have hrun : Run.ofAction action s = ⟨.ok v, (action s).2, []⟩ := by rw [Run.ofAction, haction]; rfl
    have hacts : [Event.asked query].filterMap Event.act? = [a] := by simp [hact]
    rw [hrun]
    exact ⟨hacts ▸ List.prefix_refl _, fun _ _ => hacts, heffect.symm⟩
  | error e =>
    have hrun : Run.ofAction action s = ⟨.error e, (action s).2, [.failed e]⟩ := by rw [Run.ofAction, haction]; rfl
    have hacts : [Event.asked query, .failed e].filterMap Event.act? = [a] := by simp [hact, hfailed]
    rw [hrun]
    exact ⟨hacts ▸ List.prefix_refl _, fun _ h => (by cases h), heffect.symm⟩

/-- A substitution does nothing at a node, and leaves the host. -/
theorem substitute_follows (site : String) (ty : Ty) :
    (c.substitute site ty s).Follows c.introspector s [] := by
  have hquiet : ∀ e ∈ c.substitution site ty, e.act? = none ∧ ∀ t, c.introspector.effectAlone t e = t :=
    fun e he => Event.quiet (substitution_quiet he).1 (substitution_quiet he).2
  have hacts : (c.substitution site ty).filterMap Event.act? = [] :=
    List.filterMap_eq_nil_iff.mpr fun e he => (hquiet e he).1
  rw [substitute_apply]
  exact ⟨hacts ▸ List.prefix_refl _, fun _ _ => hacts,
    (c.introspector.replayAlone_quiet s fun e he => (hquiet e he).2).symm⟩

end Scene

namespace Path

theorem Arrives.eq_of_nil {c : Scene σ} {n n' : Site σ} (h : Arrives c n [] n') : n' = n := by
  cases h
  rfl

/-- A node's parent is found absent. -/
def LacksParent (c : Scene σ) (n : Site σ) : Prop := n.node.LacksParentAt c n.bindings n.depth n.host

/-- The function tells at which positions below a node the run comes to a node whose parent is absent. -/
def MarksAbsent (c : Scene σ) (n : Site σ) (absent : Position → Bool) : Prop :=
  ∀ π, absent π = true ↔ ∃ n', Arrives c n π n' ∧ LacksParent c n'

theorem exists_marksAbsent (c : Scene σ) (n : Site σ) : ∃ absent, MarksAbsent c n absent := by
  classical
  exact ⟨fun π => decide (∃ n', Arrives c n π n' ∧ LacksParent c n'), fun π => decide_eq_true_iff⟩

variable {c : Scene σ} {bindings : Bindings} {depth : Nat} {s : σ} {absent : Position → Bool}

namespace MarksAbsent

theorem parent {p q : Path} (h : MarksAbsent c ⟨p, bindings, depth, s⟩ absent)
    (hwithin : depth ≤ c.settings.maxDepth) (hp : p.parent? = some q) :
    MarksAbsent c ⟨q, bindings, depth + 1, s⟩ fun π => absent (0 :: π) := by
  intro π
  rw [h (0 :: π)]
  constructor
  · rintro ⟨n, harrives, hlacks⟩
    cases harrives with
    | parent _ hq rest =>
      cases hp.symm.trans hq
      exact ⟨n, rest, hlacks⟩
  · rintro ⟨n, rest, hlacks⟩
    exact ⟨n, .parent hwithin hp rest, hlacks⟩

theorem argument {r a : Path} {m : MethodSig} {args : List Path} {i : Nat} {parent : Resolved}
    {before : List Value} (h : MarksAbsent c ⟨.methodCall r m args, bindings, depth, s⟩ absent)
    (hparent : (r.evalAt c bindings (depth + 1) s).result = .ok parent) (hpresent : parent.value ≠ .absent)
    (ha : args[i]? = some a)
    (hbefore : (evalAll c bindings (depth + 1) (args.take i) (r.evalAt c bindings (depth + 1) s).host).result =
      .ok before) :
    MarksAbsent c ⟨a, bindings, depth + 1,
      (evalAll c bindings (depth + 1) (args.take i) (r.evalAt c bindings (depth + 1) s).host).host⟩
      fun π => absent ((i + 1) :: π) := by
  intro π
  rw [h ((i + 1) :: π)]
  constructor
  · rintro ⟨n, harrives, hlacks⟩
    cases harrives with
    | argument _ _ ha' _ rest =>
      cases ha.symm.trans ha'
      exact ⟨n, rest, hlacks⟩
  · rintro ⟨n, rest, hlacks⟩
    exact ⟨n, .argument hparent hpresent ha hbefore rest, hlacks⟩

/-- At the node itself it tells whether the parent has been absent. -/
theorem nil_iff {l : Link} {q : Path} {parent : Resolved}
    (h : MarksAbsent c ⟨l.onto q, bindings, depth, s⟩ absent)
    (hparent : (q.evalAt c bindings (depth + 1) s).result = .ok parent) :
    absent [] = true ↔ parent.value = .absent := by
  rw [h []]
  constructor
  · rintro ⟨n, harrives, q', hq', r, hr, hvalue⟩
    obtain rfl := harrives.eq_of_nil
    rw [parent?_onto] at hq'
    cases hq'
    rw [hparent] at hr
    cases hr
    exact hvalue
  · intro hvalue
    exact ⟨_, .here _, q, parent?_onto l q, parent, hparent, hvalue⟩

end MarksAbsent

/-- No extension is called with a lambda. -/
def CallsNoLambda (p : Path) : Prop :=
  ∀ n : Path, n.Occurs p → ∀ m r x ty b, n ≠ .extensionCall m [r, .lambda x ty b]

theorem CallsNoLambda.child {p q : Path} (h : p.CallsNoLambda) (hq : q ∈ p.children) : q.CallsNoLambda :=
  fun n hn => h n (.inside hq hn)

theorem callsNoLambda_of_children {p : Path} (hp : ∀ m r x ty b, p ≠ .extensionCall m [r, .lambda x ty b])
    (hchildren : ∀ q ∈ p.children, q.CallsNoLambda) : p.CallsNoLambda :=
  fun _ hn => hn.of_children hp hchildren

/-- The acts of steps. -/
abbrev acts (steps : List Step) : List Act := steps.map Prod.snd

theorem acts_under (i : Nat) (steps : List Step) : acts (Step.under i steps) = acts steps := by
  rw [acts, Step.under, List.map_map]
  rfl

/-- A node does what is planned at its parent, and then what its link does to a present one. -/
theorem onto_follows {l : Link} {q : Path} (habsent : MarksAbsent c ⟨l.onto q, bindings, depth, s⟩ absent)
    (hparent : ∀ absent', MarksAbsent c ⟨q, bindings, depth + 1, s⟩ absent' →
      (q.evalAt c bindings (depth + 1) s).Follows c.introspector s (acts (q.itinerary absent' (depth + 1))))
    (hproceed : ∀ parent, (q.evalAt c bindings (depth + 1) s).result = .ok parent → parent.value ≠ .absent →
      absent [] = false →
      (l.proceed c bindings depth parent.value (q.evalAt c bindings (depth + 1) s).host).Follows c.introspector
        (q.evalAt c bindings (depth + 1) s).host (acts (l.itinerary absent depth))) :
    ((l.onto q).evalAt c bindings depth s).Follows c.introspector s
      (acts ((l.onto q).itinerary absent depth)) := by
  by_cases hwithin : depth ≤ c.settings.maxDepth
  · have hplan : acts ((l.onto q).itinerary absent depth) =
        [.visit l.kindName depth] ++ (acts (q.itinerary (fun π => absent (0 :: π)) (depth + 1)) ++
          acts (l.itinerary absent depth)) := by
      rw [itinerary_onto, acts, List.map_cons, List.map_append, ← acts_under 0]
      rfl
    rw [hplan, evalAt_onto, visit_of_le hwithin, Link.kindName_onto]
    refine Run.follows_bind (Run.follows_emit rfl rfl) fun _ _ => ?_
    refine Run.follows_bind (hparent _ (habsent.parent hwithin (parent?_onto l q))) fun parent hok => ?_
    have hmarked := habsent.nil_iff hok
    by_cases hvalue : parent.value = .absent
    · have hnone : l.itinerary absent depth = [] := if_pos (hmarked.mpr hvalue)
      rw [Link.answer_of_absent _ _ _ _ hvalue, hnone]
      exact Scene.substitute_follows _ _
    · have hpresent : absent [] = false := by
        rw [← Bool.not_eq_true, hmarked]
        exact hvalue
      rw [Link.answer_of_present _ _ _ _ (Value.isAbsent_eq_false_iff.mpr hvalue)]
      exact hproceed parent hok hvalue hpresent
  · rw [evalAt_of_lt (by omega)]
    exact Run.follows_fail _ _

/-- Arguments are evaluated as planned, each as the marks below it say. -/
theorem evalAll_follows {args : List Path} {i : Nat}
    (hargs : ∀ a ∈ args, ∀ (t : σ) (absent' : Position → Bool), MarksAbsent c ⟨a, bindings, depth, t⟩ absent' →
      (a.evalAt c bindings depth t).Follows c.introspector t (acts (a.itinerary absent' depth)))
    (habsent : ∀ j a, args[j]? = some a →
      ∀ before, (evalAll c bindings depth (args.take j) s).result = .ok before →
      MarksAbsent c ⟨a, bindings, depth, (evalAll c bindings depth (args.take j) s).host⟩
        fun π => absent ((i + j) :: π)) :
    (evalAll c bindings depth args s).Follows c.introspector s (acts (itineraryAll absent depth i args)) := by
  induction args generalizing i s with
  | nil => exact Run.follows_pure []
  | cons a args ih =>
    obtain ⟨ha, hrest⟩ := List.forall_mem_cons.mp hargs
    have hplan : acts (itineraryAll absent depth i (a :: args)) =
        acts (a.itinerary (fun π => absent (i :: π)) depth) ++ acts (itineraryAll absent depth (i + 1) args) := by
      rw [itineraryAll_cons, acts, List.map_append, ← acts_under i]
    rw [hplan, evalAll]
    refine Run.follows_bind (ha s _ (habsent 0 a rfl [] rfl)) fun v hv => ?_
    refine Run.follows_map (ih hrest fun j a' ha' before hbefore => ?_) _
    have hshifted := habsent (j + 1) a' ha' (v.value :: before)
    rw [List.take_succ_cons, evalAll_cons_of_ok hv] at hshifted
    rw [Nat.add_assoc, Nat.add_comm 1 j]
    exact hshifted (congrArg (Except.map (v.value :: ·)) hbefore)

/-- A node is evaluated, unless it is beyond the limit, and then does what is planned after that. -/
theorem visit_follows (p : Path) {f : Unit → Run σ Resolved} {rest : List Act}
    (hf : (f () s).Follows c.introspector s rest) :
    ((c.visit p depth >>= f) s).Follows c.introspector s (.visit p.kindName depth :: rest) := by
  by_cases hwithin : depth ≤ c.settings.maxDepth
  · rw [visit_of_le hwithin]
    exact Run.follows_bind (Run.follows_emit rfl rfl) fun _ _ => hf
  · have hvisit : c.visit p depth = Run.fail (.depthExceeded c.settings.maxDepth) := if_pos (by omega)
    rw [hvisit, Run.fail_bind]
    exact Run.follows_fail _ _

/-- An evaluation follows the itinerary of its path. -/
theorem evalAt_follows {p : Path} (hp : p.CallsNoLambda) (bindings : Bindings) (depth : Nat) (s : σ)
    {absent : Position → Bool} (habsent : MarksAbsent c ⟨p, bindings, depth, s⟩ absent) :
    (p.evalAt c bindings depth s).Follows c.introspector s (acts (p.itinerary absent depth)) := by
  induction p using nodeInduction generalizing bindings depth s absent with
  | constant v ty =>
    rw [evalAt]
    exact visit_follows (.constant v ty) (Run.follows_pure _)
  | parameter x ty =>
    rw [evalAt]
    exact visit_follows (.parameter x ty) (Run.follows_pure _)
  | memberAccess t m iht =>
    refine onto_follows (l := .member m) habsent (fun _ h => iht (hp.child List.mem_cons_self) _ _ _ h)
      fun parent hparent hpresent hmarked => ?_
    have hplan : acts ((Link.member m).itinerary absent depth) = [.read m] := by simp [Link.itinerary, hmarked]
    rw [hplan]
    exact Scene.asked_follows rfl rfl
  | methodCall r m args ihr ihargs =>
    refine onto_follows (l := .call m args) habsent (fun _ h => ihr (hp.child List.mem_cons_self) _ _ _ h)
      fun parent hparent hpresent hmarked => ?_
    have hplan : acts ((Link.call m args).itinerary absent depth) =
        acts (itineraryAll absent (depth + 1) 1 args) ++ [.invoke m] := by simp [Link.itinerary, hmarked]
    have hargs : (evalAll c bindings (depth + 1) args (r.evalAt c bindings (depth + 1) s).host).Follows
        c.introspector (r.evalAt c bindings (depth + 1) s).host
        (acts (itineraryAll absent (depth + 1) 1 args)) := by
      refine evalAll_follows (fun a ha t _ h => ihargs a ha (hp.child (List.mem_cons_of_mem _ ha)) _ _ _ h)
        fun j a ha before hbefore => ?_
      rw [Nat.add_comm 1 j]
      exact habsent.argument hparent hpresent ha hbefore
    rw [hplan]
    exact Run.follows_bind hargs fun vs _ => Scene.asked_follows rfl rfl
  | noReceiver m =>
    rw [evalAt]
    exact visit_follows (.extensionCall m []) (Run.follows_fail _ _)
  | extensionCall m r rest ihr =>
    refine onto_follows (l := .extension m rest) habsent (fun _ h => ihr (hp.child List.mem_cons_self) _ _ _ h)
      fun parent hparent hpresent hmarked => ?_
    rcases rest with _ | ⟨a, _ | ⟨a', rest⟩⟩
    · have hplan : acts ((Link.extension m []).itinerary absent depth) = [.extend m] := by
        simp [Link.itinerary, hmarked]
      rw [hplan]
      exact Scene.asked_follows rfl rfl
    · have hplain : ∀ x ty b, a ≠ .lambda x ty b := fun x ty b hab => hp _ .here m r x ty b (by rw [hab])
      rw [Link.proceed_of_plain hplain]
      exact Run.follows_fail _ _
    · rw [Link.proceed_of_several (by simp)]
      exact Run.follows_fail _ _
  | lambda x ty b =>
    rw [evalAt]
    exact visit_follows (.lambda x ty b) (Run.follows_fail _ _)

/-- No node is visited deeper than the limit. -/
theorem visited_le_maxDepth (i : Introspector σ) (settings : Settings) (root : Value) (p : Path) (s : σ)
    {kind : String} {depth : Nat} (h : .visited kind depth ∈ (p.evaluate i settings root s).trace) :
    depth ≤ settings.maxDepth := by
  let within : Event → Prop := fun e => ∀ kind d, e = .visited kind d → d ≤ settings.maxDepth
  have hinvariant := Scene.emits_invariant (c := ⟨i, settings, root⟩) (P := within)
    (fun _ _ _ he => by cases he) (fun _ _ _ _ he => by cases he) fun _ _ _ _ he => by cases he
  have hfail : ∀ e, (Run.fail e : Run σ Unit).Emits within := fun e => .ofExcept (fun _ _ _ he => by cases he) _
  have hvisit : ∀ q d, d ≤ 0 + p.height → (Scene.visit ⟨i, settings, root⟩ q d).Emits within := by
    intro q d _
    unfold Scene.visit
    split
    · exact hfail _
    · next hle =>
      refine .emit ?_
      rintro _ _ ⟨⟩
      exact Nat.le_of_not_lt hle
  have hpath : (p.evaluate i settings root).Emits within :=
    (evalAt_invariant hinvariant hvisit fun e _ => .ofExcept (fun _ _ _ he => by cases he) _).bind
      fun _ => .pure _
  exact hpath s _ h kind depth rfl

/-- Where no extension is called with a lambda, an evaluation goes through the nodes of its path in order.

The nodes that it evaluates are the first of the listing of the path, as far as this is left if the arguments of
method calls whose receiver it finds absent are taken out, and those of extension calls; if it ends well, they are
all of it. The listing holds every node once, with its depth, a node before those below it and children in their
order. No node deeper than the limit is evaluated.

A member is read, or a call made, at most once for a node: after the evaluation of all nodes at or below that one
that are left in the listing, where nothing is done later, and before that of any other node that follows. The host
is as these readings and calls have left it, each made once. -/
theorem evaluate_in_order (i : Introspector σ) (settings : Settings) (root : Value) (s : σ) {p : Path}
    (hp : p.CallsNoLambda) :
    let c : Scene σ := ⟨i, settings, root⟩
    let o := p.evaluate i settings root s
    (∀ x, x ∈ p.listing 0 ↔ ∃ n, p.nodeAt? x.1 = some n ∧ x.2 = .visit n.kindName x.1.length) ∧
    (p.listing 0).Pairwise Step.Precedes ∧ ((p.listing 0).map Prod.fst).Nodup ∧
    ∃ absent, MarksAbsent c ⟨p, [], 0, s⟩ absent ∧
      let left := (p.prune absent).listing 0
      left.Sublist (p.listing 0) ∧
      ∃ steps : List Step, acts steps = o.trace.filterMap Event.act? ∧
        steps.filter (·.2.isVisit) <+: left ∧
        (∀ e, o.result = .ok e → steps.filter (·.2.isVisit) = left) ∧
        (∀ kind depth, .visited kind depth ∈ o.trace → depth ≤ settings.maxDepth) ∧
        ((steps.filter (!·.2.isVisit)).map Prod.fst).Nodup ∧
        (∀ before π a after, steps = before ++ (π, a) :: after → a.isVisit = false →
          (∃ n, p.nodeAt? π = some n ∧ n.act? = some a) ∧
          (∀ x ∈ left, π <+: x.1 → x ∈ before) ∧ (∀ x ∈ after, ¬ π <+: x.1) ∧
          ∀ earlier n later, left = earlier ++ n :: later → n.1 = π → ∀ x ∈ later, ¬ π <+: x.1 → x ∉ before) ∧
        o.host = i.replayAlone s o.trace := by
  intro c o
  obtain ⟨absent, habsent⟩ := exists_marksAbsent c ⟨p, [], 0, s⟩
  have hfollows : o.Follows i s (acts (p.itinerary absent 0)) :=
    Run.follows_map (evalAt_follows hp [] 0 s habsent) _
  let steps := (p.itinerary absent 0).take (o.trace.filterMap Event.act?).length
  have hsteps : steps <+: p.itinerary absent 0 := List.take_prefix _ _
  have hacts : acts steps = o.trace.filterMap Event.act? := by
    rw [acts, List.map_take]
    exact (List.prefix_iff_eq_take.mp hfollows.acts).symm
  have hlisting : ∀ x, x ∈ p.listing 0 ↔ ∃ n, p.nodeAt? x.1 = some n ∧ x.2 = .visit n.kindName x.1.length := by
    intro x
    rw [mem_listing_iff, Nat.zero_add]
  refine ⟨hlisting, listing_pairwise 0 p, listing_nodup 0 p, absent, habsent, listing_prune_sublist absent 0 p,
    steps, hacts, ?_, fun e he => ?_, fun kind depth => visited_le_maxDepth i settings root p s, ?_,
    fun before π a after hsplit ha => ⟨?_, call_in_order hsteps hsplit ha⟩, hfollows.host⟩
  · rw [← itinerary_visits]
    exact hsteps.filter _
  · have hall : steps = p.itinerary absent 0 := by
      have hlength := congrArg List.length (hfollows.all e he)
      rw [acts, List.length_map] at hlength
      exact List.take_of_length_le (Nat.le_of_eq hlength.symm)
    rw [hall, itinerary_visits]
  · have horder := ((itinerary_pairwise absent 0 p).sublist hsteps.sublist).filter (!·.2.isVisit)
    exact nodup_positions horder fun x hx => by simpa using List.of_mem_filter hx
  · have hmem : (π, a) ∈ p.itinerary absent 0 := hsteps.subset (by rw [hsplit]; simp)
    exact act?_of_mem_itinerary hmem ha

/-- Two of a node's methods and a greeting to its missing peer: the count that the greeting would be given is not
evaluated, the other one is, once, and before the outermost call. -/
theorem evaluate_missing_greeting :
    let node : HostType := ⟨0, "Node"⟩
    let r : Registry Host.Store := Registry.withSequences.register (Host.classRegistration node "Node"
      [("peer", .const .absent)] [("tick", 0, .tick), ("last", 2, .arg 1)])
    let root : Value := .object ⟨0, node⟩
    let s : Host.Store := ⟨[⟨[], 0⟩], [], []⟩
    let self : Path := parameter "self" (.reference "Node")
    let count : Path := self.call "tick" [] .long
    let greeting : Path := (self.member "peer" (.reference "Node")).call "greet" [count] .string
    let p : Path := self.call "last" [greeting, count] .long
    let o := p.evaluate r.introspector {} root s
    p.CallsNoLambda ∧ o.result = .ok ⟨.long 1, .long, false⟩ ∧
      o.trace.filterMap Event.act? =
        [.visit "method call" 0, .visit "parameter" 1, .visit "method call" 1, .visit "member access" 2,
          .visit "parameter" 3, .read ⟨"peer", .reference "Node"⟩, .visit "method call" 1, .visit "parameter" 2,
          .invoke ⟨"tick", [], .long⟩, .invoke ⟨"last", [.string, .long], .long⟩] ∧
      (∃ absent, MarksAbsent ⟨r.introspector, {}, root⟩ ⟨p, [], 0, s⟩ absent ∧
        acts ((p.prune absent).listing 0) =
          [.visit "method call" 0, .visit "parameter" 1, .visit "method call" 1, .visit "member access" 2,
            .visit "parameter" 3, .visit "method call" 1, .visit "parameter" 2]) ∧
      o.host = ⟨[⟨[], 1⟩], [], []⟩ ∧ o.host = r.introspector.replayAlone s o.trace := by
  intro node r root s self count greeting p o
  have hself : self.CallsNoLambda := callsNoLambda_of_children nofun nofun
  have hcount : count.CallsNoLambda := callsNoLambda_of_children nofun (List.forall_mem_singleton.mpr hself)
  have hpeer : (self.member "peer" (.reference "Node")).CallsNoLambda :=
    callsNoLambda_of_children nofun (List.forall_mem_singleton.mpr hself)
  have hgreeting : greeting.CallsNoLambda :=
    callsNoLambda_of_children nofun (List.forall_mem_cons.mpr ⟨hpeer, List.forall_mem_singleton.mpr hcount⟩)
  have hp : p.CallsNoLambda := callsNoLambda_of_children nofun
    (List.forall_mem_cons.mpr ⟨hself, List.forall_mem_cons.mpr ⟨hgreeting, List.forall_mem_singleton.mpr hcount⟩⟩)
  obtain ⟨-, -, -, absent, habsent, -, steps, hacts, -, hall, -, -, -, hhost⟩ :=
    evaluate_in_order r.introspector {} root s hp
  have hleft : acts ((p.prune absent).listing 0) = (o.trace.filterMap Event.act?).filter Act.isVisit := by
    rw [← hall ⟨.long 1, .long, false⟩ rfl, ← hacts, acts, acts, List.filter_map]
    rfl
  exact ⟨hp, rfl, rfl, ⟨absent, habsent, hleft⟩, rfl, hhost⟩

end Path

end AccessPath
