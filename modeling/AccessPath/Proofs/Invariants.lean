import AccessPath.Proofs.Locality

/-!
# Invariants of evaluations

A property of runs is an invariant of a scene if binding keeps it, and if substitutions and questions about
present values have it (`Scene.Invariant`). Then the evaluation of a path has it, as far as the visits and
the failures do that the path can lead to: visits down to its height, and the failures of nodes that stand
where they cannot be evaluated (`Path.evalAt_invariant`).

That all events of a run have a property is an invariant, if failures and substitutions have it and queries
about present values do (`Scene.emits_invariant`).
-/

namespace AccessPath

variable {σ α β : Type}

namespace Path

mutual

/-- The errors of the nodes that an evaluation can reach where they cannot be evaluated. -/
def shapeErrors : Path → List EvalError
  | .constant .. | .parameter .. => []
  | .memberAccess target _ => target.shapeErrors
  | .methodCall receiver _ args => receiver.shapeErrors ++ shapeErrorsAll args
  | .extensionCall m [] => [.noReceiver m.name]
  | .extensionCall m (receiver :: rest) =>
    receiver.shapeErrors ++
      (match rest with
      | [] => []
      | [.lambda _ _ body] => body.shapeErrors
      | [other] => [.notALambda m.name other.kindName]
      | rest => [.tooManyArguments m.name (rest.length + 1)])
  | .lambda x _ _ => [.strayLambda x]
termination_by structural p => p

def shapeErrorsAll : List Path → List EvalError
  | [] => []
  | p :: ps => p.shapeErrors ++ shapeErrorsAll ps
termination_by structural ps => ps

end

theorem shapeErrorsAll_eq_flatMap (ps : List Path) : shapeErrorsAll ps = ps.flatMap shapeErrors := by
  induction ps with
  | nil => rfl
  | cons p ps ih => rw [shapeErrorsAll, List.flatMap_cons, ih]

theorem shapeErrors_receiver_subset (m : MethodSig) (r : Path) (rest : List Path) :
    r.shapeErrors ⊆ (extensionCall m (r :: rest)).shapeErrors := by
  rw [shapeErrors.eq_def (extensionCall m (r :: rest))]
  exact List.subset_append_left _ _

end Path

/-- Binding keeps the property; substitutions and questions about present values have it, with a lambda if
all its calls have it. -/
structure Scene.Invariant (c : Scene σ) (Q : (α : Type) → Run σ α → Prop) : Prop where
  pure : ∀ {α : Type} (a : α), Q α (pure a)
  bind : ∀ {α β : Type} {x : Run σ α} {f : α → Run σ β}, Q α x → (∀ a, Q β (f a)) → Q β (x >>= f)
  substitute : ∀ site ty, Q Resolved (c.substitute site ty)
  readMember : ∀ v m, v ≠ .absent → Q Resolved (c.readMember v m)
  invoke : ∀ v m args, v ≠ .absent → Q Resolved (c.invoke v m args)
  invokeExtension : ∀ m v, v ≠ .absent → Q Resolved (c.invokeExtension m v)
  invokeExtensionWith : ∀ m v lambda, v ≠ .absent → (∀ item, Q Value (lambda item)) →
    Q Resolved (c.invokeExtensionWith m v lambda)

namespace Path

variable {c : Scene σ} {Q : (α : Type) → Run σ α → Prop}

/-- A node has the property if its visit, its parent and its link do. -/
theorem onto_invariant (hQ : c.Invariant Q) {bs : Bindings} {d : Nat} (l : Link) {p : Path}
    (hvisit : Q Unit (c.visit (l.onto p) d)) (hparent : Q Resolved (p.evalAt c bs (d + 1)))
    (hlink : ∀ v, v ≠ .absent → Q Resolved (l.proceed c bs d v)) :
    Q Resolved ((l.onto p).evalAt c bs d) := by
  rw [evalAt_onto]
  refine hQ.bind hvisit fun _ => hQ.bind hparent fun r => ?_
  by_cases h : r.value = .absent
  · rw [Link.answer_of_absent _ _ _ _ h]
    exact hQ.substitute _ _
  · rw [Link.answer_of_present _ _ _ _ (Value.isAbsent_eq_false_iff.mpr h)]
    exact hlink r.value h

theorem evalAll_invariant (hQ : c.Invariant Q) {bs : Bindings} {d : Nat} {ps : List Path}
    (h : ∀ p ∈ ps, Q Resolved (p.evalAt c bs d)) : Q (List Value) (evalAll c bs d ps) := by
  induction ps with
  | nil => exact hQ.pure []
  | cons p ps ih =>
    refine hQ.bind (h p List.mem_cons_self) fun _ => ?_
    exact hQ.bind (ih fun q hq => h q (List.mem_cons_of_mem _ hq)) fun _ => hQ.pure _

theorem evalAt_invariant (hQ : c.Invariant Q) {p : Path} {bs : Bindings} {d : Nat}
    (hvisit : ∀ q d', d' ≤ d + p.height → Q Unit (c.visit q d'))
    (hshape : ∀ e ∈ p.shapeErrors, Q Resolved (Run.fail e)) : Q Resolved (p.evalAt c bs d) := by
  induction p using nodeInduction generalizing bs d with
  | constant v ty =>
    rw [evalAt]
    exact hQ.bind (hvisit _ d (by omega)) fun _ => hQ.pure _
  | parameter x ty =>
    rw [evalAt]
    exact hQ.bind (hvisit _ d (by omega)) fun _ => hQ.pure _
  | memberAccess t m iht =>
    rw [height] at hvisit
    have htarget : Q Resolved (t.evalAt c bs (d + 1)) :=
      iht (fun q d' hd => hvisit q d' (by omega)) hshape
    exact onto_invariant hQ (.member m) (hvisit _ d (by omega)) htarget (hQ.readMember · m)
  | methodCall r m args ihr ihargs =>
    rw [height] at hvisit
    simp only [shapeErrors, shapeErrorsAll_eq_flatMap, List.mem_append, List.mem_flatMap] at hshape
    have hreceiver : Q Resolved (r.evalAt c bs (d + 1)) :=
      ihr (fun q d' hd => hvisit q d' (by omega)) fun e he => hshape e (.inl he)
    have hargs : ∀ a ∈ args, Q Resolved (a.evalAt c bs (d + 1)) := by
      intro a ha
      have hheight := height_lt_of_mem ha
      exact ihargs a ha (fun q d' hd => hvisit q d' (by omega)) fun e he => hshape e (.inr ⟨a, ha, he⟩)
    refine onto_invariant hQ (.call m args) (hvisit _ d (by omega)) hreceiver fun v hv => ?_
    exact hQ.bind (evalAll_invariant hQ hargs) fun vs => hQ.invoke v m vs hv
  | noReceiver m =>
    rw [evalAt]
    exact hQ.bind (hvisit _ d (by omega)) fun _ => hshape _ List.mem_cons_self
  | extensionCall m r rest ihr ihrest ihbody =>
    have hlt := height_receiver_lt m r rest
    have hreceiver : Q Resolved (r.evalAt c bs (d + 1)) :=
      ihr (fun q d' hd => hvisit q d' (by omega))
        fun e he => hshape e (shapeErrors_receiver_subset m r rest he)
    refine onto_invariant hQ (.extension m rest) (hvisit _ d (by omega)) hreceiver fun v hv => ?_
    cases rest with
    | nil => exact hQ.invokeExtension m v hv
    | cons a rest =>
      cases rest with
      | nil =>
        cases a with
        | lambda x ty b =>
          rw [height] at hvisit
          rw [shapeErrors] at hshape
          refine hQ.invokeExtensionWith m v _ hv fun item => hQ.bind ?_ fun _ => hQ.pure _
          exact ihbody x ty b List.mem_cons_self (fun q d' hd => hvisit q d' (by omega))
            fun e he => hshape e (List.mem_append_right _ he)
        | _ => exact hshape _ (by simp [shapeErrors])
      | cons a' rest =>
        rw [Link.proceed_of_several (by simp)]
        exact hshape _ (by simp [shapeErrors])
  | lambda x ty b ih =>
    rw [evalAt]
    exact hQ.bind (hvisit _ d (by omega)) fun _ => hshape _ List.mem_cons_self

end Path

/-! Events -/

namespace Run

/-- All events of the run have a property, from whichever host it starts. -/
def Emits (P : Event → Prop) (x : Run σ α) : Prop := ∀ s, ∀ e ∈ (x s).trace, P e

variable {P : Event → Prop}

theorem Emits.pure (a : α) : (pure a : Run σ α).Emits P := fun _ _ h => absurd h List.not_mem_nil

theorem Emits.emit {e : Event} (h : P e) : (emit e : Run σ Unit).Emits P := by
  intro s e' he'
  rw [List.mem_singleton.mp he']
  exact h

theorem Emits.bind {x : Run σ α} {f : α → Run σ β} (hx : x.Emits P) (hf : ∀ a, (f a).Emits P) :
    (x >>= f).Emits P := by
  intro s e he
  cases hresult : (x s).result with
  | error err =>
    rw [bind_of_error hresult] at he
    exact hx s e he
  | ok a =>
    rw [bind_of_ok hresult] at he
    rcases List.mem_append.mp he with hfirst | hrest
    · exact hx s e hfirst
    · exact hf a (x s).host e hrest

theorem Emits.ofExcept (hfailed : ∀ e, P (.failed e)) (r : Except EvalError α) :
    (ofExcept r : Run σ α).Emits P := by
  cases r with
  | ok a => exact .pure a
  | error err =>
    intro s e he
    rw [List.mem_singleton.mp he]
    exact hfailed err

theorem Emits.ofAction (hfailed : ∀ e, P (.failed e)) (a : Action σ α) : (ofAction a).Emits P :=
  fun s => Emits.ofExcept hfailed (a s).1 (a s).2

/-- A script emits what its calls of the lambda emit, and the error that it ends with. -/
theorem Emits.script (hfailed : ∀ e, P (.failed e)) {lambda : Value → Run σ Value}
    (hlambda : ∀ item, (lambda item).Emits P) (x : Script σ α) : (x.run lambda).Emits P := by
  induction x with
  | done r => exact .ofExcept hfailed r
  | call item resume ih =>
    intro s e he
    rcases List.mem_append.mp he with hcall | hrest
    · exact hlambda item s e hcall
    · exact ih _ _ e hrest
  | access next resume ih => exact fun s => ih s (next s)

end Run

/-- The value that an introspector is given to work on. Zero values and empty sets are made of types. -/
def Query.subject? : Query → Option Value
  | .readMember target _ => some target
  | .invoke receiver _ _ => some receiver
  | .invokeExtension _ receiver => some receiver
  | .zeroValue _ | .emptySet _ => none

namespace Scene

variable {c : Scene σ} {P : Event → Prop}

theorem visit_emits {p : Path} {d : Nat} (hvisited : P (.visited p.kindName d))
    (hfailed : ∀ e, P (.failed e)) : (c.visit p d).Emits P := by
  unfold visit
  split
  · exact .ofExcept hfailed _
  · exact .emit hvisited

theorem substitute_emits (hfailed : ∀ e, P (.failed e))
    (hasked : ∀ query, query.subject? = none → P (.asked query))
    (hsubstituted : ∀ site ty, P (.substituted site ty)) (site : String) (ty : Ty) :
    (c.substitute site ty).Emits P := by
  intro s e he
  rw [substitute_apply] at he
  rcases List.mem_append.mp he with hquery | hanswer
  · obtain ⟨query, hmem, rfl⟩ := List.mem_map.mp hquery
    have hdefault := Option.mem_toList.mp hmem
    cases ty <;> cases hdefault <;> exact hasked _ rfl
  · split at hanswer <;> cases List.mem_singleton.mp hanswer
    · exact hsubstituted site ty
    · exact hfailed _

/-- Whatever is true of failures, of substitutions, and of queries that are not about an absent value, is
true of all events of an evaluation but its visits. -/
theorem emits_invariant (hfailed : ∀ e, P (.failed e))
    (hasked : ∀ query, query.subject? ≠ some .absent → P (.asked query))
    (hsubstituted : ∀ site ty, P (.substituted site ty)) :
    c.Invariant fun _ x => x.Emits P := by
  have hanswered : ∀ (query : Query) (v : Value) (answer : Run σ Value), query.subject? = some v →
      v ≠ .absent → answer.Emits P →
      (do Run.emit (.asked query); return Resolved.read (← answer)).Emits P := by
    intro query v answer hquery hv hanswer
    have hpresent : query.subject? ≠ some .absent := by simp [hquery, hv]
    exact (Run.Emits.emit (hasked query hpresent)).bind fun _ => hanswer.bind fun _ => .pure _
  exact {
    pure := .pure
    bind := .bind
    substitute := substitute_emits hfailed (fun query h => hasked query (by simp [h])) hsubstituted
    readMember := fun v m hv => hanswered _ v _ rfl hv (.ofAction hfailed _)
    invoke := fun v m args hv => hanswered _ v _ rfl hv (.ofAction hfailed _)
    invokeExtension := fun m v hv => hanswered _ v _ rfl hv (.ofAction hfailed _)
    invokeExtensionWith := fun m v lambda hv hlambda =>
      hanswered _ v _ rfl hv (.script hfailed hlambda _) }

end Scene

end AccessPath
