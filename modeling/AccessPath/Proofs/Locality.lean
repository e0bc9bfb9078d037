import AccessPath.Proofs.Nodes

/-!
# What an evaluation depends on

Beside the introspector, an evaluation depends on the values of the names that the path does not bind
itself, and on its depth only as far as the limit is concerned: with the nodes that it can reach within
the limit, a path evaluates alike at any depth, whatever else is in scope (`Path.evalAt_local`).
-/

namespace AccessPath

variable {σ : Type}

/-- The innermost binding of a name counts. -/
theorem Scene.parameter_cons (c : Scene σ) (bs : Bindings) (x y : String) (v : Value) :
    c.parameter ((x, v) :: bs) y = if y = x then v else c.parameter bs y := by
  unfold parameter
  rw [List.lookup_cons]
  by_cases h : y = x
  · simp [h]
  · have hne : (y == x) = false := by simpa using h
    rw [hne, if_neg h]

/-- A name that is not in scope refers to the root. -/
theorem Scene.parameter_of_not_mem (c : Scene σ) {bs : Bindings} {x : String}
    (h : x ∉ bs.map Prod.fst) : c.parameter bs x = c.root := by
  induction bs with
  | nil => rfl
  | cons b bs ih =>
    simp only [List.map_cons, List.mem_cons, not_or] at h
    rw [parameter_cons, if_neg h.1, ih h.2]

/-- A name that is in scope has the same value whatever the root is. -/
theorem Scene.parameter_of_mem (c c' : Scene σ) {bs : Bindings} {x : String}
    (h : x ∈ bs.map Prod.fst) : c.parameter bs x = c'.parameter bs x := by
  induction bs with
  | nil => simp at h
  | cons b bs ih =>
    simp only [List.map_cons, List.mem_cons] at h
    rw [parameter_cons, parameter_cons]
    by_cases hx : x = b.1
    · rw [if_pos hx, if_pos hx]
    · rw [if_neg hx, if_neg hx, ih (h.resolve_left hx)]

/-- A name in scope has the value at the first position where it is bound. -/
theorem Scene.parameter_of_idxOf? (c : Scene σ) {bs : Bindings} {x : String} {k : Nat} {b : String × Value}
    (hk : (bs.map Prod.fst).idxOf? x = some k) (hb : bs[k]? = some b) : c.parameter bs x = b.2 := by
  induction bs generalizing k with
  | nil => simp at hk
  | cons a bs ih =>
    rw [parameter_cons]
    rw [List.map_cons, List.idxOf?_cons] at hk
    by_cases hx : x = a.1
    · subst hx
      obtain rfl : k = 0 := by simpa using hk.symm
      obtain rfl : a = b := by simpa using hb
      rw [if_pos rfl]
    · have hne : (a.1 == x) = false := by simpa using Ne.symm hx
      rw [hne, if_neg Bool.false_ne_true] at hk
      obtain ⟨j, hj, rfl⟩ := Option.map_eq_some_iff.mp hk
      rw [if_neg hx]
      exact ih hj (by simpa using hb)

namespace Path

mutual

/-- The depth of the deepest node that an evaluation can reach, the path itself being at depth zero. The
body of a lambda is reached from the extension call that it is passed to. -/
def height : Path → Nat
  | .constant .. | .parameter .. | .lambda .. => 0
  | .memberAccess target _ => target.height + 1
  | .methodCall receiver _ args => max (receiver.height + 1) (heightAll args)
  | .extensionCall _ [] => 0
  | .extensionCall _ (receiver :: rest) =>
    max (receiver.height + 1)
      (match rest with
      | [.lambda _ _ body] => body.height + 2
      | _ => 0)
termination_by structural p => p

/-- The depth of the deepest node that can be reached in the arguments of a call. -/
def heightAll : List Path → Nat
  | [] => 0
  | p :: ps => max (p.height + 1) (heightAll ps)
termination_by structural ps => ps

end

mutual

/-- The names of the parameters that no lambda inside the path binds. -/
def freeNames : Path → List String
  | .constant .. => []
  | .parameter x _ => [x]
  | .memberAccess target _ => target.freeNames
  | .methodCall receiver _ args => receiver.freeNames ++ freeNamesAll args
  | .extensionCall _ args => freeNamesAll args
  | .lambda x _ body => body.freeNames.filter (· ≠ x)
termination_by structural p => p

def freeNamesAll : List Path → List String
  | [] => []
  | p :: ps => p.freeNames ++ freeNamesAll ps
termination_by structural ps => ps

end

theorem height_lt_of_mem {p : Path} {ps : List Path} (h : p ∈ ps) : p.height < heightAll ps := by
  induction ps with
  | nil => cases h
  | cons q ps ih =>
    rw [heightAll]
    rcases List.mem_cons.mp h with rfl | hps
    · omega
    · have := ih hps
      omega

theorem height_receiver_lt (m : MethodSig) (r : Path) (rest : List Path) :
    r.height < (extensionCall m (r :: rest)).height := by
  rw [height.eq_def (extensionCall m (r :: rest))]
  exact Nat.lt_of_lt_of_le (Nat.lt_succ_self _) (Nat.le_max_left _ _)

theorem freeNamesAll_eq_flatMap (ps : List Path) : freeNamesAll ps = ps.flatMap freeNames := by
  induction ps with
  | nil => rfl
  | cons p ps ih => rw [freeNamesAll, List.flatMap_cons, ih]

/-- Where the names that a path does not bind have the same values, and everything that it can reach is
within the limits, the path evaluates alike, apart from the depths at which its nodes are visited. -/
theorem evalAt_local {k : Comparison σ} (hcounts : ∀ kind depth, k.counts (.visited kind depth) = false)
    {c c' : Scene σ} (hi : c.introspector.Agree k c'.introspector)
    (hscripts : c.introspector.ScriptsAgree k c'.introspector) {p : Path} {bs bs' : Bindings}
    {d d' : Nat} (hnames : ∀ x ∈ p.freeNames, c.parameter bs x = c'.parameter bs' x)
    (hd : d + p.height ≤ c.settings.maxDepth) (hd' : d' + p.height ≤ c'.settings.maxDepth) :
    Run.Agree k k.SameAnswer (p.evalAt c bs d) (p.evalAt c' bs' d') := by
  have hvisit : ∀ {d d' : Nat} (q : Path), d ≤ c.settings.maxDepth → d' ≤ c'.settings.maxDepth →
      Run.Agree k Eq (c.visit q d) (c'.visit q d') :=
    fun q hle hle' => Scene.visit_agree_of_le hcounts hle hle' q q
  induction p using nodeInduction generalizing bs bs' d d' with
  | constant v ty =>
    rw [evalAt, evalAt]
    exact (hvisit _ hd hd').bind fun _ _ _ => .pure (k.sameAnswer_refl _)
  | parameter x ty =>
    have hvalue := hnames x (by simp [freeNames])
    rw [evalAt, evalAt, hvalue]
    exact (hvisit _ hd hd').bind fun _ _ _ => .pure (k.sameAnswer_refl _)
  | memberAccess t m iht =>
    rw [height] at hd hd'
    rw [freeNames] at hnames
    have htarget : Run.Agree k k.SameAnswer (t.evalAt c bs (d + 1)) (t.evalAt c' bs' (d' + 1)) :=
      iht hnames (by omega) (by omega)
    exact onto_agree (.member m) (.member m) hi (hvisit _ (by omega) (by omega)) htarget
      (Link.agree_member hi m)
  | methodCall r m args ihr ihargs =>
    rw [height] at hd hd'
    simp only [freeNames, freeNamesAll_eq_flatMap, List.mem_append, List.mem_flatMap] at hnames
    have hreceiver : Run.Agree k k.SameAnswer (r.evalAt c bs (d + 1)) (r.evalAt c' bs' (d' + 1)) :=
      ihr (fun x hx => hnames x (.inl hx)) (by omega) (by omega)
    have hargs : ∀ a ∈ args,
        Run.Agree k k.SameAnswer (a.evalAt c bs (d + 1)) (a.evalAt c' bs' (d' + 1)) := by
      intro a ha
      have hheight := height_lt_of_mem ha
      exact ihargs a ha (fun x hx => hnames x (.inr ⟨a, ha, hx⟩)) (by omega) (by omega)
    exact onto_agree (.call m args) (.call m args) hi (hvisit _ (by omega) (by omega)) hreceiver
      (Link.agree_call hi m (evalAll_agree (List.forall₂_same.mpr hargs)))
  | noReceiver m =>
    rw [height] at hd hd'
    rw [evalAt, evalAt]
    exact (hvisit _ hd hd').bind fun _ _ _ => .fail (k.sameError_refl _)
  | extensionCall m r rest ihr ihrest ihbody =>
    simp only [freeNames, freeNamesAll, List.mem_append] at hnames
    have hlt := height_receiver_lt m r rest
    have hreceiver : Run.Agree k k.SameAnswer (r.evalAt c bs (d + 1)) (r.evalAt c' bs' (d' + 1)) :=
      ihr (fun x hx => hnames x (.inl hx)) (by omega) (by omega)
    have hrest : RestAgree k k c c' bs bs' d d' m rest rest := by
      refine .same fun x ty b hrest v => ?_
      subst hrest
      rw [height] at hd hd'
      refine ihbody x ty b List.mem_cons_self (fun y hy => ?_) (by omega) (by omega)
      rw [Scene.parameter_cons, Scene.parameter_cons]
      by_cases hyx : y = x
      · rw [if_pos hyx, if_pos hyx]
      · rw [if_neg hyx, if_neg hyx]
        exact hnames y (.inr (by simp [freeNamesAll, freeNames, hy, hyx]))
    exact onto_agree (.extension m rest) (.extension m rest) hi (hvisit _ (by omega) (by omega))
      hreceiver (Link.agree_extension (.refl k) hi hscripts hrest)
  | lambda x ty b ih =>
    rw [height] at hd hd'
    rw [evalAt, evalAt]
    exact (hvisit _ hd hd').bind fun _ _ _ => .fail (k.sameError_refl _)

end Path

end AccessPath
