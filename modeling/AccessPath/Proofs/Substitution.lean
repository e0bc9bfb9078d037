import AccessPath.Proofs.Fallback
import AccessPath.Proofs.Locality
import AccessPath.Proofs.Purity

/-!
# Composing paths

A path put in the place of another one's root composes the two: evaluated against a root, the composed
path ends as the outer path does against the value of the inner one (`Path.fetch_plug`). The inner path
is evaluated where the outer one refers to its root, at any depth, below any lambdas, any number of
times or never; hence it is asked that nothing changes the host, that no lambda of the outer path
captures a name, and that the composed path is within the limit.

One error tells the two apart: an argument that stands where an extension wants a lambda is refused with
the kind of its node, which is not a parameter any more once a path has taken its place. Inside the body
of a lambda such an error is handed to an extension, and one that looks at the kind makes different
values of the two (`Path.refused_kind_observed`).
-/

namespace AccessPath

variable {σ : Type}

/-- The errors are the same, but for the kind of node that is refused where a lambda is wanted. -/
inductive EvalError.SameButKind : EvalError → EvalError → Prop
  | refl (e : EvalError) : SameButKind e e
  | refused (method kind kind' : String) :
    SameButKind (.notALambda method kind) (.notALambda method kind')

/-- Values count, and errors up to a relation. -/
def Comparison.results (same : EvalError → EvalError → Prop) (hrefl : ∀ e, same e e) :
    Comparison σ where
  hosts _ := True
  counts _ := false
  sameError := same
  flags := False
  sameError_refl := hrefl
  counts_failed _ := rfl

/-- The extensions go on alike from errors that differ in the kind of a refused node alone. -/
def Introspector.IgnoresRefusedKinds (i : Introspector σ) : Prop :=
  i.ScriptsAgree (.results EvalError.SameButKind .refl) i

namespace Path

mutual

/-- The path `q` with `p` in the place of every parameter that refers to the root, which is one that is
not in `scope` and that no lambda of `q` binds. -/
def plug (p : Path) (scope : List String) : Path → Path
  | .constant v ty => .constant v ty
  | .parameter x ty => if x ∈ scope then .parameter x ty else p
  | .memberAccess target m => .memberAccess (plug p scope target) m
  | .methodCall receiver m args => .methodCall (plug p scope receiver) m (plugAll p scope args)
  | .extensionCall m args => .extensionCall m (plugAll p scope args)
  | .lambda x ty body => .lambda x ty (plug p (x :: scope) body)
termination_by structural q => q

def plugAll (p : Path) (scope : List String) : List Path → List Path
  | [] => []
  | q :: qs => plug p scope q :: plugAll p scope qs
termination_by structural qs => qs

end

mutual

/-- The names of the lambda parameters in a path. -/
def lambdaNames : Path → List String
  | .constant .. | .parameter .. => []
  | .memberAccess target _ => target.lambdaNames
  | .methodCall receiver _ args => receiver.lambdaNames ++ lambdaNamesAll args
  | .extensionCall _ args => lambdaNamesAll args
  | .lambda x _ body => x :: body.lambdaNames
termination_by structural p => p

def lambdaNamesAll : List Path → List String
  | [] => []
  | p :: ps => p.lambdaNames ++ lambdaNamesAll ps
termination_by structural ps => ps

end

mutual

/-- Inside the body of a lambda, a parameter that refers to the root stands where an extension wants a
lambda. The names in `scope` are bound; if `inside` holds, the path itself is taken to stand in a body. -/
def refusesRoot (inside : Bool) (scope : List String) : Path → Bool
  | .constant .. | .parameter .. | .lambda .. => false
  | .memberAccess target _ => target.refusesRoot inside scope
  | .methodCall receiver _ args => receiver.refusesRoot inside scope || anyRefusesRoot inside scope args
  | .extensionCall _ [] => false
  | .extensionCall _ (receiver :: rest) =>
    receiver.refusesRoot inside scope ||
      (match rest with
      | [.lambda x _ body] => body.refusesRoot true (x :: scope)
      | [.parameter x _] => inside && decide (x ∉ scope)
      | _ => false)
termination_by structural p => p

def anyRefusesRoot (inside : Bool) (scope : List String) : List Path → Bool
  | [] => false
  | p :: ps => p.refusesRoot inside scope || anyRefusesRoot inside scope ps
termination_by structural ps => ps

end

theorem plugAll_eq_map (p : Path) (scope : List String) (qs : List Path) :
    plugAll p scope qs = qs.map (plug p scope) := by
  induction qs with
  | nil => rfl
  | cons q qs ih => rw [plugAll, List.map_cons, ih]

theorem lambdaNamesAll_eq_flatMap (ps : List Path) :
    lambdaNamesAll ps = ps.flatMap lambdaNames := by
  induction ps with
  | nil => rfl
  | cons p ps ih => rw [lambdaNamesAll, List.flatMap_cons, ih]

theorem anyRefusesRoot_eq_any (inside : Bool) (scope : List String) (ps : List Path) :
    anyRefusesRoot inside scope ps = ps.any (refusesRoot inside scope) := by
  induction ps with
  | nil => rfl
  | cons p ps ih => rw [anyRefusesRoot, List.any_cons, ih]

theorem refusesRoot_of_receiver {inside : Bool} {scope : List String} {r : Path} (m : MethodSig)
    (rest : List Path) (h : r.refusesRoot inside scope = true) :
    (extensionCall m (r :: rest)).refusesRoot inside scope = true := by
  rw [refusesRoot.eq_def]
  simp [h]

theorem refusesRoot_of_body {inside : Bool} {scope : List String} {x : String} {b : Path} (m : MethodSig)
    (r : Path) (ty : Ty) (h : b.refusesRoot true (x :: scope) = true) :
    (extensionCall m [r, .lambda x ty b]).refusesRoot inside scope = true := by
  simp [refusesRoot, h]

theorem refusesRoot_of_root {scope : List String} {x : String} (m : MethodSig) (r : Path) (ty : Ty)
    (h : x ∉ scope) : (extensionCall m [r, .parameter x ty]).refusesRoot true scope = true := by
  simp [refusesRoot, h]

theorem plug_ne_lambda {p q : Path} (hp : ∀ x ty b, p ≠ .lambda x ty b)
    (hq : ∀ x ty b, q ≠ .lambda x ty b) (scope : List String) (x : String) (ty : Ty) (b : Path) :
    plug p scope q ≠ .lambda x ty b := by
  cases q with
  | parameter y tz =>
    rw [plug]
    split
    · simp
    · exact hp x ty b
  | lambda y tz c => exact absurd rfl (hq y tz c)
  | _ => simp [plug]

section

variable {k fine : Comparison σ} {i : Introspector σ} {settings : Settings} {r v : Value} {p : Path}

/-- What the arguments of an extension call come to, once a path has taken the root's place in them. -/
theorem plugAll_restAgree (hlambda : ∀ x ty b, p ≠ .lambda x ty b) {m : MethodSig}
    {rest : List Path} {bs : Bindings} {d : Nat}
    (hrefused : ∀ x ty, rest = [.parameter x ty] → x ∉ bs.map Prod.fst →
      k.sameError (.notALambda m.name p.kindName) (.notALambda m.name "parameter"))
    (hbody : ∀ x ty b, rest = [.lambda x ty b] → ∀ item, Run.Agree fine fine.SameAnswer
      ((plug p (x :: bs.map Prod.fst) b).evalAt ⟨i, settings, r⟩ ((x, item) :: bs) (d + 2))
      (b.evalAt ⟨i, settings, v⟩ ((x, item) :: bs) (d + 2))) :
    RestAgree fine k ⟨i, settings, r⟩ ⟨i, settings, v⟩ bs bs d d m
      (plugAll p (bs.map Prod.fst) rest) rest := by
  match rest with
  | [] => exact .none
  | [.lambda x ty b] =>
    rw [plugAll, plugAll, plug]
    exact .lambda (hbody x ty b rfl)
  | a :: a' :: rest => exact .many (by simp [plugAll]) (by simp [plugAll, plugAll_eq_map])
  | [.parameter x ty] =>
    refine .refused (plug_ne_lambda hlambda (by simp) _) (by simp) ?_
    rw [plug]
    split
    · exact k.sameError_refl _
    · next hx => exact hrefused x ty rfl hx
  | [.constant ..] | [.memberAccess ..] | [.methodCall ..] | [.extensionCall ..] =>
    refine .refused (plug_ne_lambda hlambda (by simp) _) (by simp) ?_
    rw [plug]
    exact k.sameError_refl _

/-- The composed path against the root `r` and the outer path against `v` agree in any scope that binds
no name of the inner path, if the inner path has the value `v` in every such scope. In the bodies of
lambdas they do so in the finer comparison `fine`, and so do the extensions. -/
theorem evalAt_plug (hcounts : ∀ kind depth, fine.counts (.visited kind depth) = false)
    (hfine : i.Agree fine i) (hscripts : i.ScriptsAgree fine i)
    (hlambda : ∀ x ty b, p ≠ .lambda x ty b)
    (hvalue : ∀ bs d, (∀ x ∈ p.freeNames, x ∉ bs.map Prod.fst) → d + p.height ≤ settings.maxDepth →
      Run.Agree fine fine.SameAnswer (p.evalAt ⟨i, settings, r⟩ bs d) (pure (.read v)))
    {q : Path} (inside : Bool) (hk : fine.Finer k) (hi : i.Agree k i) (bs : Bindings) (d : Nat)
    (hinside : q.refusesRoot inside (bs.map Prod.fst) = true →
      ∀ m, fine.sameError (.notALambda m p.kindName) (.notALambda m "parameter"))
    (houtside : inside = false →
      ∀ m, k.sameError (.notALambda m p.kindName) (.notALambda m "parameter"))
    (hscope : ∀ x ∈ p.freeNames, x ∉ bs.map Prod.fst)
    (hcapture : ∀ x ∈ p.freeNames, x ∉ q.lambdaNames)
    (hd : d + (plug p (bs.map Prod.fst) q).height ≤ settings.maxDepth) :
    Run.Agree k k.SameAnswer ((plug p (bs.map Prod.fst) q).evalAt ⟨i, settings, r⟩ bs d)
      (q.evalAt ⟨i, settings, v⟩ bs d) := by
  have hvisit : ∀ {k : Comparison σ}, fine.Finer k → ∀ d (q q' : Path), d ≤ settings.maxDepth →
      Run.Agree k Eq (Scene.visit ⟨i, settings, r⟩ q d) (Scene.visit ⟨i, settings, v⟩ q' d) := by
    intro k hk d q q' hle
    exact Scene.visit_agree_of_le (by rw [← hk.counts]; exact hcounts) hle hle q q'
  induction q using nodeInduction generalizing k inside bs d with
  | constant w ty =>
    rw [plug, evalAt, evalAt]
    exact (hvisit hk d _ _ (by omega)).bind fun _ _ _ => .pure (k.sameAnswer_refl _)
  | parameter x ty =>
    rw [plug] at hd ⊢
    split at hd
    · next hx =>
      rw [if_pos hx, evalAt, evalAt, Scene.parameter_of_mem _ ⟨i, settings, v⟩ hx]
      exact (hvisit hk d _ _ (by omega)).bind fun _ _ _ => .pure (k.sameAnswer_refl _)
    · next hx =>
      have hhere := (hvalue bs d hscope hd).mono hk fun _ _ h => hk.sameAnswer h
      have hvisited : Scene.visit ⟨i, settings, v⟩ (parameter x ty) d = Run.emit _ :=
        if_neg (by simp; omega)
      rw [if_neg hx, evalAt.eq_2, Scene.parameter_of_not_mem _ hx, hvisited]
      exact hhere.after_uncounted (hk.counts ▸ hcounts _ _)
  | memberAccess t m iht =>
    rw [plug] at hd ⊢
    rw [height] at hd
    have htarget := iht inside hk hi bs (d + 1) hinside houtside hscope hcapture (by omega)
    exact onto_agree (.member m) (.member m) hi (hvisit hk d _ _ (by omega)) htarget
      (Link.agree_member hi m)
  | methodCall q m args ihq ihargs =>
    rw [plug] at hd ⊢
    rw [height, plugAll_eq_map] at hd
    simp only [refusesRoot, anyRefusesRoot_eq_any, Bool.or_eq_true, List.any_eq_true] at hinside
    simp only [lambdaNames, lambdaNamesAll_eq_flatMap, List.mem_append, List.mem_flatMap, not_or,
      not_exists, not_and] at hcapture
    have hreceiver := ihq inside hk hi bs (d + 1) (fun h => hinside (.inl h)) houtside hscope
      (fun x hx => (hcapture x hx).1) (by omega)
    have hargs : List.Forall₂ (fun a a' => Run.Agree k k.SameAnswer
        (a.evalAt ⟨i, settings, r⟩ bs (d + 1)) (a'.evalAt ⟨i, settings, v⟩ bs (d + 1)))
        (plugAll p (bs.map Prod.fst) args) args := by
      rw [plugAll_eq_map, List.forall₂_map_left_iff, List.forall₂_same]
      intro a ha
      have hheight := height_lt_of_mem (List.mem_map_of_mem (f := plug p (bs.map Prod.fst)) ha)
      exact ihargs a ha inside hk hi bs (d + 1) (fun h => hinside (.inr ⟨a, ha, h⟩)) houtside hscope
        (fun x hx => (hcapture x hx).2 a ha) (by omega)
    exact onto_agree (.call m _) (.call m args) hi (hvisit hk d _ _ (by omega)) hreceiver
      (Link.agree_call hi m (evalAll_agree hargs))
  | noReceiver m =>
    rw [plug, plugAll, evalAt, evalAt]
    exact (hvisit hk d _ _ (by omega)).bind fun _ _ _ => .fail (k.sameError_refl _)
  | extensionCall m q rest ihq ihrest ihbody =>
    rw [plug, plugAll] at hd ⊢
    have hlt := height_receiver_lt m (plug p (bs.map Prod.fst) q) (plugAll p (bs.map Prod.fst) rest)
    simp only [lambdaNames, lambdaNamesAll, List.mem_append, not_or] at hcapture
    have hreceiver := ihq inside hk hi bs (d + 1)
      (fun h => hinside (refusesRoot_of_receiver m rest h)) houtside hscope
      (fun x hx => (hcapture x hx).1) (by omega)
    have hrefused : ∀ x ty, rest = [.parameter x ty] → x ∉ bs.map Prod.fst →
        k.sameError (.notALambda m.name p.kindName) (.notALambda m.name "parameter") := by
      rintro x ty rfl hx
      cases inside with
      | false => exact houtside rfl m.name
      | true => exact hk.sameError _ _ (hinside (refusesRoot_of_root m q ty hx) m.name)
    have hbody : ∀ x ty b, rest = [.lambda x ty b] → ∀ item, Run.Agree fine fine.SameAnswer
        ((plug p (x :: bs.map Prod.fst) b).evalAt ⟨i, settings, r⟩ ((x, item) :: bs) (d + 2))
        (b.evalAt ⟨i, settings, v⟩ ((x, item) :: bs) (d + 2)) := by
      rintro x ty b rfl item
      rw [plugAll, plugAll, plug, height] at hd
      simp only [lambdaNamesAll, lambdaNames, List.append_nil, List.mem_cons, not_or] at hcapture
      -- the lambda's own name is in scope now, and is none of the inner path's
      have hscope' : ∀ y ∈ p.freeNames, y ∉ x :: bs.map Prod.fst := by
        intro y hy
        rw [List.mem_cons, not_or]
        exact ⟨(hcapture y hy).2.1, hscope y hy⟩
      exact ihbody x ty b List.mem_cons_self true (.refl fine) hfine ((x, item) :: bs) (d + 2)
        (fun h => hinside (refusesRoot_of_body m q ty h)) (fun h => by cases h) hscope'
        (fun y hy => (hcapture y hy).2.2) (by simp only [List.map_cons]; omega)
    have hrest := plugAll_restAgree hlambda hrefused hbody
    exact onto_agree (.extension m _) (.extension m rest) hi (hvisit hk d _ _ (by omega)) hreceiver
      (Link.agree_extension hk hi hscripts hrest)
  | lambda x ty b ih =>
    rw [plug, evalAt, evalAt]
    exact (hvisit hk d _ _ (by omega)).bind fun _ _ _ => .fail (k.sameError_refl _)

end

theorem ne_lambda_of_fetch {i : Introspector σ} {settings : Settings} {r v : Value} {p : Path} {s : σ}
    (hp : (p.fetch i settings r s).result = .ok v) (x : String) (ty : Ty) (b : Path) :
    p ≠ .lambda x ty b := by
  rintro rfl
  rw [fetch_result_evalAt, evalAt, Scene.visit, if_neg (by omega)] at hp
  cases hp

section

variable {same : EvalError → EvalError → Prop} {hrefl : ∀ e, same e e} {i : Introspector σ}
  {settings : Settings} {r v : Value} {p : Path} {s : σ}

/-- A path that has a value has it at every depth within the limit, below every lambda that binds none
of its names. -/
theorem agree_of_fetch (hi : i.ChangesNothing)
    (hscripts : i.ScriptsAgree (Comparison.results same hrefl) i)
    (hp : (p.fetch i settings r s).result = .ok v) (bs : Bindings) (d : Nat)
    (hscope : ∀ x ∈ p.freeNames, x ∉ bs.map Prod.fst) (hd : d + p.height ≤ settings.maxDepth) :
    Run.Agree ((Comparison.results same hrefl).onHost s)
      ((Comparison.results same hrefl).onHost s).SameAnswer
      (p.evalAt ⟨i, settings, r⟩ bs d) (pure (.read v)) := by
  rintro t rfl
  have hnames : ∀ x ∈ p.freeNames, Scene.parameter ⟨i, settings, r⟩ bs x =
      Scene.parameter ⟨i, settings, r⟩ [] x :=
    fun x hx => Scene.parameter_of_not_mem _ (hscope x hx)
  have hroot : 0 + p.height ≤ settings.maxDepth := by omega
  have hlocal := evalAt_local (fun _ _ => rfl) (hi.agree (.results same hrefl) t)
    (hi.scriptsAgree (fun _ => trivial) hscripts t) hnames hd hroot
  obtain ⟨hresult, -, hadmitted, -⟩ := hlocal t rfl
  rw [fetch_result_evalAt] at hp
  refine ⟨?_, hadmitted, hadmitted, ?_⟩
  · cases hresultRoot : (p.evalAt ⟨i, settings, r⟩ [] 0 t).result with
    | error e => rw [hresultRoot] at hp; cases hp
    | ok a =>
      rw [hresultRoot] at hp hresult
      cases hhere : (p.evalAt ⟨i, settings, r⟩ bs d t).result with
      | error e => rw [hhere] at hresult; exact hresult.elim
      | ok b =>
        rw [hhere] at hresult
        cases hp
        exact ⟨hresult.1, fun hflags => hflags.elim⟩
  · simp [Comparison.SameTrace, Comparison.onHost, Comparison.results]

end

/-- Paths compose. If nothing changes the host, `p` has the value `v` against `r`, no lambda of `q`
binds a name that refers to the root in `p`, and everything is within the depth limit, then `q` with `p`
in the place of its root ends against `r` as `q` does against `v`: with the same value, or else with the
same error, but for the kind of node that is quoted where an extension refuses an argument for not being
a lambda. That is so if the root of `q` is not refused in this way inside the body of a lambda, and
otherwise if no extension looks at the kind that its lambda's error quotes. -/
theorem fetch_plug {i : Introspector σ} (hi : i.ChangesNothing) {settings : Settings} {r v : Value}
    {p q : Path} {s : σ} (hp : (p.fetch i settings r s).result = .ok v)
    (hcapture : ∀ x ∈ p.freeNames, x ∉ q.lambdaNames)
    (hdepth : (plug p [] q).height ≤ settings.maxDepth)
    (hkinds : q.refusesRoot false [] = false ∨ i.IgnoresRefusedKinds) :
    let composed := ((plug p [] q).fetch i settings r s).result
    let staged := (q.fetch i settings v s).result
    (∀ w, composed = .ok w ↔ staged = .ok w) ∧
    ∀ e, composed = .error e → ∃ e', staged = .error e' ∧ e.SameButKind e' := by
  intro composed staged
  let coarse : Comparison σ := .results EvalError.SameButKind .refl
  have hlambda := ne_lambda_of_fetch hp
  have houtside : ∀ m, EvalError.SameButKind (.notALambda m p.kindName) (.notALambda m "parameter") :=
    fun m => .refused m _ _
  have hdepth' : 0 + (plug p (([] : Bindings).map Prod.fst) q).height ≤ settings.maxDepth := by
    simpa using hdepth
  have heval : Run.Agree (coarse.onHost s) (coarse.onHost s).SameAnswer
      ((plug p [] q).evalAt ⟨i, settings, r⟩ [] 0) (q.evalAt ⟨i, settings, v⟩ [] 0) := by
    rcases hkinds with hplain | hignores
    · let fine : Comparison σ := .results Eq fun _ => rfl
      have hfiner : (fine.onHost s).Finer (coarse.onHost s) :=
        ⟨fun _ => .rfl, rfl, fun _ _ he => he ▸ .refl _, id⟩
      have hscripts : i.ScriptsAgree fine i :=
        i.scriptsAgree_self (fun _ => trivial) fun _ _ he => he
      exact evalAt_plug (fun _ _ => rfl) (hi.agree fine s)
        (hi.scriptsAgree (fun _ => trivial) hscripts s) hlambda (agree_of_fetch hi hscripts hp) false
        hfiner (hi.agree coarse s) [] 0 (fun h => by simp [hplain] at h) (fun _ => houtside)
        (fun _ _ => List.not_mem_nil) hcapture hdepth'
    · exact evalAt_plug (fun _ _ => rfl) (hi.agree coarse s)
        (hi.scriptsAgree (fun _ => trivial) hignores s) hlambda (agree_of_fetch hi hignores hp) false
        (.refl _) (hi.agree coarse s) [] 0 (fun _ => houtside) (fun _ => houtside)
        (fun _ _ => List.not_mem_nil) hcapture hdepth'
  have hsame : (coarse.onHost s).SameResult Eq composed staged := by
    simp only [composed, staged]
    rw [fetch_result_evalAt, fetch_result_evalAt]
    exact (heval s rfl).result.map fun _ _ h => h.1
  exact ⟨hsame.ok_iff, fun _ he => hsame.exists_error he⟩

/-- The items of an order, each compared with all of them: the items are read again for each item. -/
theorem fetch_composed_items :
    let i : Introspector Unit := Registry.withSequences.introspector
    let items : Value := .list [.int 1, .absent]
    let order : Value := .record "Order" [("items", items)]
    let inner : Path := (parameter "o" (.reference "Order")).member "items" (.list .int)
    let outer : Path := (parameter "o" (.list .int)).extensionWith "select"
      ⟨"x", .int, (parameter "x" .int).call "equals" [parameter "o" (.list .int)] .any⟩ (.list .any)
    i.ChangesNothing ∧ (inner.fetch i {} order ()).result = .ok items ∧
      (∀ x ∈ inner.freeNames, x ∉ outer.lambdaNames) ∧ (plug inner [] outer).height = 4 ∧
      outer.refusesRoot false [] = false ∧
      (outer.fetch i {} items ()).result = .ok (.list [.bool false, .absent]) ∧
      ((plug inner [] outer).fetch i {} order ()).result = .ok (.list [.bool false, .absent]) := by
  intro i items order inner outer
  have hi : i.ChangesNothing := Registry.changesNothing rfl Sequence.extensions_changeNothing
  have hp : (inner.fetch i {} order ()).result = .ok items := rfl
  have hcapture : ∀ x ∈ inner.freeNames, x ∉ outer.lambdaNames := by decide
  have hheight : (plug inner [] outer).height = 4 := rfl
  have hdepth : (plug inner [] outer).height ≤ ({} : Settings).maxDepth := by decide
  have hplain : outer.refusesRoot false [] = false := rfl
  have hstaged : (outer.fetch i {} items ()).result = .ok (.list [.bool false, .absent]) := rfl
  have hcomposed := (fetch_plug hi hp hcapture hdepth (.inl hplain)).1
  exact ⟨hi, hp, hcapture, hheight, hplain, hstaged, (hcomposed _).mpr hstaged⟩

/-- Staged and composed, the paths end with different values: the root is refused where `count` wants a
lambda, once as a parameter and once as the member access in its place, and the extension around that
answers with the text of the error. -/
theorem refused_kind_observed :
    let r : Registry Unit := Registry.withSequences.register (.extension "attempt" .attempt)
    let i := r.introspector
    let items : Value := .list [.int 1]
    let order : Value := .record "Order" [("items", items)]
    let inner : Path := (parameter "o" (.reference "Order")).member "items" (.list .int)
    let outer : Path := (parameter "o" (.list .int)).extensionWith "attempt"
      ⟨"x", .list .int, .extensionCall ⟨"count", [.list .int, .list .int], .int⟩
        [parameter "x" (.list .int), parameter "o" (.list .int)]⟩ .any
    i.ChangesNothing ∧ (inner.fetch i {} order ()).result = .ok items ∧
      (∀ x ∈ inner.freeNames, x ∉ outer.lambdaNames) ∧
      (plug inner [] outer).height ≤ ({} : Settings).maxDepth ∧
      (outer.fetch i {} items ()).result = .ok (.string
        "malformed extension call: second argument of `count` must be a lambda, found parameter") ∧
      ((plug inner [] outer).fetch i {} order ()).result = .ok (.string
        "malformed extension call: second argument of `count` must be a lambda, found member access") := by
  intro r i items order inner outer
  have hextensions : ∀ x ∈ r.extensions, x.2.ChangesNothing :=
    List.forall_mem_cons.mpr ⟨Extension.attempt_changesNothing, Sequence.extensions_changeNothing⟩
  exact ⟨Registry.changesNothing rfl hextensions, rfl, by decide, by decide, rfl, rfl⟩

end Path

end AccessPath
