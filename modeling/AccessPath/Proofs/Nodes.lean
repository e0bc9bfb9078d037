import AccessPath.Proofs.Agreement
import AccessPath.Proofs.Defaults

/-!
# Agreement of nodes

Two nodes evaluate in agreement if their visits agree, their parents do, and their links do the same
to a present value (`Path.onto_agree`). Links agree if the introspectors they ask do and what they
evaluate on the way, arguments or the body of a lambda, agrees (`Link.agree_call`,
`Link.agree_extension`).

`Path.nodeInduction` is the induction over paths that goes with this: the arguments of a call are at
hand one by one, and so are the bodies of the lambdas among them.
-/

namespace AccessPath

variable {σ : Type}

namespace Path

section

variable {motive : Path → Prop}
  (constant : ∀ v ty, motive (.constant v ty))
  (parameter : ∀ x ty, motive (.parameter x ty))
  (memberAccess : ∀ t m, motive t → motive (.memberAccess t m))
  (methodCall : ∀ r m args, motive r → (∀ a ∈ args, motive a) → motive (.methodCall r m args))
  (noReceiver : ∀ m, motive (.extensionCall m []))
  (extensionCall : ∀ m r rest, motive r → (∀ a ∈ rest, motive a) →
    (∀ x ty b, .lambda x ty b ∈ rest → motive b) → motive (.extensionCall m (r :: rest)))
  (lambda : ∀ x ty b, motive b → motive (.lambda x ty b))

include constant parameter memberAccess methodCall noReceiver extensionCall lambda

/-- Induction over the nodes of a path. -/
@[elab_as_elim]
theorem nodeInduction (p : Path) : motive p :=
  match p with
  | .constant v ty => constant v ty
  | .parameter x ty => parameter x ty
  | .memberAccess t m => memberAccess t m (nodeInduction t)
  | .methodCall r m args =>
    methodCall r m args (nodeInduction r) fun a ha =>
      have := List.sizeOf_lt_of_mem ha
      nodeInduction a
  | .extensionCall m [] => noReceiver m
  | .extensionCall m (r :: rest) =>
    extensionCall m r rest (nodeInduction r)
      (fun a ha =>
        have := List.sizeOf_lt_of_mem ha
        nodeInduction a)
      fun x ty b hb =>
        have := List.sizeOf_lt_of_mem hb
        nodeInduction b
  | .lambda x ty b => lambda x ty b (nodeInduction b)
termination_by sizeOf p
decreasing_by
  all_goals simp only [Path.memberAccess.sizeOf_spec, Path.methodCall.sizeOf_spec,
    Path.extensionCall.sizeOf_spec, Path.lambda.sizeOf_spec, List.cons.sizeOf_spec] at *
  all_goals omega

end

end Path

/-- The introspectors answer alike about values that are present, if they are given no lambda, and have
the same defaults. -/
structure Introspector.Agree (k : Comparison σ) (i i' : Introspector σ) : Prop where
  readMember : ∀ v m, v.isAbsent = false → (i.readMember v m).Agree k (i'.readMember v m)
  invoke : ∀ v m args, v.isAbsent = false → (i.invoke v m args).Agree k (i'.invoke v m args)
  invokeExtension : ∀ m v, v.isAbsent = false →
    (i.invokeExtension m v).Agree k (i'.invokeExtension m v)
  default : ∀ ty, i.default ty = i'.default ty

/-- The introspectors do the same with a lambda on values that are present. -/
def Introspector.ScriptsAgree (k : Comparison σ) (i i' : Introspector σ) : Prop :=
  ∀ m v, v.isAbsent = false → (i.invokeExtensionWith m v).Agree k (i'.invokeExtensionWith m v)

theorem Introspector.agree_self {k : Comparison σ} (hhosts : ∀ s, k.hosts s) (i : Introspector σ) :
    i.Agree k i := by
  have hactions : ∀ a : Action σ Value, a.Agree k a :=
    fun a s _ => ⟨rfl, hhosts _, k.sameResult_refl (fun _ => rfl) _⟩
  exact ⟨fun _ _ _ => hactions _, fun _ _ _ _ => hactions _, fun _ _ _ => hactions _, fun _ => rfl⟩

theorem Introspector.scriptsAgree_self {k : Comparison σ} (hhosts : ∀ s, k.hosts s)
    (herror : ∀ e e', k.sameError e e' → e = e') (i : Introspector σ) : i.ScriptsAgree k i :=
  fun _ _ _ => Script.agree_refl hhosts herror _

section

variable {k k' : Comparison σ} {c c' : Scene σ} {bs bs' : Bindings} {d d' : Nat}

namespace Scene

/-- At one depth under one limit, visits to nodes of one kind agree. -/
theorem visit_agree (hsettings : c.settings = c'.settings) {p p' : Path}
    (hkind : p.kindName = p'.kindName) : Run.Agree k Eq (c.visit p d) (c'.visit p' d) := by
  unfold visit
  rw [hsettings, hkind]
  split
  · exact .fail (k.sameError_refl _)
  · exact .emit _

/-- Within the limits visits agree, if they do not count. -/
theorem visit_agree_of_le (hcounts : ∀ kind depth, k.counts (.visited kind depth) = false)
    (hd : d ≤ c.settings.maxDepth) (hd' : d' ≤ c'.settings.maxDepth) (p p' : Path) :
    Run.Agree k Eq (c.visit p d) (c'.visit p' d') := by
  rw [visit, visit, if_neg (by omega), if_neg (by omega)]
  exact .emit_uncounted (hcounts _ _) (hcounts _ _)

theorem substitute_agree {ty : Ty} (h : c.introspector.default ty = c'.introspector.default ty)
    (site : String) : Run.Agree k k.SameAnswer (c.substitute site ty) (c'.substitute site ty) := by
  intro s hs
  rw [substitute_apply, substitute_apply, substitution, substitution, h]
  exact ⟨k.sameResult_refl k.sameAnswer_refl _, rfl, hs, k.sameTrace_refl _⟩

/-- An introspector is asked, and its answer counts as read. -/
theorem asked_agree {x x' : Run σ Value} (h : Run.Agree k Eq x x') (query : Query) :
    Run.Agree k k.SameAnswer (do Run.emit (.asked query); return .read (← x))
      (do Run.emit (.asked query); return .read (← x')) := by
  refine (Run.Agree.emit _).bind fun _ _ _ => h.bind fun v v' hv => ?_
  subst hv
  exact .pure (k.sameAnswer_refl _)

end Scene

/-- What two links do to a present value agrees, and so does what a default takes the place of. -/
structure Link.Agree (k : Comparison σ) (c c' : Scene σ) (bs bs' : Bindings) (d d' : Nat)
    (l l' : Link) : Prop where
  site : l.site = l'.site
  ty : l.ty = l'.ty
  proceed : ∀ v, v.isAbsent = false →
    Run.Agree k k.SameAnswer (l.proceed c bs d v) (l'.proceed c' bs' d' v)

/-- The arguments behind the receiver of an extension call agree: there are none, or one lambda each
with bodies that agree in the comparison `k`, or one argument each that is refused alike in `k'`, or
more, and equally many. -/
inductive Path.RestAgree (k k' : Comparison σ) (c c' : Scene σ) (bs bs' : Bindings) (d d' : Nat)
    (m : MethodSig) : List Path → List Path → Prop
  | none : RestAgree k k' c c' bs bs' d d' m [] []
  | lambda {x y : String} {ty ty' : Ty} {b b' : Path}
      (body : ∀ v, Run.Agree k k.SameAnswer (b.evalAt c ((x, v) :: bs) (d + 2))
        (b'.evalAt c' ((y, v) :: bs') (d' + 2))) :
      RestAgree k k' c c' bs bs' d d' m [.lambda x ty b] [.lambda y ty' b']
  | refused {p p' : Path} (plain : ∀ x ty b, p ≠ .lambda x ty b)
      (plain' : ∀ x ty b, p' ≠ .lambda x ty b)
      (error : k'.sameError (.notALambda m.name p.kindName) (.notALambda m.name p'.kindName)) :
      RestAgree k k' c c' bs bs' d d' m [p] [p']
  | many {rest rest' : List Path} (several : 2 ≤ rest.length) (equal : rest.length = rest'.length) :
      RestAgree k k' c c' bs bs' d d' m rest rest'

/-- The same arguments on both sides agree, if the bodies of lambdas do. -/
theorem Path.RestAgree.same {m : MethodSig} {rest : List Path}
    (hbody : ∀ x ty b, rest = [.lambda x ty b] → ∀ v, Run.Agree k k.SameAnswer
      (b.evalAt c ((x, v) :: bs) (d + 2)) (b.evalAt c' ((x, v) :: bs') (d' + 2))) :
    RestAgree k k' c c' bs bs' d d' m rest rest := by
  match rest with
  | [] => exact .none
  | [.lambda x ty b] => exact .lambda (hbody x ty b rfl)
  | p :: q :: rest => exact .many (by simp) rfl
  | [.constant ..] | [.parameter ..] | [.memberAccess ..] | [.methodCall ..] | [.extensionCall ..] =>
    exact .refused (by simp) (by simp) (k'.sameError_refl _)

namespace Link

theorem proceed_of_plain {m : MethodSig} {p : Path} (h : ∀ x ty b, p ≠ .lambda x ty b)
    (c : Scene σ) (bs : Bindings) (d : Nat) (v : Value) :
    (Link.extension m [p]).proceed c bs d v = Run.fail (.notALambda m.name p.kindName) := by
  cases p with
  | lambda x ty b => exact absurd rfl (h x ty b)
  | _ => rfl

theorem proceed_of_several {m : MethodSig} {rest : List Path} (h : 2 ≤ rest.length)
    (c : Scene σ) (bs : Bindings) (d : Nat) (v : Value) :
    (Link.extension m rest).proceed c bs d v =
      Run.fail (.tooManyArguments m.name (rest.length + 1)) := by
  match rest, h with
  | p :: q :: rest, _ => cases p <;> rfl

theorem agree_member (hi : c.introspector.Agree k c'.introspector) (m : MemberSig) :
    Link.Agree k c c' bs bs' d d' (.member m) (.member m) :=
  ⟨rfl, rfl, fun v hv => Scene.asked_agree (.ofAction (hi.readMember v m hv)) _⟩

theorem agree_call (hi : c.introspector.Agree k c'.introspector) (m : MethodSig)
    {args args' : List Path}
    (hargs : Run.Agree k Eq (Path.evalAll c bs (d + 1) args) (Path.evalAll c' bs' (d' + 1) args')) :
    Link.Agree k c c' bs bs' d d' (.call m args) (.call m args') := by
  refine ⟨rfl, rfl, fun v hv => hargs.bind fun vs vs' hvs => ?_⟩
  subst hvs
  exact Scene.asked_agree (.ofAction (hi.invoke v m vs hv)) _

/-- An extension call agrees if the introspectors do the same with agreeing lambdas. -/
theorem agree_extension_of (hi : c.introspector.Agree k' c'.introspector) {m : MethodSig}
    (hwith : ∀ v, v.isAbsent = false → ∀ f g : Value → Run σ Value,
      (∀ item, Run.Agree k Eq (f item) (g item)) →
      Run.Agree k' Eq ((c.introspector.invokeExtensionWith m v).run f)
        ((c'.introspector.invokeExtensionWith m v).run g))
    {rest rest' : List Path} (h : Path.RestAgree k k' c c' bs bs' d d' m rest rest') :
    Link.Agree k' c c' bs bs' d d' (.extension m rest) (.extension m rest') := by
  refine ⟨rfl, rfl, fun v hv => ?_⟩
  cases h with
  | none => exact Scene.asked_agree (.ofAction (hi.invokeExtension m v hv)) _
  | lambda body =>
    have hbody := fun item => (body item).bind fun r r' hr => Run.Agree.pure hr.1
    exact Scene.asked_agree (hwith v hv _ _ hbody) _
  | refused plain plain' error =>
    rw [proceed_of_plain plain, proceed_of_plain plain']
    exact .fail error
  | many several equal =>
    rw [proceed_of_several several, proceed_of_several (equal ▸ several), equal]
    exact .fail (k'.sameError_refl _)

theorem agree_extension (hk : k.Finer k') (hi : c.introspector.Agree k' c'.introspector)
    (hscripts : c.introspector.ScriptsAgree k c'.introspector) {m : MethodSig} {rest rest' : List Path}
    (h : Path.RestAgree k k' c c' bs bs' d d' m rest rest') :
    Link.Agree k' c c' bs bs' d d' (.extension m rest) (.extension m rest') :=
  agree_extension_of hi
    (fun v hv _ _ hlambdas => ((hscripts m v hv).run hlambdas).mono hk fun _ _ h => h) h

end Link

namespace Path

/-- Nodes agree if their visits, their parents and their links do. -/
theorem onto_agree (l l' : Link) (hi : c.introspector.Agree k c'.introspector) {p p' : Path}
    (hvisit : Run.Agree k Eq (c.visit (l.onto p) d) (c'.visit (l'.onto p') d'))
    (hparent : Run.Agree k k.SameAnswer (p.evalAt c bs (d + 1)) (p'.evalAt c' bs' (d' + 1)))
    (hlink : Link.Agree k c c' bs bs' d d' l l') :
    Run.Agree k k.SameAnswer ((l.onto p).evalAt c bs d) ((l'.onto p').evalAt c' bs' d') := by
  rw [evalAt_onto, evalAt_onto]
  refine hvisit.bind fun _ _ _ => hparent.bind fun r r' hr => ?_
  cases hr' : r'.value.isAbsent with
  | true =>
    have habsent := Value.isAbsent_iff.mp hr'
    rw [Link.answer_of_absent _ _ _ _ habsent, Link.answer_of_absent _ _ _ _ (hr.1.trans habsent),
      hlink.site, hlink.ty]
    exact Scene.substitute_agree (hi.default _) _
  | false =>
    rw [Link.answer_of_present _ _ _ _ hr', Link.answer_of_present _ _ _ _ (by rw [hr.1, hr']), hr.1]
    exact hlink.proceed _ hr'

/-- Arguments agree if they do one by one. -/
theorem evalAll_agree {ps ps' : List Path}
    (h : List.Forall₂ (fun p p' => Run.Agree k k.SameAnswer (p.evalAt c bs d) (p'.evalAt c' bs' d'))
      ps ps') :
    Run.Agree k Eq (evalAll c bs d ps) (evalAll c' bs' d' ps') := by
  induction h with
  | nil => exact .pure rfl
  | cons hp _ ih =>
    refine hp.bind fun r r' hr => ih.bind fun vs vs' hvs => .pure ?_
    rw [hr.1, hvs]

end Path

end

end AccessPath
