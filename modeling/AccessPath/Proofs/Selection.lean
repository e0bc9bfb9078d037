import AccessPath.Proofs.Fallback
import AccessPath.Proofs.Locality
import AccessPath.Host.Rules

/-!
# Selecting

The body of a lambda means what the same path means on its own: `select` answers for each item what the body,
fetched with that item for its root, answers (`Path.evalAt_select`). The items are taken in order, each on the
host that the one before it has left, up to the first that fails. The body is evaluated deeper than a path on
its own, among the lambdas around it and against another root; it does not notice, as long as it refers to
nothing but its own parameter and there is room for it within the limit.
-/

namespace AccessPath

variable {σ : Type}

/-- The introspector is asked. -/
def Event.isQuestion : Event → Bool
  | .asked _ => true
  | _ => false

/-- It counts how a run ends, on which host, and what the introspector is asked on the way. -/
def Comparison.questions : Comparison σ where
  hosts _ := True
  counts := Event.isQuestion
  sameError := Eq
  flags := True
  sameError_refl _ := rfl
  counts_failed _ := rfl

namespace Sequence

variable {f g : Value → Run σ Value}

/-- A script that calls the lambda ends as the call does: an error that it hands on is no question. -/
theorem ask_agree (hfg : ∀ v, Run.Agree .questions Eq (f v) (g v)) (item : Value) :
    Run.Agree .questions Eq ((Script.ask item).run f) (g item) := by
  have hpassed : ∀ (r : Except EvalError Value) (s : σ), (Run.ofExcept r s).result = r ∧
      (Run.ofExcept r s).host = s ∧ (Run.ofExcept r s).trace.filter Event.isQuestion = [] := by
    intro r s
    cases r <;> exact ⟨rfl, rfl, rfl⟩
  intro s hs
  obtain ⟨hresult, hhost, hadmitted, htrace⟩ := hfg item s hs
  obtain ⟨hresult', hhost', htrace'⟩ := hpassed (f item s).result (f item s).host
  simp only [Script.ask, Script.run, hresult', hhost']
  refine ⟨hresult, hhost, hadmitted, ?_⟩
  unfold Comparison.SameTrace at *
  simpa [Comparison.questions, htrace'] using htrace

theorem lookup_select : (extensions : List (String × Extension σ)).lookup "select" =
    some (ofLambda fun items => do return .list (← answers items)) := rfl

/-- Asking the lambda about each item in turn is running through the items. -/
theorem answers_agree (hfg : ∀ v, Run.Agree .questions Eq (f v) (g v)) (items : List Value) :
    Run.Agree .questions Eq ((answers items).run f) (items.mapM g) := by
  induction items with
  | nil => exact .pure rfl
  | cons item rest ih =>
    rw [answers, Script.run_bind, List.mapM_cons]
    refine (ask_agree hfg item).bind fun v v' hv => ?_
    rw [Script.run_bind]
    refine ih.bind fun vs vs' hvs => .pure ?_
    rw [hv, hvs]

end Sequence

namespace Path

variable {settings : Settings} {d : Nat} {x : String} {body : Path}

/-- A path that refers to nothing but a lambda's parameter is evaluated as that lambda's body as it is
fetched from the parameter's value. -/
theorem body_agree (i : Introspector σ) (root : Value) (bs : Bindings)
    (hnames : ∀ y ∈ body.freeNames, y = x) (hdepth : d + 2 + body.height ≤ settings.maxDepth) (item : Value) :
    Run.Agree .questions Eq
      (do return (← body.evalAt ⟨i, settings, root⟩ ((x, item) :: bs) (d + 2)).value)
      (body.fetch i settings item) := by
  have hi : i.Agree .questions i := i.agree_self fun _ => trivial
  have hscripts : i.ScriptsAgree .questions i :=
    i.scriptsAgree_self (fun _ => trivial) fun _ _ he => he
  have hvalues : ∀ y ∈ body.freeNames,
      Scene.parameter ⟨i, settings, root⟩ ((x, item) :: bs) y =
        Scene.parameter ⟨i, settings, item⟩ [] y := by
    intro y hy
    rw [Scene.parameter_cons, if_pos (hnames y hy), Scene.parameter_of_not_mem _ List.not_mem_nil]
  have hroot : 0 + body.height ≤ settings.maxDepth := by omega
  have heval := evalAt_local (fun _ _ => rfl) hi hscripts hvalues hdepth hroot
  simp only [fetch, evaluate, bind_assoc, pure_bind]
  exact heval.bind fun r r' hr => .pure hr.1

/-- What `select` does with the items of its receiver. -/
theorem select_agree {r : Registry σ}
    (hselect : r.extensions.lookup "select" = Sequence.extensions.lookup "select") {m : MethodSig}
    (hm : m.name = "select") (ty : Ty) {v : Value} {items : List Value}
    (hitems : Sequence.items m v = .ok items) (root : Value) (bs : Bindings)
    (hnames : ∀ y ∈ body.freeNames, y = x) (hdepth : d + 2 + body.height ≤ settings.maxDepth) :
    Run.Agree .questions Eq
      ((Link.extension m [.lambda x ty body]).proceed ⟨r.introspector, settings, root⟩ bs d v)
      (do
        Run.emit (.asked (.invokeExtension m v))
        return .read (.list (← items.mapM fun item => body.fetch r.introspector settings item))) := by
  have hscript : r.introspector.invokeExtensionWith m v =
      (do return .list (← Sequence.answers items)) := by
    simp only [Registry.introspector, hm, hselect, Sequence.lookup_select, Sequence.ofLambda, hitems]
    rfl
  have hanswers := Sequence.answers_agree
    (fun item => body_agree r.introspector root bs hnames hdepth item) items
  simp only [Link.proceed, Scene.invokeExtensionWith, hscript, Script.run_bind, bind_assoc]
  refine (Run.Agree.emit _).bind fun _ _ _ => ?_
  refine hanswers.bind fun vs vs' hvs => ?_
  rw [Script.run_pure, pure_bind, hvs]
  exact .pure rfl

/-- `select` on a list or a set answers what its lambda's body, as a path on its own, is fetched as from
each item: the list of these values, or the first error, with the host handed on from one item to the next.
This is so at any depth, within any other lambdas and against any root; all that the receiver leaves is the
host that the first item is met with. -/
theorem evalAt_select {r : Registry σ} {root : Value} {bs : Bindings}
    (hselect : r.extensions.lookup "select" = Sequence.extensions.lookup "select") {m : MethodSig}
    (hm : m.name = "select") {receiver : Path} (ty : Ty) {s : σ} {parent : Resolved}
    {items : List Value} (hnames : ∀ y ∈ body.freeNames, y = x)
    (hdepth : d + 2 + body.height ≤ settings.maxDepth)
    (hreceiver :
      (receiver.evalAt ⟨r.introspector, settings, root⟩ bs (d + 1) s).result = .ok parent)
    (hitems : parent.value = .list items ∨ ∃ element, parent.value = .set element items) :
    let before := receiver.evalAt ⟨r.introspector, settings, root⟩ bs (d + 1) s
    let each := items.mapM (fun item => body.fetch r.introspector settings item) before.host
    let o := (extensionCall m [receiver, .lambda x ty body]).evalAt
      ⟨r.introspector, settings, root⟩ bs d s
    o.result = each.result.map (fun vs => .read (.list vs)) ∧
      o.host = each.host ∧
      o.trace.filter Event.isQuestion = before.trace.filter Event.isQuestion ++
        .asked (.invokeExtension m parent.value) :: each.trace.filter Event.isQuestion := by
  intro before each o
  let l : Link := .extension m [.lambda x ty body]
  have hpresent : parent.value.isAbsent = false := by
    obtain h | ⟨element, h⟩ := hitems <;> rw [h] <;> rfl
  have hmembers : Sequence.items m parent.value = .ok items := by
    obtain h | ⟨element, h⟩ := hitems <;> rw [h] <;> rfl
  obtain ⟨hresult, hhost, -, htrace⟩ :=
    select_agree hselect hm ty hmembers root bs hnames hdepth before.host trivial
  -- the call is its receiver's evaluation, and then what `select` does with the items
  have hcall : o =
      let up := l.proceed ⟨r.introspector, settings, root⟩ bs d parent.value before.host
      ⟨up.result, up.host, .visited l.kindName d :: (before.trace ++ up.trace)⟩ := by
    have hvisit : d ≤ (⟨r.introspector, settings, root⟩ : Scene σ).settings.maxDepth := by
      show d ≤ settings.maxDepth
      omega
    have honto := evalAt_onto_of_le hvisit bs l receiver s
    rwa [Run.bind_of_ok hreceiver, Link.answer_of_present _ _ _ _ hpresent] at honto
  rw [Run.emit_bind_apply, Run.bind_pure_apply] at hresult hhost htrace
  rw [hcall]
  refine ⟨hresult.eq fun _ _ he => he, hhost, ?_⟩
  have hquestions := htrace.eq fun _ _ he => he
  simp only [Comparison.questions] at hquestions
  rw [List.filter_cons_of_neg (by simp [Event.isQuestion]), List.filter_append, hquestions,
    List.filter_cons_of_pos rfl]

/-- A counter that is counted up twice, with a gap between, in the middle of another lambda's body: the other
parameters in scope, one of them of the same name, and the root are passed over. -/
theorem evalAt_select_counters :
    let counter : HostType := ⟨0, "Counter"⟩
    let r : Registry Host.Store :=
      Registry.withSequences.register (Host.classRegistration counter "Counter" [] [("tick", 0, .tick)])
    let ref : Value := .object ⟨0, counter⟩
    let store (n : Int64) : Host.Store := ⟨[⟨[], n⟩], [], []⟩
    let body : Path := (parameter "x" .any).call "tick" [] .any
    let m : MethodSig := ⟨"select", [], .list .any⟩
    let receiver : Path := parameter "group" (.list .any)
    let scene : Scene Host.Store := ⟨r.introspector, ⟨5⟩, .string "root"⟩
    let bs : Bindings := [("x", .int 7), ("group", .list [ref, .absent, ref])]
    let o := (extensionCall m [receiver, .lambda "x" .any body]).evalAt scene bs 2 (store 0)
    (∀ y ∈ body.freeNames, y = "x") ∧ 2 + 2 + body.height = 5 ∧
      o.result = .ok (.read (.list [.long 1, .absent, .long 2])) ∧ o.host = store 2 := by
  intro counter r ref store body m receiver scene bs o
  have hnames : ∀ y ∈ body.freeNames, y = "x" := by decide
  have hheight : 2 + 2 + body.height = 5 := rfl
  have hdepth : 2 + 2 + body.height ≤ (⟨5⟩ : Settings).maxDepth := Nat.le_of_eq hheight
  have hselect : r.extensions.lookup "select" = Sequence.extensions.lookup "select" := rfl
  have hm : m.name = "select" := rfl
  have hreceiver : (receiver.evalAt ⟨r.introspector, ⟨5⟩, .string "root"⟩ bs (2 + 1) (store 0)).result =
      .ok (.read (.list [ref, .absent, ref])) := rfl
  obtain ⟨hresult, hhost, -⟩ := evalAt_select hselect hm .any hnames hdepth hreceiver (.inl rfl)
  exact ⟨hnames, hheight, hresult.trans rfl, hhost.trans rfl⟩

end Path

end AccessPath
