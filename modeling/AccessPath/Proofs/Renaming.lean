import AccessPath.Proofs.Fallback
import AccessPath.Proofs.Locality
import AccessPath.Proofs.Sequences

/-!
# Renaming

An evaluation depends on which lambda a parameter refers to, and on no name. Two paths that differ in
names alone, such that every parameter refers to the lambda at the same position in both, or in both to
the root, evaluate alike (`Path.evaluate_sameBinding`).

One name is told: a lambda where none can be is quoted in the error. If such lambdas have the same names
in both paths, the whole outcomes are equal. Otherwise the errors may differ in that name. Where such a
lambda stands inside the body of another, its error is handed to an extension, and an extension that
reads names off errors can tell the paths apart by their values (`Path.stray_name_observed`); one that
does not (`Introspector.IgnoresQuotedNames`) cannot.
-/

namespace AccessPath

variable {σ : Type}

namespace Path

mutual

/-- The paths differ in the names of parameters and lambda parameters alone, and every parameter refers
to the same position in both. `scopes` has the names of the enclosing lambdas on either side, the
innermost first; `quoted` restricts the names of the lambdas that stand where none can, outside of all
other lambdas (`false`) and inside (`true`). -/
inductive SameBinding (quoted : Bool → String → String → Prop) :
    List (String × String) → Path → Path → Prop
  | constant {scopes v ty} : SameBinding quoted scopes (.constant v ty) (.constant v ty)
  | parameter {scopes x y ty}
      (position : (scopes.map Prod.fst).idxOf? x = (scopes.map Prod.snd).idxOf? y) :
      SameBinding quoted scopes (.parameter x ty) (.parameter y ty)
  | memberAccess {scopes p q m} (target : SameBinding quoted scopes p q) :
      SameBinding quoted scopes (.memberAccess p m) (.memberAccess q m)
  | methodCall {scopes p q m ps qs} (receiver : SameBinding quoted scopes p q)
      (args : SameBindingAll quoted scopes ps qs) :
      SameBinding quoted scopes (.methodCall p m ps) (.methodCall q m qs)
  | noReceiver {scopes m} : SameBinding quoted scopes (.extensionCall m []) (.extensionCall m [])
  | extensionCall {scopes p q m ps qs} (receiver : SameBinding quoted scopes p q)
      (rest : SameBindingAll quoted scopes ps qs) :
      SameBinding quoted scopes (.extensionCall m (p :: ps)) (.extensionCall m (q :: qs))
  | extensionWith {scopes p q m x y ty b c} (receiver : SameBinding quoted scopes p q)
      (body : SameBinding quoted ((x, y) :: scopes) b c) :
      SameBinding quoted scopes (.extensionCall m [p, .lambda x ty b])
        (.extensionCall m [q, .lambda y ty c])
  | lambda {scopes x y ty b c} (name : quoted (!scopes.isEmpty) x y)
      (body : SameBinding quoted ((x, y) :: scopes) b c) :
      SameBinding quoted scopes (.lambda x ty b) (.lambda y ty c)

/-- The paths do so one by one. -/
inductive SameBindingAll (quoted : Bool → String → String → Prop) :
    List (String × String) → List Path → List Path → Prop
  | nil {scopes} : SameBindingAll quoted scopes [] []
  | cons {scopes p q ps qs} (head : SameBinding quoted scopes p q)
      (tail : SameBindingAll quoted scopes ps qs) :
      SameBindingAll quoted scopes (p :: ps) (q :: qs)

end

variable {quoted : Bool → String → String → Prop} {scopes : List (String × String)}

theorem SameBinding.declaredType_eq {p q : Path} (h : p.SameBinding quoted scopes q) :
    p.declaredType = q.declaredType := by
  induction p using nodeInduction generalizing scopes q with
  | lambda x ty b ih =>
    cases h with
    | lambda name body => rw [declaredType, declaredType, ih body]
  | _ => cases h <;> rfl

theorem SameBindingAll.forall₂ {R : Path → Path → Prop} {ps qs : List Path}
    (h : SameBindingAll quoted scopes ps qs)
    (hR : ∀ p q, p ∈ ps → p.SameBinding quoted scopes q → R p q) : List.Forall₂ R ps qs := by
  induction ps generalizing qs with
  | nil => cases h; exact .nil
  | cons p ps ih =>
    cases h with
    | cons head tail =>
      exact .cons (hR _ _ (by simp) head) (ih tail fun p q hp hpq => hR p q (by simp [hp]) hpq)

end Path

/-- The errors are the same, but that a lambda where none can be may be quoted under another name. -/
inductive EvalError.SameButName : EvalError → EvalError → Prop
  | refl (e : EvalError) : SameButName e e
  | stray (x y : String) : SameButName (.strayLambda x) (.strayLambda y)

/-- Everything counts but the names that errors quote. -/
def Comparison.upToNames : Comparison σ where
  hosts _ := True
  counts _ := true
  sameError := EvalError.SameButName
  flags := True
  sameError_refl := .refl
  counts_failed _ := rfl

/-- The extensions go on alike from errors that differ in a quoted name alone. -/
def Introspector.IgnoresQuotedNames (i : Introspector σ) : Prop := i.ScriptsAgree .upToNames i

/-- The standard extensions do, and so does a registry all of whose extensions do. -/
theorem Registry.ignoresQuotedNames {r : Registry σ}
    (h : ∀ x ∈ r.extensions, x.2.PassesErrors .upToNames) : r.introspector.IgnoresQuotedNames :=
  fun m v _ => invokeExtensionWith_agree h m v

namespace Path

/-- Values in scope under names of their own on either side. -/
abbrev Scopes := List ((String × String) × Value)

def Scopes.left (env : Scopes) : Bindings := env.map fun b => (b.1.1, b.2)

def Scopes.right (env : Scopes) : Bindings := env.map fun b => (b.1.2, b.2)

/-- What is bound at the same position, or nowhere, has the same value. -/
theorem Scopes.parameter_eq (c : Scene σ) (env : Scopes) {x y : String}
    (h : ((env.map Prod.fst).map Prod.fst).idxOf? x = ((env.map Prod.fst).map Prod.snd).idxOf? y) :
    c.parameter env.left x = c.parameter env.right y := by
  have hleft : env.left.map Prod.fst = (env.map Prod.fst).map Prod.fst := by simp [left]
  have hright : env.right.map Prod.fst = (env.map Prod.fst).map Prod.snd := by simp [right]
  rw [← hleft, ← hright] at h
  cases hx : (env.left.map Prod.fst).idxOf? x with
  | none =>
    have hy := h.symm.trans hx
    rw [Scene.parameter_of_not_mem _ (List.idxOf?_eq_none_iff.mp hx),
      Scene.parameter_of_not_mem _ (List.idxOf?_eq_none_iff.mp hy)]
  | some k =>
    have hy := h.symm.trans hx
    have hk : k < env.length := by
      obtain ⟨hk, -⟩ := List.idxOf?_eq_some_iff.mp hx
      simpa [left] using hk
    have hboundLeft : env.left[k]? = some (env[k].1.1, env[k].2) := by simp [left, hk]
    have hboundRight : env.right[k]? = some (env[k].1.2, env[k].2) := by simp [right, hk]
    rw [c.parameter_of_idxOf? hx hboundLeft, c.parameter_of_idxOf? hy hboundRight]

theorem SameBindingAll.restAgree {k k' : Comparison σ} {c : Scene σ} {env : Scopes} {d : Nat}
    {m : MethodSig} {ps qs : List Path} (h : SameBindingAll quoted (env.map Prod.fst) ps qs)
    (hbody : ∀ x y ty b b', .lambda x ty b ∈ ps →
      b.SameBinding quoted ((x, y) :: env.map Prod.fst) b' →
      ∀ v, Run.Agree k k.SameAnswer (b.evalAt c ((x, v) :: env.left) (d + 2))
        (b'.evalAt c ((y, v) :: env.right) (d + 2))) :
    RestAgree k k' c c env.left env.right d d m ps qs := by
  cases h with
  | nil => exact .none
  | cons head tail =>
    cases tail with
    | nil =>
      cases head with
      | lambda name body => exact .lambda (hbody _ _ _ _ _ List.mem_cons_self body)
      | _ => exact .refused (by simp) (by simp) (k'.sameError_refl _)
    | cons next tail =>
      have hlength := (tail.forall₂ fun _ _ _ h => h).length_eq
      exact .many (by simp) (by simp only [List.length_cons, hlength])

/-- Paths of the same binding agree in `k`, if extensions are given nothing to tell them apart by: the
bodies of lambdas agree in the finer comparison `fine`, and so do the extensions. -/
theorem evalAt_sameBinding {fine : Comparison σ} {c : Scene σ}
    (hfine : c.introspector.Agree fine c.introspector)
    (hscripts : c.introspector.ScriptsAgree fine c.introspector)
    (hinside : ∀ x y, quoted true x y → fine.sameError (.strayLambda x) (.strayLambda y))
    {p q : Path} {k : Comparison σ} (hk : fine.Finer k)
    (hi : c.introspector.Agree k c.introspector) (env : Scopes)
    (hstray : ∀ x y, quoted (!(env.map Prod.fst).isEmpty) x y →
      k.sameError (.strayLambda x) (.strayLambda y))
    (h : p.SameBinding quoted (env.map Prod.fst) q) (d : Nat) :
    Run.Agree k k.SameAnswer (p.evalAt c env.left d) (q.evalAt c env.right d) := by
  induction p using nodeInduction generalizing k env q d with
  | constant v ty =>
    cases h
    rw [evalAt, evalAt]
    exact (Scene.visit_agree rfl rfl).bind fun _ _ _ => .pure (k.sameAnswer_refl _)
  | parameter x ty =>
    cases h with
    | parameter position =>
      rw [evalAt, evalAt, env.parameter_eq c position]
      exact (Scene.visit_agree rfl rfl).bind fun _ _ _ => .pure (k.sameAnswer_refl _)
  | memberAccess t m iht =>
    cases h with
    | memberAccess target =>
      have htarget := iht hk hi env hstray target (d + 1)
      exact onto_agree (.member m) (.member m) hi (Scene.visit_agree rfl rfl) htarget
        (Link.agree_member hi m)
  | methodCall r m args ihr ihargs =>
    cases h with
    | methodCall receiver hargs =>
      have hreceiver := ihr hk hi env hstray receiver (d + 1)
      have heach := hargs.forall₂ fun a q ha h => ihargs a ha hk hi env hstray h (d + 1)
      exact onto_agree (.call m args) (.call m _) hi (Scene.visit_agree rfl rfl) hreceiver
        (Link.agree_call hi m (evalAll_agree heach))
  | noReceiver m =>
    cases h
    rw [evalAt]
    exact (Scene.visit_agree rfl rfl).bind fun _ _ _ => .fail (k.sameError_refl _)
  | extensionCall m r rest ihr ihrest ihbody =>
    -- in a body, whatever stands outside, it is the finer comparison that counts
    have hbody : ∀ x y ty b b', .lambda x ty b ∈ rest →
        b.SameBinding quoted ((x, y) :: env.map Prod.fst) b' →
        ∀ v, Run.Agree fine fine.SameAnswer (b.evalAt c ((x, v) :: env.left) (d + 2))
          (b'.evalAt c ((y, v) :: env.right) (d + 2)) :=
      fun x y ty b b' hb body v =>
        ihbody x ty b hb (.refl fine) hfine (((x, y), v) :: env) hinside body (d + 2)
    cases h with
    | extensionCall receiver hrest =>
      have hreceiver := ihr hk hi env hstray receiver (d + 1)
      exact onto_agree (.extension m rest) (.extension m _) hi (Scene.visit_agree rfl rfl) hreceiver
        (Link.agree_extension hk hi hscripts (hrest.restAgree hbody))
    | @extensionWith _ _ _ _ x y ty b b' receiver body =>
      have hreceiver := ihr hk hi env hstray receiver (d + 1)
      have hrest := hbody x y ty b b' List.mem_cons_self body
      exact onto_agree (.extension m [.lambda x ty b]) (.extension m [.lambda y ty b']) hi
        (Scene.visit_agree rfl rfl) hreceiver (Link.agree_extension hk hi hscripts (.lambda hrest))
  | lambda x ty b ih =>
    cases h with
    | lambda name body =>
      rw [evalAt, evalAt]
      exact (Scene.visit_agree rfl rfl).bind fun _ _ _ => .fail (hstray _ _ name)

theorem evaluate_agree_of_sameBinding {k fine : Comparison σ} (hk : fine.Finer k)
    (hhosts : ∀ s, k.hosts s) (hflags : k.flags) {i : Introspector σ}
    (hscripts : i.ScriptsAgree fine i)
    (hinside : ∀ x y, quoted true x y → fine.sameError (.strayLambda x) (.strayLambda y))
    (hstray : ∀ x y, quoted false x y → k.sameError (.strayLambda x) (.strayLambda y))
    {p q : Path} (h : p.SameBinding quoted [] q) (settings : Settings) (root : Value) :
    Run.Agree k Eq (p.evaluate i settings root) (q.evaluate i settings root) := by
  have hself := i.agree_self hhosts
  have hfine := i.agree_self fun s => (hk.hosts s).mpr (hhosts s)
  have heval := evalAt_sameBinding (c := ⟨i, settings, root⟩) hfine hscripts hinside hk hself []
    hstray h 0
  refine heval.bind fun r r' hr => .pure ?_
  rw [hr.1, hr.2 hflags, h.declaredType_eq]

/-- Names do not matter. Of two paths of the same binding the evaluations are equal, if the lambdas that
stand where none can have the same names in both. If only those inside of other lambdas do, or if no
extension looks at the names that errors quote, they end with the same value, type and flag, or with
errors that differ in a quoted name alone, on the same host, and after the same events up to such
names. What a parameter refers to is all that counts: the value that was given to the lambda at its
position, absent or not, and the root only where no lambda binds the name. -/
theorem evaluate_sameBinding {p q : Path} (h : p.SameBinding quoted [] q) (i : Introspector σ)
    (settings : Settings) (root : Value) (s : σ) :
    let o := p.evaluate i settings root s
    let o' := q.evaluate i settings root s
    ((∀ inside x y, quoted inside x y → x = y) → o = o') ∧
    ((∀ x y, quoted true x y → x = y) ∨ i.IgnoresQuotedNames →
      (∀ e, o.result = .ok e ↔ o'.result = .ok e) ∧
      (∀ err, o.result = .error err → ∃ err', o'.result = .error err' ∧ err.SameButName err') ∧
      o.host = o'.host ∧
      (Comparison.upToNames : Comparison σ).SameTrace o.trace o'.trace) ∧
    ∀ (bindings : Bindings) (x : String) (ty : Ty) (depth : Nat) (t : σ), depth ≤ settings.maxDepth →
      let found := (parameter x ty).evalAt ⟨i, settings, root⟩ bindings depth t
      (∀ k b, (bindings.map Prod.fst).idxOf? x = some k → bindings[k]? = some b →
        found.result = .ok (.read b.2)) ∧
      ((bindings.map Prod.fst).idxOf? x = none → found.result = .ok (.read root)) := by
  intro o o'
  have hexact : i.ScriptsAgree .exact i := i.scriptsAgree_self (fun _ => trivial) fun _ _ he => he
  have hstray : ∀ x y, quoted false x y → EvalError.SameButName (.strayLambda x) (.strayLambda y) :=
    fun x y _ => .stray x y
  refine ⟨fun hquoted => ?_, fun hnames => ?_, fun bindings x ty depth t hdepth => ?_⟩
  · have hagree := evaluate_agree_of_sameBinding (.refl .exact) (fun _ => trivial) trivial hexact
      (fun x y hxy => congrArg _ (hquoted _ x y hxy)) (fun x y hxy => congrArg _ (hquoted _ x y hxy))
      h settings root s trivial
    exact hagree.eq
  · have hagree : Outcome.Agree .upToNames Eq o o' := by
      rcases hnames with hinside | hignores
      · have hfiner : Comparison.exact.Finer (Comparison.upToNames : Comparison σ) :=
          ⟨fun _ => .rfl, rfl, fun _ _ he => he ▸ .refl _, id⟩
        exact evaluate_agree_of_sameBinding hfiner (fun _ => trivial) trivial hexact
          (fun x y hxy => congrArg _ (hinside x y hxy)) hstray h settings root s trivial
      · exact evaluate_agree_of_sameBinding (.refl _) (fun _ => trivial) trivial hignores
          (fun x y _ => .stray x y) hstray h settings root s trivial
    exact ⟨hagree.result.ok_iff, fun _ herr => hagree.result.exists_error herr, hagree.host,
      hagree.trace⟩
  · have hread : ((parameter x ty).evalAt ⟨i, settings, root⟩ bindings depth t).result =
        .ok (.read (Scene.parameter ⟨i, settings, root⟩ bindings x)) := by
      rw [evalAt, visit_of_le hdepth]
      rfl
    refine ⟨fun k b hk hb => ?_, fun hnone => ?_⟩
    · rw [hread, Scene.parameter_of_idxOf? _ hk hb]
    · rw [hread, Scene.parameter_of_not_mem _ (List.idxOf?_eq_none_iff.mp hnone)]

/-- Lambdas in lambdas under other names, one of them hiding the other on one side, and lambdas as
arguments of a method, outside and inside of a lambda, which are errors. Items that are absent stay so
in the bodies of the lambdas. -/
theorem evaluate_renamed_lambdas :
    let i : Introspector Unit := Registry.withSequences.introspector
    let select (p : Path) (x : String) (body : Path) : Path :=
      p.extensionWith "select" ⟨x, .any, body⟩ (.list .any)
    let nested (o x y : String) : Path :=
      select (parameter o .any) x (select (parameter x .any) y (parameter y .any))
    let stray (o x : String) : Path :=
      (parameter o .any).call "equals" [.lambda x .any (parameter x .any)] .bool
    let strayInside (o x : String) : Path := select (parameter o .any) "z" (stray "z" x)
    let root : Value := .list [.list [.int 1, .absent], .absent]
    i.IgnoresQuotedNames ∧
      (nested "o" "x" "x").evaluate i {} root () = (nested "root" "a" "b").evaluate i {} root () ∧
      ((nested "o" "x" "x").evaluate i {} root ()).result = .ok ⟨root, .list .any, false⟩ ∧
      (∃ err, ((stray "root" "y").evaluate i {} root ()).result = .error err ∧
        (EvalError.strayLambda "x").SameButName err) ∧
      (∃ err, ((strayInside "root" "y").evaluate i {} root ()).result = .error err ∧
        (EvalError.strayLambda "x").SameButName err) ∧
      ((parameter "x" .any).evalAt ⟨i, {}, root⟩ [("y", .int 1), ("x", .absent)] 4 ()).result =
        .ok (.read .absent) := by
  intro i select nested stray strayInside root
  have hi : i.IgnoresQuotedNames := Registry.ignoresQuotedNames Sequence.extensions_passErrors
  have hnested : (nested "o" "x" "x").SameBinding (fun _ => Eq) [] (nested "root" "a" "b") :=
    .extensionWith (.parameter rfl) (.extensionWith (.parameter rfl) (.parameter rfl))
  have hstray : (stray "o" "x").SameBinding (fun inside x y => inside = true → x = y) []
      (stray "root" "y") :=
    .methodCall (.parameter rfl) (.cons (.lambda (fun h => by cases h) (.parameter rfl)) .nil)
  have hinside : (strayInside "o" "x").SameBinding (fun _ _ _ => True) [] (strayInside "root" "y") :=
    .extensionWith (.parameter rfl)
      (.methodCall (.parameter rfl) (.cons (.lambda trivial (.parameter rfl)) .nil))
  obtain ⟨hequal, -, hparameter⟩ := evaluate_sameBinding hnested i {} root ()
  obtain ⟨-, herror⟩ := ((evaluate_sameBinding hstray i {} root ()).2.1 (.inl fun _ _ h => h rfl))
  obtain ⟨-, herrorInside⟩ := (evaluate_sameBinding hinside i {} root ()).2.1 (.inr hi)
  have hbound := (hparameter [("y", .int 1), ("x", .absent)] "x" .any 4 () (by decide)).1 1 _ rfl rfl
  exact ⟨hi, hequal fun _ _ _ h => h, rfl, herror.1 _ rfl, herrorInside.1 _ rfl, hbound⟩

/-- Two paths of the same binding with different values: the lambda that stands in the body of another
is named `x` in one and `y` in the other, and the extension answers with the text of the error. -/
theorem stray_name_observed :
    let r : Registry Unit := Registry.withSequences.register (.extension "attempt" .attempt)
    let named (x : String) : Path := (parameter "o" .any).extensionWith "attempt"
      ⟨"z", .any, .lambda x .any (parameter x .any)⟩ .any
    (named "x").SameBinding (fun _ _ _ => True) [] (named "y") ∧
      ((named "x").evaluate r.introspector {} (.int 1) ()).result = .ok ⟨.string
        "unsupported node: lambda `x => ...` can only appear as the second argument of an extension call",
        .any, false⟩ ∧
      ((named "y").evaluate r.introspector {} (.int 1) ()).result = .ok ⟨.string
        "unsupported node: lambda `y => ...` can only appear as the second argument of an extension call",
        .any, false⟩ :=
  ⟨.extensionWith (.parameter rfl) (.lambda trivial (.parameter rfl)), rfl, rfl⟩

end Path

end AccessPath
