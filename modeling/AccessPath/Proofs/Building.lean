import AccessPath.Proofs.Failures

/-!
# Paths that are built up

A path that is built by the functions for it alone (`Path.Built`) declares the parameter types of each call
as those of its arguments, and has lambdas only where an extension call takes one. No evaluation can then
blame its shape, unless the introspector does on its own (`Path.Built.wellFormed`).
-/

namespace AccessPath

variable {σ : Type}

namespace Path

/-- The path is built up from parameters and constants, with lambdas whose bodies are built up so. -/
inductive Built : Path → Prop
  | parameter (x : String) (ty : Ty) : Built (.parameter x ty)
  | ofLiteral (v : Literal) : Built (ofLiteral v)
  | constant (v : Literal) (ty : Ty) : Built (.constant v ty)
  | member {p : Path} (name : String) (ty : Ty) (target : Built p) : Built (p.member name ty)
  | call {p : Path} {args : List Path} (name : String) (result : Ty) (receiver : Built p)
      (all : ∀ a ∈ args, Built a) : Built (p.call name args result)
  | extension {p : Path} (name : String) (result : Ty) (receiver : Built p) :
      Built (p.extension name result)
  | extensionWith {p : Path} {f : Lambda} (name : String) (result : Ty) (receiver : Built p)
      (body : Built f.body) : Built (p.extensionWith name f result)

/-- The nodes right below the outermost one, in order. -/
def children : Path → List Path
  | .constant .. | .parameter .. => []
  | .memberAccess target _ => [target]
  | .methodCall receiver _ args => receiver :: args
  | .extensionCall _ args => args
  | .lambda _ _ body => [body]

/-- A node of a path, the outermost one included. -/
inductive Occurs : Path → Path → Prop
  | here {p : Path} : Occurs p p
  | inside {n q p : Path} (child : q ∈ p.children) (occurs : Occurs n q) : Occurs n p

/-- What holds of a path and of the nodes of its children holds of all its nodes. -/
theorem Occurs.of_children {P : Path → Prop} {n p : Path} (h : n.Occurs p) (hp : P p)
    (hchildren : ∀ q ∈ p.children, ∀ n : Path, n.Occurs q → P n) : P n := by
  cases h with
  | here => exact hp
  | inside child occurs => exact hchildren _ child _ occurs

/-- The nodes of a lambda's body are nodes of the call that the lambda is passed to. -/
theorem Occurs.of_body {n : Path} {f : Lambda} (h : n.Occurs f.body) (name : String) (p : Path)
    (result : Ty) : n.Occurs (p.extensionWith name f result) := by
  have hlambda : n.Occurs f.toPath := .inside (by simp [Lambda.toPath, children]) h
  exact .inside (by simp [extensionWith, children]) hlambda

/-- The types declared for the parameters of a call are those of its arguments. -/
def DeclaresArguments : Path → Prop
  | .methodCall _ m args | .extensionCall m args => m.params = args.map declaredType
  | _ => True

/-- A lambda right below the node is the second argument of two that an extension call has. -/
def PlacesLambdas (n : Path) : Prop :=
  ∀ i x ty b, n.children[i]? = some (.lambda x ty b) →
    i = 1 ∧ ∃ m receiver, n = .extensionCall m [receiver, .lambda x ty b]

/-- The node declares its arguments as they are, and has lambdas in their place. -/
structure WellFormedNode (n : Path) : Prop where
  params : n.DeclaresArguments
  lambdas : n.PlacesLambdas

/-- The path is no lambda, and its nodes are well formed. -/
structure Standalone (p : Path) : Prop where
  notLambda : ∀ x ty b, p ≠ .lambda x ty b
  nodes : ∀ n : Path, n.Occurs p → n.WellFormedNode

/-- Without lambdas right below it, a node only has to declare its arguments as they are. -/
theorem nodes_of_children {p : Path} (hparams : p.DeclaresArguments)
    (hchildren : ∀ q ∈ p.children, q.Standalone) (n : Path) (hn : n.Occurs p) : n.WellFormedNode := by
  have hlambdas : p.PlacesLambdas :=
    fun _ x ty b hi => absurd rfl ((hchildren _ (List.mem_of_getElem? hi)).notLambda x ty b)
  exact hn.of_children (P := WellFormedNode) ⟨hparams, hlambdas⟩ fun q hq => (hchildren q hq).nodes

theorem placesLambdas_extensionWith {p : Path} (hp : p.Standalone) (name : String) (f : Lambda)
    (result : Ty) : (p.extensionWith name f result).PlacesLambdas := by
  intro i x ty b hi
  match i with
  | 0 => exact absurd (Option.some.inj hi) (hp.notLambda x ty b)
  | 1 => exact ⟨rfl, _, p, by rw [← Option.some.inj hi]; rfl⟩
  | i + 2 => cases hi

theorem Built.standalone {p : Path} (h : p.Built) : p.Standalone := by
  induction h with
  | parameter | ofLiteral | constant => exact ⟨nofun, nodes_of_children trivial nofun⟩
  | member name ty target ih =>
    exact ⟨nofun, nodes_of_children trivial (List.forall_mem_singleton.mpr ih)⟩
  | call name result receiver all ih ihall =>
    exact ⟨nofun, nodes_of_children rfl (List.forall_mem_cons.mpr ⟨ih, ihall⟩)⟩
  | extension name result receiver ih =>
    exact ⟨nofun, nodes_of_children rfl (List.forall_mem_singleton.mpr ih)⟩
  | @extensionWith p f name result receiver body ih ihbody =>
    have hlambda := nodes_of_children (p := f.toPath) trivial (List.forall_mem_singleton.mpr ihbody)
    have hplaces := placesLambdas_extensionWith ih name f result
    have hchildren : ∀ q ∈ [p, f.toPath], ∀ n : Path, n.Occurs q → n.WellFormedNode := by
      simpa using ⟨ih.nodes, hlambda⟩
    exact ⟨nofun, fun n hn => hn.of_children (P := WellFormedNode) ⟨rfl, hplaces⟩ hchildren⟩

/-- No node of a path that is built up stands where it cannot be evaluated. -/
theorem Built.shapeErrors_eq_nil {p : Path} (h : p.Built) : p.shapeErrors = [] := by
  induction h with
  | parameter | ofLiteral | constant => rfl
  | member name ty target ih => exact ih
  | call name result receiver all ih ihall =>
    simpa [Path.call, shapeErrors, shapeErrorsAll_eq_flatMap, ih] using ihall
  | extension name result receiver ih => simpa [Path.extension, shapeErrors] using ih
  | extensionWith name result receiver body ih ihbody =>
    simp [Path.extensionWith, Lambda.toPath, shapeErrors, ih, ihbody]

/-- A path that is built up is well formed: the parameter types that its calls declare are those of their
arguments, a lambda is only found as the second of two arguments of an extension call, and no evaluation of
it fails for a node that is unsupported or makes an extension call malformed, if no procedure of the
introspector does on its own. -/
theorem Built.wellFormed {p : Path} (h : p.Built) :
    (∀ n : Path, n.Occurs p → n.WellFormedNode) ∧
    (∀ x ty b, p ≠ .lambda x ty b) ∧
    ∀ (i : Introspector σ), i.FailsOnly (·.isShapeError = false) → ∀ settings root s e,
      (p.evaluate i settings root s).result = .error e → e.isShapeError = false := by
  refine ⟨h.standalone.nodes, h.standalone.notLambda, ?_⟩
  intro i hi settings root s e he
  have hshape : ∀ e ∈ p.shapeErrors, e.isShapeError = false := by simp [h.shapeErrors_eq_nil]
  exact evaluate_failsOnly hi (.inl rfl) hshape root s e he

/-- The groups in which a number is one. Asked about a group that is none, the path fails for the value that
it meets there, which is no fault of its shape. -/
theorem built_groups_with_one :
    let i : Introspector Unit := Registry.withSequences.introspector
    let one : Path := (parameter "x" .int).call "equals" [.ofLiteral (.int 1)] .bool
    let some : Path := (parameter "xs" (.list .int)).extensionWith "any" ⟨"x", .int, one⟩ .bool
    let p : Path := (parameter "groups" (.list (.list .int))).extensionWith "where"
      ⟨"xs", .list .int, some⟩ (.list (.list .int))
    let groups : Value := .list [.list [.int 1], .int 2]
    let e := EvalError.notASequence "any" "int"
    p.Built ∧ i.FailsOnly (·.isShapeError = false) ∧ one.Occurs p ∧ one.DeclaresArguments ∧
      (p.evaluate i {} groups ()).result = .error e ∧ e.isShapeError = false := by
  intro i one some p groups e
  have hone : one.Built := .call "equals" .bool (.parameter "x" .int) (by simpa using .ofLiteral _)
  have hsome : some.Built := .extensionWith "any" .bool (.parameter "xs" (.list .int)) hone
  have hp : p.Built := .extensionWith "where" (.list (.list .int)) (.parameter "groups" _) hsome
  have hi : i.FailsOnly (·.isShapeError = false) :=
    have hP : ∀ e : EvalError, e.isUsageError = false → e.isShapeError = false :=
      fun _ => EvalError.isShapeError_of_not_usageError
    (Registry.withSequences_failsOnly hP).introspector hP
  have hsomeOccurs : one.Occurs some :=
    Occurs.of_body (f := ⟨"x", .int, one⟩) .here "any" (parameter "xs" (.list .int)) .bool
  have hoccurs : one.Occurs p :=
    Occurs.of_body (f := ⟨"xs", .list .int, some⟩) hsomeOccurs "where" _ (.list (.list .int))
  obtain ⟨hnodes, -, hfails⟩ := hp.wellFormed (σ := Unit)
  have hresult : (p.evaluate i {} groups ()).result = .error e := rfl
  exact ⟨hp, hi, hoccurs, (hnodes one hoccurs).params, hresult, hfails i hi {} groups () e hresult⟩

end Path

end AccessPath
