import Mathlib.Tactic.ByContra
import AccessPath.Path.Evaluate
import AccessPath.Proofs.Runs

/-!
# Chains

A node that reads a member or makes a call has a parent, and is one `Link` onto it. Evaluating such a
node evaluates the parent one deeper and then lets the link answer (`Path.evalAt_onto`): by a default
where the parent is absent, else by what the link does to the parent's value.

A chain is a path with any number of links onto it. Its evaluation first descends through the links
from the outermost one inward, then evaluates the innermost parent, then ascends: every link answers
to what the one before it answered (`Path.evalAt_chain`).
-/

namespace AccessPath

variable {σ : Type}

theorem Value.isAbsent_iff {v : Value} : v.isAbsent = true ↔ v = .absent := by
  cases v <;> simp [Value.isAbsent]

theorem Value.isAbsent_eq_false_iff {v : Value} : v.isAbsent = false ↔ v ≠ .absent := by
  rw [← Bool.not_eq_true, isAbsent_iff]

/-- One step of a chain. -/
inductive Link where
  | member (member : MemberSig)
  | call (method : MethodSig) (args : List Path)
  /-- An extension call on the parent, with the arguments behind it. -/
  | extension (method : MethodSig) (rest : List Path)
  deriving Repr

namespace Link

/-- The node that takes this step from a parent. -/
def onto (parent : Path) : Link → Path
  | .member m => .memberAccess parent m
  | .call m args => .methodCall parent m args
  | .extension m rest => .extensionCall m (parent :: rest)

/-- The kind of the node. -/
def kindName : Link → String
  | .member _ => "member access"
  | .call _ _ => "method call"
  | .extension _ _ => "extension call"

/-- The name that is read or called. -/
def site : Link → String
  | .member m => m.name
  | .call m _ => m.name
  | .extension m _ => m.name

/-- The type declared for the answer. -/
def ty : Link → Ty
  | .member m => m.ty
  | .call m _ => m.result
  | .extension m _ => m.result

/-- What the step does to a present parent. -/
def proceed (c : Scene σ) (bindings : Bindings) (depth : Nat) : Link → Value → Run σ Resolved
  | .member m, v => c.readMember v m
  | .call m args, v => do c.invoke v m (← Path.evalAll c bindings (depth + 1) args)
  | .extension m rest, v =>
    match rest with
    | [] => c.invokeExtension m v
    | [.lambda param _ body] =>
      c.invokeExtensionWith m v fun item => do
        return (← Path.evalAt c ((param, item) :: bindings) (depth + 2) body).value
    | [other] => Run.fail (.notALambda m.name other.kindName)
    | rest => Run.fail (.tooManyArguments m.name (rest.length + 1))

/-- The answer to a parent, absent or present. -/
def answer (c : Scene σ) (bindings : Bindings) (depth : Nat) (l : Link) (parent : Resolved) :
    Run σ Resolved :=
  c.fromParent parent l.site l.ty (l.proceed c bindings depth)

theorem kindName_onto (l : Link) (p : Path) : (l.onto p).kindName = l.kindName := by
  cases l <;> rfl

theorem declaredType_onto (l : Link) (p : Path) : (l.onto p).declaredType = l.ty := by
  cases l <;> rfl

/-- An absent parent is answered by the default for the declared type. -/
theorem answer_of_absent (c : Scene σ) (bindings : Bindings) (depth : Nat) (l : Link)
    {parent : Resolved} (h : parent.value = .absent) :
    l.answer c bindings depth parent = c.substitute l.site l.ty := by
  simp [answer, Scene.fromParent, h, Value.isAbsent]

/-- What a link answers to a present parent does not depend on where that one's value is from. -/
theorem answer_of_present (c : Scene σ) (bindings : Bindings) (depth : Nat) (l : Link)
    {parent : Resolved} (h : parent.value.isAbsent = false) :
    l.answer c bindings depth parent = l.proceed c bindings depth parent.value := by
  simp [answer, Scene.fromParent, h]

end Link

namespace Path

/-- A node evaluates its parent one deeper, and its link answers. -/
theorem evalAt_onto (c : Scene σ) (bindings : Bindings) (depth : Nat) (l : Link) (p : Path) :
    (l.onto p).evalAt c bindings depth = (do
      c.visit (l.onto p) depth
      l.answer c bindings depth (← p.evalAt c bindings (depth + 1))) := by
  cases l <;> rw [Link.onto, evalAt] <;> rfl

/-- What a node's member is read off, or its call made on. -/
def parent? : Path → Option Path
  | .memberAccess target _ => some target
  | .methodCall receiver _ _ => some receiver
  | .extensionCall _ (receiver :: _) => some receiver
  | _ => none

theorem parent?_onto (l : Link) (p : Path) : (l.onto p).parent? = some p := by
  cases l <;> rfl

/-- A node with a parent is one link onto it. -/
theorem exists_onto_of_parent? {p q : Path} (h : p.parent? = some q) : ∃ l : Link, p = l.onto q := by
  cases p with
  | memberAccess target m => cases h; exact ⟨.member m, rfl⟩
  | methodCall receiver m args => cases h; exact ⟨.call m args, rfl⟩
  | extensionCall m args =>
    cases args with
    | nil => cases h
    | cons receiver rest => cases h; exact ⟨.extension m rest, rfl⟩
  | _ => cases h

/-- A path with links onto it, the innermost link first. -/
def chain (p : Path) (links : List Link) : Path := links.foldl Link.onto p

theorem chain_append (p : Path) (ls ms : List Link) :
    p.chain (ls ++ ms) = (p.chain ls).chain ms := by
  simp [chain]

/-- The path evaluates to an absent value at a depth, from a given host. -/
def AbsentAt (c : Scene σ) (bindings : Bindings) (depth : Nat) (s : σ) (p : Path) : Prop :=
  ∃ r, (p.evalAt c bindings depth s).result = .ok r ∧ r.value = .absent

/-- A node deeper than the limit is not visited. -/
theorem evalAt_of_lt {c : Scene σ} {depth : Nat} (h : c.settings.maxDepth < depth)
    (bindings : Bindings) (p : Path) :
    p.evalAt c bindings depth = Run.fail (.depthExceeded c.settings.maxDepth) := by
  have hvisit : c.visit p depth = Run.fail (.depthExceeded c.settings.maxDepth) := if_pos h
  cases p with
  | extensionCall m args => cases args <;> rw [evalAt, hvisit, Run.fail_bind]
  | _ => rw [evalAt, hvisit, Run.fail_bind]

theorem depth_le_of_ok {c : Scene σ} {bindings : Bindings} {depth : Nat} {p : Path} {s : σ}
    {r : Resolved} (h : (p.evalAt c bindings depth s).result = .ok r) :
    depth ≤ c.settings.maxDepth := by
  by_contra hlt
  rw [evalAt_of_lt (by omega), Run.fail_apply] at h
  cases h

theorem visit_of_le {c : Scene σ} {depth : Nat} (h : depth ≤ c.settings.maxDepth) (p : Path) :
    c.visit p depth = Run.emit (.visited p.kindName depth) :=
  if_neg (by omega)

theorem evalAt_onto_of_le {c : Scene σ} {depth : Nat} (h : depth ≤ c.settings.maxDepth)
    (bindings : Bindings) (l : Link) (p : Path) (s : σ) :
    (l.onto p).evalAt c bindings depth s =
      let o := (p.evalAt c bindings (depth + 1) >>= l.answer c bindings depth) s
      ⟨o.result, o.host, .visited l.kindName depth :: o.trace⟩ := by
  rw [evalAt_onto, visit_of_le h, Run.emit_bind_apply, Link.kindName_onto]

/-- Visits the nodes of a chain from the outermost one inward, down to the innermost parent. -/
def descend (c : Scene σ) (depth : Nat) (p : Path) : List Link → Run σ Unit
  | [] => pure ()
  | l :: ls => do
    descend c depth (l.onto p) ls
    c.visit (l.onto p) (depth + ls.length)

/-- Lets the links of a chain answer one after the other, the innermost one first. -/
def ascend (c : Scene σ) (bindings : Bindings) (depth : Nat) : List Link → Resolved → Run σ Resolved
  | [], r => return r
  | l :: ls, r => do ascend c bindings depth ls (← l.answer c bindings (depth + ls.length) r)

/-- The visits to the nodes of a chain, the outermost node first. -/
def visits (depth : Nat) : List Link → List Event
  | [] => []
  | l :: ls => visits depth ls ++ [.visited l.kindName (depth + ls.length)]

theorem evalAt_chain (c : Scene σ) (bindings : Bindings) (depth : Nat) (p : Path)
    (links : List Link) :
    (p.chain links).evalAt c bindings depth = (do
      descend c depth p links
      ascend c bindings depth links (← p.evalAt c bindings (depth + links.length))) := by
  induction links generalizing p with
  | nil => simp [chain, descend, ascend]
  | cons l ls ih =>
    show ((l.onto p).chain ls).evalAt c bindings depth = _
    rw [ih (l.onto p), evalAt_onto]
    simp only [descend, ascend, bind_assoc, List.length_cons, Nat.add_assoc]

theorem descend_of_le {c : Scene σ} {depth : Nat} {links : List Link}
    (h : depth + links.length ≤ c.settings.maxDepth + 1) (p : Path) (s : σ) :
    descend c depth p links s = ⟨.ok (), s, visits depth links⟩ := by
  induction links generalizing p with
  | nil => rfl
  | cons l ls ih =>
    rw [List.length_cons] at h
    have hls := ih (by omega) (l.onto p)
    rw [descend, Run.bind_of_ok (by rw [hls]), hls, visit_of_le (by omega), Link.kindName_onto]
    rfl

/-- What is left of the evaluation of a chain whose nodes are all within the limit, once they are
visited: the evaluation of the innermost parent, and the ascent. -/
theorem evalAt_chain_of_le {c : Scene σ} {depth : Nat} {links : List Link}
    (h : depth + links.length ≤ c.settings.maxDepth + 1) (bindings : Bindings) (p : Path) (s : σ) :
    (p.chain links).evalAt c bindings depth s =
      let o := (p.evalAt c bindings (depth + links.length) >>= ascend c bindings depth links) s
      ⟨o.result, o.host, visits depth links ++ o.trace⟩ := by
  have hdown := descend_of_le h p s
  rw [evalAt_chain, Run.bind_of_ok (by rw [hdown]), hdown]

/-- An evaluated parent leaves the ascent to do: every node of the chain was within the limit. -/
theorem evalAt_chain_of_ok {c : Scene σ} {bindings : Bindings} {depth : Nat} {p : Path}
    {links : List Link} {s : σ} {r : Resolved} {o : Outcome σ Resolved}
    (ho : p.evalAt c bindings (depth + links.length) s = o) (hr : o.result = .ok r) :
    (p.chain links).evalAt c bindings depth s =
      let up := ascend c bindings depth links r o.host
      ⟨up.result, up.host, visits depth links ++ (o.trace ++ up.trace)⟩ := by
  subst ho
  have hle := depth_le_of_ok hr
  rw [evalAt_chain_of_le (by omega), Run.bind_of_ok hr]

/-- Once the innermost parent of a chain is evaluated to a value, what the links answer depends on that
value alone, and not on whether it was read or took the place of a missing one. -/
theorem ascend_cons_congr (c : Scene σ) (bindings : Bindings) (depth : Nat) (l : Link)
    (ls : List Link) {r r' : Resolved} (h : r.value = r'.value) :
    ascend c bindings depth (l :: ls) r = ascend c bindings depth (l :: ls) r' := by
  simp only [ascend, Link.answer, Scene.fromParent, h]

end Path

end AccessPath
