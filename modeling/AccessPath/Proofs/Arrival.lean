import AccessPath.Proofs.Building
import AccessPath.Proofs.Calls
import AccessPath.Proofs.Chain

/-!
# Arrivals

A node of a path has a position: which of the children to take, from the outermost node inward. A run may arrive
at it once, many times or never, with other lambda parameters in scope and on another host each time
(`Path.Arrives`). Parents are always arrived at. The arguments of a method call are where its receiver is present
and the arguments before went well, the body of a lambda at each call that the extension makes, and the other
arguments of an extension call never.

What stands at a position matters only at those arrivals (`Path.evalAt_replaceAt`).
-/

namespace AccessPath

variable {σ α β : Type}

/-- What follows a run is the same behind one that does the same. -/
theorem Run.bind_congr_of_apply {x y : Run σ α} {s : σ} (h : x s = y s) (f : α → Run σ β) :
    (x >>= f) s = (y >>= f) s := by
  show Run.bind x f s = Run.bind y f s
  simp only [Run.bind, h]

/-- Which child to take at each node, from the outermost one inward. -/
abbrev Position := List Nat

namespace Path

/-- The node at a position. -/
def nodeAt? (p : Path) : Position → Option Path
  | [] => some p
  | i :: π => p.children[i]?.bind fun q => q.nodeAt? π

/-- The node with other nodes right below it, equally many. -/
def withChildren : Path → List Path → Path
  | .memberAccess _ m, [target] => .memberAccess target m
  | .methodCall _ m _, receiver :: args => .methodCall receiver m args
  | .extensionCall m _, args => .extensionCall m args
  | .lambda x ty _, [body] => .lambda x ty body
  | p, _ => p

/-- The path with another node at a position. -/
def replaceAt (p : Path) (π : Position) (n : Path) : Path :=
  match π with
  | [] => n
  | i :: π => p.withChildren (p.children.modify i fun q => q.replaceAt π n)

/-- What an extension calls when it is given a lambda: its body is evaluated with the item in scope. -/
def lambdaRun (c : Scene σ) (bindings : Bindings) (depth : Nat) (x : String) (body : Path) : Value → Run σ Value :=
  fun item => do return (← body.evalAt c ((x, item) :: bindings) (depth + 2)).value

end Path

/-- A node as a run arrives at it. -/
structure Site (σ : Type) where
  node : Path
  bindings : Bindings
  depth : Nat
  host : σ

namespace Path

/-- Having arrived at a node, the run arrives at the node that has the given position below it. -/
inductive Arrives (c : Scene σ) : Site σ → Position → Site σ → Prop
  | here (n : Site σ) : Arrives c n [] n
  | parent {p q : Path} {bindings : Bindings} {depth : Nat} {s : σ} {π : Position} {n : Site σ}
      (within : depth ≤ c.settings.maxDepth) (parent : p.parent? = some q)
      (rest : Arrives c ⟨q, bindings, depth + 1, s⟩ π n) : Arrives c ⟨p, bindings, depth, s⟩ (0 :: π) n
  | argument {r a : Path} {m : MethodSig} {args : List Path} {i : Nat} {bindings : Bindings} {depth : Nat} {s : σ}
      {parent : Resolved} {before : List Value} {π : Position} {n : Site σ}
      (receiver : (r.evalAt c bindings (depth + 1) s).result = .ok parent) (present : parent.value ≠ .absent)
      (get : args[i]? = some a)
      (evaluated : (evalAll c bindings (depth + 1) (args.take i) (r.evalAt c bindings (depth + 1) s).host).result =
        .ok before)
      (rest : Arrives c ⟨a, bindings, depth + 1,
        (evalAll c bindings (depth + 1) (args.take i) (r.evalAt c bindings (depth + 1) s).host).host⟩ π n) :
      Arrives c ⟨.methodCall r m args, bindings, depth, s⟩ ((i + 1) :: π) n
  | body {r b : Path} {m : MethodSig} {x : String} {ty : Ty} {bindings : Bindings} {depth : Nat} {s t : σ}
      {parent : Resolved} {item : Value} {π : Position} {n : Site σ}
      (receiver : (r.evalAt c bindings (depth + 1) s).result = .ok parent) (present : parent.value ≠ .absent)
      (called : (item, t) ∈ (c.introspector.invokeExtensionWith m parent.value).calls
        (lambdaRun c bindings depth x b) (r.evalAt c bindings (depth + 1) s).host)
      (rest : Arrives c ⟨b, (x, item) :: bindings, depth + 2, t⟩ π n) :
      Arrives c ⟨.extensionCall m [r, .lambda x ty b], bindings, depth, s⟩ (1 :: 0 :: π) n

/-! Replacing a node -/

theorem kindName_withChildren (p : Path) (ps : List Path) : (p.withChildren ps).kindName = p.kindName := by
  unfold withChildren
  split <;> rfl

variable {n n' : Path}

theorem kindName_replaceAt (hkind : n'.kindName = n.kindName) {π : Position} {p : Path}
    (hnode : p.nodeAt? π = some n) : (p.replaceAt π n').kindName = p.kindName := by
  cases π with
  | nil =>
    cases hnode
    exact hkind
  | cons i π => exact kindName_withChildren _ _

theorem kindName_ne_lambda_iff {p : Path} : p.kindName ≠ "lambda" ↔ ∀ x ty b, p ≠ .lambda x ty b := by
  cases p <;> simp [kindName]

/-- The declared type is that of the outermost node, and of the bodies of lambdas. -/
theorem declaredType_replaceAt (hty : n'.declaredType = n.declaredType) {π : Position} {p : Path}
    (hnode : p.nodeAt? π = some n) : (p.replaceAt π n').declaredType = p.declaredType := by
  induction π generalizing p with
  | nil =>
    cases hnode
    exact hty
  | cons i π ih =>
    match p, i with
    | .constant v ty, _ => cases hnode
    | .parameter x ty, _ => cases hnode
    | .memberAccess t m, 0 => rfl
    | .memberAccess t m, i + 1 => cases hnode
    | .methodCall r m args, 0 => rfl
    | .methodCall r m args, i + 1 => rfl
    | .extensionCall m args, _ => rfl
    | .lambda x ty b, 0 => exact congrArg (fun body => Ty.function [ty] body) (ih hnode)
    | .lambda x ty b, i + 1 => cases hnode

theorem nodeAt?_onto_zero (l : Link) (q : Path) (π : Position) :
    (l.onto q).nodeAt? (0 :: π) = q.nodeAt? π := by
  cases l <;> rfl

theorem replaceAt_onto_zero (l : Link) (q : Path) (π : Position) :
    (l.onto q).replaceAt (0 :: π) n = l.onto (q.replaceAt π n) := by
  cases l <;> rfl

variable {c : Scene σ} {bindings : Bindings} {depth : Nat} {s : σ}

/-- A node of one kind with the same default does the same, if its link does the same to a present parent. -/
theorem evalAt_onto_congr {l l' : Link} {q : Path} (hkind : l'.kindName = l.kindName) (hsite : l'.site = l.site)
    (hty : l'.ty = l.ty)
    (h : ∀ parent, (q.evalAt c bindings (depth + 1) s).result = .ok parent → parent.value ≠ .absent →
      l'.proceed c bindings depth parent.value (q.evalAt c bindings (depth + 1) s).host =
        l.proceed c bindings depth parent.value (q.evalAt c bindings (depth + 1) s).host) :
    (l'.onto q).evalAt c bindings depth s = (l.onto q).evalAt c bindings depth s := by
  by_cases hwithin : depth ≤ c.settings.maxDepth
  · rw [evalAt_onto_of_le hwithin, evalAt_onto_of_le hwithin, hkind]
    cases hparent : (q.evalAt c bindings (depth + 1) s).result with
    | error e => rw [Run.bind_of_error hparent, Run.bind_of_error hparent]
    | ok parent =>
      rw [Run.bind_of_ok hparent, Run.bind_of_ok hparent]
      by_cases habsent : parent.value = .absent
      · rw [Link.answer_of_absent _ _ _ _ habsent, Link.answer_of_absent _ _ _ _ habsent, hsite, hty]
      · have hpresent := Value.isAbsent_eq_false_iff.mpr habsent
        rw [Link.answer_of_present _ _ _ _ hpresent, Link.answer_of_present _ _ _ _ hpresent,
          h parent hparent habsent]
  · rw [evalAt_of_lt (by omega), evalAt_of_lt (by omega)]

/-- A link does the same onto parents that do the same. -/
theorem evalAt_onto_congr_parent (l : Link) {q q' : Path}
    (h : depth ≤ c.settings.maxDepth → q'.evalAt c bindings (depth + 1) s = q.evalAt c bindings (depth + 1) s) :
    (l.onto q').evalAt c bindings depth s = (l.onto q).evalAt c bindings depth s := by
  by_cases hwithin : depth ≤ c.settings.maxDepth
  · rw [evalAt_onto_of_le hwithin, evalAt_onto_of_le hwithin, Run.bind_congr_of_apply (h hwithin)]
  · rw [evalAt_of_lt (by omega), evalAt_of_lt (by omega)]

theorem evalAll_cons_of_ok {p : Path} {v : Resolved} (hv : (p.evalAt c bindings depth s).result = .ok v)
    (ps : List Path) :
    evalAll c bindings depth (p :: ps) s =
      let o := evalAll c bindings depth ps (p.evalAt c bindings depth s).host
      ⟨o.result.map (v.value :: ·), o.host, (p.evalAt c bindings depth s).trace ++ o.trace⟩ := by
  rw [evalAll, Run.bind_of_ok hv, Run.bind_pure_apply]

/-- One of the nodes that are evaluated from left to right matters where those before it went well. -/
theorem evalAll_modify_congr {f : Path → Path} {i : Nat} {args : List Path}
    (h : ∀ a, args[i]? = some a → ∀ before, (evalAll c bindings depth (args.take i) s).result = .ok before →
      (f a).evalAt c bindings depth (evalAll c bindings depth (args.take i) s).host =
        a.evalAt c bindings depth (evalAll c bindings depth (args.take i) s).host) :
    evalAll c bindings depth (args.modify i f) s = evalAll c bindings depth args s := by
  induction args generalizing i s with
  | nil => rw [List.modify_nil]
  | cons p ps ih =>
    cases i with
    | zero =>
      rw [List.modify_zero_cons, evalAll, evalAll]
      exact Run.bind_congr_of_apply (h p rfl [] rfl) _
    | succ i =>
      rw [List.modify_succ_cons]
      cases hv : (p.evalAt c bindings depth s).result with
      | error e => rw [evalAll, evalAll, Run.bind_of_error hv, Run.bind_of_error hv]
      | ok v =>
        rw [evalAll_cons_of_ok hv, evalAll_cons_of_ok hv, ih]
        intro a ha before hbefore
        have hcons := h a ha (v.value :: before)
        rw [List.take_succ_cons, evalAll_cons_of_ok hv] at hcons
        exact hcons (congrArg (Except.map (v.value :: ·)) hbefore)

/-- Called with lambdas that do the same at each call that is made, an extension does the same. -/
theorem invokeExtensionWith_congr {m : MethodSig} {v : Value} {f g : Value → Run σ Value}
    (h : ∀ call ∈ (c.introspector.invokeExtensionWith m v).calls f s, f call.1 call.2 = g call.1 call.2) :
    c.invokeExtensionWith m v f s = c.invokeExtensionWith m v g s := by
  rw [Scene.invokeExtensionWith, Scene.invokeExtensionWith, Run.emit_bind_apply, Run.emit_bind_apply,
    Run.bind_congr_of_apply (Script.run_congr h)]

/-- What an extension call does to a present receiver is the same, if the bodies do that it calls. -/
theorem proceed_modify_congr {m : MethodSig} {rest : List Path} {i : Nat} {f : Path → Path} {v : Value}
    (hkind : ∀ a, rest[i]? = some a → (f a).kindName = a.kindName)
    (hlambda : ∀ x ty b, rest = [.lambda x ty b] → ∃ b', f (.lambda x ty b) = .lambda x ty b' ∧
      ∀ call ∈ (c.introspector.invokeExtensionWith m v).calls (lambdaRun c bindings depth x b) s,
        b'.evalAt c ((x, call.1) :: bindings) (depth + 2) call.2 =
          b.evalAt c ((x, call.1) :: bindings) (depth + 2) call.2) :
    (Link.extension m (rest.modify i f)).proceed c bindings depth v s =
      (Link.extension m rest).proceed c bindings depth v s := by
  match rest, i with
  | [], i => rw [List.modify_nil]
  | [a], 0 =>
    by_cases ha : ∃ x ty b, a = .lambda x ty b
    · obtain ⟨x, ty, b, rfl⟩ := ha
      obtain ⟨b', hb', hcalls⟩ := hlambda x ty b rfl
      rw [List.modify_zero_cons, hb']
      refine (invokeExtensionWith_congr (f := lambdaRun c bindings depth x b) fun call hcall => ?_).symm
      exact Run.bind_congr_of_apply (hcalls call hcall).symm _
    · have hplain : ∀ x ty b, a ≠ .lambda x ty b := fun x ty b hab => ha ⟨x, ty, b, hab⟩
      have hplain' : ∀ x ty b, f a ≠ .lambda x ty b := by
        rwa [← kindName_ne_lambda_iff, hkind a rfl, kindName_ne_lambda_iff]
      rw [List.modify_zero_cons, Link.proceed_of_plain hplain, Link.proceed_of_plain hplain', hkind a rfl]
  | [a], i + 1 => rw [List.modify_succ_cons, List.modify_nil]
  | a :: b :: rest, i =>
    have hlength : 2 ≤ (a :: b :: rest).length := by simp
    rw [Link.proceed_of_several hlength, Link.proceed_of_several (by rwa [List.length_modify]), List.length_modify]

/-- A lambda that is evaluated itself fails, whatever its body. -/
theorem evalAt_lambda_congr (c : Scene σ) (bindings : Bindings) (depth : Nat) (x : String) (ty : Ty)
    (b b' : Path) :
    (Path.lambda x ty b').evalAt c bindings depth = (Path.lambda x ty b).evalAt c bindings depth := by
  rw [evalAt, evalAt]
  rfl

/-- Other nodes than the lambda itself are in its body. -/
theorem exists_position_of_lambda {x : String} {ty : Ty} {b : Path} (hn : n.kindName ≠ "lambda") {π : Position}
    (hnode : (Path.lambda x ty b).nodeAt? π = some n) : ∃ ρ, π = 0 :: ρ ∧ b.nodeAt? ρ = some n := by
  rcases π with _ | ⟨_ | j, ρ⟩
  · cases hnode
    exact absurd rfl hn
  · exact ⟨ρ, rfl, hnode⟩
  · cases hnode

/-- A node of the same kind in the place of another one changes nothing, if it does the same wherever the run
arrives there. -/
theorem evalAt_replaceAt (hkind : n'.kindName = n.kindName) (hn : n.kindName ≠ "lambda") {π : Position} {p : Path}
    {bindings : Bindings} {depth : Nat} {s : σ} (hnode : p.nodeAt? π = some n)
    (h : ∀ site, Arrives c ⟨p, bindings, depth, s⟩ π site →
      n'.evalAt c site.bindings site.depth site.host = n.evalAt c site.bindings site.depth site.host) :
    (p.replaceAt π n').evalAt c bindings depth s = p.evalAt c bindings depth s := by
  -- the body of a lambda is two steps below the call, so the tail of the position is not enough
  induction hlength : π.length using Nat.strongRecOn generalizing π p bindings depth s with
  | ind length ih =>
  subst hlength
  match π with
  | [] =>
    cases hnode
    exact h _ (.here _)
  | 0 :: π =>
    cases hp : p.parent? with
    | some q =>
      obtain ⟨l, rfl⟩ := exists_onto_of_parent? hp
      cases (parent?_onto l q).symm.trans hp
      rw [nodeAt?_onto_zero] at hnode
      rw [replaceAt_onto_zero]
      exact evalAt_onto_congr_parent l fun hwithin =>
        ih _ (Nat.lt_succ_self _) hnode (fun site hsite => h site (.parent hwithin hp hsite)) rfl
    | none =>
      match p with
      | .constant .. => cases hnode
      | .parameter .. => cases hnode
      | .extensionCall m [] => cases hnode
      | .lambda x ty b => exact congrFun (evalAt_lambda_congr c bindings depth x ty b _) s
  | (i + 1) :: π =>
    match p with
    | .constant .. => cases hnode
    | .parameter .. => cases hnode
    | .memberAccess .. => cases hnode
    | .lambda .. => cases hnode
    | .extensionCall m [] => cases hnode
    | .methodCall r m args =>
      obtain ⟨a, ha, hnode⟩ := Option.bind_eq_some_iff.mp hnode
      show ((Link.call m (args.modify i fun q => q.replaceAt π n')).onto r).evalAt c bindings depth s =
        ((Link.call m args).onto r).evalAt c bindings depth s
      refine evalAt_onto_congr rfl rfl rfl fun parent hparent hpresent => ?_
      refine Run.bind_congr_of_apply (evalAll_modify_congr fun a' ha' before hbefore => ?_) _
      cases ha.symm.trans ha'
      exact ih _ (Nat.lt_succ_self _) hnode
        (fun site hsite => h site (.argument hparent hpresent ha hbefore hsite)) rfl
    | .extensionCall m (r :: rest) =>
      obtain ⟨a, ha, hnode⟩ := Option.bind_eq_some_iff.mp hnode
      show ((Link.extension m (rest.modify i fun q => q.replaceAt π n')).onto r).evalAt c bindings depth s =
        ((Link.extension m rest).onto r).evalAt c bindings depth s
      refine evalAt_onto_congr rfl rfl rfl fun parent hparent hpresent => ?_
      refine proceed_modify_congr (fun a' ha' => ?_) fun x ty b hrest => ?_
      · cases ha.symm.trans ha'
        exact kindName_replaceAt hkind hnode
      · subst hrest
        cases i with
        | succ i => cases ha
        | zero =>
          cases ha
          obtain ⟨π, rfl, hbody⟩ := exists_position_of_lambda hn hnode
          have hbelow : π.length < ((0 + 1) :: 0 :: π).length := by
            simp only [List.length_cons]
            omega
          exact ⟨b.replaceAt π n', rfl, fun call hcall => ih _ hbelow hbody
            (fun site hsite => h site (.body hparent hpresent hcall hsite)) rfl⟩

end Path

end AccessPath
