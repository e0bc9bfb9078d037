import AccessPath.Host.Rules
import AccessPath.Path.Fetch
import AccessPath.Proofs.Arrival

/-!
# Arguments of absent receivers

The arguments of a call have no influence on an evaluation that finds the receiver absent whenever it arrives at
the call: any others in their place leave the whole outcome as it is, the trace included
(`Path.evaluate_skipped_arguments`). So it does not matter either whether an extension call has a shape that is
refused.
-/

namespace AccessPath

variable {σ : Type}

/-- The same step with other arguments; a member has none. -/
def Link.withArguments (args : List Path) : Link → Link
  | .member m => .member m
  | .call m _ => .call m args
  | .extension m _ => .extension m args

namespace Path

theorem kindName_withArguments (l : Link) (args : List Path) (r : Path) :
    ((l.withArguments args).onto r).kindName = (l.onto r).kindName := by
  cases l <;> rfl

theorem declaredType_withArguments (l : Link) (args : List Path) (r : Path) :
    ((l.withArguments args).onto r).declaredType = (l.onto r).declaredType := by
  cases l <;> rfl

/-- A call on a receiver that is absent, if it is evaluated to anything, does not depend on its arguments. -/
theorem evalAt_withArguments {c : Scene σ} {bindings : Bindings} {depth : Nat} {s : σ} {r : Path}
    (habsent : ∀ parent, (r.evalAt c bindings (depth + 1) s).result = .ok parent → parent.value = .absent)
    (l : Link) (args : List Path) :
    ((l.withArguments args).onto r).evalAt c bindings depth s = (l.onto r).evalAt c bindings depth s := by
  refine evalAt_onto_congr ?_ ?_ ?_ fun parent hparent hpresent => absurd (habsent parent hparent) hpresent
  all_goals cases l <;> rfl

/-- Where the receiver of a call is absent whenever the evaluation arrives at the call, other arguments in the
place of its own change nothing: the evaluation ends with the same result or the same error, on the same host and
with the same trace, and so does a fetch with any fallback. -/
theorem evaluate_skipped_arguments {i : Introspector σ} {settings : Settings} {root : Value} {s : σ} {p r : Path}
    {l : Link} {π : Position} (hnode : p.nodeAt? π = some (l.onto r))
    (habsent : ∀ site, Arrives ⟨i, settings, root⟩ ⟨p, [], 0, s⟩ π site → ∀ parent,
      (r.evalAt ⟨i, settings, root⟩ site.bindings (site.depth + 1) site.host).result = .ok parent →
      parent.value = .absent) (args : List Path) :
    let p' := p.replaceAt π ((l.withArguments args).onto r)
    p'.evaluate i settings root s = p.evaluate i settings root s ∧
      ∀ fallback, p'.fetchOr i settings root fallback s = p.fetchOr i settings root fallback s := by
  intro p'
  have hcall : (l.onto r).kindName ≠ "lambda" := by cases l <;> simp [Link.onto, kindName]
  have heval : p'.evalAt ⟨i, settings, root⟩ [] 0 s = p.evalAt ⟨i, settings, root⟩ [] 0 s :=
    evalAt_replaceAt (kindName_withArguments l args r) hcall hnode fun site hsite =>
      evalAt_withArguments (habsent site hsite) l args
  have hty : p'.declaredType = p.declaredType := declaredType_replaceAt (declaredType_withArguments l args r) hnode
  have hevaluate : p'.evaluate i settings root s = p.evaluate i settings root s := by
    rw [evaluate, evaluate, hty]
    exact Run.bind_congr_of_apply heval _
  exact ⟨hevaluate, fun fallback => Run.bind_congr_of_apply hevaluate _⟩

/-- Peers that are all missing are greeted with a count, or else with lambdas that cannot be evaluated: nothing is
counted, nothing fails, and each of them is answered by an empty greeting. -/
theorem evaluate_greeted_peers :
    let node : HostType := ⟨0, "Node"⟩
    let r : Registry Host.Store := Registry.withSequences.register (Host.classRegistration node "Node"
      [("peers", .const (.list [.absent, .absent]))] [("tick", 0, .tick)])
    let root : Value := .object ⟨0, node⟩
    let s : Host.Store := ⟨[⟨[], 0⟩], [], []⟩
    let c : Scene Host.Store := ⟨r.introspector, {}, root⟩
    let self : Path := parameter "self" (.reference "Node")
    let peer : Path := parameter "peer" (.reference "Node")
    let greet : MethodSig := ⟨"greet", [.long], .string⟩
    let greeted (args : List Path) : Path := .extensionCall ⟨"select", [], .list .string⟩
      [self.member "peers" (.list .any), .lambda "peer" (.reference "Node") (.methodCall peer greet args)]
    let counting : Path := self.call "tick" [] .long
    let stray : Path := .lambda "x" .long (parameter "x" .long)
    let p := greeted [counting]
    p.nodeAt? [1, 0] = some ((Link.call greet [counting]).onto peer) ∧
      (∃ site, Arrives c ⟨p, [], 0, s⟩ [1, 0] site) ∧
      (∀ site, Arrives c ⟨p, [], 0, s⟩ [1, 0] site → ∀ parent,
        (peer.evalAt c site.bindings (site.depth + 1) site.host).result = .ok parent → parent.value = .absent) ∧
      (greeted [stray, stray]).evaluate r.introspector {} root s = p.evaluate r.introspector {} root s ∧
      (p.evaluate r.introspector {} root s).result =
        .ok ⟨.list [.string "", .string ""], .list .string, false⟩ ∧
      (p.evaluate r.introspector {} root s).host = s := by
  intro node r root s c self peer greet greeted counting stray p
  have hnode : p.nodeAt? [1, 0] = some ((Link.call greet [counting]).onto peer) := rfl
  have hcalls : (r.introspector.invokeExtensionWith ⟨"select", [], .list .string⟩ (.list [.absent, .absent])).calls
      (lambdaRun c [] 0 "peer" (.methodCall peer greet [counting])) s = [(.absent, s), (.absent, s)] := rfl
  have hpeers : ((self.member "peers" (.list .any)).evalAt c [] 1 s).result =
      .ok (.read (.list [.absent, .absent])) := rfl
  have hmissing : ∀ call ∈ [(Value.absent, s), (Value.absent, s)], call = (Value.absent, s) := by simp
  have harrives : Arrives c ⟨p, [], 0, s⟩ [1, 0] ⟨.methodCall peer greet [counting], [("peer", .absent)], 2, s⟩ :=
    .body hpeers nofun (hcalls ▸ List.mem_cons_self) (.here _)
  have habsent : ∀ site, Arrives c ⟨p, [], 0, s⟩ [1, 0] site → ∀ parent,
      (peer.evalAt c site.bindings (site.depth + 1) site.host).result = .ok parent → parent.value = .absent := by
    intro site hsite parent hparent
    simp only [p, greeted] at hsite
    cases hsite with
    | body receiver present called rest =>
      cases rest
      cases hpeers.symm.trans receiver
      cases hmissing _ (hcalls ▸ called)
      cases hparent
      rfl
  obtain ⟨hsame, -⟩ := evaluate_skipped_arguments hnode habsent [stray, stray]
  exact ⟨hnode, ⟨_, harrives⟩, habsent, hsame, rfl, rfl⟩

end Path

end AccessPath
