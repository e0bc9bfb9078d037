import AccessPath.Host.Rules
import AccessPath.Path.Fetch
import AccessPath.Proofs.Arrival

/-!
# Spines beyond the limit

From the outermost node of a path the spine leads inward, from each node to its parent (`Path.spine`). An evaluation
goes all the way down before it does anything else. So if the spine has more links than the limit allows, the
evaluation fails at the first node beyond, and has done nothing but visit the nodes on the way
(`Path.evalAt_of_deep_spine`). It comes to no argument and to no body of a lambda (`Path.Arrives.on_spine`), and it
does not matter what stands there.
-/

namespace AccessPath

variable {σ : Type}

namespace Path

/-- The links from a path's outermost node inward, from each node to its parent. -/
def spine : Path → List Link
  | .memberAccess target m => .member m :: target.spine
  | .methodCall receiver m args => .call m args :: receiver.spine
  | .extensionCall m (receiver :: rest) => .extension m rest :: receiver.spine
  | _ => []
termination_by structural p => p

theorem spine_onto (l : Link) (p : Path) : (l.onto p).spine = l :: p.spine := by
  cases l <;> rw [Link.onto, spine]

theorem spine_of_parent?_none {p : Path} (h : p.parent? = none) : p.spine = [] := by
  cases p with
  | extensionCall m args =>
    cases args with
    | nil => rfl
    | cons receiver rest => cases h
  | memberAccess | methodCall => cases h
  | constant | parameter | lambda => rfl

/-- Where the spine has a link, the path is that link onto its parent. -/
theorem exists_onto_of_spine {p : Path} {l : Link} {ls : List Link} (h : p.spine = l :: ls) :
    ∃ q, p = l.onto q ∧ q.spine = ls := by
  cases hp : p.parent? with
  | none =>
    rw [spine_of_parent?_none hp] at h
    cases h
  | some q =>
    obtain ⟨l', rfl⟩ := exists_onto_of_parent? hp
    rw [spine_onto] at h
    obtain ⟨rfl, rfl⟩ := List.cons.inj h
    exact ⟨q, rfl, rfl⟩

variable {c : Scene σ}

/-- A node whose spine goes beyond the limit fails there. The nodes within are visited on the way, and nothing else
is done. -/
theorem evalAt_of_deep_spine {p : Path} {depth : Nat} (hdepth : depth ≤ c.settings.maxDepth + 1)
    (hspine : c.settings.maxDepth < depth + p.spine.length) (bindings : Bindings) (s : σ) :
    p.evalAt c bindings depth s =
      ⟨.error (.depthExceeded c.settings.maxDepth), s,
        (((p.spine.take (c.settings.maxDepth + 1 - depth)).zipIdx depth).map fun x => .visited x.1.kindName x.2) ++
          [.failed (.depthExceeded c.settings.maxDepth)]⟩ := by
  -- by induction on the number of nodes that are within the limit
  induction hwithin : c.settings.maxDepth + 1 - depth generalizing p depth with
  | zero =>
    rw [evalAt_of_lt (by omega), Run.fail_apply]
    rfl
  | succ within ih =>
    obtain ⟨l, ls, hls⟩ := List.exists_cons_of_length_pos (l := p.spine) (by omega)
    obtain ⟨q, rfl, rfl⟩ := exists_onto_of_spine hls
    rw [hls, List.length_cons] at hspine
    have hparent : q.evalAt c bindings (depth + 1) s = _ := ih (by omega) (by omega) (by omega)
    rw [evalAt_onto_of_le (by omega), Run.bind_of_error (by rw [hparent]), hparent, hls]
    rfl

/-- Such a node is not evaluated to anything, at whatever depth. -/
theorem not_ok_of_deep_spine {p : Path} {depth : Nat} {bindings : Bindings} {s : σ} {v : Resolved}
    (hspine : c.settings.maxDepth < depth + p.spine.length) :
    (p.evalAt c bindings depth s).result ≠ .ok v := by
  intro hok
  have hle := depth_le_of_ok hok
  rw [evalAt_of_deep_spine (by omega) hspine] at hok
  cases hok

/-- From a node whose spine goes beyond the limit, a run comes only to the nodes on that spine, up to the first one
beyond the limit. There it has no more lambda parameters in scope than before, and the host is as it was. -/
theorem Arrives.on_spine {n n' : Site σ} {π : Position} (h : Arrives c n π n')
    (hdepth : n.depth ≤ c.settings.maxDepth + 1)
    (hspine : c.settings.maxDepth < n.depth + n.node.spine.length) :
    ∃ links, n.node = n'.node.chain links ∧ π = List.replicate links.length 0 ∧
      n' = ⟨n'.node, n.bindings, n.depth + links.length, n.host⟩ ∧
      n.depth + links.length ≤ c.settings.maxDepth + 1 := by
  induction h with
  | here n => exact ⟨[], rfl, rfl, rfl, hdepth⟩
  | @parent p q bindings depth s π n' within parent rest ih =>
    obtain ⟨l, rfl⟩ := exists_onto_of_parent? parent
    dsimp only at hspine ih ⊢
    rw [spine_onto, List.length_cons] at hspine
    obtain ⟨links, hq, rfl, hn', hle⟩ := ih (by omega) (by omega)
    have hlength : (links ++ [l]).length = links.length + 1 := by simp
    rw [Nat.add_right_comm] at hn'
    refine ⟨links ++ [l], ?_, by rw [hlength, List.replicate_succ], by rwa [hlength], by omega⟩
    rw [chain_append, ← hq]
    rfl
  | argument receiver =>
    dsimp only at hspine
    rw [spine, List.length_cons] at hspine
    exact absurd receiver (not_ok_of_deep_spine (by omega))
  | body receiver =>
    dsimp only at hspine
    rw [spine, List.length_cons] at hspine
    exact absurd receiver (not_ok_of_deep_spine (by omega))

/-- A path whose spine has more links than the limit allows fails before anything is done. The nodes of the first
links are visited, one deeper each time, as many as the limit allows; then the evaluation fails for its depth, on the
host from which it started. The introspector is asked nothing, not even for a default, and none takes the place of a
value. The run comes to no node that is not on the spine: to no argument, and to no body of a lambda. A fallback does
not help. -/
theorem evaluate_deep_spine (i : Introspector σ) (settings : Settings) (root : Value) (s : σ) {p : Path}
    (hspine : settings.maxDepth < p.spine.length) :
    let o := p.evaluate i settings root s
    let limit : EvalError := .depthExceeded settings.maxDepth
    o.result = .error limit ∧ o.host = s ∧
    o.trace = ((p.spine.take (settings.maxDepth + 1)).zipIdx.map fun x => .visited x.1.kindName x.2) ++
      [.failed limit] ∧
    (o.trace.filter Event.isVisit).length = settings.maxDepth + 1 ∧
    (∀ query, .asked query ∉ o.trace) ∧ (∀ site ty, .substituted site ty ∉ o.trace) ∧
    (∀ π n, Arrives ⟨i, settings, root⟩ ⟨p, [], 0, s⟩ π n →
      ∃ links, p = n.node.chain links ∧ π = List.replicate links.length 0 ∧ n = ⟨n.node, [], links.length, s⟩ ∧
        links.length ≤ settings.maxDepth + 1) ∧
    ∀ fallback, p.fetchOr i settings root fallback s = ⟨.error limit, s, o.trace⟩ := by
  intro o limit
  let visits : List Event := (p.spine.take (settings.maxDepth + 1)).zipIdx.map fun x => .visited x.1.kindName x.2
  have hdeep : settings.maxDepth < 0 + p.spine.length := by omega
  have heval := evalAt_of_deep_spine (c := ⟨i, settings, root⟩) (Nat.zero_le _) hdeep [] s
  have hevaluate : p.evaluate i settings root s = ⟨.error limit, s, visits ++ [.failed limit]⟩ := by
    rw [evaluate, Run.bind_of_error (by rw [heval]), heval]
    rfl
  have ho : o = ⟨.error limit, s, visits ++ [.failed limit]⟩ := hevaluate
  have hvisits : ∀ e ∈ visits, e.isVisit = true := by
    intro e he
    obtain ⟨x, -, rfl⟩ := List.mem_map.mp he
    rfl
  have hcount : visits.length = settings.maxDepth + 1 := by
    rw [List.length_map, List.length_zipIdx, List.length_take]
    omega
  have htrace : ∀ e ∈ o.trace, e.isVisit = true ∨ e = .failed limit := by
    intro e he
    rw [ho] at he
    exact (List.mem_append.mp he).imp (hvisits e) List.mem_singleton.mp
  refine ⟨by rw [ho], by rw [ho], by rw [ho], ?_, ?_, ?_, fun π n hn => ?_, fun fallback => ?_⟩
  · rw [ho, List.filter_append, List.filter_eq_self.mpr hvisits, ← hcount]
    exact congrArg List.length (List.append_nil visits)
  · intro query hquery
    rcases htrace _ hquery with h | h <;> cases h
  · intro site ty hsite
    rcases htrace _ hsite with h | h <;> cases h
  · have hon := hn.on_spine (Nat.zero_le _) hdeep
    simpa only [Nat.zero_add] using hon
  · rw [fetchOr, Run.bind_of_error (by rw [hevaluate]), hevaluate, ho]

/-- A greeting whose first argument counts and whose second one cannot be evaluated, in an extension call with one
argument too many. Under a limit of three the count is made and the greeting fails; under a limit of two, where the
node that is greeted is too deep, nothing is counted. -/
theorem evaluate_deep_greeting :
    let node : HostType := ⟨0, "Node"⟩
    let root : Value := .object ⟨0, node⟩
    let r : Registry Host.Store := Registry.withSequences.register (Host.classRegistration node "Node"
      [("peer", .const root)] [("tick", 0, .tick)])
    let s : Host.Store := ⟨[⟨[], 0⟩], [], []⟩
    let self : Path := parameter "self" (.reference "Node")
    let counting : Path := self.call "tick" [] .long
    let stray : Path := .lambda "x" .long (parameter "x" .long)
    let greeting : Path := (self.member "peer" (.reference "Node")).call "greet" [counting, stray] .string
    let p : Path := .extensionCall ⟨"select", [], .any⟩ [greeting, stray, counting]
    let o := p.evaluate r.introspector ⟨2⟩ root s
    let o' := p.evaluate r.introspector ⟨3⟩ root s
    2 < p.spine.length ∧ o.result = .error (.depthExceeded 2) ∧ o.host = s ∧
      o.trace = [.visited "extension call" 0, .visited "method call" 1, .visited "member access" 2,
        .failed (.depthExceeded 2)] ∧
      (∀ query, .asked query ∉ o.trace) ∧
      o'.result = .error (.strayLambda "x") ∧ o'.host = ⟨[⟨[], 1⟩], [], []⟩ := by
  intro node root r s self counting stray greeting p o o'
  have hspine : 2 < p.spine.length := by decide
  obtain ⟨hresult, hhost, htrace, -, hasked, -⟩ := evaluate_deep_spine r.introspector ⟨2⟩ root s hspine
  exact ⟨hspine, hresult, hhost, htrace, hasked, rfl, rfl⟩

end Path

end AccessPath
