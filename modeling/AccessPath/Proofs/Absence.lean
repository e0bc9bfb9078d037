import AccessPath.Proofs.ZeroValues

/-!
# Chains past an absent parent

Once a parent in a chain is absent, its link is answered by a default. As long as the declared types
of the links have no present default, absence is handed on from link to link: no member is read, no
method or extension called and no argument evaluated (`Path.ascend_carried`). The first link whose
type has a present default ends that: the links further out find a value and go on from it, as they
would from one that was read (`evalAt_chain_past_absence`). Only a struct may have no default to give,
if a type that is reached from it is not registered; the chain then fails, and names that type.

So a chain does not always stop at absence. `o.name.length` reads a member off the empty string that
stands in for the name of an absent `o` (`reads_past_absent_root`).
-/

namespace AccessPath

variable {σ : Type}

/-- The default that takes the place of a link's answer. -/
def Link.substituted (l : Link) : Event := .substituted l.site l.ty

/-- A substitution makes no call and visits no node. -/
theorem Scene.substitution_quiet {c : Scene σ} {site : String} {ty : Ty} {e : Event}
    (h : e ∈ c.substitution site ty) : e.isCall = false ∧ e.isVisit = false := by
  rcases List.mem_append.mp h with hquery | hanswer
  · obtain ⟨query, hmem, rfl⟩ := List.mem_map.mp hquery
    have hdefault := Option.mem_toList.mp hmem
    cases ty <;> cases hdefault <;> exact ⟨rfl, rfl⟩
  · split at hanswer <;> cases List.mem_singleton.mp hanswer <;> exact ⟨rfl, rfl⟩

namespace Path

/-- Absence is handed on through links whose types have no present default. -/
theorem ascend_carried (c : Scene σ) (bindings : Bindings) (depth : Nat) {carried : List Link}
    (hcarried : ∀ l ∈ carried, l.ty.hasPresentDefault = false) (stop : Link) {r : Resolved}
    (hr : r.value = .absent) (s : σ) :
    ascend c bindings depth (carried ++ [stop]) r s =
      ⟨(c.introspector.default stop.ty).map .substituted, s,
        carried.map Link.substituted ++ c.substitution stop.site stop.ty⟩ := by
  induction carried generalizing r with
  | nil =>
    simp only [List.nil_append, ascend, Link.answer_of_absent _ _ _ _ hr, bind_pure,
      Scene.substitute_apply, List.map_nil]
  | cons l ls ih =>
    have hl : l.ty.hasPresentDefault = false := hcarried l (by simp)
    have hls := ih (fun k hk => hcarried k (by simp [hk])) (r := .substituted .absent) rfl
    have hanswer : l.answer c bindings (depth + (ls ++ [stop]).length) r s =
        ⟨.ok (.substituted .absent), s, [l.substituted]⟩ := by
      rw [Link.answer_of_absent _ _ _ _ hr, Scene.substitute_of_not_present _ _ hl]
      rfl
    rw [List.cons_append, ascend, Run.bind_of_ok (by rw [hanswer]), hanswer, hls]
    rfl

/-- Past an absent parent, each link is answered by the default for its declared type, up to and
including the first one whose type has a present default: no call is made, no argument evaluated, and
the host stays as it is. The answer is the default for the last of these types. It is missing exactly
for a struct from which an unregistered one is reached, and then the whole chain fails, naming the first
such one. The links further out go on from that default exactly as they do behind any other path that
yields the same value. Where that default is of a struct, no layout is to hold itself. -/
theorem evalAt_chain_past_absence (r : Registry σ) (settings : Settings) (root : Value) (s : σ)
    (name : String) (ty : Ty) (inner carried : List Link) (stop : Link) (outer : List Link)
    (hcarried : ∀ l ∈ carried, l.ty.hasPresentDefault = false)
    (hacyclic : ∀ n, stop.ty = .struct n → (layoutsOf r.layouts).Acyclic)
    (habsent : ((parameter name ty).chain inner).AbsentAt ⟨r.introspector, settings, root⟩ []
      (outer.length + (carried ++ [stop]).length) s) :
    let c : Scene σ := ⟨r.introspector, settings, root⟩
    let parent := (parameter name ty).chain inner
    let below := parent.evalAt c [] (outer.length + (carried ++ [stop]).length) s
    let here := (parent.chain (carried ++ [stop])).evalAt c [] outer.length s
    let whole := (parent.chain (carried ++ [stop] ++ outer)).evalAt c [] 0 s
    let answers := carried.map Link.substituted ++ c.substitution stop.site stop.ty
    here.trace = visits outer.length (carried ++ [stop]) ++ (below.trace ++ answers) ∧
    (∀ e ∈ answers, e.isCall = false ∧ e.isVisit = false) ∧
    here.host = below.host ∧
    here.result = (r.introspector.default stop.ty).map .substituted ∧
    (∀ v, r.introspector.default stop.ty = .ok v → stop.substituted ∈ answers) ∧
    (∀ e, here.result = .error e ↔ ∃ n missing, stop.ty = .struct n ∧
      (layoutsOf r.layouts).FirstMissing n missing ∧ e = .unregisteredType missing) ∧
    (∀ e, here.result = .error e → whole.result = .error e ∧ whole.host = here.host) ∧
    (∀ v, here.result = .ok v → outer ≠ [] → ∀ (q : Path) (t : σ) (w : Resolved),
      (q.evalAt c [] outer.length t).result = .ok w → w.value = v.value →
      (q.evalAt c [] outer.length t).host = here.host →
      whole.result = ((q.chain outer).evalAt c [] 0 t).result ∧
      whole.host = ((q.chain outer).evalAt c [] 0 t).host) := by
  intro c parent below here whole answers
  obtain ⟨a, hok, ha⟩ := habsent
  have hhere : here = ⟨(r.introspector.default stop.ty).map .substituted, below.host,
      visits outer.length (carried ++ [stop]) ++ (below.trace ++ answers)⟩ := by
    rw [show here = _ from evalAt_chain_of_ok rfl hok, ascend_carried c [] _ hcarried stop ha]
  have hwhole : whole = ((parent.chain (carried ++ [stop])).chain outer).evalAt c [] 0 s := by
    rw [← chain_append]
  have hdepth : outer.length + (carried ++ [stop]).length ≤ settings.maxDepth := depth_le_of_ok hok
  have hzero : 0 + outer.length = outer.length := Nat.zero_add _
  have herror : ∀ e, here.result = .error e ↔ r.introspector.default stop.ty = .error e := by
    intro e
    rw [hhere]
    cases r.introspector.default stop.ty <;> simp [Except.map]
  refine ⟨by rw [hhere], ?_, by rw [hhere], by rw [hhere], ?_, ?_, ?_, ?_⟩
  · intro e he
    rcases List.mem_append.mp he with hmem | hmem
    · obtain ⟨l, -, rfl⟩ := List.mem_map.mp hmem
      exact ⟨rfl, rfl⟩
    · exact Scene.substitution_quiet hmem
  · intro v hv
    simp [answers, Scene.substitution, c, hv, Link.substituted]
  · exact fun e => (herror e).trans (Registry.default_error_iff hacyclic)
  · intro e he
    rw [hwhole, evalAt_chain_of_le (by show 0 + outer.length ≤ settings.maxDepth + 1; omega), hzero,
      Run.bind_of_error he]
    exact ⟨rfl, rfl⟩
  · intro v hv houter q t w hw hvalue hhost
    obtain ⟨l, ls, rfl⟩ := List.exists_cons_of_ne_nil houter
    rw [hwhole, evalAt_chain_of_ok (by rw [hzero]) hv,
      evalAt_chain_of_ok (o := q.evalAt c [] (l :: ls).length t) (by rw [hzero]) hw, hhost,
      ascend_cons_congr c [] 0 l ls hvalue]
    exact ⟨rfl, rfl⟩

/-- Two chains on an absent `o`. In `count(o.owner.peers(x => x)).to_string()` there are no peers to count,
and the text is that of the zero which takes the place of their number. In `o.owner.name.to_string()` the
name is a struct with a field of another type, and that one is not registered. -/
theorem count_past_absent_root :
    let r : Registry Unit :=
      Registry.withSequences.register (.valueType "Name" [("first", .string), ("rank", .struct "Rank")])
    let c : Scene Unit := ⟨r.introspector, {}, .absent⟩
    let o := parameter "o" (.reference "Account")
    let owner := Link.member ⟨"owner", .reference "Person"⟩
    let peers := Link.call ⟨"peers", [], .list .any⟩ [.lambda "x" .any (.parameter "x" .any)]
    let count := Link.extension ⟨"count", [], .int⟩ []
    let name := Link.member ⟨"name", .struct "Name"⟩
    let text := Link.call ⟨"to_string", [], .string⟩ []
    o.AbsentAt c [] 4 () ∧ o.AbsentAt c [] 3 () ∧ (layoutsOf r.layouts).Acyclic ∧
      ((o.chain [owner, peers, count]).evalAt c [] 1 ()).result = .ok (.substituted (.int 0)) ∧
      ((o.chain [owner, peers, count, text]).evalAt c [] 0 ()).result = .ok (.read (.string "0")) ∧
      ((o.chain [owner, name, text]).evalAt c [] 0 ()).result = .error (.unregisteredType "Rank") := by
  intro r c o owner peers count name text
  have hcountAbsent : o.AbsentAt c [] 4 () := ⟨.read .absent, rfl, rfl⟩
  have hnameAbsent : o.AbsentAt c [] 3 () := ⟨.read .absent, rfl, rfl⟩
  have hacyclic : (layoutsOf r.layouts).Acyclic :=
    acyclic_of_rank (fun n => if n = "Name" then 1 else 0) (by decide)
  have hdefault : c.introspector.default .int = .ok (.int 0) :=
    zeroByLayout_of_not_struct r.layouts (by simp)
  obtain ⟨-, -, -, hcount, -, -, -, hgoesOn⟩ := evalAt_chain_past_absence r {} .absent () "o"
    (.reference "Account") [] [owner, peers] count [text]
    (by simp [owner, peers, Link.ty, Ty.hasPresentDefault]) (fun _ _ => hacyclic) hcountAbsent
  rw [show count.ty = .int from rfl] at hcount
  replace hcount := hcount.trans (congrArg _ hdefault)
  have hlike := hgoesOn _ hcount (by simp) (.constant (.int 0) .int) () (.read (.int 0)) rfl rfl rfl
  have hzero : integerText (Int32.toInt 0) = "0" := by
    unfold integerText decimalDigits digitsBefore
    rfl
  have htext := hlike.1.trans (congrArg (fun t => Except.ok (Resolved.read (.string t))) hzero)
  have hfields : layoutsOf r.layouts "Name" =
      some ([("first", .string)] ++ ("rank", .struct "Rank") :: []) := rfl
  have hfirst : (layoutsOf r.layouts).FirstMissing "Name" "Rank" :=
    .field hfields (by simp [Layouts.complete_of_not_struct]) (.here rfl)
  obtain ⟨-, -, -, -, -, hmissing, hfails, -⟩ := evalAt_chain_past_absence r {} .absent () "o"
    (.reference "Account") [] [owner] name [text] (by simp [owner, Link.ty, Ty.hasPresentDefault])
    (fun _ _ => hacyclic) hnameAbsent
  have herror := (hmissing (.unregisteredType "Rank")).mpr ⟨"Name", "Rank", rfl, hfirst, rfl⟩
  exact ⟨hcountAbsent, hnameAbsent, hacyclic, hcount, htext, (hfails _ herror).1⟩

/-- The chain `o.name.length` on an absent `o` reads a member off the empty string, and fails. -/
theorem reads_past_absent_root :
    let c : Scene Unit := ⟨Registry.withSequences.introspector, {}, .absent⟩
    let o := parameter "o" (.reference "Order")
    let path := o.chain [.member ⟨"name", .string⟩, .member ⟨"length", .int⟩]
    o.AbsentAt c [] 2 () ∧
      path.evalAt c [] 0 () = ⟨.error (.memberNotFound "string" "length"), (),
        [.visited "member access" 0, .visited "member access" 1, .visited "parameter" 2,
          .substituted "name" .string, .asked (.readMember (.string "") ⟨"length", .int⟩),
          .failed (.memberNotFound "string" "length")]⟩ :=
  ⟨⟨.read .absent, rfl, rfl⟩, rfl⟩

end Path

end AccessPath
