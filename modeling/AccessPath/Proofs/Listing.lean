import AccessPath.Proofs.Arrival

/-!
# The nodes of a path in order

A tour of a path comes to every node, then to the nodes below it, child after child, and last to the node's own
member or call (`Path.tour`). The steps at which it comes to a node are the listing of the path: its nodes in
pre-order, each with its depth (`Path.listing`, `Path.mem_listing_iff`).

The order of the steps is stated on positions (`Step.Precedes`): a node before all that is below it, its own call
behind all of it, and children one after the other. No step is made twice (`Path.tour_pairwise`).

Where the receivers at some positions are absent, the arguments of method calls there are left out, and those of
extension calls anyway (`Path.prune`); all else stays where it is.
-/

namespace AccessPath

/-- What is done at a node: it is evaluated, and then its member is read or its call made. -/
inductive Act where
  | visit (kind : String) (depth : Nat)
  | read (member : MemberSig)
  | invoke (method : MethodSig)
  | extend (method : MethodSig)
  deriving DecidableEq, Repr

def Act.isVisit : Act → Bool
  | .visit .. => true
  | _ => false

/-- Something is done at a position. -/
abbrev Step := Position × Act

namespace Step

/-- The steps of a child, as steps of its parent. -/
def under (i : Nat) (steps : List Step) : List Step := steps.map fun x => (i :: x.1, x.2)

/-- The act `a` at the one position comes before the act `b` at the other. At a node the visit comes first, what is
done at the children next, one child after the other, and the node's own call last. -/
def ActsBefore (a b : Act) : Position → Position → Prop
  | [], ρ => a.isVisit = true ∧ (ρ = [] → b.isVisit = false)
  | _ :: _, [] => b.isVisit = false
  | i :: π, j :: ρ => i < j ∨ i = j ∧ ActsBefore a b π ρ

def Precedes (x y : Step) : Prop := ActsBefore x.2 y.2 x.1 y.1

section

variable {a b : Act}

/-- A visit or a call does not come before itself. -/
theorem not_actsBefore_self (hab : a.isVisit = b.isVisit) (π : Position) : ¬ ActsBefore a b π π := by
  induction π with
  | nil => simp [ActsBefore, hab]
  | cons i π ih => simpa [ActsBefore] using ih

/-- What comes behind a node's call is not done below the node. -/
theorem not_prefix_of_actsBefore (ha : a.isVisit = false) {π ρ : Position} (h : ActsBefore a b π ρ) :
    ¬ π <+: ρ := by
  induction π generalizing ρ with
  | nil => exact absurd h.1 (by simp [ha])
  | cons i π ih =>
    cases ρ with
    | nil => simp
    | cons j ρ =>
      intro hprefix
      obtain ⟨rfl, hinner⟩ := List.cons_prefix_cons.mp hprefix
      rcases h with hlt | ⟨-, h⟩
      · exact absurd hlt (Nat.lt_irrefl i)
      · exact ih h hinner

/-- What comes between a node's evaluation and its call is done at or below the node. -/
theorem prefix_of_actsBefore {a' : Act} {π ρ : Position} (h : ActsBefore a b π ρ) (h' : ActsBefore b a' ρ π)
    (hb : b.isVisit = true) : π <+: ρ := by
  induction π generalizing ρ with
  | nil => exact List.nil_prefix
  | cons i π ih =>
    cases ρ with
    | nil => simp [ActsBefore, hb] at h
    | cons j ρ =>
      rcases h with hlt | ⟨rfl, h⟩
      · rcases h' with hgt | ⟨rfl, -⟩ <;> omega
      · have hrest := h'.resolve_left (Nat.lt_irrefl i)
        exact List.cons_prefix_cons.mpr ⟨rfl, ih h hrest.2⟩

end

end Step

namespace Path

/-- What a node does to its parent, after all that is below it. -/
def act? : Path → Option Act
  | .memberAccess _ m => some (.read m)
  | .methodCall _ m _ => some (.invoke m)
  | .extensionCall m _ => some (.extend m)
  | _ => none

mutual

/-- The steps of a tour through a path whose outermost node has the given depth. -/
def tour (depth : Nat) : Path → List Step
  | .memberAccess t m =>
    ([], .visit "member access" depth) :: (Step.under 0 (t.tour (depth + 1)) ++ [([], .read m)])
  | .methodCall r m args =>
    ([], .visit "method call" depth) ::
      (Step.under 0 (r.tour (depth + 1)) ++ tourAll (depth + 1) 1 args ++ [([], .invoke m)])
  | .extensionCall m args =>
    ([], .visit "extension call" depth) :: (tourAll (depth + 1) 0 args ++ [([], .extend m)])
  | .lambda _ _ b => ([], .visit "lambda" depth) :: Step.under 0 (b.tour (depth + 1))
  | .constant .. => [([], .visit "constant" depth)]
  | .parameter .. => [([], .visit "parameter" depth)]
termination_by structural p => p

/-- The tours through children one after the other, from the one with a given index on. -/
def tourAll (depth i : Nat) : List Path → List Step
  | [] => []
  | p :: ps => Step.under i (p.tour depth) ++ tourAll depth (i + 1) ps
termination_by structural ps => ps

end

/-- The nodes of a path in pre-order, with their positions, their kinds and their depths. -/
def listing (depth : Nat) (p : Path) : List Step := (p.tour depth).filter (·.2.isVisit)

theorem tour_eq (depth : Nat) (p : Path) :
    p.tour depth = ([], .visit p.kindName depth) ::
      (tourAll (depth + 1) 0 p.children ++ p.act?.toList.map fun a => ([], a)) := by
  cases p <;> simp [tour, tourAll, children, act?, kindName]

variable {depth i : Nat}

theorem mem_tourAll_iff {ps : List Path} {x : Step} :
    x ∈ tourAll depth i ps ↔ ∃ j q y, ps[j]? = some q ∧ y ∈ q.tour depth ∧ x = ((i + j) :: y.1, y.2) := by
  induction ps generalizing i with
  | nil => simp [tourAll]
  | cons p ps ih =>
    rw [tourAll, List.mem_append, Step.under, List.mem_map, ih]
    constructor
    · rintro (⟨y, hy, rfl⟩ | ⟨j, q, y, hq, hy, rfl⟩)
      · exact ⟨0, p, y, rfl, hy, rfl⟩
      · exact ⟨j + 1, q, y, hq, hy, by rw [Nat.add_assoc, Nat.add_comm 1 j]⟩
    · rintro ⟨_ | j, q, y, hq, hy, rfl⟩
      · cases hq
        exact .inl ⟨y, hy, rfl⟩
      · exact .inr ⟨j, q, y, hq, hy, by rw [Nat.add_assoc, Nat.add_comm 1 j]⟩

/-- Induction over the children of nodes. -/
@[elab_as_elim]
theorem childInduction {motive : Path → Prop} (node : ∀ p, (∀ q ∈ p.children, motive q) → motive p) (p : Path) :
    motive p := by
  induction p using nodeInduction with
  | constant v ty => exact node _ nofun
  | parameter x ty => exact node _ nofun
  | memberAccess t m iht => exact node _ (List.forall_mem_singleton.mpr iht)
  | methodCall r m args ihr ihargs => exact node _ (List.forall_mem_cons.mpr ⟨ihr, ihargs⟩)
  | noReceiver m => exact node _ nofun
  | extensionCall m r rest ihr ihrest => exact node _ (List.forall_mem_cons.mpr ⟨ihr, ihrest⟩)
  | lambda x ty b ih => exact node _ (List.forall_mem_singleton.mpr ih)

/-- The steps of a tour are the evaluations of the nodes, each at its position and depth, and their own calls. -/
theorem mem_tour_iff {p : Path} {x : Step} :
    x ∈ p.tour depth ↔ ∃ n, p.nodeAt? x.1 = some n ∧
      (x.2 = .visit n.kindName (depth + x.1.length) ∨ n.act? = some x.2) := by
  obtain ⟨π, a⟩ := x
  induction p using childInduction generalizing depth π with
  | node p ih =>
  rw [tour_eq, List.mem_cons, List.mem_append, mem_tourAll_iff]
  cases π with
  | nil => simp [nodeAt?]
  | cons j π =>
    constructor
    · rintro (h | ⟨k, q, ⟨ρ, b⟩, hq, hy, h⟩ | h)
      · cases h
      · rw [Nat.zero_add] at h
        cases h
        obtain ⟨n, hn, ha⟩ := (ih q (List.mem_of_getElem? hq) ρ).mp hy
        refine ⟨n, Option.bind_eq_some_iff.mpr ⟨q, hq, hn⟩, ?_⟩
        rwa [List.length_cons, ← Nat.add_assoc, Nat.add_right_comm]
      · simp at h
    · rintro ⟨n, hn, ha⟩
      obtain ⟨q, hq, hn⟩ := Option.bind_eq_some_iff.mp hn
      rw [List.length_cons, ← Nat.add_assoc, Nat.add_right_comm] at ha
      have htour := (ih q (List.mem_of_getElem? hq) π).mpr ⟨n, hn, ha⟩
      exact .inr (.inl ⟨j, q, (π, a), hq, htour, by rw [Nat.zero_add]⟩)

theorem tourAll_pairwise {ps : List Path} (h : ∀ q ∈ ps, (q.tour depth).Pairwise Step.Precedes) :
    (tourAll depth i ps).Pairwise Step.Precedes := by
  induction ps generalizing i with
  | nil => exact .nil
  | cons p ps ih =>
    obtain ⟨hp, hps⟩ := List.forall_mem_cons.mp h
    rw [tourAll, List.pairwise_append]
    refine ⟨?_, ih hps, fun x hx y hy => ?_⟩
    · exact List.pairwise_map.mpr (hp.imp fun hxy => .inr ⟨rfl, hxy⟩)
    · obtain ⟨x, -, rfl⟩ := List.mem_map.mp hx
      obtain ⟨j, q, y, -, -, rfl⟩ := mem_tourAll_iff.mp hy
      exact .inl (by omega)

/-- No step of a tour is made twice: of any two, one comes before the other. -/
theorem tour_pairwise (p : Path) (depth : Nat) : (p.tour depth).Pairwise Step.Precedes := by
  induction p using childInduction generalizing depth with
  | node p ih =>
  have hbelow : ∀ x ∈ tourAll (depth + 1) 0 p.children, x.1 ≠ [] := by
    intro x hx
    obtain ⟨j, q, y, -, -, rfl⟩ := mem_tourAll_iff.mp hx
    exact nofun
  have hact : ∀ x ∈ p.act?.toList.map fun a => (([] : Position), a), x.1 = [] ∧ x.2.isVisit = false := by
    cases p <;> simp [act?, Act.isVisit]
  rw [tour_eq, List.pairwise_cons, List.pairwise_append]
  refine ⟨fun x hx => ⟨rfl, fun hnil => ?_⟩, tourAll_pairwise fun q hq => ih q hq _, ?_, fun x hx y hy => ?_⟩
  · rcases List.mem_append.mp hx with hx | hx
    · exact absurd hnil (hbelow x hx)
    · exact (hact x hx).2
  · cases p <;> simp [act?]
  · obtain ⟨hy, hcall⟩ := hact y hy
    obtain ⟨i, π, hx⟩ := List.exists_cons_of_ne_nil (hbelow x hx)
    rw [Step.Precedes, hx, hy]
    exact hcall

/-! What is left out -/

mutual

/-- The path without the arguments of method calls at positions where the receiver is absent, and without those of
extension calls. -/
def prune (absent : Position → Bool) : Path → Path
  | .memberAccess t m => .memberAccess (t.prune fun π => absent (0 :: π)) m
  | .methodCall r m args =>
    .methodCall (r.prune fun π => absent (0 :: π)) m (if absent [] then [] else pruneAll absent 1 args)
  | .extensionCall m [] => .extensionCall m []
  | .extensionCall m (r :: _) => .extensionCall m [r.prune fun π => absent (0 :: π)]
  | .lambda x ty b => .lambda x ty (b.prune fun π => absent (0 :: π))
  | .constant v ty => .constant v ty
  | .parameter x ty => .parameter x ty
termination_by structural p => p

/-- Children without what is left out of them, from the one with a given index on. -/
def pruneAll (absent : Position → Bool) (i : Nat) : List Path → List Path
  | [] => []
  | p :: ps => (p.prune fun π => absent (i :: π)) :: pruneAll absent (i + 1) ps
termination_by structural ps => ps

end

theorem tourAll_pruneAll_sublist {ps : List Path}
    (h : ∀ p ∈ ps, ∀ absent, ((p.prune absent).tour depth).Sublist (p.tour depth)) (absent : Position → Bool)
    (i : Nat) :
    (tourAll depth i (pruneAll absent i ps)).Sublist (tourAll depth i ps) := by
  induction ps generalizing i with
  | nil => exact .slnil
  | cons p ps ih =>
    obtain ⟨hp, hps⟩ := List.forall_mem_cons.mp h
    rw [pruneAll, tourAll, tourAll]
    exact ((hp _).map _).append (ih hps (i + 1))

/-- All that is left stays in its place. -/
theorem tour_prune_sublist (absent : Position → Bool) (depth : Nat) (p : Path) :
    ((p.prune absent).tour depth).Sublist (p.tour depth) := by
  induction p using nodeInduction generalizing absent depth with
  | constant v ty => exact List.Sublist.refl _
  | parameter x ty => exact List.Sublist.refl _
  | memberAccess t m iht => exact (((iht _ _).map _).append_right _).cons_cons _
  | methodCall r m args ihr ihargs =>
    rw [prune, tour, tour]
    refine List.Sublist.cons_cons _ (List.Sublist.append_right (((ihr _ _).map _).append ?_) _)
    split
    · exact List.nil_sublist _
    · exact tourAll_pruneAll_sublist (fun a ha absent => ihargs a ha absent _) absent 1
  | noReceiver m => exact List.Sublist.refl _
  | extensionCall m r rest ihr =>
    rw [prune, tour, tour, tourAll, tourAll, tourAll, List.append_nil]
    exact List.Sublist.cons_cons _
      (List.Sublist.append_right (((ihr _ _).map _).trans (List.sublist_append_left _ _)) _)
  | lambda x ty b ih => exact ((ih _ _).map _).cons_cons _

/-! What is carried out -/

/-- The steps of a tour that are carried out where the receivers at some positions are absent: nothing is done at
what is left out, nor to the parents that are absent. -/
def itinerary (absent : Position → Bool) (depth : Nat) (p : Path) : List Step :=
  ((p.prune absent).tour depth).filter fun x => x.2.isVisit || !absent x.1

/-- The same for arguments, from the one with a given index on. -/
def itineraryAll (absent : Position → Bool) (depth i : Nat) (ps : List Path) : List Step :=
  (tourAll depth i (pruneAll absent i ps)).filter fun x => x.2.isVisit || !absent x.1

end Path

/-- What is carried out behind the parent: nothing if that is absent. -/
def Link.itinerary (absent : Position → Bool) (depth : Nat) (l : Link) : List Step :=
  if absent [] then []
  else match l with
    | .member m => [([], .read m)]
    | .call m args => Path.itineraryAll absent (depth + 1) 1 args ++ [([], .invoke m)]
    | .extension m _ => [([], .extend m)]

namespace Path

variable {absent : Position → Bool} {depth i : Nat}

theorem filter_under (steps : List Step) :
    (Step.under i steps).filter (fun x => x.2.isVisit || !absent x.1) =
      Step.under i (steps.filter fun x => x.2.isVisit || !absent (i :: x.1)) :=
  List.filter_map

theorem itineraryAll_cons (p : Path) (ps : List Path) :
    itineraryAll absent depth i (p :: ps) =
      Step.under i (p.itinerary (fun π => absent (i :: π)) depth) ++ itineraryAll absent depth (i + 1) ps := by
  rw [itineraryAll, pruneAll, tourAll, List.filter_append, filter_under]
  rfl

theorem itinerary_onto (l : Link) (q : Path) :
    (l.onto q).itinerary absent depth = ([], .visit l.kindName depth) ::
      (Step.under 0 (q.itinerary (fun π => absent (0 :: π)) (depth + 1)) ++ l.itinerary absent depth) := by
  cases l with
  | member m =>
    rw [Link.onto, itinerary, prune, tour, List.filter_cons_of_pos rfl, List.filter_append, filter_under]
    cases habsent : absent [] <;> simp [Link.itinerary, Link.kindName, itinerary, habsent, Act.isVisit]
  | call m args =>
    rw [Link.onto, itinerary, prune, tour, List.filter_cons_of_pos rfl, List.filter_append, List.filter_append,
      filter_under]
    cases habsent : absent [] <;>
      simp [Link.itinerary, Link.kindName, itinerary, itineraryAll, tourAll, habsent, Act.isVisit]
  | extension m rest =>
    rw [Link.onto, itinerary, prune, tour, List.filter_cons_of_pos rfl, List.filter_append, tourAll, tourAll,
      List.append_nil, filter_under]
    cases habsent : absent [] <;> simp [Link.itinerary, Link.kindName, itinerary, habsent, Act.isVisit]

/-- The nodes that are evaluated are those of the path that is left. -/
theorem itinerary_visits (p : Path) :
    (p.itinerary absent depth).filter (·.2.isVisit) = (p.prune absent).listing depth := by
  rw [itinerary, listing, List.filter_filter]
  refine List.filter_congr fun x _ => ?_
  cases x.2.isVisit <;> rfl

theorem act?_isVisit {n : Path} {a : Act} (h : n.act? = some a) : a.isVisit = false := by
  cases n <;> cases h <;> rfl

/-- The nodes of a path, with their positions and depths. -/
theorem mem_listing_iff {p : Path} {x : Step} :
    x ∈ p.listing depth ↔
      ∃ n, p.nodeAt? x.1 = some n ∧ x.2 = .visit n.kindName (depth + x.1.length) := by
  rw [listing, List.mem_filter, mem_tour_iff]
  constructor
  · rintro ⟨⟨n, hn, hvisit | hact⟩, hx⟩
    · exact ⟨n, hn, hvisit⟩
    · rw [act?_isVisit hact] at hx
      cases hx
  · rintro ⟨n, hn, hvisit⟩
    exact ⟨⟨n, hn, .inl hvisit⟩, by rw [hvisit]; rfl⟩

theorem listing_prune_sublist (absent : Position → Bool) (depth : Nat) (p : Path) :
    ((p.prune absent).listing depth).Sublist (p.listing depth) :=
  (tour_prune_sublist absent depth p).filter _

theorem listing_pairwise (depth : Nat) (p : Path) : (p.listing depth).Pairwise Step.Precedes :=
  (tour_pairwise p depth).filter _

theorem itinerary_pairwise (absent : Position → Bool) (depth : Nat) (p : Path) :
    (p.itinerary absent depth).Pairwise Step.Precedes :=
  (tour_pairwise (p.prune absent) depth).filter _

/-- Steps of one sort that come one before the other are at different positions. -/
theorem nodup_positions {steps : List Step} (h : steps.Pairwise Step.Precedes) {sort : Bool}
    (hsort : ∀ x ∈ steps, x.2.isVisit = sort) : (steps.map Prod.fst).Nodup := by
  refine List.pairwise_map.mpr (h.imp_of_mem fun hx hy hxy heq => ?_)
  rw [Step.Precedes, heq] at hxy
  exact Step.not_actsBefore_self ((hsort _ hx).trans (hsort _ hy).symm) _ hxy

theorem listing_nodup (depth : Nat) (p : Path) : ((p.listing depth).map Prod.fst).Nodup :=
  nodup_positions (listing_pairwise depth p) fun _ hx => (List.mem_filter.mp hx).2

/-- A step that is carried out and evaluates no node is what the node at its position does to its parent. -/
theorem act?_of_mem_itinerary {p : Path} {x : Step} (h : x ∈ p.itinerary absent depth) (hx : x.2.isVisit = false) :
    ∃ n, p.nodeAt? x.1 = some n ∧ n.act? = some x.2 := by
  have htour := (tour_prune_sublist absent depth p).subset (List.mem_of_mem_filter h)
  obtain ⟨n, hn, hvisit | hact⟩ := mem_tour_iff.mp htour
  · rw [hvisit] at hx
    cases hx
  · exact ⟨n, hn, hact⟩

/-- Of a beginning of an itinerary, a call comes after all that is done at or below its node, and before the
evaluation of any other node that follows in the listing. -/
theorem call_in_order {p : Path} {steps before after : List Step} {π : Position} {a : Act}
    (hsteps : steps <+: p.itinerary absent depth) (hsplit : steps = before ++ (π, a) :: after)
    (ha : a.isVisit = false) :
    (∀ x ∈ (p.prune absent).listing depth, π <+: x.1 → x ∈ before) ∧ (∀ x ∈ after, ¬ π <+: x.1) ∧
      ∀ earlier n later, (p.prune absent).listing depth = earlier ++ n :: later → n.1 = π →
        ∀ x ∈ later, ¬ π <+: x.1 → x ∉ before := by
  obtain ⟨rest, hrest⟩ := hsteps
  rw [hsplit, List.append_assoc, List.cons_append] at hrest
  have horder := itinerary_pairwise absent depth p
  rw [← hrest, List.pairwise_append, List.pairwise_cons] at horder
  obtain ⟨-, ⟨hafter, -⟩, hbefore⟩ := horder
  have hvisits : ∀ x ∈ (p.prune absent).listing depth, x ∈ p.itinerary absent depth ∧ x.2.isVisit = true := by
    intro x hx
    rw [← itinerary_visits] at hx
    exact List.mem_filter.mp hx
  have houtside : ∀ x ∈ after ++ rest, ¬ π <+: x.1 := fun x hx => Step.not_prefix_of_actsBefore ha (hafter x hx)
  refine ⟨fun x hx hbelow => ?_, fun x hx => houtside x (List.mem_append_left rest hx),
    fun earlier n later hlisting hn x hx hout hx' => ?_⟩
  · obtain ⟨hmem, hvisit⟩ := hvisits x hx
    rw [← hrest, List.mem_append, List.mem_cons] at hmem
    rcases hmem with hmem | rfl | hmem
    · exact hmem
    · rw [ha] at hvisit
      cases hvisit
    · exact absurd hbelow (houtside x hmem)
  · have hfollows := listing_pairwise depth (p.prune absent)
    rw [hlisting, List.pairwise_append, List.pairwise_cons] at hfollows
    have hnx : Step.Precedes n x := hfollows.2.1.1 x hx
    have hvisit := (hvisits x (by rw [hlisting]; simp [hx])).2
    rw [Step.Precedes, hn] at hnx
    exact hout (Step.prefix_of_actsBefore hnx (hbefore x hx' _ List.mem_cons_self) hvisit)

end Path

end AccessPath
