import AccessPath.Proofs.Equality

/-!
# What a set was offered

A set contains a value exactly if a value that it was offered is equal to that one, no matter which of the
two it has stored (`ValueSet.contains_insertAll_iff`). So neither the order in which values are offered nor
their repetition tells two sets apart, although the sets may keep different values for each other: they are
equal exactly if each value offered to either is equal to one offered to the other
(`ValueSet.ofItems_eqv`). A value that holds a NaN is contained in no set, and is left out of this.
-/

namespace AccessPath

namespace ValueSet

variable {s : ValueSet} {v w : Value}

theorem contains_iff : s.contains v = true ↔ ∃ item ∈ s.items, item.eqv v = true := by
  rw [contains, List.any_eq_true]

/-- A value that is left out has an item in its place, and what is equal to it is equal to that item. -/
theorem contains_of_eqv (hs : ∀ item ∈ s.items, item.Built) (hw : w.Built) (hv : v.Built)
    (hcontains : s.contains w = true) (hwv : w.eqv v = true) : s.contains v = true := by
  obtain ⟨item, hitem, hiw⟩ := contains_iff.1 hcontains
  exact contains_iff.2 ⟨item, hitem, (hs item hitem).comparable.trans w v hw hv hiw hwv⟩

theorem contains_insert_iff (hs : ∀ item ∈ s.items, item.Built) (hw : w.Built) (hv : v.Built) :
    (s.insert w).2.contains v = true ↔ s.contains v = true ∨ w.eqv v = true := by
  unfold insert
  split
  · next hcontains =>
    constructor
    · exact .inl
    · rintro (hv' | hwv)
      · exact hv'
      · exact contains_of_eqv hs hw hv hcontains hwv
  · simp [contains]

/-- After any insertions a set contains what is equal to an item that it had, or to an offered value. -/
theorem contains_insertAll_iff {vs : List Value} (hs : ∀ item ∈ s.items, item.Built)
    (hvs : ∀ w ∈ vs, w.Built) (hv : v.Built) :
    (s.insertAll vs).contains v = true ↔ s.contains v = true ∨ ∃ w ∈ vs, w.eqv v = true := by
  induction vs generalizing s with
  | nil => simp [insertAll]
  | cons w vs ih =>
    obtain ⟨hw, hvs⟩ := List.forall_mem_cons.1 hvs
    have hinserted : ∀ item ∈ (s.insert w).2.items, item.Built := by
      intro item hitem
      rcases mem_insert hitem with hold | rfl
      · exact hs item hold
      · exact hw
    have hstep := ih hinserted hvs
    rw [contains_insert_iff hs hw hv] at hstep
    simp only [List.mem_cons, exists_eq_or_imp, ← or_assoc]
    exact hstep

theorem contains_ofItems_iff (element : Ty) {offered : List Value} (hoffered : ∀ w ∈ offered, w.Built)
    (hv : v.Built) :
    (ofItems element offered).contains v = true ↔ ∃ w ∈ offered, w.eqv v = true := by
  have hempty : (empty element).contains v = false := rfl
  rw [ofItems, contains_insertAll_iff (List.forall_mem_nil _) hoffered hv, hempty]
  exact or_iff_right Bool.false_ne_true

/-- One set includes another, item by item, if the values offered to the one do so with the values offered
to the other. For the converse no NaN may have been offered: what holds one is equal to nothing. -/
theorem inclusion_ofItems_iff {element : Ty} {offered offered' : List Value}
    (h : ∀ v ∈ offered, v.Built ∧ ¬ v.HoldsNaN) (h' : ∀ v ∈ offered', v.Built) :
    (∀ v ∈ (ofItems element offered).items, ∃ w ∈ (ofItems element offered').items, v.eqv w = true) ↔
      ∀ v ∈ offered, ∃ w ∈ offered', v.eqv w = true := by
  have hbuilt : ∀ v ∈ offered, v.Built := fun v hv => (h v hv).1
  constructor
  · intro hsets v hv
    -- an item stands for the value, and that item has a partner, which was offered
    have hself : v.eqv v = true := (h v hv).1.eqv_self_iff.2 (h v hv).2
    have hcontains := (contains_ofItems_iff element hbuilt (h v hv).1).2 ⟨v, hv, hself⟩
    obtain ⟨item, hitem, hiv⟩ := contains_iff.1 hcontains
    obtain ⟨w, hw, hiw⟩ := hsets item hitem
    have hitem := hbuilt item (mem_ofItems hitem)
    have hw := mem_ofItems hw
    have hvi : v.eqv item = true := hitem.comparable.symm v (h v hv).1 hiv
    exact ⟨w, hw, (h v hv).1.comparable.trans item w hitem (h' w hw) hvi hiw⟩
  · intro hoffered v hv
    have hv := mem_ofItems hv
    obtain ⟨w, hw, hvw⟩ := hoffered v hv
    have hwv : w.eqv v = true := (hbuilt v hv).comparable.symm w (h' w hw) hvw
    have hcontains := (contains_ofItems_iff element h' (hbuilt v hv)).2 ⟨w, hw, hwv⟩
    obtain ⟨item, hitem, hiv⟩ := contains_iff.1 hcontains
    exact ⟨item, hitem, (h' item (mem_ofItems hitem)).comparable.symm v (hbuilt v hv) hiv⟩

/-- Sets ignore the order and the repetition of what they are offered. Two sets of one element type are
equal exactly if each value offered to either is equal to one offered to the other, and then they are of
the same size. So it is for lists with the same members, and for permutations of a list. -/
theorem ofItems_eqv (element : Ty) {offered offered' : List Value}
    (h : ∀ v ∈ offered, v.Built ∧ ¬ v.HoldsNaN) (h' : ∀ v ∈ offered', v.Built ∧ ¬ v.HoldsNaN) :
    let s := ofItems element offered
    let t := ofItems element offered'
    (s.toValue.eqv t.toValue = true ↔
      (∀ v ∈ offered, ∃ w ∈ offered', v.eqv w = true) ∧
        ∀ w ∈ offered', ∃ v ∈ offered, w.eqv v = true) ∧
    (s.toValue.eqv t.toValue = true → s.items.length = t.items.length) ∧
    ((∀ v, v ∈ offered ↔ v ∈ offered') → s.toValue.eqv t.toValue = true) ∧
    (offered.Perm offered' → s.toValue.eqv t.toValue = true) := by
  intro s t
  have hs : s.toValue.Built := .ofItems fun v hv => (h v hv).1
  have ht : t.toValue.Built := .ofItems fun v hv => (h' v hv).1
  have helement : s.element = t.element := by rw [ofItems_element, ofItems_element]
  have hiff : s.toValue.eqv t.toValue = true ↔
      (∀ v ∈ offered, ∃ w ∈ offered', v.eqv w = true) ∧
        ∀ w ∈ offered', ∃ v ∈ offered, w.eqv v = true := by
    rw [hs.eqv_sets_iff ht, inclusion_ofItems_iff h fun v hv => (h' v hv).1,
      inclusion_ofItems_iff h' fun v hv => (h v hv).1]
    exact and_iff_right helement
  have hmembers : (∀ v, v ∈ offered ↔ v ∈ offered') → s.toValue.eqv t.toValue = true := by
    intro hsame
    refine hiff.2 ⟨fun v hv => ⟨v, (hsame v).1 hv, ?_⟩, fun w hw => ⟨w, (hsame w).2 hw, ?_⟩⟩
    · exact (h v hv).1.eqv_self_iff.2 (h v hv).2
    · exact (h' w hw).1.eqv_self_iff.2 (h' w hw).2
  refine ⟨hiff, fun heqv => ?_, hmembers, fun hperm => hmembers fun v => hperm.mem_iff⟩
  exact ((Value.eqv_set_iff _ _ _ _).1 heqv).2.1

/-- Two zeros and two sets of sets: each set keeps what it is offered first. -/
theorem ofItems_eqv_zeros :
    let zero : Value := .double ⟨0⟩
    let minusZero : Value := .double ⟨0x8000000000000000⟩
    let ones (items : List Value) : Value := (ofItems .int items).toValue
    let s := ofItems .any [zero, ones [.int 1, .int 2], zero]
    let t := ofItems .any [ones [.int 2, .int 1, .int 2], minusZero]
    s.items = [zero, ones [.int 1, .int 2]] ∧ t.items = [ones [.int 2, .int 1], minusZero] ∧
      s.toValue.eqv t.toValue = true ∧ s.items.length = t.items.length := by
  intro zero minusZero ones s t
  have hplain : ∀ x : Binary64, x.isNaN = false →
      (Value.double x).Built ∧ ¬ (Value.double x).HoldsNaN := by
    refine fun x hx => ⟨.double x, ?_⟩
    rintro ⟨h⟩
    rw [hx] at h
    cases h
  have hones : ∀ items : List Value, (∀ v ∈ items, ∃ n, v = .int n) →
      (ones items).Built ∧ ¬ (ones items).HoldsNaN := by
    intro items hitems
    refine ⟨.ofItems fun v hv => ?_, ?_⟩
    · obtain ⟨n, rfl⟩ := hitems v hv
      exact .int n
    · rintro (_ | _ | _ | ⟨hv, h⟩)
      obtain ⟨n, rfl⟩ := hitems _ (mem_ofItems hv)
      cases h
  have hzero := hplain ⟨0⟩ (by decide)
  have hminusZero := hplain ⟨0x8000000000000000⟩ (by decide)
  have h : ∀ v ∈ [zero, ones [.int 1, .int 2], zero], v.Built ∧ ¬ v.HoldsNaN := by
    simp [hzero, hones, zero]
  have h' : ∀ v ∈ [ones [.int 2, .int 1, .int 2], minusZero], v.Built ∧ ¬ v.HoldsNaN := by
    simp [hminusZero, hones, minusZero]
  obtain ⟨hiff, hlength, -, -⟩ := ofItems_eqv .any h h'
  have heqv : s.toValue.eqv t.toValue = true := hiff.2 (by decide)
  exact ⟨rfl, rfl, heqv, hlength heqv⟩

end ValueSet

end AccessPath
