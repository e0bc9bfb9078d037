import AccessPath.Proofs.Insertion

/-!
# Histories of sets

A set is reached from the empty one, or from one that was made of a list, by insertions
(`ValueSet.Reached`). It is the set of all that it was offered on the way, however that was divided up
(`Reached.eq_ofItems`), so what holds of every set of a list holds after any history: its items are some of the
values offered, in their order, no two of them are equal, and it contains what is equal to an offered value,
stored or not (`Reached.invariant`).

A NaN is equal to nothing. It is stored each time that it is offered, and contained never.
-/

namespace AccessPath

namespace ValueSet

variable {s : ValueSet} {v : Value} {element : Ty} {offered vs : List Value}

/-! One insertion -/

/-- A value is added exactly if no item is equal to it. -/
theorem insert_added_iff : (s.insert v).1 = true ↔ ∀ item ∈ s.items, item.eqv v = false := by
  have hcontains : s.contains v = false ↔ ∀ item ∈ s.items, item.eqv v = false := by
    simp [contains]
  rw [← hcontains]
  unfold insert
  split
  · next h => simp [h]
  · next h => simp [h]

theorem insert_of_added (h : (s.insert v).1 = true) : (s.insert v).2 = ⟨s.element, s.items ++ [v]⟩ := by
  unfold insert at h ⊢
  split at h
  · cases h
  · next hnew => rw [if_neg hnew]

theorem insert_of_not_added (h : (s.insert v).1 = false) : (s.insert v).2 = s := by
  unfold insert at h ⊢
  split at h
  · next hcontains => rw [if_pos hcontains]
  · cases h

/-- An insertion keeps what is there, and may add the offered value behind it. -/
theorem insert_sublist (h : s.items.Sublist offered) : (s.insert v).2.items.Sublist (offered ++ [v]) := by
  cases hadded : (s.insert v).1 with
  | true =>
    rw [insert_of_added hadded]
    exact h.append (List.Sublist.refl [v])
  | false =>
    rw [insert_of_not_added hadded]
    exact h.trans (List.sublist_append_left offered [v])

/-! All of them -/

theorem insertAll_sublist (h : s.items.Sublist offered) :
    (s.insertAll vs).items.Sublist (offered ++ vs) := by
  induction vs generalizing s offered with
  | nil =>
    rw [List.append_nil]
    exact h
  | cons v vs ih =>
    have hrest := ih (insert_sublist h (v := v))
    rwa [List.append_assoc] at hrest

theorem ofItems_sublist (element : Ty) (offered : List Value) :
    (ofItems element offered).items.Sublist offered :=
  insertAll_sublist (s := empty element) (List.Sublist.refl [])

/-- Items that are unequal to the later ones are so to the earlier ones too. -/
theorem unequal_of_distinct {items : List Value} (hdistinct : Distinct items)
    (hbuilt : ∀ item ∈ items, item.Built) (i j : Nat) (hi : i < items.length) (hj : j < items.length)
    (hij : i ≠ j) : items[i].eqv items[j] = false := by
  have hlater := List.pairwise_iff_getElem.mp hdistinct
  rcases Nat.lt_or_gt_of_ne hij with hlt | hgt
  · exact hlater i j hi hj hlt
  · have hbi := hbuilt items[i] (List.getElem_mem hi)
    have hbj := hbuilt items[j] (List.getElem_mem hj)
    rw [hbi.eqv_comm hbj]
    exact hlater j i hj hi hgt

/-- The set was reached by insertions from the empty set, or from the set of a list. The values that it
was offered on the way are listed in order. -/
inductive Reached (element : Ty) : List Value → ValueSet → Prop
  | fromEmpty : Reached element [] (empty element)
  | fromList (items : List Value) : Reached element items (ofItems element items)
  | further {offered : List Value} {s : ValueSet} (h : Reached element offered s) (v : Value) :
      Reached element (offered ++ [v]) (s.insert v).2

/-- It does not matter how a history is divided up. -/
theorem Reached.eq_ofItems (h : Reached element offered s) : s = ofItems element offered := by
  induction h with
  | fromEmpty => rfl
  | fromList items => rfl
  | further _ v ih => rw [ih, insert_ofItems]

/-- After any history, the items of a set are some of the values that it was offered, in the order of
offering. An insertion says that it has added the value exactly if no item is equal to it; then the value stands
behind the items, and otherwise the set is as before. No two items at different places are equal, whichever
stands on the left. The set contains a value exactly if a value that it was offered is equal to it, whether or
not that one was stored. -/
theorem Reached.invariant (h : Reached element offered s) :
    s.items.Sublist offered ∧
    (∀ v, ((s.insert v).1 = true ↔ ∀ item ∈ s.items, item.eqv v = false) ∧
      ((s.insert v).1 = true → (s.insert v).2 = ⟨element, s.items ++ [v]⟩ ∧
        (s.insert v).2.items.length = s.items.length + 1) ∧
      ((s.insert v).1 = false → (s.insert v).2 = s)) ∧
    ((∀ w ∈ offered, w.Built) →
      (∀ i j (hi : i < s.items.length) (hj : j < s.items.length), i ≠ j →
        s.items[i].eqv s.items[j] = false) ∧
      ∀ v : Value, v.Built → (s.contains v = true ↔ ∃ w ∈ offered, w.eqv v = true)) := by
  obtain rfl := h.eq_ofItems
  refine ⟨ofItems_sublist element offered, fun v => ⟨insert_added_iff, fun hadded => ?_,
    insert_of_not_added⟩, fun hoffered => ⟨?_, fun v hv => contains_ofItems_iff element hoffered hv⟩⟩
  · rw [insert_of_added hadded, ofItems_element]
    exact ⟨rfl, by simp⟩
  · exact unequal_of_distinct (ofItems_distinct element offered)
      fun item hitem => hoffered item (mem_ofItems hitem)

/-- Zeros of both signs, a NaN offered twice, and a set of the same members in another order: the second zero
and the second set are not stored, and are contained; the NaN is stored twice, and is not. -/
theorem reached_zeros_and_nans :
    let zero : Value := .double ⟨0⟩
    let minusZero : Value := .double ⟨0x8000000000000000⟩
    let nan : Value := .double ⟨0x7FF8000000000000⟩
    let ints (items : List Value) : Value := (ofItems .int items).toValue
    let start := ofItems .any [zero, ints [.int 1, .int 2], nan, zero]
    let s := ((start.insert minusZero).2.insert nan).2.insert (ints [.int 2, .int 1])
    s.1 = false ∧ s.2.items = [zero, ints [.int 1, .int 2], nan, nan] ∧
      (∀ i j (hi : i < s.2.items.length) (hj : j < s.2.items.length), i ≠ j →
        s.2.items[i].eqv s.2.items[j] = false) ∧
      s.2.contains minusZero = true ∧ s.2.contains (ints [.int 2, .int 1]) = true ∧
      s.2.contains nan = false := by
  intro zero minusZero nan ints start s
  let offered := [zero, ints [.int 1, .int 2], nan, zero] ++ [minusZero] ++ [nan] ++ [ints [.int 2, .int 1]]
  have hreached : Reached .any offered s.2 := (((Reached.fromList _).further _).further _).further _
  have hints : ∀ items : List Value, (∀ v ∈ items, ∃ n, v = .int n) → (ints items).Built := by
    intro items hitems
    refine .ofItems fun v hv => ?_
    obtain ⟨n, rfl⟩ := hitems v hv
    exact .int n
  have hoffered : ∀ w ∈ offered, w.Built := by
    simp [offered, hints, Value.Built.double, zero, minusZero, nan]
  obtain ⟨-, -, hbuilt⟩ := hreached.invariant
  obtain ⟨hunequal, hcontains⟩ := hbuilt hoffered
  have hnan : ¬ ∃ w ∈ offered, w.eqv nan = true := by decide
  refine ⟨by decide, rfl, hunequal, (hcontains _ (.double _)).2 (by decide),
    (hcontains _ (hints _ (by simp))).2 (by decide), ?_⟩
  exact Bool.eq_false_iff.mpr fun h => hnan ((hcontains _ (.double _)).1 h)

end ValueSet

end AccessPath
