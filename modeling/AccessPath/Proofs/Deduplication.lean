import AccessPath.Proofs.Predicates
import AccessPath.Proofs.SetHistories

/-!
# Sequences as sets

Of items that are equal to each other `to_set` keeps the first, and the items that it keeps stay in their order. An
item that it leaves out is equal to one that was kept before it (`ValueSet.KeptAt`), and after each insertion this is
so of the values offered till then (`KeptAt.insert`).

What is kept does not depend on the element type. If no two of the values are equal, all of them are kept
(`ValueSet.ofItems_of_distinct`), and so are the items of every set. So a set comes back from `to_list` as it was,
and `to_set` changes nothing but the element type of what has been a set before (`Sequence.toSet_dedup`).

A NaN is equal to nothing and is never left out.
-/

namespace AccessPath

namespace ValueSet

/-- The kept values are those at the given places, in order. A value at another place is equal to one that was kept
before it. -/
structure KeptAt (offered kept : List Value) (places : List Nat) : Prop where
  increasing : places.Pairwise (· < ·)
  values : places.map (offered[·]?) = kept.map some
  dropped : ∀ j v, offered[j]? = some v → j ∉ places →
    ∃ i ∈ places, i < j ∧ ∃ w, offered[i]? = some w ∧ w.eqv v = true

namespace KeptAt

variable {offered kept : List Value} {places : List Nat}

theorem lt_length (h : KeptAt offered kept places) {i : Nat} (hi : i ∈ places) : i < offered.length := by
  have hmem : offered[i]? ∈ kept.map some := h.values ▸ List.mem_map_of_mem hi
  obtain ⟨w, -, hw⟩ := List.mem_map.mp hmem
  exact (List.getElem?_eq_some_iff.mp hw.symm).1

theorem exists_place (h : KeptAt offered kept places) {w : Value} (hw : w ∈ kept) :
    ∃ i ∈ places, offered[i]? = some w := by
  have hmem : some w ∈ places.map (offered[·]?) := h.values ▸ List.mem_map_of_mem hw
  exact List.mem_map.mp hmem

/-- The places stay the same when another value is offered. -/
theorem values_append (h : KeptAt offered kept places) (v : Value) :
    places.map ((offered ++ [v])[·]?) = kept.map some := by
  rw [← h.values]
  exact List.map_congr_left fun i hi => List.getElem?_append_left (h.lt_length hi)

/-- What was left out stays so when another value is offered. -/
theorem dropped_append (h : KeptAt offered kept places) (v : Value) {j : Nat} (hlt : j < offered.length)
    {x : Value} (hx : (offered ++ [v])[j]? = some x) (hj : j ∉ places) :
    ∃ i ∈ places, i < j ∧ ∃ w, (offered ++ [v])[i]? = some w ∧ w.eqv x = true := by
  rw [List.getElem?_append_left hlt] at hx
  obtain ⟨i, hi, hij, w, hw, hwx⟩ := h.dropped j x hx hj
  exact ⟨i, hi, hij, w, by rw [List.getElem?_append_left (h.lt_length hi), hw], hwx⟩

theorem keep (h : KeptAt offered kept places) (v : Value) :
    KeptAt (offered ++ [v]) (kept ++ [v]) (places ++ [offered.length]) where
  increasing := by
    refine List.pairwise_append.mpr ⟨h.increasing, List.pairwise_singleton _ _, fun i hi j hj => ?_⟩
    rw [List.mem_singleton.mp hj]
    exact h.lt_length hi
  values := by simp [h.values_append v]
  dropped j x hx hj := by
    rw [List.mem_append, List.mem_singleton, not_or] at hj
    have hle := (List.getElem?_eq_some_iff.mp hx).1
    rw [List.length_append, List.length_singleton] at hle
    obtain ⟨i, hi, hrest⟩ := h.dropped_append v (by omega) hx hj.1
    exact ⟨i, List.mem_append_left _ hi, hrest⟩

theorem leaveOut (h : KeptAt offered kept places) {v w : Value} (hw : w ∈ kept) (hwv : w.eqv v = true) :
    KeptAt (offered ++ [v]) kept places where
  increasing := h.increasing
  values := h.values_append v
  dropped j x hx hj := by
    by_cases hlt : j < offered.length
    · exact h.dropped_append v hlt hx hj
    · have hle := (List.getElem?_eq_some_iff.mp hx).1
      rw [List.length_append, List.length_singleton] at hle
      obtain rfl : j = offered.length := by omega
      obtain rfl : v = x := by simpa using hx
      obtain ⟨i, hi, hiw⟩ := h.exists_place hw
      exact ⟨i, hi, h.lt_length hi, w, by rw [List.getElem?_append_left (h.lt_length hi), hiw], hwv⟩

/-- One more value is offered: it is kept, or left out for an item that is equal to it. -/
theorem insert {s : ValueSet} (h : KeptAt offered s.items places) (v : Value) :
    ∃ places', KeptAt (offered ++ [v]) (s.insert v).2.items places' := by
  unfold ValueSet.insert
  split
  · next hcontains =>
    obtain ⟨item, hitem, hiv⟩ := contains_iff.mp hcontains
    exact ⟨places, h.leaveOut hitem hiv⟩
  · exact ⟨_, h.keep v⟩

theorem insertAll {s : ValueSet} (h : KeptAt offered s.items places) (vs : List Value) :
    ∃ places', KeptAt (offered ++ vs) (s.insertAll vs).items places' := by
  induction vs generalizing s offered places with
  | nil =>
    rw [List.append_nil]
    exact ⟨places, h⟩
  | cons v vs ih =>
    obtain ⟨places', hv⟩ := h.insert v
    have hrest := ih hv
    rwa [List.append_assoc] at hrest

end KeptAt

theorem exists_keptAt_ofItems (element : Ty) (offered : List Value) :
    ∃ places, KeptAt offered (ofItems element offered).items places := by
  have hempty : KeptAt [] (empty element).items [] := ⟨.nil, rfl, nofun⟩
  exact hempty.insertAll offered

/-! Sets with the same items keep the same -/

theorem insert_items_congr {s t : ValueSet} (h : s.items = t.items) (v : Value) :
    (s.insert v).2.items = (t.insert v).2.items := by
  have hcontains : s.contains v = t.contains v := by rw [contains, contains, h]
  rw [insert, insert, hcontains]
  split
  · exact h
  · exact congrArg (· ++ [v]) h

theorem insertAll_items_congr {s t : ValueSet} (h : s.items = t.items) (vs : List Value) :
    (s.insertAll vs).items = (t.insertAll vs).items := by
  induction vs generalizing s t with
  | nil => exact h
  | cons v vs ih => exact ih (insert_items_congr h v)

theorem ofItems_items (element element' : Ty) (offered : List Value) :
    (ofItems element offered).items = (ofItems element' offered).items :=
  insertAll_items_congr (s := empty element) (t := empty element') rfl offered

/-! Values that are unequal in pairs -/

theorem insertAll_of_distinct {s : ValueSet} {vs : List Value} (h : Distinct (s.items ++ vs)) :
    (s.insertAll vs).items = s.items ++ vs := by
  induction vs generalizing s with
  | nil => exact (List.append_nil _).symm
  | cons v vs ih =>
    have hunequal : ∀ item ∈ s.items, item.eqv v = false :=
      fun item hitem => (List.pairwise_append.mp h).2.2 item hitem v List.mem_cons_self
    have hinsert := insert_of_added (insert_added_iff.mpr hunequal)
    have hitems : (s.insert v).2.items ++ vs = s.items ++ v :: vs := by simp [hinsert]
    have hrest := ih (s := (s.insert v).2) (by rwa [hitems])
    exact hrest.trans hitems

theorem ofItems_of_distinct {items : List Value} (h : Distinct items) (element : Ty) :
    (ofItems element items).items = items :=
  insertAll_of_distinct (s := empty element) h

end ValueSet

variable {σ : Type}

/-- A list or set that is built has built items. -/
theorem Sequence.built_of_mem {receiver : Value} {items : List Value}
    (hreceiver : receiver = .list items ∨ ∃ element, receiver = .set element items) (hbuilt : receiver.Built) :
    ∀ item ∈ items, item.Built := by
  rcases hreceiver with rfl | ⟨element, rfl⟩
  · cases hbuilt with
    | list h => exact h
  · exact hbuilt.of_mem

theorem Sequence.setOf_eq (m : MethodSig) (items : List Value) :
    setOf m items = .set (m.result.setElement?.getD .any) (ValueSet.ofItems .any items).items := by
  rw [setOf, ValueSet.toValue, ValueSet.ofItems_element, ValueSet.ofItems_items _ .any]

namespace Registry.KeepsSequences

variable {r : Registry σ} {m : MethodSig} {v : Value} {items : List Value}

/-- What is made of the items alone is answered, on the host as it is. -/
theorem ofItems_eq (h : r.KeepsSequences) {f : MethodSig → List Value → Value}
    (hm : Sequence.extensions.lookup m.name = some (Sequence.ofItems f : Extension σ))
    (hitems : Sequence.items m v = .ok items) :
    r.introspector.invokeExtension m v = Action.ofExcept (.ok (f m items)) := by
  rw [h.invokeExtension_eq hm]
  simp only [Sequence.ofItems, hitems]
  rfl

theorem toList_eq (h : r.KeepsSequences) (hm : m.name = "to_list") (hitems : Sequence.items m v = .ok items) :
    r.introspector.invokeExtension m v = Action.ofExcept (.ok (.list items)) := by
  obtain ⟨name, params, result⟩ := m
  obtain rfl : name = "to_list" := hm
  exact h.ofItems_eq (f := fun _ items => .list items) rfl hitems

theorem toSet_eq (h : r.KeepsSequences) (hm : m.name = "to_set") (hitems : Sequence.items m v = .ok items) :
    r.introspector.invokeExtension m v =
      Action.ofExcept (.ok (.set (m.result.setElement?.getD .any) (ValueSet.ofItems .any items).items)) := by
  obtain ⟨name, params, result⟩ := m
  obtain rfl : name = "to_set" := hm
  rw [← Sequence.setOf_eq]
  exact h.ofItems_eq (f := Sequence.setOf) rfl hitems

end Registry.KeepsSequences

namespace Sequence

/-- `to_set` leaves out the repetitions in a sequence, and `to_list` is the way back.

Of a list or a set, `to_set` makes a set with the element type that its result is declared with, or `any`. It keeps
some of the items, in their order, no two of them equal whichever stands on the left, and each item that it leaves
out is equal to one that was kept before it. Of a set it keeps all items, and changes the element type alone: so a
set that was made a list becomes the same set again. What was made a set, and that a list, and that a set again, has
the items of the first set. None of these touches the host. All sets that occur are made by insertion (`Value.Built`),
the receiver included if it is one. -/
theorem toSet_dedup {r : Registry σ} (hr : r.KeepsSequences) {receiver : Value} {items : List Value}
    (hreceiver : receiver = .list items ∨ ∃ element, receiver = .set element items) (hbuilt : receiver.Built) :
    let toSet (result : Ty) (v answer : Value) : Prop :=
      ∀ params, r.introspector.invokeExtension ⟨"to_set", params, result⟩ v = Action.ofExcept (.ok answer)
    let toList (result : Ty) (v answer : Value) : Prop :=
      ∀ params, r.introspector.invokeExtension ⟨"to_list", params, result⟩ v = Action.ofExcept (.ok answer)
    let element (result : Ty) : Ty := result.setElement?.getD .any
    ∃ kept : List Value,
      (∀ result, toSet result receiver (.set (element result) kept)) ∧
      kept.Sublist items ∧
      (∀ i j (hi : i < kept.length) (hj : j < kept.length), i ≠ j → kept[i].eqv kept[j] = false) ∧
      (∃ places, ValueSet.KeptAt items kept places) ∧
      (∀ result, toList result receiver (.list items)) ∧
      (∀ result, toSet result (.list items) (.set (element result) kept)) ∧
      (∀ e, receiver = .set e items → kept = items ∧ toSet (.set e) (.list items) receiver) ∧
      (∀ result e, toList result (.set e kept) (.list kept)) ∧
      ∀ result, toSet result (.list kept) (.set (element result) kept) := by
  intro toSet toList element
  let kept := (ValueSet.ofItems .any items).items
  have hdistinct : ValueSet.Distinct kept := ValueSet.ofItems_distinct .any items
  have hkept : (ValueSet.ofItems .any kept).items = kept := ValueSet.ofItems_of_distinct hdistinct .any
  have hitems : ∀ m, Sequence.items m receiver = .ok items := by
    rcases hreceiver with rfl | ⟨e, rfl⟩ <;> exact fun _ => rfl
  have hmembers := built_of_mem hreceiver hbuilt
  have hunequal := ValueSet.unequal_of_distinct hdistinct fun item hitem => hmembers item (ValueSet.mem_ofItems hitem)
  have hlist : ∀ result, toSet result (.list items) (.set (element result) kept) :=
    fun result params => hr.toSet_eq rfl rfl
  have hagain : ∀ result, toSet result (.list kept) (.set (element result) kept) := by
    intro result params
    rw [hr.toSet_eq rfl rfl, hkept]
  refine ⟨kept, fun result params => hr.toSet_eq rfl (hitems _), ValueSet.ofItems_sublist .any items, hunequal,
    ValueSet.exists_keptAt_ofItems .any items, fun result params => hr.toList_eq rfl (hitems _), hlist, ?_,
    fun result e params => hr.toList_eq rfl rfl, hagain⟩
  rintro e rfl
  have hall : kept = items := ValueSet.ofItems_of_distinct hbuilt.distinct .any
  refine ⟨hall, ?_⟩
  have hback := hlist (.set e)
  rwa [hall] at hback

/-- Zeros of both signs, a NaN that occurs twice, and two sets of the same members: the second zero and the second
set are left out, each for one that stands before it. What is left, as a set or as a list, stays as it is. -/
theorem toSet_dedup_zeros_and_nans :
    let r : Registry Unit := Registry.withSequences
    let zero : Value := .double ⟨0⟩
    let minusZero : Value := .double ⟨0x8000000000000000⟩
    let nan : Value := .double ⟨0x7FF8000000000000⟩
    let ints (items : List Value) : Value := (ValueSet.ofItems .int items).toValue
    let items := [zero, nan, ints [.int 1, .int 2], minusZero, nan, ints [.int 2, .int 1]]
    let kept := [zero, nan, ints [.int 1, .int 2], nan]
    let call (name : String) (result : Ty) (v : Value) : Except EvalError Value × Unit :=
      r.introspector.invokeExtension ⟨name, [], result⟩ v ()
    r.KeepsSequences ∧ (Value.list items).Built ∧ (Value.set .any kept).Built ∧
      call "to_set" (.set .double) (.list items) = (.ok (.set .double kept), ()) ∧
      (∃ places, ValueSet.KeptAt items kept places) ∧
      (∀ i j (hi : i < kept.length) (hj : j < kept.length), i ≠ j → kept[i].eqv kept[j] = false) ∧
      call "to_set" .void (.set .any kept) = (.ok (.set .any kept), ()) ∧
      call "to_list" .any (.set .any kept) = (.ok (.list kept), ()) ∧
      call "to_set" (.set .any) (.list kept) = (.ok (.set .any kept), ()) := by
  intro r zero minusZero nan ints items kept call
  have hr : r.KeepsSequences := fun _ _ h => h
  have hints : (ints [.int 1, .int 2]).Built := .ofItems (by simp [Value.Built.int])
  have hints' : (ints [.int 2, .int 1]).Built := .ofItems (by simp [Value.Built.int])
  have hmembers : ∀ v ∈ items, v.Built := by
    simp [items, hints, hints', Value.Built.double, zero, minusZero, nan]
  have hset : (Value.set .any kept).Built := .set hmembers rfl
  obtain ⟨k, htoSet, -, hunequal, hplaces, -⟩ := toSet_dedup hr (.inl rfl) (Value.Built.list hmembers)
  have hcall : call "to_set" (.set .double) (.list items) = (.ok (.set .double k), ()) :=
    congrFun (htoSet (.set .double) []) ()
  obtain rfl : kept = k := by
    have hrun : call "to_set" (.set .double) (.list items) = (.ok (.set .double kept), ()) := rfl
    rw [hrun] at hcall
    simpa using hcall
  obtain ⟨k, htoSet, -, -, -, htoList, -, hsame, -⟩ := toSet_dedup hr (.inr ⟨.any, rfl⟩) hset
  obtain ⟨rfl, hback⟩ := hsame .any rfl
  exact ⟨hr, .list hmembers, hset, hcall, hplaces, hunequal, congrFun (htoSet .void []) (),
    congrFun (htoList .any []) (), congrFun (hback []) ()⟩

end Sequence

end AccessPath
