import Mathlib.Data.List.Perm.Subperm
import Mathlib.Data.List.Nodup
import Mathlib.Data.List.Forall2
import AccessPath.Registry.Introspect

/-!
# Equality of values

Equality of values is symmetric and transitive, and reflexive on the values that hold no NaN. Two sets
are equal if they have one element type and each item of either is equal to an item of the other.

Equality of sets looks at their sizes and at one inclusion only. That is enough because the items of a
set are unequal in pairs: by the pigeonhole principle an inclusion between sets of one size leaves no
item out. So all of this is stated for `Value.Built` values, whose sets are made by insertion.
-/

namespace AccessPath

section Partners

variable {α β : Type} {R : α → β → Prop} {as : List α} {bs : List β}

/-- If no two items share a partner, and each has one, there are as many partners as items. -/
theorem exists_partners (hunshared : as.Pairwise fun a a' => ∀ b, R a b → ¬ R a' b)
    (hpartner : ∀ a ∈ as, ∃ b ∈ bs, R a b) :
    ∃ partners : List β, partners.length = as.length ∧ partners.Nodup ∧ partners ⊆ bs ∧
      ∀ b ∈ partners, ∃ a ∈ as, R a b := by
  induction as with
  | nil => exact ⟨[], rfl, List.nodup_nil, List.nil_subset _, fun b hb => absurd hb List.not_mem_nil⟩
  | cons a as ih =>
    obtain ⟨hhead, htail⟩ := List.pairwise_cons.mp hunshared
    obtain ⟨b, hb, hab⟩ := hpartner a List.mem_cons_self
    obtain ⟨partners, hlength, hnodup, hsubset, hfrom⟩ :=
      ih htail fun a' ha' => hpartner a' (List.mem_cons_of_mem _ ha')
    have hnew : b ∉ partners := by
      intro hmem
      obtain ⟨a', ha', hab'⟩ := hfrom b hmem
      exact hhead a' ha' b hab hab'
    refine ⟨b :: partners, by simp [hlength], List.nodup_cons.mpr ⟨hnew, hnodup⟩,
      List.cons_subset.mpr ⟨hb, hsubset⟩, ?_⟩
    intro b' hb'
    rcases List.mem_cons.mp hb' with rfl | hmem
    · exact ⟨a, List.mem_cons_self, hab⟩
    · obtain ⟨a', ha', hab'⟩ := hfrom b' hmem
      exact ⟨a', List.mem_cons_of_mem _ ha', hab'⟩

theorem length_le_of_partners (hunshared : as.Pairwise fun a a' => ∀ b, R a b → ¬ R a' b)
    (hpartner : ∀ a ∈ as, ∃ b ∈ bs, R a b) : as.length ≤ bs.length := by
  obtain ⟨partners, hlength, hnodup, hsubset, -⟩ := exists_partners hunshared hpartner
  rw [← hlength]
  exact (List.subperm_of_subset hnodup hsubset).length_le

/-- Pigeonhole: where there are no more candidates than items, every candidate is a partner. -/
theorem partner_of_length_le (hunshared : as.Pairwise fun a a' => ∀ b, R a b → ¬ R a' b)
    (hpartner : ∀ a ∈ as, ∃ b ∈ bs, R a b) (hlength : bs.length ≤ as.length) :
    ∀ b ∈ bs, ∃ a ∈ as, R a b := by
  obtain ⟨partners, hpartners, hnodup, hsubset, hfrom⟩ := exists_partners hunshared hpartner
  have hperm := (List.subperm_of_subset hnodup hsubset).perm_of_length_le (by omega)
  exact fun b hb => hfrom b (hperm.mem_iff.mpr hb)

end Partners

section OneByOne

variable {α : Type} {R : α → α → Prop} {as bs cs : List α}

theorem forall₂_symm (h : List.Forall₂ R as bs) (hsymm : ∀ a ∈ as, ∀ b ∈ bs, R a b → R b a) :
    List.Forall₂ R bs as := by
  induction h with
  | nil => exact .nil
  | cons hab _ ih =>
    refine .cons (hsymm _ List.mem_cons_self _ List.mem_cons_self hab) (ih fun a ha b hb => ?_)
    exact hsymm a (List.mem_cons_of_mem _ ha) b (List.mem_cons_of_mem _ hb)

theorem forall₂_trans (hab : List.Forall₂ R as bs) (hbc : List.Forall₂ R bs cs)
    (htrans : ∀ a ∈ as, ∀ b ∈ bs, ∀ c ∈ cs, R a b → R b c → R a c) : List.Forall₂ R as cs := by
  induction hab generalizing cs with
  | nil => exact hbc
  | cons hab _ ih =>
    cases hbc with
    | cons hbc htail =>
      refine .cons
        (htrans _ List.mem_cons_self _ List.mem_cons_self _ List.mem_cons_self hab hbc)
        (ih htail fun a ha b hb c hc => ?_)
      exact htrans a (List.mem_cons_of_mem _ ha) b (List.mem_cons_of_mem _ hb) c
        (List.mem_cons_of_mem _ hc)

end OneByOne

namespace ValueSet

/-- No item is equal to a later one. -/
def Distinct (items : List Value) : Prop := items.Pairwise fun a b => a.eqv b = false

theorem insert_element (s : ValueSet) (v : Value) : (s.insert v).2.element = s.element := by
  unfold insert
  split <;> rfl

theorem mem_insert {s : ValueSet} {v w : Value} (h : w ∈ (s.insert v).2.items) :
    w ∈ s.items ∨ w = v := by
  unfold insert at h
  split at h
  · exact .inl h
  · simpa using h

theorem insert_distinct {s : ValueSet} (h : Distinct s.items) (v : Value) :
    Distinct (s.insert v).2.items := by
  unfold insert
  split
  · exact h
  · next hnew =>
    have hunequal : ∀ item ∈ s.items, item.eqv v = false := by simpa [contains] using hnew
    exact List.pairwise_append.mpr ⟨h, List.pairwise_singleton _ _, by simpa using hunequal⟩

theorem insertAll_element (s : ValueSet) (vs : List Value) : (s.insertAll vs).element = s.element := by
  induction vs generalizing s with
  | nil => rfl
  | cons v vs ih => exact (ih (s.insert v).2).trans (insert_element s v)

theorem mem_insertAll {s : ValueSet} {vs : List Value} {w : Value}
    (h : w ∈ (s.insertAll vs).items) : w ∈ s.items ∨ w ∈ vs := by
  induction vs generalizing s with
  | nil => exact .inl h
  | cons v vs ih =>
    rcases ih h with hmem | hmem
    · rcases mem_insert hmem with hold | rfl
      · exact .inl hold
      · exact .inr List.mem_cons_self
    · exact .inr (List.mem_cons_of_mem _ hmem)

theorem insertAll_distinct {s : ValueSet} (h : Distinct s.items) (vs : List Value) :
    Distinct (s.insertAll vs).items := by
  induction vs generalizing s with
  | nil => exact h
  | cons v vs ih => exact ih (insert_distinct h v)

theorem ofItems_element (element : Ty) (offered : List Value) :
    (ofItems element offered).element = element :=
  insertAll_element _ _

theorem mem_ofItems {element : Ty} {offered : List Value} {v : Value}
    (h : v ∈ (ofItems element offered).items) : v ∈ offered :=
  (mem_insertAll h).resolve_left List.not_mem_nil

theorem ofItems_distinct (element : Ty) (offered : List Value) :
    Distinct (ofItems element offered).items :=
  insertAll_distinct (s := empty element) List.Pairwise.nil offered

theorem ofItems_nil (element : Ty) : (ofItems element []).items = [] := rfl

theorem insert_ofItems (element : Ty) (offered : List Value) (v : Value) :
    ((ofItems element offered).insert v).2 = ofItems element (offered ++ [v]) := by
  simp [ofItems, insertAll]

end ValueSet

namespace Value

/-- The sets inside the value, however deep, are made by insertion: they start empty and are offered
built values one by one. -/
inductive Built : Value → Prop
  | absent : Built .absent
  | bool (b : Bool) : Built (.bool b)
  | int (n : Int32) : Built (.int n)
  | long (n : Int64) : Built (.long n)
  | double (x : Binary64) : Built (.double x)
  | string (s : String) : Built (.string s)
  | object (ref : ObjectRef) : Built (.object ref)
  | record {name : String} {fields : List (String × Value)} (h : ∀ f ∈ fields, Built f.2) :
      Built (.record name fields)
  | list {items : List Value} (h : ∀ v ∈ items, Built v) : Built (.list items)
  | set {element : Ty} {offered items : List Value} (h : ∀ v ∈ offered, Built v)
      (hitems : (ValueSet.ofItems element offered).items = items) : Built (.set element items)

/-- A NaN occurs somewhere inside the value. -/
inductive HoldsNaN : Value → Prop
  | double {x : Binary64} (h : x.isNaN = true) : HoldsNaN (.double x)
  | field {name : String} {fields : List (String × Value)} {f : String × Value} (hf : f ∈ fields)
      (h : HoldsNaN f.2) : HoldsNaN (.record name fields)
  | inList {items : List Value} {v : Value} (hv : v ∈ items) (h : HoldsNaN v) :
      HoldsNaN (.list items)
  | inSet {element : Ty} {items : List Value} {v : Value} (hv : v ∈ items) (h : HoldsNaN v) :
      HoldsNaN (.set element items)

theorem Built.ofItems {element : Ty} {offered : List Value} (h : ∀ v ∈ offered, v.Built) :
    (ValueSet.ofItems element offered).toValue.Built := by
  rw [ValueSet.toValue, ValueSet.ofItems_element]
  exact .set h rfl

theorem Built.empty (element : Ty) : (ValueSet.empty element).toValue.Built :=
  Built.set (fun _ h => absurd h List.not_mem_nil) (ValueSet.ofItems_nil element)

theorem Built.insert {s : ValueSet} {v : Value} (hs : s.toValue.Built) (hv : v.Built) :
    (s.insert v).2.toValue.Built := by
  obtain ⟨element, items⟩ := s
  cases hs with
  | @set _ offered _ h hitems =>
    have hs : ValueSet.ofItems element offered = ⟨element, items⟩ :=
      congrArg₂ ValueSet.mk (ValueSet.ofItems_element element offered) hitems
    rw [← hs, ValueSet.insert_ofItems]
    refine Built.ofItems fun w hw => ?_
    rcases List.mem_append.mp hw with hmem | hmem
    · exact h w hmem
    · rw [List.mem_singleton.mp hmem]
      exact hv

theorem Built.of_mem {element : Ty} {items : List Value} (h : (Value.set element items).Built) :
    ∀ v ∈ items, v.Built := by
  cases h with
  | set h hitems => exact fun v hv => h v (ValueSet.mem_ofItems (hitems ▸ hv))

theorem Built.distinct {element : Ty} {items : List Value} (h : (Value.set element items).Built) :
    ValueSet.Distinct items := by
  cases h with
  | set h hitems => exact hitems ▸ ValueSet.ofItems_distinct _ _

/-! What equality compares -/

theorem eqvAll_iff (as bs : List Value) :
    eqvAll as bs = true ↔ List.Forall₂ (fun a b => a.eqv b = true) as bs := by
  induction as generalizing bs with
  | nil => cases bs <;> simp [eqvAll]
  | cons a as ih => cases bs <;> simp [eqvAll, ih]

theorem eqvField_iff (f g : String × Value) :
    eqvField f g = true ↔ f.1 = g.1 ∧ f.2.eqv g.2 = true := by
  obtain ⟨n, a⟩ := f
  obtain ⟨m, b⟩ := g
  simp [eqvField]

theorem eqvFields_iff (fs gs : List (String × Value)) :
    eqvFields fs gs = true ↔ List.Forall₂ (fun f g => f.1 = g.1 ∧ f.2.eqv g.2 = true) fs gs := by
  induction fs generalizing gs with
  | nil => cases gs <;> simp [eqvFields]
  | cons f fs ih => cases gs <;> simp [eqvFields, eqvField_iff, ih]

theorem eachIn_iff (as bs : List Value) :
    eachIn as bs = true ↔ ∀ a ∈ as, ∃ b ∈ bs, a.eqv b = true := by
  induction as with
  | nil => simp [eachIn]
  | cons a as ih => simp [eachIn, ih]

theorem eqv_set_iff (e f : Ty) (as bs : List Value) :
    (Value.set e as).eqv (.set f bs) = true ↔
      e = f ∧ as.length = bs.length ∧ ∀ a ∈ as, ∃ b ∈ bs, a.eqv b = true := by
  simp [eqv, eachIn_iff, and_assoc]

/-- Equality with the value can be turned round, and can be followed by another one. -/
structure Comparable (a : Value) : Prop where
  symm : ∀ b : Value, b.Built → a.eqv b = true → b.eqv a = true
  trans : ∀ b c : Value, b.Built → c.Built → a.eqv b = true → b.eqv c = true → a.eqv c = true

theorem comparable_double (x : Binary64) : (Value.double x).Comparable := by
  refine ⟨fun b _ hab => ?_, fun b c _ _ hab hbc => ?_⟩
  · cases b with
    | double y =>
      rw [eqv] at hab ⊢
      rw [Binary64.eqv_comm, hab]
    | _ => simp [eqv] at hab
  · cases b with
    | double y =>
      cases c with
      | double z =>
        rw [eqv] at hab hbc ⊢
        exact Binary64.eqv_trans hab hbc
      | _ => simp [eqv] at hbc
    | _ => simp [eqv] at hab

theorem comparable_record {name : String} {fields : List (String × Value)}
    (h : ∀ f ∈ fields, f.2.Comparable) : (Value.record name fields).Comparable := by
  refine ⟨fun b hb hab => ?_, fun b c hb hc hab hbc => ?_⟩
  · cases hb with
    | record hgs =>
      simp only [eqv, Bool.and_eq_true, decide_eq_true_eq, eqvFields_iff] at hab ⊢
      refine ⟨hab.1.symm, forall₂_symm hab.2 fun f hf g hg hfg => ?_⟩
      exact ⟨hfg.1.symm, (h f hf).symm g.2 (hgs g hg) hfg.2⟩
    | _ => simp [eqv] at hab
  · cases hb with
    | record hgs =>
      cases hc with
      | record hks =>
        simp only [eqv, Bool.and_eq_true, decide_eq_true_eq, eqvFields_iff] at hab hbc ⊢
        refine ⟨hab.1.trans hbc.1, forall₂_trans hab.2 hbc.2 fun f hf g hg k hk hfg hgk => ?_⟩
        exact ⟨hfg.1.trans hgk.1, (h f hf).trans g.2 k.2 (hgs g hg) (hks k hk) hfg.2 hgk.2⟩
      | _ => simp [eqv] at hbc
    | _ => simp [eqv] at hab

theorem comparable_list {items : List Value} (h : ∀ v ∈ items, v.Comparable) :
    (Value.list items).Comparable := by
  refine ⟨fun b hb hab => ?_, fun b c hb hc hab hbc => ?_⟩
  · cases hb with
    | list hbs =>
      simp only [eqv, eqvAll_iff] at hab ⊢
      exact forall₂_symm hab fun a ha b hb => (h a ha).symm b (hbs b hb)
    | _ => simp [eqv] at hab
  · cases hb with
    | list hbs =>
      cases hc with
      | list hcs =>
        simp only [eqv, eqvAll_iff] at hab hbc ⊢
        exact forall₂_trans hab hbc fun a ha b hb c hc => (h a ha).trans b c (hbs b hb) (hcs c hc)
      | _ => simp [eqv] at hbc
    | _ => simp [eqv] at hab

/-- Of two unequal items no value is a partner of both. -/
theorem unshared_of_distinct {items : List Value} (hdistinct : ValueSet.Distinct items)
    (hbuilt : ∀ v ∈ items, v.Built) (h : ∀ v ∈ items, v.Comparable) :
    items.Pairwise fun a a' => ∀ b : Value,
      (b.Built ∧ a.eqv b = true) → ¬ (b.Built ∧ a'.eqv b = true) := by
  refine List.Pairwise.imp_of_mem (fun {a a'} ha ha' hne b hb hb' => ?_) hdistinct
  have hback : b.eqv a' = true := (h a' ha').symm b hb'.1 hb'.2
  have hequal : a.eqv a' = true := (h a ha).trans b a' hb.1 (hbuilt a' ha') hb.2 hback
  rw [hne] at hequal
  cases hequal

theorem comparable_set {element : Ty} {items : List Value} (hset : (Value.set element items).Built)
    (h : ∀ v ∈ items, v.Comparable) : (Value.set element items).Comparable := by
  refine ⟨fun b hb hab => ?_, fun b c hb hc hab hbc => ?_⟩
  · cases b with
    | set f bs =>
      rw [eqv_set_iff] at hab ⊢
      obtain ⟨helement, hlength, hpartner⟩ := hab
      have hunshared := unshared_of_distinct hset.distinct hset.of_mem h
      have hbuilt : ∀ a ∈ items, ∃ b ∈ bs, b.Built ∧ a.eqv b = true := by
        intro a ha
        obtain ⟨b, hmem, hab⟩ := hpartner a ha
        exact ⟨b, hmem, hb.of_mem b hmem, hab⟩
      have hcovered := partner_of_length_le hunshared hbuilt (Nat.le_of_eq hlength.symm)
      refine ⟨helement.symm, hlength.symm, fun b hmem => ?_⟩
      obtain ⟨a, ha, hb, hab⟩ := hcovered b hmem
      exact ⟨a, ha, (h a ha).symm b hb hab⟩
    | _ => simp [eqv] at hab
  · cases b with
    | set f bs =>
      cases c with
      | set g cs =>
        rw [eqv_set_iff] at hab hbc ⊢
        refine ⟨hab.1.trans hbc.1, hab.2.1.trans hbc.2.1, fun a ha => ?_⟩
        obtain ⟨b, hmem, heq⟩ := hab.2.2 a ha
        obtain ⟨c, hmem', heq'⟩ := hbc.2.2 b hmem
        exact ⟨c, hmem', (h a ha).trans b c (hb.of_mem b hmem) (hc.of_mem c hmem') heq heq'⟩
      | _ => simp [eqv] at hbc
    | _ => simp [eqv] at hab

theorem Built.comparable {a : Value} (ha : a.Built) : a.Comparable := by
  induction ha with
  | absent | bool _ | int _ | long _ | string _ | object _ =>
    refine ⟨fun b _ hab => ?_, fun b c _ _ hab hbc => ?_⟩
    · cases b <;> simp_all [eqv, ObjectRef.same]
    · cases b <;> cases c <;> simp_all [eqv, ObjectRef.same]
  | double x => exact comparable_double x
  | record _ ih => exact comparable_record ih
  | list _ ih => exact comparable_list ih
  | set hoffered hitems ih =>
    exact comparable_set (.set hoffered hitems) fun v hv => ih v (ValueSet.mem_ofItems (hitems ▸ hv))

theorem Built.eqv_comm {a b : Value} (ha : a.Built) (hb : b.Built) : a.eqv b = b.eqv a :=
  Bool.eq_iff_iff.mpr ⟨ha.comparable.symm b hb, hb.comparable.symm a ha⟩

/-- What is equal to anything is equal to itself. -/
theorem Built.eqv_self_of_eqv {a b : Value} (ha : a.Built) (hb : b.Built) (h : a.eqv b = true) :
    a.eqv a = true :=
  ha.comparable.trans b a hb ha h (ha.comparable.symm b hb h)

/-- A value is equal to itself exactly if it holds no NaN. -/
theorem Built.eqv_self_iff {a : Value} (ha : a.Built) : a.eqv a = true ↔ ¬ a.HoldsNaN := by
  induction ha with
  | absent | bool _ | int _ | long _ | string _ | object _ =>
    refine iff_of_true (by simp [eqv, ObjectRef.same]) fun h => ?_
    cases h
  | double x =>
    rw [eqv, Binary64.eqv_self, Bool.not_eq_true']
    constructor
    · rintro hx ⟨h⟩
      rw [hx] at h
      cases h
    · exact fun h => Bool.eq_false_iff.mpr fun hx => h (.double hx)
  | @record name fields _ ih =>
    simp only [eqv, decide_true, Bool.true_and, eqvFields_iff, List.forall₂_same, true_and]
    constructor
    · rintro hself (_ | ⟨hf, h⟩)
      exact (ih _ hf).mp (hself _ hf) h
    · exact fun h f hf => (ih f hf).mpr fun hnan => h (.field hf hnan)
  | @list items _ ih =>
    simp only [eqv, eqvAll_iff, List.forall₂_same]
    constructor
    · rintro hself (_ | _ | ⟨hv, h⟩)
      exact (ih _ hv).mp (hself _ hv) h
    · exact fun h v hv => (ih v hv).mpr fun hnan => h (.inList hv hnan)
  | @set element offered items hoffered hitems ih =>
    have hbuilt : ∀ v ∈ items, v.Built := Built.of_mem (.set hoffered hitems)
    have hself : ∀ v ∈ items, (v.eqv v = true ↔ ¬ v.HoldsNaN) :=
      fun v hv => ih v (ValueSet.mem_ofItems (hitems ▸ hv))
    rw [eqv_set_iff]
    constructor
    · rintro ⟨-, -, hpartner⟩ (_ | _ | _ | ⟨hv, h⟩)
      obtain ⟨w, hw, hvw⟩ := hpartner _ hv
      exact (hself _ hv).mp ((hbuilt _ hv).eqv_self_of_eqv (hbuilt w hw) hvw) h
    · exact fun h => ⟨rfl, rfl, fun v hv => ⟨v, hv, (hself v hv).mpr fun hnan => h (.inSet hv hnan)⟩⟩

/-- Sets are equal exactly if they have one element type and each item of either is equal to an item of
the other. A set that holds a NaN fails both sides. -/
theorem Built.eqv_sets_iff {s t : ValueSet} (hs : s.toValue.Built) (ht : t.toValue.Built) :
    s.toValue.eqv t.toValue = true ↔
      s.element = t.element ∧ (∀ v ∈ s.items, ∃ w ∈ t.items, v.eqv w = true) ∧
        ∀ w ∈ t.items, ∃ v ∈ s.items, w.eqv v = true := by
  -- an inclusion of one set in another leaves no room for more items on the left
  have hlength_le : ∀ {s t : ValueSet}, s.toValue.Built → t.toValue.Built →
      (∀ v ∈ s.items, ∃ w ∈ t.items, v.eqv w = true) → s.items.length ≤ t.items.length := by
    intro s t hs ht hinclusion
    refine length_le_of_partners
      (unshared_of_distinct hs.distinct hs.of_mem fun v hv => (hs.of_mem v hv).comparable) ?_
    intro v hv
    obtain ⟨w, hw, hvw⟩ := hinclusion v hv
    exact ⟨w, hw, ht.of_mem w hw, hvw⟩
  constructor
  · intro hst
    have hts := hs.comparable.symm t.toValue ht hst
    rw [ValueSet.toValue, ValueSet.toValue, eqv_set_iff] at hst hts
    exact ⟨hst.1, hst.2.2, hts.2.2⟩
  · rintro ⟨helement, hst, hts⟩
    have hlength := Nat.le_antisymm (hlength_le hs ht hst) (hlength_le ht hs hts)
    rw [ValueSet.toValue, ValueSet.toValue, eqv_set_iff]
    exact ⟨helement, hlength, hst⟩

/-- It does not matter on which side the items of the one set stand in their comparison with those of
the other: equality is that of the element types and sizes, and that the second set contains every item
of the first. -/
theorem Built.eqv_sets_eq_contains {s t : ValueSet} (hs : s.toValue.Built) (ht : t.toValue.Built) :
    s.toValue.eqv t.toValue = (decide (s.element = t.element) &&
      decide (s.items.length = t.items.length) && s.items.all t.contains) := by
  rw [ValueSet.toValue, ValueSet.toValue, Bool.eq_iff_iff, eqv_set_iff]
  simp only [Bool.and_eq_true, decide_eq_true_eq, List.all_eq_true, ValueSet.contains, List.any_eq_true,
    and_assoc]
  refine and_congr_right fun _ => and_congr_right fun _ => forall₂_congr fun v hv => ?_
  refine exists_congr fun w => and_congr_right fun hw => ?_
  rw [(hs.of_mem v hv).eqv_comm (ht.of_mem w hw)]

/-- Equality of values is a partial equivalence: symmetric and transitive, and reflexive on exactly the
values that hold no NaN. Sets are equal exactly if they have one element type and include each other.
The method that every value answers to `equals` answers whether its argument is equal to the receiver, so
it answers the same either way round. -/
theorem eqv_partial_equivalence :
    (∀ a b : Value, a.Built → b.Built → a.eqv b = true → b.eqv a = true) ∧
    (∀ a b c : Value, a.Built → b.Built → c.Built →
      a.eqv b = true → b.eqv c = true → a.eqv c = true) ∧
    (∀ a : Value, a.Built → (a.eqv a = true ↔ ¬ a.HoldsNaN)) ∧
    (∀ s t : ValueSet, s.toValue.Built → t.toValue.Built →
      (s.toValue.eqv t.toValue = true ↔
        s.element = t.element ∧ (∀ v ∈ s.items, ∃ w ∈ t.items, v.eqv w = true) ∧
          ∀ w ∈ t.items, ∃ v ∈ s.items, w.eqv v = true)) ∧
    ∀ (a b : Value) (m : MethodSig), a.Built → b.Built → m.name = "equals" →
      invokeBuiltin a m [b] = .ok (.bool (b.eqv a)) ∧
      invokeBuiltin a m [b] = invokeBuiltin b m [a] := by
  refine ⟨fun a b ha hb => ha.comparable.symm b hb, fun a b c ha hb hc => ha.comparable.trans b c hb hc,
    fun a ha => ha.eqv_self_iff, fun s t hs ht => hs.eqv_sets_iff ht, ?_⟩
  intro a b m ha hb hm
  have hequals : ∀ v w : Value, invokeBuiltin v m [w] = .ok (.bool (w.eqv v)) := by
    intro v w
    simp only [invokeBuiltin, hm]
  exact ⟨hequals a b, by rw [hequals, hequals, ha.eqv_comm hb]⟩

/-- Sets of sets, filled in different orders, are equal both ways; a list with a NaN is not equal to
itself. -/
theorem eqv_nested_sets :
    let ones (items : List Value) : Value := (ValueSet.ofItems .int items).toValue
    let s := ValueSet.ofItems .any [ones [.int 1, .int 2, .int 1], .list [.absent]]
    let t := ValueSet.ofItems .any [.list [.absent], ones [.int 2, .int 1]]
    let nan : Value := .list [.double ⟨0x7FF8000000000000⟩]
    s.toValue.Built ∧ t.toValue.Built ∧ nan.Built ∧
      s.toValue.eqv t.toValue = true ∧ t.toValue.eqv s.toValue = true ∧ nan.eqv nan = false ∧
      invokeBuiltin s.toValue ⟨"equals", [.any], .bool⟩ [t.toValue] = .ok (.bool true) := by
  intro ones s t nan
  have hones : ∀ items : List Value, (∀ v ∈ items, ∃ n, v = .int n) → (ones items).Built := by
    intro items hitems
    refine .ofItems fun v hv => ?_
    obtain ⟨n, rfl⟩ := hitems v hv
    exact .int n
  have hlist : (Value.list [.absent]).Built := .list (by simp [Built.absent])
  have hs : s.toValue.Built := .ofItems (by simp [hones, hlist])
  have ht : t.toValue.Built := .ofItems (by simp [hones, hlist])
  have hnan : nan.Built := .list (by simp [Built.double])
  have hholds : nan.HoldsNaN := .inList List.mem_cons_self (.double (by decide))
  obtain ⟨hsymm, -, hself, -, hequals⟩ := eqv_partial_equivalence
  have hst : s.toValue.eqv t.toValue = true := by decide
  have hts : t.toValue.eqv s.toValue = true := hsymm _ _ hs ht hst
  have hanswer := (hequals s.toValue t.toValue ⟨"equals", [.any], .bool⟩ hs ht rfl).1
  rw [hts] at hanswer
  exact ⟨hs, ht, hnan, hst, hts, Bool.eq_false_iff.mpr fun h => (hself nan hnan).mp h hholds, hanswer⟩

end Value

end AccessPath
