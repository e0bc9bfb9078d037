import Mathlib.Data.List.DropRight
import AccessPath.Literal

/-!
# Digits and numerals

The digits of a natural number write that number (`ofDigits_decimalDigits`), and the first of them is
zero for zero alone (`decimalDigits_isWhole`).

A numeral is grammatical if JSON has it: no zero is put before other whole digits, and no exponent is
without digits. The numeral of an integer is grammatical and names it, and the numeral of every double
is grammatical, however many digits are found for it (`NumeralLayout.numeral_grammatical`).
-/

namespace AccessPath

theorem Digit.ofChar?_toChar (d : Digit) : Digit.ofChar? d.toChar = some d := by
  revert d
  decide

theorem ofDigits_digitsBefore (n : Nat) (later : List Digit) :
    ofDigits (digitsBefore n later) = later.foldl (fun m d => 10 * m + d.val) n := by
  fun_induction digitsBefore n later with
  | case1 n later h => simp [ofDigits]
  | case2 n later h ih =>
    have hn : 10 * (n / 10) + n % 10 = n := Nat.div_add_mod n 10
    rw [ih, List.foldl_cons, hn]

theorem ofDigits_decimalDigits (n : Nat) : ofDigits (decimalDigits n) = n :=
  ofDigits_digitsBefore n []

/-- Digits that may stand before a point: there is one, and a leading zero stands alone. -/
def IsWhole : List Digit → Prop
  | [] => False
  | d :: ds => d = Digit.zero → ds = []

theorem IsWhole.of_ne_zero {d : Digit} {ds : List Digit} (h : d ≠ Digit.zero) : IsWhole (d :: ds) :=
  fun hd => absurd hd h

/-- The first digit of a number other than zero is not zero. -/
theorem digitsBefore_eq_cons {n : Nat} (hn : n ≠ 0) (later : List Digit) :
    ∃ d ds, digitsBefore n later = d :: ds ∧ d ≠ Digit.zero := by
  fun_induction digitsBefore n later with
  | case1 n later h =>
    refine ⟨⟨n, h⟩, later, rfl, fun hzero => hn ?_⟩
    exact congrArg Fin.val hzero
  | case2 n later h ih => exact ih (by omega)

theorem decimalDigits_isWhole (n : Nat) : IsWhole (decimalDigits n) := by
  by_cases hn : n = 0
  · subst hn
    simp [decimalDigits, digitsBefore, IsWhole]
  · obtain ⟨d, ds, hds, hd⟩ := digitsBefore_eq_cons hn []
    rw [decimalDigits, hds]
    exact .of_ne_zero hd

theorem decimalDigits_ne_nil (n : Nat) : decimalDigits n ≠ [] := by
  intro hnil
  have hwhole := decimalDigits_isWhole n
  rw [hnil] at hwhole
  exact hwhole

namespace Numeral

/-- The numeral is one of JSON. -/
structure Grammatical (n : Numeral) : Prop where
  whole : IsWhole n.whole
  exponent : ∀ e ∈ n.exponent, e.digits ≠ []

theorem grammatical_of_isWhole {negative : Bool} {whole fraction : List Digit} (h : IsWhole whole) :
    (⟨negative, whole, fraction, none⟩ : Numeral).Grammatical :=
  ⟨h, by simp⟩

theorem ofInt_grammatical (n : Int) : (ofInt n).Grammatical :=
  grammatical_of_isWhole (decimalDigits_isWhole _)

theorem toInt?_ofInt (n : Int) : (ofInt n).toInt? = some n := by
  have hwhole : ofDigits (ofInt n).whole = n.natAbs := ofDigits_decimalDigits _
  have hinteger : (ofInt n).isInteger = true := rfl
  simp only [toInt?, hinteger, hwhole, if_true]
  by_cases hn : n < 0
  · have hnegative : (ofInt n).negative = true := by simp [ofInt, hn]
    rw [if_pos hnegative, if_neg (by omega)]
    congr 1
    omega
  · have hnegative : (ofInt n).negative = false := by simp [ofInt, hn]
    rw [hnegative]
    simp only [Bool.false_eq_true, if_false, Option.some.injEq]
    omega

end Numeral

namespace Binary64

/-- A decimal that is taken for a double rounds to it. -/
theorem roundsFrom_of_decimalOfLength? {tie : Tie} {x : Binary64} {count : Nat} {c : Decimal}
    (h : x.decimalOfLength? tie count = some c) : x.roundsFrom c = true := by
  dsimp only [decimalOfLength?] at h
  generalize hbelow : x.roundsFrom _ = below at h
  generalize habove : x.roundsFrom _ = above at h
  cases below with
  | false =>
    cases above with
    | false => cases h
    | true =>
      cases h
      exact habove
  | true =>
    cases above with
    | false =>
      cases h
      exact hbelow
    | true =>
      dsimp only at h
      split at h
      · cases h
        exact hbelow
      · split at h
        · cases h
          exact habove
        · cases tie with
          | awayFromZero =>
            cases h
            exact habove
          | toEven =>
            cases h
            split
            · exact hbelow
            · exact habove

/-- Zero rounds to zero alone. -/
theorem coefficient_ne_zero_of_roundsFrom {x : Binary64} {c : Decimal} (hx : x.isZero = false)
    (h : x.roundsFrom c = true) : c.coefficient ≠ 0 := by
  intro hc
  have hnumerator : (scale 10 c.exponent (c.coefficient, 1)).1 = 0 := by
    unfold scale
    split <;> simp [hc]
  have hzero : (ofMagnitude false 0).magnitude = 0 := by decide
  simp only [roundsFrom, nearest, hnumerator, if_true, hzero, decide_eq_true_eq] at h
  simp only [isZero, decide_eq_false_iff_not] at hx
  exact hx h.symm

/-- The shortest decimal is not zero. (If none with up to seventeen digits were found, it would be
the whole part.) -/
theorem shortest_coefficient {x : Binary64} (tie : Tie) (hx : x.isZero = false) :
    (x.shortest tie).coefficient ≠ 0 ∨ (x.shortest tie).exponent = 0 := by
  unfold shortest
  cases hfound : (List.range 17).findSome? fun i => x.decimalOfLength? tie (i + 1) with
  | none => exact .inr rfl
  | some c =>
    obtain ⟨i, -, hi⟩ := List.exists_of_findSome?_eq_some hfound
    exact .inl (coefficient_ne_zero_of_roundsFrom hx (roundsFrom_of_decimalOfLength? hi))

end Binary64

namespace NumeralLayout

/-- The significant digits of a number other than zero start with a digit other than zero. -/
theorem significantDigits_eq_cons {c : Nat} (hc : c ≠ 0) :
    ∃ d ds, significantDigits c = d :: ds ∧ d ≠ Digit.zero := by
  obtain ⟨d, ds, hdigits, hd⟩ := digitsBefore_eq_cons hc []
  have hprefix : significantDigits c <+: decimalDigits c := List.rdropWhile_prefix _ _
  have hne : significantDigits c ≠ [] := by
    intro hnil
    have hall := List.rdropWhile_eq_nil_iff.1 hnil d (by simp [decimalDigits, hdigits])
    exact hd (by simpa using hall)
  rw [decimalDigits, hdigits] at hprefix
  cases hsignificant : significantDigits c with
  | nil => exact absurd hsignificant hne
  | cons d' ds' =>
    rw [hsignificant, List.cons_prefix_cons] at hprefix
    exact ⟨d', ds', rfl, hprefix.1 ▸ hd⟩

theorem positionalNumeral_grammatical (layout : NumeralLayout) (negative : Bool) {d : Digit}
    (hd : d ≠ Digit.zero) (ds : List Digit) (lead : Int) :
    (layout.positionalNumeral negative (d :: ds) lead).Grammatical := by
  simp only [positionalNumeral]
  split
  · exact Numeral.grammatical_of_isWhole fun _ => rfl
  · split
    · exact Numeral.grammatical_of_isWhole (.of_ne_zero hd)
    · exact Numeral.grammatical_of_isWhole (.of_ne_zero hd)

theorem scientificNumeral_grammatical (negative : Bool) (d : Digit) (ds : List Digit) (lead : Int) :
    (scientificNumeral negative (d :: ds) lead).Grammatical where
  whole := fun _ => rfl
  exponent := by
    intro e he
    cases he
    exact decimalDigits_ne_nil _

/-- A coefficient of zero is written as zero, unless its place asks for an exponent. -/
theorem positionalNumeral_nil_grammatical (layout : NumeralLayout) (negative : Bool) :
    (layout.positionalNumeral negative [] 0).Grammatical :=
  Numeral.grammatical_of_isWhole fun _ => rfl

/-- The numerals of a layout that writes integers below ten without an exponent are grammatical. -/
theorem numeral_grammatical {layout : NumeralLayout} (hlayout : layout.isPositional 0 = true)
    (x : Binary64) : (layout.numeral x).Grammatical := by
  unfold numeral
  cases hx : x.isZero with
  | true => exact Numeral.grammatical_of_isWhole fun _ => rfl
  | false =>
    simp only [Bool.false_eq_true, if_false]
    by_cases hc : (x.shortest layout.tie).coefficient = 0
    · have hexponent := (Binary64.shortest_coefficient layout.tie hx).resolve_left (· hc)
      have hlead : (x.shortest layout.tie).exponent +
          (decimalDigits (x.shortest layout.tie).coefficient).length - 1 = 0 := by
        rw [hc, hexponent]
        simp [decimalDigits, digitsBefore]
      have hdigits : significantDigits (x.shortest layout.tie).coefficient = [] := by
        rw [hc]
        simp [significantDigits, decimalDigits, digitsBefore, Digit.zero]
      rw [hlead, hdigits, if_pos hlayout]
      exact positionalNumeral_nil_grammatical layout _
    · obtain ⟨d, ds, hds, hd⟩ := significantDigits_eq_cons hc
      rw [hds]
      split
      · exact positionalNumeral_grammatical layout _ hd ds _
      · exact scientificNumeral_grammatical _ d ds _

end NumeralLayout

end AccessPath
