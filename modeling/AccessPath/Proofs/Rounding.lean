import Mathlib.Algebra.Order.Field.Power
import Mathlib.Data.Rat.Cast.Order
import Mathlib.Tactic.FieldSimp
import Mathlib.Tactic.Linarith
import Mathlib.Tactic.Positivity
import Mathlib.Tactic.Ring
import AccessPath.Proofs.Decimals

/-!
# Bounds on rounding

Quotients of natural numbers are compared as rationals (`Binary64.ratio`). A quotient below a power
of two rounds to a word that is at most the one of that power (`nearest_magnitude_le`), and the value
of a word is bounded by its exponent field (`ratio_quotient_lt`). The same holds from below
(`le_nearest_magnitude`, `le_ratio_quotient`).

Hence every integer of 64 bits is read as a finite double (`Numeral.toBinary64?_ofInt_isSome`),
although reading rounds twice, and nothing is read as a double that is not finite, in however many
steps it is scaled (`Numeral.toBinary64?_isFinite`).
-/

namespace AccessPath

namespace Binary64

/-- The value of a numerator and a denominator. -/
def ratio (q : Nat × Nat) : ℚ := q.1 / q.2

theorem ratio_lt_iff {q : Nat × Nat} (hq : 0 < q.2) (m : Nat) : ratio q < m ↔ q.1 < m * q.2 := by
  have hq' : (0 : ℚ) < q.2 := by exact_mod_cast hq
  rw [ratio, div_lt_iff₀ hq']
  exact_mod_cast Iff.rfl

theorem ratio_mul (a b c d : Nat) : ratio (a * c, b * d) = ratio (a, b) * ratio (c, d) := by
  simp only [ratio, Nat.cast_mul]
  rw [mul_div_mul_comm]

theorem ratio_scale (base : Nat) (e : Int) (q : Nat × Nat) :
    ratio (scale base e q) = ratio q * (base : ℚ) ^ e := by
  unfold scale ratio
  split
  · next he =>
    obtain ⟨k, rfl⟩ := Int.eq_ofNat_of_zero_le he
    simp only [Int.toNat_natCast, Nat.pow_eq, Nat.cast_mul, Nat.cast_pow, zpow_natCast]
    ring
  · next he =>
    obtain ⟨k, hk⟩ : ∃ k : Nat, -e = k := Int.eq_ofNat_of_zero_le (by omega)
    obtain rfl : e = -k := by omega
    simp only [neg_neg, Int.toNat_natCast, Nat.pow_eq, Nat.cast_mul, Nat.cast_pow, zpow_neg,
      zpow_natCast]
    rw [div_mul_eq_div_div, div_eq_mul_inv]

theorem scale_snd_pos {base : Nat} (hbase : 0 < base) (e : Int) {q : Nat × Nat} (hq : 0 < q.2) :
    0 < (scale base e q).2 := by
  unfold scale
  split
  · exact hq
  · exact Nat.mul_pos hq (Nat.pow_pos hbase)

/-- Between which powers of two the quotient of two numbers lies, by their logarithms alone. -/
theorem ratio_log2_bounds {n d : Nat} (hn : n ≠ 0) (hd : d ≠ 0) :
    (2 : ℚ) ^ ((n.log2 : Int) - d.log2 - 1) < ratio (n, d) ∧
      ratio (n, d) < (2 : ℚ) ^ ((n.log2 : Int) - d.log2 + 1) := by
  have htwo : (2 : ℚ) ≠ 0 := by norm_num
  have hd' : (0 : ℚ) < d := by exact_mod_cast Nat.pos_of_ne_zero hd
  have hnlow : (2 : ℚ) ^ n.log2 ≤ n := by exact_mod_cast Nat.log2_self_le hn
  have hnhigh : (n : ℚ) < 2 ^ (n.log2 + 1) := by exact_mod_cast Nat.lt_log2_self
  have hdlow : (2 : ℚ) ^ d.log2 ≤ d := by exact_mod_cast Nat.log2_self_le hd
  have hdhigh : (d : ℚ) < 2 ^ (d.log2 + 1) := by exact_mod_cast Nat.lt_log2_self
  constructor
  · have hpow : (2 : ℚ) ^ ((n.log2 : Int) - d.log2 - 1) * 2 ^ (d.log2 + 1) = 2 ^ n.log2 := by
      rw [← zpow_natCast, ← zpow_natCast, ← zpow_add₀ htwo]
      congr 1
      push_cast
      ring
    rw [ratio, lt_div_iff₀ hd']
    calc (2 : ℚ) ^ ((n.log2 : Int) - d.log2 - 1) * d
        < 2 ^ ((n.log2 : Int) - d.log2 - 1) * 2 ^ (d.log2 + 1) := by gcongr
      _ = 2 ^ n.log2 := hpow
      _ ≤ n := hnlow
  · have hpow : (2 : ℚ) ^ ((n.log2 : Int) - d.log2 + 1) * 2 ^ d.log2 = 2 ^ (n.log2 + 1) := by
      rw [← zpow_natCast, ← zpow_natCast, ← zpow_add₀ htwo]
      congr 1
      push_cast
      ring
    rw [ratio, div_lt_iff₀ hd']
    calc (n : ℚ) < 2 ^ (n.log2 + 1) := hnhigh
      _ = 2 ^ ((n.log2 : Int) - d.log2 + 1) * 2 ^ d.log2 := hpow.symm
      _ ≤ 2 ^ ((n.log2 : Int) - d.log2 + 1) * d := by gcongr

/-- The logarithm is the exponent of the greatest power of two that is not above the quotient. -/
theorem floorLog2_spec {n d : Nat} (hn : n ≠ 0) (hd : d ≠ 0) :
    (2 : ℚ) ^ floorLog2 n d ≤ ratio (n, d) ∧ ratio (n, d) < (2 : ℚ) ^ (floorLog2 n d + 1) := by
  obtain ⟨hlow, hhigh⟩ := ratio_log2_bounds hn hd
  let e : Int := (n.log2 : Int) - d.log2
  have hpos : (0 : ℚ) < 2 ^ e := by positivity
  have hsnd : 0 < (scale 2 (-e) (n, d)).2 := scale_snd_pos (by decide) _ (Nat.pos_of_ne_zero hd)
  have hscaled : ratio (scale 2 (-e) (n, d)) = ratio (n, d) / 2 ^ e := by
    rw [ratio_scale, zpow_neg, Nat.cast_ofNat, ← div_eq_mul_inv]
  have htest : (scale 2 (-e) (n, d)).1 < (scale 2 (-e) (n, d)).2 ↔ ratio (n, d) < 2 ^ e := by
    have h := ratio_lt_iff hsnd 1
    rw [hscaled, Nat.cast_one, div_lt_one hpos, one_mul] at h
    exact h.symm
  have hfloor : floorLog2 n d =
      if (scale 2 (-e) (n, d)).1 < (scale 2 (-e) (n, d)).2 then e - 1 else e := rfl
  rw [hfloor]
  split
  · next h =>
    refine ⟨hlow.le, ?_⟩
    rw [sub_add_cancel]
    exact htest.1 h
  · next h => exact ⟨not_lt.1 fun hlt => h (htest.2 hlt), hhigh⟩

theorem divNearestEven_le {q : Nat × Nat} (hq : 0 < q.2) {m : Nat} (h : ratio q < m) :
    divNearestEven q.1 q.2 ≤ m := by
  have hdiv : q.1 / q.2 < m := Nat.div_lt_of_lt_mul (by rw [mul_comm]; exact (ratio_lt_iff hq m).1 h)
  unfold divNearestEven
  dsimp only
  split <;> omega

theorem magnitude_ofMagnitude (negative : Bool) {m : Nat} (h : m < signWeight) :
    (ofMagnitude negative m).magnitude = m := by
  unfold magnitude ofMagnitude
  cases negative <;> simp [signWeight] at h ⊢ <;> omega

/-- A quotient below `2 ^ k` rounds to at most the word of `2 ^ k`. -/
theorem nearest_magnitude_le (negative : Bool) {n d k : Nat} (hd : d ≠ 0)
    (h : ratio (n, d) < (2 : ℚ) ^ k) :
    (nearest negative n d).magnitude ≤ (k + 1023) * fieldWeight := by
  unfold nearest
  split
  · rw [magnitude_ofMagnitude _ (by decide)]
    exact Nat.zero_le _
  · next hn =>
    obtain ⟨hlow, hhigh⟩ := floorLog2_spec hn hd
    have hone : (1 : ℚ) < 2 := by norm_num
    have hfloor : floorLog2 n d < k := by
      have := hlow.trans_lt h
      rw [← zpow_natCast] at this
      exact (zpow_lt_zpow_iff_right₀ hone).1 this
    let e : Int := max (floorLog2 n d - 52) (-1074)
    have hsignificand : ratio (scale 2 (-e) (n, d)) < (2 ^ 53 : Nat) := by
      rw [ratio_scale, zpow_neg, Nat.cast_ofNat, ← div_eq_mul_inv,
        div_lt_iff₀ (by positivity)]
      calc ratio (n, d) < (2 : ℚ) ^ (floorLog2 n d + 1) := hhigh
        _ ≤ 2 ^ (53 + e) := zpow_le_zpow_right₀ hone.le (by omega)
        _ = 2 ^ (53 : Int) * 2 ^ e := zpow_add₀ (by norm_num) _ _
        _ = (2 ^ 53 : Nat) * 2 ^ e := by norm_num
    have hdigits := divNearestEven_le
      (scale_snd_pos (by decide) (-e) (q := (n, d)) (Nat.pos_of_ne_zero hd)) hsignificand
    have hexponent : (e + 1074).toNat ≤ k + 1021 := by omega
    have hword : (e + 1074).toNat * fieldWeight +
        divNearestEven (scale 2 (-e) (n, d)).1 (scale 2 (-e) (n, d)).2 ≤
          (k + 1023) * fieldWeight :=
      calc _ ≤ (k + 1021) * fieldWeight + 2 ^ 53 :=
            Nat.add_le_add (Nat.mul_le_mul_right _ hexponent) hdigits
        _ = (k + 1021) * fieldWeight + 2 * fieldWeight := rfl
        _ = (k + 1023) * fieldWeight := by ring
    dsimp only
    rw [magnitude_ofMagnitude]
    · exact (Nat.min_le_left _ _).trans hword
    · exact (Nat.min_le_right _ _).trans_lt (by decide)

theorem isFinite_of_magnitude_le {x : Binary64} {k : Nat} (hk : k < 1024)
    (h : x.magnitude ≤ (k + 1023) * fieldWeight) : x.isFinite = true := by
  rw [isFinite, decide_eq_true_eq]
  simp only [infinityWord, fieldWeight] at *
  omega

theorem nearest_isFinite (negative : Bool) {n d k : Nat} (hd : d ≠ 0) (hk : k < 1024)
    (h : ratio (n, d) < (2 : ℚ) ^ k) : (nearest negative n d).isFinite = true :=
  isFinite_of_magnitude_le hk (nearest_magnitude_le negative hd h)

/-- The value of a double whose exponent field is at most the one of `2 ^ k`. -/
theorem ratio_quotient_lt {x : Binary64} {k : Nat} (h : x.magnitude ≤ (k + 1023) * fieldWeight) :
    ratio x.quotient < (2 : ℚ) ^ (k + 1) := by
  have hone : (1 : ℚ) < 2 := by norm_num
  have hsignificand : x.significand < 2 ^ 53 := by
    have := Nat.mod_lt x.magnitude (show 0 < fieldWeight by decide)
    simp only [significand, fraction, fieldWeight] at *
    split <;> omega
  have hfield : x.field ≤ k + 1023 := Nat.div_le_of_le_mul (by rw [mul_comm]; exact h)
  have hunit : x.unitExponent ≤ k - 52 := by
    unfold unitExponent
    omega
  have hvalue : ratio (x.significand, 1) < (2 : ℚ) ^ (53 : Int) := by
    simp only [ratio, Nat.cast_one, div_one]
    exact_mod_cast hsignificand
  rw [quotient, ratio_scale, Nat.cast_ofNat]
  calc ratio (x.significand, 1) * (2 : ℚ) ^ x.unitExponent
      < 2 ^ (53 : Int) * 2 ^ x.unitExponent := by gcongr
    _ = 2 ^ (53 + x.unitExponent) := (zpow_add₀ (by norm_num) _ _).symm
    _ ≤ 2 ^ ((k + 1 : Nat) : Int) := zpow_le_zpow_right₀ hone.le (by push_cast; omega)
    _ = 2 ^ (k + 1) := zpow_natCast _ _

theorem quotient_snd_pos (x : Binary64) : 0 < x.quotient.2 := scale_snd_pos (by decide) _ Nat.one_pos

/-! ### Bounds from below -/

theorem le_divNearestEven {q : Nat × Nat} (hq : 0 < q.2) {m : Nat} (h : m ≤ ratio q) :
    m ≤ divNearestEven q.1 q.2 := by
  have hdiv : m ≤ q.1 / q.2 := by
    rw [Nat.le_div_iff_mul_le hq, ← not_lt, ← ratio_lt_iff hq]
    exact not_lt.2 h
  unfold divNearestEven
  dsimp only
  split <;> omega

/-- A quotient of at least `2 ^ k` rounds to at least the word of `2 ^ k`. -/
theorem le_nearest_magnitude (negative : Bool) {n d k : Nat} (hd : d ≠ 0) (hk : k < 1024)
    (h : (2 : ℚ) ^ k ≤ ratio (n, d)) :
    (k + 1023) * fieldWeight ≤ (nearest negative n d).magnitude := by
  have hn : n ≠ 0 := by
    rintro rfl
    have hpos : (0 : ℚ) < 2 ^ k := by positivity
    simp [ratio] at h
    linarith
  obtain ⟨hlow, hhigh⟩ := floorLog2_spec hn hd
  have hone : (1 : ℚ) < 2 := by norm_num
  have hfloor : k < floorLog2 n d + 1 := by
    have := h.trans_lt hhigh
    rw [← zpow_natCast] at this
    exact (zpow_lt_zpow_iff_right₀ hone).1 this
  let e : Int := max (floorLog2 n d - 52) (-1074)
  have he : e = floorLog2 n d - 52 := by omega
  have hsignificand : (fieldWeight : Nat) ≤ ratio (scale 2 (-e) (n, d)) := by
    rw [ratio_scale, zpow_neg, Nat.cast_ofNat, ← div_eq_mul_inv, le_div_iff₀ (by positivity)]
    calc (fieldWeight : ℚ) * 2 ^ e = 2 ^ (52 : Int) * 2 ^ e := by norm_num [fieldWeight]
      _ = 2 ^ floorLog2 n d := by rw [← zpow_add₀ (by norm_num), he, add_sub_cancel]
      _ ≤ ratio (n, d) := hlow
  have hdigits := le_divNearestEven
    (scale_snd_pos (by decide) (-e) (q := (n, d)) (Nat.pos_of_ne_zero hd)) hsignificand
  have hexponent : k + 1022 ≤ (e + 1074).toNat := by omega
  have hword : (k + 1023) * fieldWeight ≤ (e + 1074).toNat * fieldWeight +
      divNearestEven (scale 2 (-e) (n, d)).1 (scale 2 (-e) (n, d)).2 :=
    calc (k + 1023) * fieldWeight = (k + 1022) * fieldWeight + fieldWeight := by ring
      _ ≤ _ := Nat.add_le_add (Nat.mul_le_mul_right _ hexponent) hdigits
  unfold nearest
  rw [if_neg hn]
  dsimp only
  rw [magnitude_ofMagnitude _ ((Nat.min_le_right _ _).trans_lt (by decide))]
  exact Nat.le_min.2 ⟨hword, Nat.mul_le_mul_right _ (by omega)⟩

/-- The value of a double whose exponent field is at least the one of `2 ^ k`. -/
theorem le_ratio_quotient {x : Binary64} {k : Nat} (h : (k + 1023) * fieldWeight ≤ x.magnitude) :
    (2 : ℚ) ^ k ≤ ratio x.quotient := by
  have hfield : k + 1023 ≤ x.field := (Nat.le_div_iff_mul_le (by decide)).2 h
  have hsignificand : fieldWeight ≤ x.significand := by
    unfold significand
    rw [if_neg (by omega)]
    exact Nat.le_add_right _ _
  have hunit : k - 52 ≤ x.unitExponent := by
    unfold unitExponent
    omega
  have hvalue : (2 : ℚ) ^ (52 : Int) ≤ ratio (x.significand, 1) := by
    simp only [ratio, Nat.cast_one, div_one]
    exact_mod_cast hsignificand
  rw [quotient, ratio_scale, Nat.cast_ofNat]
  calc (2 : ℚ) ^ k = 2 ^ (52 : Int) * 2 ^ ((k : Int) - 52) := by
        rw [← zpow_add₀ (by norm_num), add_sub_cancel, zpow_natCast]
    _ ≤ 2 ^ (52 : Int) * 2 ^ x.unitExponent := by
        gcongr
        norm_num
    _ ≤ ratio (x.significand, 1) * 2 ^ x.unitExponent := by gcongr

/-- The double of `10 ^ k` is at least every power of two up to `2 ^ k`. -/
theorem le_ratio_pow10 {j k : Nat} (hj : j < 1024) (hjk : j ≤ k) :
    (2 : ℚ) ^ j ≤ ratio (pow10 k).quotient := by
  refine le_ratio_quotient (le_nearest_magnitude false one_ne_zero hj ?_)
  simp only [ratio, Nat.cast_one, div_one, Nat.pow_eq, Nat.cast_pow, Nat.cast_ofNat]
  calc (2 : ℚ) ^ j ≤ 2 ^ k := pow_le_pow_right₀ (by norm_num) hjk
    _ ≤ 10 ^ k := pow_le_pow_left₀ (by norm_num) (by norm_num) k

/-- Dividing by at least `2 ^ j` and rounding takes `j` off the bound on the exponent field, up to one. -/
theorem div_magnitude_le {x y : Binary64} {j k : Nat}
    (hx : x.magnitude ≤ (k + j + 1023) * fieldWeight) (hy : (2 : ℚ) ^ j ≤ ratio y.quotient) :
    (x.div y).magnitude ≤ (k + 1 + 1023) * fieldWeight := by
  have hj : (0 : ℚ) < 2 ^ j := by positivity
  have hnum : y.quotient.1 ≠ 0 := by
    intro hzero
    simp [ratio, hzero] at hy
    linarith
  have hinv : ratio (y.quotient.2, y.quotient.1) = (ratio y.quotient)⁻¹ := (inv_div _ _).symm
  refine nearest_magnitude_le _ (Nat.mul_ne_zero x.quotient_snd_pos.ne' hnum) ?_
  rw [ratio_mul, hinv, ← div_eq_mul_inv, div_lt_iff₀ (hj.trans_le hy)]
  calc ratio x.quotient < 2 ^ (k + j + 1) := ratio_quotient_lt hx
    _ = 2 ^ (k + 1) * 2 ^ j := by ring
    _ ≤ 2 ^ (k + 1) * ratio y.quotient := by gcongr

/-- Dividing by a power of ten never adds more than one to the bound on the exponent field, whatever the
number of steps: each step but the last divides by more than two. -/
theorem dividePow10_magnitude_le {x : Binary64} {j : Nat}
    (hx : x.magnitude ≤ (j + 1 + 1023) * fieldWeight) (k : Nat) :
    (x.dividePow10 k).magnitude ≤ (j + 1 + 1 + 1023) * fieldWeight := by
  fun_induction dividePow10 x k with
  | case1 x k hk => exact div_magnitude_le (j := 0) hx (le_ratio_pow10 (by decide) (Nat.zero_le k))
  | case2 x k hk hzero => exact hx.trans (Nat.mul_le_mul_right _ (by omega))
  | case3 x k hk hzero ih => exact ih (div_magnitude_le hx (le_ratio_pow10 (by decide) (by decide)))

theorem isFinite_of_isZero {x : Binary64} (h : x.isZero = true) : x.isFinite = true := by
  rw [isZero, decide_eq_true_eq] at h
  rw [isFinite, h]
  rfl

theorem multiplyPow10?_isFinite {x y : Binary64} {k : Nat} (h : x.multiplyPow10? k = some y) :
    y.isFinite = true := by
  unfold multiplyPow10? at h
  dsimp only at h
  split at h
  · split at h
    · next hfinite =>
      cases h
      exact hfinite
    · cases h
  · split at h
    · next hzero =>
      cases h
      exact isFinite_of_isZero hzero
    · cases h

theorem neg_isFinite (x : Binary64) : x.neg.isFinite = x.isFinite := by
  have hx : x.magnitude < signWeight := Nat.mod_lt _ (by decide)
  rw [isFinite, neg, magnitude_ofMagnitude _ hx, isFinite]

end Binary64

theorem le_foldl_digits (ds : List Digit) (c : Nat) : c ≤ ds.foldl (fun m d => 10 * m + d.val) c := by
  induction ds generalizing c with
  | nil => exact Nat.le_refl c
  | cons d ds ih =>
    have := ih (10 * c + d.val)
    rw [List.foldl_cons]
    omega

/-- Digits of a number that fits are all taken. -/
theorem absorbDigits_of_le (ds : List Digit) (c : Nat)
    (h : ds.foldl (fun m d => 10 * m + d.val) c ≤ maxCoefficient) :
    absorbDigits c ds = (ds.foldl (fun m d => 10 * m + d.val) c, []) := by
  induction ds generalizing c with
  | nil => rfl
  | cons d ds ih =>
    rw [List.foldl_cons] at h ⊢
    rw [absorbDigits, if_pos ((le_foldl_digits ds _).trans h)]
    exact ih _ h

theorem absorbDigits_le (ds : List Digit) {c : Nat} (h : c ≤ maxCoefficient) :
    (absorbDigits c ds).1 ≤ maxCoefficient := by
  induction ds generalizing c with
  | nil => exact h
  | cons d ds ih =>
    rw [absorbDigits]
    split
    · next hfits => exact ih hfits
    · exact h

/-- A 64-bit number is below `2 ^ 64`. -/
theorem ratio_coefficient_lt {c : Nat} (h : c ≤ maxCoefficient) : Binary64.ratio (c, 1) < (2 : ℚ) ^ 64 := by
  simp only [Binary64.ratio, Nat.cast_one, div_one]
  simp only [maxCoefficient] at h
  exact_mod_cast (by omega : c < 2 ^ 64)

namespace Numeral

theorem coefficient_ofInt {n : Int} (h : n.natAbs ≤ maxCoefficient) :
    (ofInt n).coefficient = (n.natAbs, 0) := by
  have hvalue : (decimalDigits n.natAbs).foldl (fun m d => 10 * m + d.val) 0 = n.natAbs :=
    ofDigits_decimalDigits _
  have habsorbed := absorbDigits_of_le (decimalDigits n.natAbs) 0 (by rw [hvalue]; exact h)
  rw [hvalue] at habsorbed
  simp [coefficient, ofInt, habsorbed, absorbDigits]

theorem scaled?_isSome {c : Nat} (h : c ≤ maxCoefficient) : (scaled? c 0).isSome = true := by
  have hfirst := Binary64.ratio_quotient_lt
    (Binary64.nearest_magnitude_le false (by decide) (ratio_coefficient_lt h))
  have hunit : Binary64.ratio (Binary64.pow10 0).quotient = 1 := by
    have : (Binary64.pow10 0).quotient = (2 ^ 52, 2 ^ 52) := by decide +kernel
    simp [Binary64.ratio, this]
  have hfinite : ((Binary64.nearest false c 1).mul (Binary64.pow10 0)).isFinite = true := by
    apply Binary64.nearest_isFinite _ (k := 65) _ (by decide)
    · rw [Binary64.ratio_mul]
      calc _ = Binary64.ratio (Binary64.nearest false c 1).quotient *
            Binary64.ratio (Binary64.pow10 0).quotient := rfl
        _ < 2 ^ 65 := by rw [hunit, mul_one]; exact hfirst
    · exact (Nat.mul_pos (Binary64.quotient_snd_pos _) (Binary64.quotient_snd_pos _)).ne'
  simp [scaled?, Binary64.multiplyPow10?, hfinite]

/-- An integer of 64 bits is read as some double. -/
theorem toBinary64?_ofInt_isSome {n : Int} (h : n.natAbs ≤ maxCoefficient) :
    (ofInt n).toBinary64?.isSome = true := by
  have habsolute : (ofInt n).absolute? = scaled? n.natAbs 0 := by
    rw [absolute?, coefficient_ofInt h]
    rfl
  rw [toBinary64?, Option.isSome_map, habsolute]
  exact scaled?_isSome h

/-! ### What is read is finite -/

theorem coefficient_le (n : Numeral) : n.coefficient.1 ≤ maxCoefficient :=
  absorbDigits_le _ (absorbDigits_le _ (Nat.zero_le _))

theorem scaled?_isFinite {c : Nat} (hc : c ≤ maxCoefficient) {e : Int} {x : Binary64}
    (h : scaled? c e = some x) : x.isFinite = true := by
  have hnearest := Binary64.nearest_magnitude_le false one_ne_zero (ratio_coefficient_lt hc)
  unfold scaled? at h
  dsimp only at h
  split at h
  · exact Binary64.multiplyPow10?_isFinite h
  · cases h
    exact Binary64.isFinite_of_magnitude_le (by decide)
      (Binary64.dividePow10_magnitude_le hnearest _)

theorem absolute?_isFinite {n : Numeral} {x : Binary64} (h : n.absolute? = some x) :
    x.isFinite = true := by
  have hscaled : ∀ e, scaled? n.coefficient.1 e = some x → x.isFinite = true :=
    fun e => scaled?_isFinite n.coefficient_le
  rw [absolute?] at h
  dsimp only at h
  split at h
  · exact hscaled _ h
  · split at h
    · split at h
      · cases h
      · cases h
        rfl
    · exact hscaled _ h

/-- Whatever a numeral is read as is finite: beyond the doubles it is refused. -/
theorem toBinary64?_isFinite {n : Numeral} {x : Binary64} (h : n.toBinary64? = some x) :
    x.isFinite = true := by
  rw [toBinary64?, Option.map_eq_some_iff] at h
  obtain ⟨y, hy, rfl⟩ := h
  have hfinite := absolute?_isFinite hy
  split
  · rwa [Binary64.neg_isFinite]
  · exact hfinite

end Numeral

end AccessPath
