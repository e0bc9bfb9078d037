/-!
# Doubles

A double is its IEEE 754 binary64 word: sign bit 63, an 11-bit exponent field and a 52-bit
fraction. Arithmetic is exact on natural numbers and rounds once (`nearest`): to the nearest
double, a tie to the even significand, and to infinity from `2 ^ 1024 - 2 ^ 970` on.

Equality is the numeric one (`eqv`): a NaN differs from every double, itself included, and the
two zeros are equal. It is symmetric and transitive, and reflexive exactly off the NaNs.
-/

namespace AccessPath

/-- A double, as its binary64 word. -/
structure Binary64 where
  bits : UInt64
  deriving DecidableEq, Repr, Inhabited

namespace Binary64

/-- The weight of the sign bit. -/
def signWeight : Nat := 0x8000000000000000

/-- The weight of the exponent field's last bit, which is also that of a hidden bit. -/
def fieldWeight : Nat := 0x10000000000000

/-- The word of positive infinity: every finite word without sign is below, every NaN above. -/
def infinityWord : Nat := 2047 * fieldWeight

/-- The sign bit. -/
def isNegative (x : Binary64) : Bool := decide (signWeight ≤ x.bits.toNat)

/-- The word without its sign bit. -/
def magnitude (x : Binary64) : Nat := x.bits.toNat % signWeight

/-- The exponent field. -/
def field (x : Binary64) : Nat := x.magnitude / fieldWeight

/-- The fraction field. -/
def fraction (x : Binary64) : Nat := x.magnitude % fieldWeight

def isNaN (x : Binary64) : Bool := decide (infinityWord < x.magnitude)

def isInfinite (x : Binary64) : Bool := decide (x.magnitude = infinityWord)

def isFinite (x : Binary64) : Bool := decide (x.magnitude < infinityWord)

def isZero (x : Binary64) : Bool := decide (x.magnitude = 0)

/-- Numeric equality. -/
def eqv (x y : Binary64) : Bool :=
  !x.isNaN && !y.isNaN && (decide (x = y) || (x.isZero && y.isZero))

theorem eqv_comm (x y : Binary64) : x.eqv y = y.eqv x := by
  simp only [eqv, eq_comm (a := x) (b := y), Bool.and_comm x.isZero, Bool.and_comm (!x.isNaN)]

theorem eqv_self (x : Binary64) : x.eqv x = !x.isNaN := by simp [eqv]

theorem eqv_trans {x y z : Binary64} (hxy : x.eqv y = true) (hyz : y.eqv z = true) :
    x.eqv z = true := by
  simp only [eqv, Bool.and_eq_true, Bool.or_eq_true, decide_eq_true_eq] at *
  refine ⟨⟨hxy.1.1, hyz.1.2⟩, ?_⟩
  rcases hxy.2 with rfl | hx
  · exact hyz.2
  · rcases hyz.2 with rfl | hz
    · exact .inr hx
    · exact .inr ⟨hx.1, hz.2⟩

/-- The double with a given sign and a given word below the sign bit. -/
def ofMagnitude (negative : Bool) (m : Nat) : Binary64 :=
  ⟨UInt64.ofNat ((if negative then signWeight else 0) + m)⟩

def zero : Binary64 := ofMagnitude false 0

/-- The weight of the last significand bit is two to this power. -/
def unitExponent (x : Binary64) : Int := (max x.field 1 : Nat) - 1075

/-- The significand, with the hidden bit of a normal double. -/
def significand (x : Binary64) : Nat :=
  if x.field = 0 then x.fraction else fieldWeight + x.fraction

/-- Multiplies a quotient, given as numerator and denominator, by a power of a base. -/
def scale (base : Nat) (e : Int) (q : Nat × Nat) : Nat × Nat :=
  if 0 ≤ e then (q.1 * Nat.pow base e.toNat, q.2) else (q.1, q.2 * Nat.pow base (-e).toNat)

/-- The absolute value of a finite double, as numerator and denominator. -/
def quotient (x : Binary64) : Nat × Nat := scale 2 x.unitExponent (x.significand, 1)

/-- The integer nearest to `n / d`, a tie going to the even one. -/
def divNearestEven (n d : Nat) : Nat :=
  let q := n / d
  let r := n % d
  if d < 2 * r ∨ (2 * r = d ∧ q % 2 = 1) then q + 1 else q

/-- The greatest `e` with `2 ^ e ≤ n / d`, for positive `n` and `d`. -/
def floorLog2 (n d : Nat) : Int :=
  let e : Int := (n.log2 : Int) - d.log2
  let q := scale 2 (-e) (n, d)
  if q.1 < q.2 then e - 1 else e

/-- The double nearest to `n / d` (`d` positive) with the given sign. -/
def nearest (negative : Bool) (n d : Nat) : Binary64 :=
  if n = 0 then ofMagnitude negative 0
  else
    let e := max (floorLog2 n d - 52) (-1074)
    let q := scale 2 (-e) (n, d)
    let word := (e + 1074).toNat * fieldWeight + divNearestEven q.1 q.2
    ofMagnitude negative (min word infinityWord)

/-- The double nearest to an integer. -/
def ofInt (n : Int) : Binary64 := nearest (decide (n < 0)) n.natAbs 1

/-- The rounded product of two finite doubles. -/
def mul (x y : Binary64) : Binary64 :=
  nearest (x.isNegative != y.isNegative)
    (x.quotient.1 * y.quotient.1) (x.quotient.2 * y.quotient.2)

/-- The rounded quotient of two finite doubles, the second not zero. -/
def div (x y : Binary64) : Binary64 :=
  nearest (x.isNegative != y.isNegative)
    (x.quotient.1 * y.quotient.2) (x.quotient.2 * y.quotient.1)

def neg (x : Binary64) : Binary64 := ofMagnitude (!x.isNegative) x.magnitude

/-- The double nearest to a power of ten. -/
def pow10 (k : Nat) : Binary64 := nearest false (Nat.pow 10 k) 1

end Binary64

end AccessPath
