import AccessPath.Numeric.Numeral
import AccessPath.Numeric.Binary64

/-!
# Reading numerals

A numeral without point and exponent names an integer, except that `-0` names the double `-0.0`.
As a double a numeral is read in two roundings. Its digits are taken into a 64-bit coefficient as
long as they fit: later whole digits then count as zeros and later fraction digits are dropped.
The coefficient is rounded to a double, and multiplied or divided by the double of the power of
ten that is left. A numeral beyond the doubles is refused.

The digits of most doubles read back under this rule, but not those of all of them: it is not the
correctly rounded reading.
-/

namespace AccessPath

/-- The greatest 64-bit coefficient. -/
def maxCoefficient : Nat := 0xFFFFFFFFFFFFFFFF

/-- The greatest exponent that is taken at its value. -/
def maxExponent : Nat := 0x7FFFFFFF

/-- Appends digits to a coefficient up to the first that does not fit; the digits left over. -/
def absorbDigits (c : Nat) : List Digit → Nat × List Digit
  | [] => (c, [])
  | d :: ds => if 10 * c + d.val ≤ maxCoefficient then absorbDigits (10 * c + d.val) ds else (c, d :: ds)

namespace Binary64

/-- `x / 10 ^ k` in steps of at most 308 powers of ten, each of them rounded. -/
def dividePow10 (x : Binary64) (k : Nat) : Binary64 :=
  if k ≤ 308 then x.div (pow10 k)
  else if x.isZero then x
  else dividePow10 (x.div (pow10 308)) (k - 308)
termination_by k

/-- `x * 10 ^ k`, unless it is beyond the doubles. -/
def multiplyPow10? (x : Binary64) (k : Nat) : Option Binary64 :=
  if k ≤ 308 then
    let y := x.mul (pow10 k)
    if y.isFinite then some y else none
  else if x.isZero then some x
  else none

end Binary64

namespace Numeral

/-- The integer that a numeral names. -/
def toInt? (n : Numeral) : Option Int :=
  if n.isInteger then
    let m := ofDigits n.whole
    if n.negative then (if m = 0 then none else some (-(m : Int))) else some m
  else none

/-- The coefficient of a numeral and the power of ten beside it. -/
def coefficient (n : Numeral) : Nat × Int :=
  let whole := absorbDigits 0 n.whole
  let fraction := absorbDigits whole.1 n.fraction
  (fraction.1, (whole.2.length : Int) - (n.fraction.length - fraction.2.length : Nat))

/-- `coefficient * 10 ^ e` as a double. -/
def scaled? (coefficient : Nat) (e : Int) : Option Binary64 :=
  let x := Binary64.nearest false coefficient 1
  if 0 ≤ e then x.multiplyPow10? e.toNat else some (x.dividePow10 (-e).toNat)

/-- The absolute value of a numeral, as a double. An exponent beyond `maxExponent` leaves zero,
unless it would leave the doubles. -/
def absolute? (n : Numeral) : Option Binary64 :=
  let (c, e) := n.coefficient
  match n.exponent with
  | none => scaled? c e
  | some x =>
    let k := ofDigits x.digits
    if maxExponent < k then
      (if c ≠ 0 ∧ x.negative = false then none else some Binary64.zero)
    else scaled? c (if x.negative then e - k else e + k)

/-- The double that a numeral is read as. -/
def toBinary64? (n : Numeral) : Option Binary64 :=
  n.absolute?.map fun x => if n.negative then x.neg else x

end Numeral

end AccessPath
