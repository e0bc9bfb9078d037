import AccessPath.Numeric.Numeral
import AccessPath.Numeric.Binary64

/-!
# Shortest decimals of a double

The shortest decimal of a finite double has the fewest digits among the decimals that round to it.
For each number of digits only the two neighbours of the double on that decimal grid matter; the
first grid with a neighbour that rounds back wins, of two such neighbours the nearer, and a
`Tie` settles two equally near ones. A `NumeralLayout` says how the digits are then written.

Nothing here is stated about how few digits suffice: seventeen always do.
-/

namespace AccessPath

/-- A decimal: `coefficient * 10 ^ exponent`. -/
structure Decimal where
  coefficient : Nat
  exponent : Int
  deriving DecidableEq, Repr

/-- Which of two equally near decimals is taken. -/
inductive Tie where
  | toEven | awayFromZero
  deriving DecidableEq, Repr

namespace Binary64

/-- The greatest `e` with `10 ^ e ≤ n / d`, for positive `n` and `d`. -/
def floorLog10 (n d : Nat) : Int :=
  if d ≤ n then (decimalDigits (n / d)).length - 1
  else -((decimalDigits ((d - 1) / n)).length : Int)

/-- The decimal has the absolute value of `x`, once rounded. -/
def roundsFrom (x : Binary64) (c : Decimal) : Bool :=
  let q := scale 10 c.exponent (c.coefficient, 1)
  decide ((nearest false q.1 q.2).magnitude = x.magnitude)

/-- The decimal with `count` digits that is taken for `x`, if one rounds to it. -/
def decimalOfLength? (tie : Tie) (x : Binary64) (count : Nat) : Option Decimal :=
  let q := x.quotient
  let e := floorLog10 q.1 q.2 - count + 1
  let g := scale 10 (-e) q
  let below : Decimal := ⟨g.1 / g.2, e⟩
  let above : Decimal := ⟨g.1 / g.2 + 1, e⟩
  let r := g.1 % g.2
  match x.roundsFrom below, x.roundsFrom above with
  | false, false => none
  | true, false => some below
  | false, true => some above
  | true, true =>
    if 2 * r < g.2 then some below
    else if g.2 < 2 * r then some above
    else match tie with
      | .awayFromZero => some above
      | .toEven => some (if below.coefficient % 2 = 0 then below else above)

/-- The shortest decimal of the absolute value of a finite double other than zero. -/
def shortest (tie : Tie) (x : Binary64) : Decimal :=
  ((List.range 17).findSome? fun i => x.decimalOfLength? tie (i + 1)).getD
    ⟨x.quotient.1 / x.quotient.2, 0⟩

end Binary64

/-- How the digits of a double are written. -/
structure NumeralLayout where
  /-- The choice between two equally near shortest decimals. -/
  tie : Tie
  /-- The leading digits' powers of ten, lowest and highest, that are written without an
  exponent; `none` for all. -/
  positional : Option (Int × Int)
  /-- An integral double keeps a point and one zero. -/
  keepsPoint : Bool
  deriving DecidableEq, Repr

namespace NumeralLayout

/-- The layout writes a leading digit of this power of ten without an exponent. -/
def isPositional (layout : NumeralLayout) (lead : Int) : Bool :=
  match layout.positional with
  | none => true
  | some (low, high) => decide (low ≤ lead ∧ lead ≤ high)

/-- The digits of an integral double after the point. -/
def integralFraction (layout : NumeralLayout) : List Digit := if layout.keepsPoint then [Digit.zero] else []

/-- The digits `ds`, the leading one at the power `lead` of ten, without an exponent. -/
def positionalNumeral (layout : NumeralLayout) (negative : Bool) (ds : List Digit) (lead : Int) :
    Numeral :=
  if lead < 0 then
    ⟨negative, [Digit.zero], List.replicate (-lead - 1).toNat Digit.zero ++ ds, none⟩
  else
    let places := lead.toNat + 1
    if ds.length ≤ places then
      ⟨negative, ds ++ List.replicate (places - ds.length) Digit.zero, layout.integralFraction, none⟩
    else ⟨negative, ds.take places, ds.drop places, none⟩

/-- The same with an exponent, one digit standing before the point. -/
def scientificNumeral (negative : Bool) (ds : List Digit) (lead : Int) : Numeral :=
  ⟨negative, ds.take 1, ds.drop 1, some ⟨decide (lead < 0), decimalDigits lead.natAbs⟩⟩

/-- The digits of a coefficient without the zeros at its end. -/
def significantDigits (coefficient : Nat) : List Digit :=
  ((decimalDigits coefficient).reverse.dropWhile (· = Digit.zero)).reverse

/-- The numeral of a finite double. -/
def numeral (layout : NumeralLayout) (x : Binary64) : Numeral :=
  if x.isZero then ⟨x.isNegative, [Digit.zero], layout.integralFraction, none⟩
  else
    let c := x.shortest layout.tie
    let lead := c.exponent + (decimalDigits c.coefficient).length - 1
    let ds := significantDigits c.coefficient
    if layout.isPositional lead then layout.positionalNumeral x.isNegative ds lead
    else scientificNumeral x.isNegative ds lead

end NumeralLayout

end AccessPath
