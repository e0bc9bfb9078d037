/-!
# Decimal numerals

A numeral is a number as written in base ten: a sign, the digits before and after the point, and
an exponent. Natural numbers have one digit list each (`decimalDigits`), read back by `ofDigits`.
-/

namespace AccessPath

/-- A decimal digit. -/
abbrev Digit := Fin 10

namespace Digit

def zero : Digit := ⟨0, by decide⟩

/-- The character of a digit. -/
def toChar (d : Digit) : Char := Char.ofNat ('0'.toNat + d.val)

/-- The digit that a character shows; only the ten ASCII digits show one. -/
def ofChar? (c : Char) : Option Digit :=
  if h : c.toNat - '0'.toNat < 10 ∧ '0'.toNat ≤ c.toNat then some ⟨c.toNat - '0'.toNat, h.1⟩ else none

end Digit

/-- The digits of `n`, then those of `later`. -/
def digitsBefore (n : Nat) (later : List Digit) : List Digit :=
  if h : n < 10 then ⟨n, h⟩ :: later
  else digitsBefore (n / 10) (⟨n % 10, Nat.mod_lt n (by decide)⟩ :: later)

/-- The digits of a natural number, the leading one first; zero has one digit. -/
def decimalDigits (n : Nat) : List Digit := digitsBefore n []

/-- The natural number that a digit list writes. -/
def ofDigits (ds : List Digit) : Nat := ds.foldl (fun n d => 10 * n + d.val) 0

/-- The text of a digit list. -/
def digitChars (ds : List Digit) : List Char := ds.map Digit.toChar

/-- The text of an integer: its digits, with a minus sign before a negative one. -/
def integerText (n : Int) : String :=
  String.ofList ((if n < 0 then ['-'] else []) ++ digitChars (decimalDigits n.natAbs))

/-- The power of ten that multiplies a numeral. -/
structure Exponent where
  negative : Bool
  digits : List Digit
  deriving DecidableEq, Repr

/-- A number as written. An empty `fraction` stands for a numeral without a point. -/
structure Numeral where
  negative : Bool
  whole : List Digit
  fraction : List Digit
  exponent : Option Exponent
  deriving DecidableEq, Repr

namespace Numeral

/-- The numeral of an integer: no point and no exponent. -/
def ofInt (n : Int) : Numeral := ⟨decide (n < 0), decimalDigits n.natAbs, [], none⟩

/-- A point stands before a fraction and nowhere else. -/
def fractionChars (ds : List Digit) : List Char :=
  if ds.isEmpty then [] else '.' :: digitChars ds

/-- An exponent is marked by `e` and always signed. -/
def exponentChars : Option Exponent → List Char
  | none => []
  | some e => 'e' :: (if e.negative then '-' else '+') :: digitChars e.digits

/-- The text of a numeral. -/
def chars (n : Numeral) : List Char :=
  (if n.negative then ['-'] else []) ++ digitChars n.whole ++ fractionChars n.fraction ++
    exponentChars n.exponent

/-- A numeral without point and exponent is written as an integer. -/
def isInteger (n : Numeral) : Bool := n.fraction.isEmpty && n.exponent.isNone

end Numeral

end AccessPath
