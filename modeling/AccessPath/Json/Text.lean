import AccessPath.Numeric.Numeral

/-!
# String tokens of JSON

The content of a string token is a list of code units: characters, and the surrogates that `\u`
escapes may leave. A high surrogate followed at once by a low one is one character
(`Text.toString?`); any other surrogate has no character, and the text is then no string.

Writing escapes the quote, the backslash and the control characters below a blank, and nothing
else.
-/

namespace AccessPath.Json

/-- A code unit of a string token. -/
inductive CodeUnit where
  | char (c : Char)
  | surrogate (n : Nat)
  deriving DecidableEq, Repr

/-- The content of a string token. -/
abbrev Text := List CodeUnit

/-- The code unit that a four-digit escape names. -/
def CodeUnit.ofEscape (n : Nat) : CodeUnit :=
  if 0xD800 ≤ n ∧ n < 0xE000 then .surrogate n else .char (Char.ofNat n)

/-- The character of a high surrogate followed by a low one. -/
def pairedChar? (high low : Nat) : Option Char :=
  if 0xD800 ≤ high ∧ high < 0xDC00 ∧ 0xDC00 ≤ low ∧ low < 0xE000 then
    some (Char.ofNat (0x10000 + (high - 0xD800) * 0x400 + (low - 0xDC00)))
  else none

namespace Text

/-- The content of a string. -/
def ofString (s : String) : Text := s.toList.map .char

/-- The characters of a text in which every surrogate has its partner. -/
def chars? : Text → Option (List Char)
  | [] => some []
  | .char c :: t => (chars? t).map (c :: ·)
  | .surrogate h :: .surrogate l :: t =>
    match pairedChar? h l, chars? t with
    | some c, some cs => some (c :: cs)
    | _, _ => none
  | .surrogate _ :: _ => none

/-- The string of a text in which every surrogate has its partner. -/
def toString? (t : Text) : Option String := t.chars?.map String.ofList

/-- A lower-case hexadecimal digit. -/
def hexChar (n : Nat) : Char :=
  if n < 10 then Char.ofNat ('0'.toNat + n) else Char.ofNat ('a'.toNat + (n - 10))

/-- The value of a hexadecimal digit of either case. -/
def hexValue? (c : Char) : Option Nat :=
  if '0' ≤ c ∧ c ≤ '9' then some (c.toNat - '0'.toNat)
  else if 'a' ≤ c ∧ c ≤ 'f' then some (c.toNat - 'a'.toNat + 10)
  else if 'A' ≤ c ∧ c ≤ 'F' then some (c.toNat - 'A'.toNat + 10)
  else none

/-- A four-digit escape. -/
def unicodeEscape (n : Nat) : List Char :=
  ['\\', 'u', hexChar (n / 4096 % 16), hexChar (n / 256 % 16), hexChar (n / 16 % 16), hexChar (n % 16)]

/-- A code unit as written. -/
def escaped : CodeUnit → List Char
  | .surrogate n => unicodeEscape n
  | .char '"' => ['\\', '"']
  | .char '\\' => ['\\', '\\']
  | .char '\x08' => ['\\', 'b']
  | .char '\t' => ['\\', 't']
  | .char '\n' => ['\\', 'n']
  | .char '\x0c' => ['\\', 'f']
  | .char '\r' => ['\\', 'r']
  | .char c => if c < ' ' then unicodeEscape c.toNat else [c]

/-- The character that a one-letter escape names. -/
def escapeTarget? : Char → Option Char
  | '"' => some '"'
  | '\\' => some '\\'
  | '/' => some '/'
  | 'b' => some '\x08'
  | 'f' => some '\x0c'
  | 'n' => some '\n'
  | 'r' => some '\r'
  | 't' => some '\t'
  | _ => none

/-- The string token of a text, quotes included. -/
def chars (t : Text) : List Char := '"' :: (t.flatMap escaped ++ ['"'])

end Text

end AccessPath.Json
