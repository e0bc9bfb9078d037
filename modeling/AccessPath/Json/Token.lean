import AccessPath.Json.Text

/-!
# Tokens of JSON text

A `Scanner` reads a text one character at a time (RFC 8259): it stands between two tokens, inside a
word, inside a string or inside a number. A token ends where no character can extend it; the
grammar never puts two words, strings or numbers side by side, so this is where RFC 8259 ends it.
-/

namespace AccessPath.Json

inductive Token where
  | openArray | closeArray | openObject | closeObject | comma | colon
  | null
  | bool (b : Bool)
  | number (n : Numeral)
  | text (t : Text)
  deriving DecidableEq, Repr

/-- Where a scanner stands inside a string. -/
inductive TextPhase where
  | plain
  | escape
  | hex (left : Nat) (value : Nat)
  deriving DecidableEq, Repr

/-- Where a scanner stands inside a number: after a sign, a leading zero, a whole digit, the point,
a fraction digit, the exponent's mark, its sign, or one of its digits. -/
inductive NumberPhase where
  | sign | zero | whole | point | fraction | mark | markSign | exponent
  deriving DecidableEq, Repr

/-- A number that has been read in part, each list of digits with the latest first. -/
structure PartialNumeral where
  phase : NumberPhase
  negative : Bool
  whole : List Digit
  fraction : List Digit
  exponentNegative : Bool
  exponentDigits : List Digit
  deriving DecidableEq, Repr

namespace PartialNumeral

/-- A number that opens with a minus sign. -/
def ofSign : PartialNumeral := ⟨.sign, true, [], [], false, []⟩

/-- The first whole digit. After a leading zero no further whole digit may come. -/
def leadWith (n : PartialNumeral) (d : Digit) : PartialNumeral :=
  { n with phase := if d = Digit.zero then .zero else .whole, whole := [d] }

/-- A number that opens with a digit. -/
def ofDigit (d : Digit) : PartialNumeral := leadWith ⟨.sign, false, [], [], false, []⟩ d

def pushWhole (n : PartialNumeral) (d : Digit) : PartialNumeral := { n with whole := d :: n.whole }

def pushFraction (n : PartialNumeral) (d : Digit) : PartialNumeral :=
  { n with phase := .fraction, fraction := d :: n.fraction }

def pushExponent (n : PartialNumeral) (d : Digit) : PartialNumeral :=
  { n with phase := .exponent, exponentDigits := d :: n.exponentDigits }

/-- The number extended by a character, if the character extends it. -/
def extend? (n : PartialNumeral) (c : Char) : Option PartialNumeral :=
  let digit := Digit.ofChar? c
  let point := if c = '.' then some { n with phase := .point } else none
  let mark := if c = 'e' ∨ c = 'E' then some { n with phase := .mark } else none
  let markSign :=
    if c = '+' then some { n with phase := .markSign }
    else if c = '-' then some { n with phase := .markSign, exponentNegative := true }
    else none
  match n.phase with
  | .sign => digit.map n.leadWith
  | .zero => point <|> mark
  | .whole => digit.map n.pushWhole <|> point <|> mark
  | .point => digit.map n.pushFraction
  | .fraction => digit.map n.pushFraction <|> mark
  | .mark => digit.map n.pushExponent <|> markSign
  | .markSign => digit.map n.pushExponent
  | .exponent => digit.map n.pushExponent

/-- The number, where it may end. -/
def finish? (n : PartialNumeral) : Option Numeral :=
  match n.phase with
  | .zero | .whole | .fraction => some ⟨n.negative, n.whole.reverse, n.fraction.reverse, none⟩
  | .exponent =>
    some ⟨n.negative, n.whole.reverse, n.fraction.reverse,
      some ⟨n.exponentNegative, n.exponentDigits.reverse⟩⟩
  | .sign | .point | .mark | .markSign => none

end PartialNumeral

/-- Where a scanner stands. A word keeps the letters that are still owed, a string its content so
far with the latest unit first. -/
inductive Mode where
  | between
  | word (owed : List Char) (token : Token)
  | text (phase : TextPhase) (content : List CodeUnit)
  | number (n : PartialNumeral)
  deriving DecidableEq, Repr

/-- A scanner: where it stands and the tokens it has read, the latest first. -/
structure Scanner where
  mode : Mode
  tokens : List Token
  deriving DecidableEq, Repr

/-- The characters that may stand between tokens. -/
def isBlank (c : Char) : Bool := c = ' ' || c = '\t' || c = '\n' || c = '\r'

/-- The token that one character makes. -/
def punctuation? : Char → Option Token
  | '[' => some .openArray
  | ']' => some .closeArray
  | '\x7b' => some .openObject
  | '\x7d' => some .closeObject
  | ',' => some .comma
  | ':' => some .colon
  | _ => none

/-- The mode that a token's first character opens. -/
def opening? (c : Char) : Option Mode :=
  match c with
  | '"' => some (.text .plain [])
  | '-' => some (.number .ofSign)
  | 't' => some (.word ['r', 'u', 'e'] (.bool true))
  | 'f' => some (.word ['a', 'l', 's', 'e'] (.bool false))
  | 'n' => some (.word ['u', 'l', 'l'] .null)
  | c => (Digit.ofChar? c).map fun d => .number (.ofDigit d)

namespace Scanner

def start : Scanner := ⟨.between, []⟩

/-- Reads a character that stands between two tokens or opens one. -/
def openWith (tokens : List Token) (c : Char) : Option Scanner :=
  if isBlank c then some ⟨.between, tokens⟩
  else match punctuation? c with
    | some token => some ⟨.between, token :: tokens⟩
    | none => (opening? c).map fun mode => ⟨mode, tokens⟩

/-- Reads a character inside a string. -/
def stepText (tokens : List Token) (phase : TextPhase) (content : List CodeUnit) (c : Char) :
    Option Scanner :=
  match phase with
  | .plain =>
    if c = '"' then some ⟨.between, .text content.reverse :: tokens⟩
    else if c = '\\' then some ⟨.text .escape content, tokens⟩
    else if c < ' ' then none
    else some ⟨.text .plain (.char c :: content), tokens⟩
  | .escape =>
    if c = 'u' then some ⟨.text (.hex 3 0) content, tokens⟩
    else (Text.escapeTarget? c).map fun d => ⟨.text .plain (.char d :: content), tokens⟩
  | .hex left value =>
    (Text.hexValue? c).map fun d =>
      let value := 16 * value + d
      match left with
      | 0 => ⟨.text .plain (.ofEscape value :: content), tokens⟩
      | left + 1 => ⟨.text (.hex left value) content, tokens⟩

/-- Reads a character. -/
def step (s : Scanner) (c : Char) : Option Scanner :=
  match s.mode with
  | .between => openWith s.tokens c
  | .word [] token => openWith (token :: s.tokens) c
  | .word (d :: owed) token => if c = d then some ⟨.word owed token, s.tokens⟩ else none
  | .text phase content => stepText s.tokens phase content c
  | .number n =>
    match n.extend? c with
    | some n => some ⟨.number n, s.tokens⟩
    | none => n.finish?.bind fun n => openWith (.number n :: s.tokens) c

/-- The tokens of a text that ends here. -/
def finish? (s : Scanner) : Option (List Token) :=
  match s.mode with
  | .between => some s.tokens.reverse
  | .word [] token => some (token :: s.tokens).reverse
  | .word (_ :: _) _ => none
  | .text _ _ => none
  | .number n => n.finish?.map fun n => (Token.number n :: s.tokens).reverse

end Scanner

/-- The tokens of a text. -/
def tokens? (cs : List Char) : Option (List Token) := (cs.foldlM Scanner.step .start).bind Scanner.finish?

end AccessPath.Json
