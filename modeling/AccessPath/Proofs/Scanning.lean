import Mathlib.Data.List.Chain
import Mathlib.Tactic.IntervalCases
import AccessPath.Proofs.Decimals

/-!
# Scanning written tokens

Every token of the grammar is read back from its characters: punctuation leaves the scanner between two
tokens, any other token leaves it where a separator ends that token (`Scanner.Settled`). So a list of
tokens in which no two others than punctuation stand side by side is read back from its characters, with
any blanks before, between and after them (`tokens?_of_written`).
-/

namespace AccessPath.Json

/-! ### Runs -/

/-- Steps that may fail lead from one state to another. -/
def Steps {α β : Type} (step : α → β → Option α) (s : α) (xs : List β) (s' : α) : Prop :=
  xs.foldlM step s = some s'

namespace Steps

variable {α β : Type} {step : α → β → Option α} {s s' s'' : α} {x : β} {xs xs' : List β}

theorem nil : Steps step s [] s := rfl

theorem cons (hstep : step s x = some s') (h : Steps step s' xs s'') : Steps step s (x :: xs) s'' := by
  rw [Steps, List.foldlM_cons, hstep]
  exact h

theorem single (hstep : step s x = some s') : Steps step s [x] s' := cons hstep nil

theorem append (h : Steps step s xs s') (h' : Steps step s' xs' s'') :
    Steps step s (xs ++ xs') s'' := by
  rw [Steps, List.foldlM_append, h]
  exact h'

theorem exists_of_cons (h : Steps step s (x :: xs) s'') :
    ∃ s', step s x = some s' ∧ Steps step s' xs s'' := by
  rw [Steps, List.foldlM_cons] at h
  exact Option.bind_eq_some_iff.1 h

end Steps

/-- The scanner gets from one place to another by these characters. -/
abbrev Scanner.Reads (s : Scanner) (cs : List Char) (s' : Scanner) : Prop := Steps step s cs s'

/-- The characters extend one number to the other. -/
abbrev PartialNumeral.Extends (n : PartialNumeral) (cs : List Char) (m : PartialNumeral) : Prop :=
  Steps extend? n cs m

/-! ### Strings -/

/-- A surrogate is one. -/
def CodeUnit.IsValid : CodeUnit → Prop
  | .char _ => True
  | .surrogate n => 0xD800 ≤ n ∧ n < 0xE000

theorem Text.hexValue?_hexChar {d : Nat} (h : d < 16) : hexValue? (hexChar d) = some d := by
  interval_cases d <;> decide

theorem CodeUnit.ofEscape_surrogate {n : Nat} (h : (CodeUnit.surrogate n).IsValid) :
    ofEscape n = .surrogate n := if_pos h

/-- The escape of a control character names it. -/
theorem CodeUnit.ofEscape_control {c : Char} (h : c < ' ') : ofEscape c.toNat = .char c := by
  have hsmall : c.toNat < 32 := h
  rw [ofEscape, if_neg (by omega), Char.ofNat_toNat]

namespace Scanner

variable (ts : List Token) (content : List CodeUnit)

theorem reads_unicodeEscape {n : Nat} (h : n < 65536) :
    Reads ⟨.text .plain content, ts⟩ (Text.unicodeEscape n)
      ⟨.text .plain (.ofEscape n :: content), ts⟩ := by
  have hdigit : ∀ m, Text.hexValue? (Text.hexChar (m % 16)) = some (m % 16) :=
    fun m => Text.hexValue?_hexChar (Nat.mod_lt m (by decide))
  have hvalue : 16 * (16 * (16 * (n / 4096 % 16) + n / 256 % 16) + n / 16 % 16) + n % 16 = n := by
    omega
  simp [Steps, Text.unicodeEscape, step, stepText, hdigit, hvalue]

/-- A code unit is read back from the way it is written. -/
theorem reads_escaped {u : CodeUnit} (h : u.IsValid) :
    Reads ⟨.text .plain content, ts⟩ (Text.escaped u) ⟨.text .plain (u :: content), ts⟩ := by
  unfold Text.escaped
  split
  · next n =>
    obtain ⟨hlow, hhigh⟩ := h
    have hread := reads_unicodeEscape ts content (show n < 65536 by omega)
    rwa [CodeUnit.ofEscape_surrogate ⟨hlow, hhigh⟩] at hread
  -- the escapes of one letter
  iterate 7 exact rfl
  next c hquote hbackslash _ _ _ _ _ =>
    by_cases hc : c < ' '
    · have hsmall : c.toNat < 32 := hc
      have hread := reads_unicodeEscape ts content (show c.toNat < 65536 by omega)
      rw [CodeUnit.ofEscape_control hc] at hread
      rwa [if_pos hc]
    · rw [if_neg hc]
      apply Steps.single
      simp [step, stepText, hc, show c ≠ '"' from hquote, show c ≠ '\\' from hbackslash]

theorem reads_units {t : Text} (h : ∀ u ∈ t, u.IsValid) :
    Reads ⟨.text .plain content, ts⟩ (t.flatMap Text.escaped)
      ⟨.text .plain (t.reverse ++ content), ts⟩ := by
  induction t generalizing content with
  | nil => exact .nil
  | cons u t ih =>
    obtain ⟨hu, ht⟩ := List.forall_mem_cons.1 h
    rw [List.flatMap_cons, List.reverse_cons, List.append_assoc]
    exact (reads_escaped ts content hu).append (ih (u :: content) ht)

/-- A string token is read back. -/
theorem reads_text {t : Text} (h : ∀ u ∈ t, u.IsValid) :
    Reads ⟨.between, ts⟩ t.chars ⟨.between, .text t :: ts⟩ := by
  have hunits := reads_units ts [] h
  rw [List.append_nil] at hunits
  have hclose : step ⟨.text .plain t.reverse, ts⟩ '"' = some ⟨.between, .text t :: ts⟩ := by
    simp [step, stepText]
  exact .cons rfl (hunits.append (.single hclose))

end Scanner

/-! ### Numbers -/

namespace PartialNumeral

/-- Digits are pushed one by one in phases that let them and do not lead out. -/
theorem extends_digits {push : PartialNumeral → Digit → PartialNumeral} (phases : List NumberPhase)
    (hpush : ∀ n d, n.phase ∈ phases →
      n.extend? d.toChar = some (push n d) ∧ (push n d).phase ∈ phases)
    (ds : List Digit) {n : PartialNumeral} (hn : n.phase ∈ phases) :
    n.Extends (digitChars ds) (ds.foldl push n) := by
  induction ds generalizing n with
  | nil => exact .nil
  | cons d ds ih =>
    obtain ⟨hextend, hphase⟩ := hpush n d hn
    exact .cons hextend (ih hphase)

theorem foldl_pushWhole (ds : List Digit) (n : PartialNumeral) :
    ds.foldl pushWhole n = { n with whole := ds.reverse ++ n.whole } := by
  induction ds generalizing n with
  | nil => rfl
  | cons d ds ih => simp [ih, pushWhole]

theorem foldl_pushFraction (d : Digit) (ds : List Digit) (n : PartialNumeral) :
    (d :: ds).foldl pushFraction n =
      { n with phase := .fraction, fraction := (d :: ds).reverse ++ n.fraction } := by
  induction ds generalizing d n with
  | nil => rfl
  | cons d' ds ih =>
    rw [List.foldl_cons, ih]
    simp [pushFraction]

theorem foldl_pushExponent (d : Digit) (ds : List Digit) (n : PartialNumeral) :
    (d :: ds).foldl pushExponent n =
      { n with phase := .exponent, exponentDigits := (d :: ds).reverse ++ n.exponentDigits } := by
  induction ds generalizing d n with
  | nil => rfl
  | cons d' ds ih =>
    rw [List.foldl_cons, ih]
    simp [pushExponent]

/-- A number with its sign, and none of its digits. -/
def signed (negative : Bool) : PartialNumeral := ⟨.sign, negative, [], [], false, []⟩

/-- The whole digits, after the first of them. -/
theorem extends_whole (negative : Bool) {d : Digit} {ds : List Digit} (h : IsWhole (d :: ds)) :
    ∃ phase, (phase = .zero ∨ phase = .whole) ∧
      ((signed negative).leadWith d).Extends (digitChars ds)
        ⟨phase, negative, (d :: ds).reverse, [], false, []⟩ := by
  by_cases hd : d = Digit.zero
  · obtain rfl : ds = [] := h hd
    exact ⟨.zero, .inl rfl, by simp [Steps, digitChars, leadWith, signed, hd]⟩
  · have hlead : (signed negative).leadWith d = ⟨.whole, negative, [d], [], false, []⟩ := by
      simp [leadWith, signed, hd]
    have hpush : ∀ (n : PartialNumeral) (d : Digit), n.phase ∈ [NumberPhase.whole] →
        n.extend? d.toChar = some (n.pushWhole d) ∧ (n.pushWhole d).phase ∈ [NumberPhase.whole] := by
      intro n d hn
      simp only [List.mem_singleton] at hn
      simp [extend?, hn, Digit.ofChar?_toChar, pushWhole]
    refine ⟨.whole, .inr rfl, ?_⟩
    have hdigits := extends_digits _ hpush ds (n := ⟨.whole, negative, [d], [], false, []⟩) (by simp)
    rw [foldl_pushWhole, ← List.reverse_cons] at hdigits
    rw [hlead]
    exact hdigits

/-- The point and the digits after it, if there are any. -/
theorem extends_fraction {phase : NumberPhase} (hphase : phase = .zero ∨ phase = .whole)
    (negative : Bool) (whole fraction : List Digit) :
    ∃ phase', (phase' = .zero ∨ phase' = .whole ∨ phase' = .fraction) ∧
      Extends ⟨phase, negative, whole, [], false, []⟩ (Numeral.fractionChars fraction)
        ⟨phase', negative, whole, fraction.reverse, false, []⟩ := by
  cases fraction with
  | nil =>
    refine ⟨phase, ?_, .nil⟩
    rcases hphase with rfl | rfl <;> simp
  | cons d ds =>
    have hpoint : extend? ⟨phase, negative, whole, [], false, []⟩ '.' =
        some ⟨.point, negative, whole, [], false, []⟩ := by
      rcases hphase with rfl | rfl <;> rfl
    have hpush : ∀ (n : PartialNumeral) (d : Digit), n.phase ∈ [NumberPhase.point, .fraction] →
        n.extend? d.toChar = some (n.pushFraction d) ∧
          (n.pushFraction d).phase ∈ [NumberPhase.point, .fraction] := by
      intro n d hn
      simp only [List.mem_cons, List.not_mem_nil, or_false] at hn
      rcases hn with hn | hn <;> simp [extend?, hn, Digit.ofChar?_toChar, pushFraction]
    have hdigits := extends_digits (n := ⟨.point, negative, whole, [], false, []⟩) _ hpush
      (d :: ds) (by simp)
    rw [foldl_pushFraction, List.append_nil] at hdigits
    exact ⟨.fraction, .inr (.inr rfl), .cons hpoint hdigits⟩

/-- The exponent, if there is one. The number may end after it. -/
theorem extends_exponent {phase : NumberPhase}
    (hphase : phase = .zero ∨ phase = .whole ∨ phase = .fraction) (negative : Bool)
    (whole fraction : List Digit) {x : Option Exponent} (hx : ∀ e ∈ x, e.digits ≠ []) :
    ∃ m, Extends ⟨phase, negative, whole, fraction, false, []⟩ (Numeral.exponentChars x) m ∧
      m.finish? = some ⟨negative, whole.reverse, fraction.reverse, x⟩ := by
  cases x with
  | none =>
    refine ⟨_, .nil, ?_⟩
    rcases hphase with rfl | rfl | rfl <;> rfl
  | some e =>
    obtain ⟨down, digits⟩ := e
    have hmark : extend? ⟨phase, negative, whole, fraction, false, []⟩ 'e' =
        some ⟨.mark, negative, whole, fraction, false, []⟩ := by
      rcases hphase with rfl | rfl | rfl <;> rfl
    have hsign : extend? ⟨.mark, negative, whole, fraction, false, []⟩ (if down then '-' else '+') =
        some ⟨.markSign, negative, whole, fraction, down, []⟩ := by
      cases down <;> rfl
    have hpush : ∀ (n : PartialNumeral) (d : Digit), n.phase ∈ [NumberPhase.markSign, .exponent] →
        n.extend? d.toChar = some (n.pushExponent d) ∧
          (n.pushExponent d).phase ∈ [NumberPhase.markSign, .exponent] := by
      intro n d hn
      simp only [List.mem_cons, List.not_mem_nil, or_false] at hn
      rcases hn with hn | hn <;> simp [extend?, hn, Digit.ofChar?_toChar, pushExponent]
    cases digits with
    | nil => exact absurd rfl (hx _ rfl)
    | cons d ds =>
      have hdigits := extends_digits (n := ⟨.markSign, negative, whole, fraction, down, []⟩) _ hpush
        (d :: ds) (by simp)
      rw [foldl_pushExponent] at hdigits
      refine ⟨_, .cons hmark (.cons hsign hdigits), ?_⟩
      simp [finish?]

/-- A grammatical numeral is read back, once its sign and its first digit have been read. -/
theorem extends_numeral (negative : Bool) {d : Digit} {ds : List Digit} (fraction : List Digit)
    {x : Option Exponent} (hwhole : IsWhole (d :: ds)) (hx : ∀ e ∈ x, e.digits ≠ []) :
    ∃ m, ((signed negative).leadWith d).Extends
        (digitChars ds ++ (Numeral.fractionChars fraction ++ Numeral.exponentChars x)) m ∧
      m.finish? = some ⟨negative, d :: ds, fraction, x⟩ := by
  obtain ⟨phase, hphase, hread⟩ := extends_whole negative hwhole
  obtain ⟨phase', hphase', hread'⟩ := extends_fraction hphase negative (d :: ds).reverse fraction
  obtain ⟨m, hm, hfinish⟩ := extends_exponent hphase' negative (d :: ds).reverse fraction.reverse hx
  refine ⟨m, hread.append (hread'.append hm), ?_⟩
  rw [hfinish, List.reverse_reverse, List.reverse_reverse]

/-- A digit may open a number. -/
theorem opening?_toChar (d : Digit) :
    isBlank d.toChar = false ∧ punctuation? d.toChar = none ∧
      opening? d.toChar = some (.number ((signed false).leadWith d)) := by
  revert d
  decide

end PartialNumeral

/-! ### Tokens -/

/-- A character that ends a word or a number: a blank or punctuation. -/
def isSeparator (c : Char) : Bool := isBlank c || (punctuation? c).isSome

/-- No separator extends a number. -/
theorem PartialNumeral.extend?_separator {c : Char} (h : isSeparator c = true)
    (n : PartialNumeral) : n.extend? c = none := by
  have hcases : c = ' ' ∨ c = '\t' ∨ c = '\n' ∨ c = '\r' ∨ c = '[' ∨ c = ']' ∨ c = '\x7b' ∨
      c = '\x7d' ∨ c = ',' ∨ c = ':' := by
    simp only [isSeparator, isBlank, Bool.or_eq_true, decide_eq_true_eq] at h
    rcases h with h | h
    · tauto
    · unfold punctuation? at h
      split at h <;> simp at h ⊢
  obtain ⟨hdigit, hpoint, he, hE, hplus, hminus⟩ :
      Digit.ofChar? c = none ∧ c ≠ '.' ∧ c ≠ 'e' ∧ c ≠ 'E' ∧ c ≠ '+' ∧ c ≠ '-' := by
    rcases hcases with rfl | rfl | rfl | rfl | rfl | rfl | rfl | rfl | rfl | rfl <;> decide
  unfold extend?
  cases n.phase <;> simp [hdigit, hpoint, he, hE, hplus, hminus]

namespace Token

/-- The characters of a token. -/
def chars : Token → List Char
  | .openArray => ['[']
  | .closeArray => [']']
  | .openObject => ['\x7b']
  | .closeObject => ['\x7d']
  | .comma => [',']
  | .colon => [':']
  | .null => ['n', 'u', 'l', 'l']
  | .bool true => ['t', 'r', 'u', 'e']
  | .bool false => ['f', 'a', 'l', 's', 'e']
  | .number n => n.chars
  | .text t => t.chars

/-- The token is one character that ends any token before it. -/
def isPunctuation : Token → Bool
  | .openArray | .closeArray | .openObject | .closeObject | .comma | .colon => true
  | .null | .bool _ | .number _ | .text _ => false

/-- The token can be written. -/
def Grammatical : Token → Prop
  | .number n => n.Grammatical
  | .text t => ∀ u ∈ t, u.IsValid
  | _ => True

/-- One of two tokens is punctuation, so that they may stand side by side. -/
def Apart (t u : Token) : Prop := t.isPunctuation = true ∨ u.isPunctuation = true

end Token

/-- The characters write the tokens, with any blanks before, between and after them. -/
inductive Written : List Token → List Char → Prop where
  | nil {blanks : List Char} (hblanks : ∀ c ∈ blanks, isBlank c = true) : Written [] blanks
  | cons {blanks cs : List Char} {t : Token} {ts : List Token}
      (hblanks : ∀ c ∈ blanks, isBlank c = true) (hrest : Written ts cs) :
      Written (t :: ts) (blanks ++ (t.chars ++ cs))

/-- Tokens may be written without blanks. -/
theorem Written.of_chars : (ts : List Token) → Written ts (ts.flatMap Token.chars)
  | [] => .nil (by simp)
  | _ :: ts => .cons (List.forall_mem_nil _) (of_chars ts)

namespace Scanner

/-- The scanner has read the tokens (the latest first), if the text ends or goes on with a
separator. -/
structure Settled (s : Scanner) (ts : List Token) : Prop where
  finish : s.finish? = some ts.reverse
  step : ∀ c, isSeparator c = true → s.step c = openWith ts c

variable {s : Scanner} {ts : List Token}

theorem settled_between (ts : List Token) : Settled ⟨.between, ts⟩ ts := ⟨rfl, fun _ _ => rfl⟩

theorem settled_word (t : Token) (ts : List Token) : Settled ⟨.word [] t, ts⟩ (t :: ts) :=
  ⟨rfl, fun _ _ => rfl⟩

theorem settled_number {n : PartialNumeral} {m : Numeral} (h : n.finish? = some m)
    (ts : List Token) : Settled ⟨.number n, ts⟩ (.number m :: ts) where
  finish := by simp [finish?, h]
  step c hc := by simp [Scanner.step, n.extend?_separator hc, h]

/-- A blank ends the token before it. -/
theorem Settled.reads_blank (hs : s.Settled ts) {c : Char} (hc : isBlank c = true) :
    s.step c = some ⟨.between, ts⟩ := by
  rw [hs.step c (by simp [isSeparator, hc]), openWith, if_pos hc]

/-- Blanks leave a scanner settled, and one that stands between tokens where it stands. -/
theorem Settled.reads_blanks (hs : s.Settled ts) {blanks : List Char}
    (hblanks : ∀ c ∈ blanks, isBlank c = true) :
    ∃ s', s.Reads blanks s' ∧ s'.Settled ts ∧ (s = ⟨.between, ts⟩ → s' = ⟨.between, ts⟩) := by
  induction blanks generalizing s with
  | nil => exact ⟨s, .nil, hs, id⟩
  | cons c blanks ih =>
    obtain ⟨hc, hrest⟩ := List.forall_mem_cons.1 hblanks
    obtain ⟨s', hread, hs', hbetween⟩ := ih (settled_between ts) hrest
    exact ⟨s', .cons (hs.reads_blank hc) hread, hs', fun _ => hbetween rfl⟩

/-- Punctuation ends the token before it and is a token of its own. -/
theorem Settled.reads_punctuation (hs : s.Settled ts) {t : Token} (ht : t.isPunctuation = true) :
    s.Reads t.chars ⟨.between, t :: ts⟩ := by
  cases t
  case null => cases ht
  case bool => cases ht
  case number => cases ht
  case text => cases ht
  all_goals exact .single (hs.step _ rfl)

theorem reads_extension {n m : PartialNumeral} {cs : List Char} (h : n.Extends cs m) :
    Reads ⟨.number n, ts⟩ cs ⟨.number m, ts⟩ := by
  induction cs generalizing n with
  | nil =>
    cases h
    exact .nil
  | cons c cs ih =>
    obtain ⟨k, hc, hrest⟩ := Steps.exists_of_cons h
    exact .cons (by simp [Scanner.step, hc]) (ih hrest)

/-- A numeral that JSON has is read back. -/
theorem reads_number (ts : List Token) {n : Numeral} (h : n.Grammatical) :
    ∃ s', Reads ⟨.between, ts⟩ n.chars s' ∧ s'.Settled (.number n :: ts) := by
  obtain ⟨negative, whole, fraction, x⟩ := n
  obtain ⟨hwhole, hx⟩ := h
  cases whole with
  | nil => exact hwhole.elim
  | cons d ds =>
    obtain ⟨m, hread, hfinish⟩ :=
      PartialNumeral.extends_numeral negative fraction hwhole hx
    refine ⟨⟨.number m, ts⟩, ?_, settled_number hfinish ts⟩
    have hchars : Numeral.chars ⟨negative, d :: ds, fraction, x⟩ =
        (if negative then ['-'] else []) ++ d.toChar ::
          (digitChars ds ++ (Numeral.fractionChars fraction ++ Numeral.exponentChars x)) := by
      simp [Numeral.chars, digitChars]
    rw [hchars]
    cases negative with
    | false =>
      obtain ⟨hblank, hpunctuation, hopening⟩ := PartialNumeral.opening?_toChar d
      have hopen : openWith ts d.toChar =
          some ⟨.number ((PartialNumeral.signed false).leadWith d), ts⟩ := by
        simp [openWith, hblank, hpunctuation, hopening]
      exact .cons hopen (reads_extension hread)
    | true =>
      have hlead : (PartialNumeral.signed true).extend? d.toChar =
          some ((PartialNumeral.signed true).leadWith d) := by
        simp [PartialNumeral.extend?, PartialNumeral.signed, Digit.ofChar?_toChar]
      exact .cons rfl (reads_extension (.cons hlead hread))

/-- A token other than punctuation is read back where a token may start. -/
theorem reads_token (ts : List Token) {t : Token} (ht : t.Grammatical)
    (hscalar : t.isPunctuation = false) :
    ∃ s', Reads ⟨.between, ts⟩ t.chars s' ∧ s'.Settled (t :: ts) := by
  cases t with
  | null => exact ⟨_, rfl, settled_word _ _⟩
  | bool b => cases b <;> exact ⟨_, rfl, settled_word _ _⟩
  | number n => exact reads_number ts ht
  | text t => exact ⟨_, reads_text ts ht, settled_between _⟩
  | _ => cases hscalar

/-- Written tokens are read, if the first of them may stand where the scanner stands. -/
theorem Settled.reads_written {ts : List Token} {cs : List Char} (hwritten : Written ts cs)
    (hts : ∀ t ∈ ts, t.Grammatical) (hapart : ts.IsChain Token.Apart) {s : Scanner}
    {earlier : List Token} (hs : s.Settled earlier)
    (hfirst : ∀ t ∈ ts.head?, t.isPunctuation = false → s = ⟨.between, earlier⟩) :
    ∃ s', s.Reads cs s' ∧ s'.Settled (ts.reverse ++ earlier) := by
  induction hwritten generalizing s earlier with
  | nil hblanks =>
    obtain ⟨s', hread, hs', -⟩ := hs.reads_blanks hblanks
    exact ⟨s', hread, hs'⟩
  | @cons blanks cs t ts hblanks hrest ih =>
    obtain ⟨ht, hlater⟩ := List.forall_mem_cons.1 hts
    obtain ⟨hnext, hchain⟩ := List.isChain_cons.1 hapart
    obtain ⟨s₁, hread₁, hs₁, hbetween⟩ := hs.reads_blanks hblanks
    rw [List.reverse_cons, List.append_assoc]
    cases hpunctuation : t.isPunctuation with
    | true =>
      obtain ⟨s', hread, hs'⟩ := ih hlater hchain (settled_between (t :: earlier)) fun _ _ _ => rfl
      exact ⟨s', hread₁.append ((hs₁.reads_punctuation hpunctuation).append hread), hs'⟩
    | false =>
      -- the next token, if any, is punctuation
      obtain rfl := hbetween (hfirst t rfl hpunctuation)
      obtain ⟨s₂, hread₂, hs₂⟩ := reads_token earlier ht hpunctuation
      obtain ⟨s', hread, hs'⟩ := ih hlater hchain hs₂ fun u hu hscalar =>
        absurd (hnext u hu) (by simp [Token.Apart, hpunctuation, hscalar])
      exact ⟨s', hread₁.append (hread₂.append hread), hs'⟩

end Scanner

/-- Tokens are read back from any way to write them. -/
theorem tokens?_of_written {ts : List Token} {cs : List Char} (hwritten : Written ts cs)
    (hts : ∀ t ∈ ts, t.Grammatical) (hapart : ts.IsChain Token.Apart) : tokens? cs = some ts := by
  obtain ⟨s', hread, hs'⟩ := Scanner.Settled.reads_written hwritten hts hapart
    (Scanner.settled_between []) fun _ _ _ => rfl
  have hrun : cs.foldlM Scanner.step .start = some s' := hread
  rw [tokens?, hrun, Option.bind_some, hs'.finish]
  simp

end AccessPath.Json
