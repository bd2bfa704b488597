import MiniProgram.Json.Decode
import Mathlib.Data.List.Basic

/-!
# Written values read back

Read `decode_write` first: decoding the text of a value is decoding its tree, whatever the value
holds. The text is cut into the tokens that it is written from (`tokens_write`), as strings are read
up to their closing quote and numbers end in front of every character that can follow them in a
value. These tokens build the tree of the value and leave nothing behind (`ofTokens_tokens`).
-/

namespace MiniProgram.Json

section Numerals

/-- Digits of a number, of which there is at least one. -/
def AreDigits (text : List Char) : Prop :=
  text ≠ [] ∧ ∀ c ∈ text, c.isDigit = true

/-- A numeral as numbers are written: all its parts have digits, and a leading zero stands alone. -/
structure Numeral.Legible (numeral : Numeral) : Prop where
  whole : AreDigits numeral.whole
  zero : numeral.whole.head? = some '0' → numeral.whole = ['0']
  fraction : ∀ text ∈ numeral.fraction, AreDigits text
  exponent : ∀ exponent ∈ numeral.exponent, AreDigits exponent.digits

/-- A text that does not go on with a number that stands in front of it. -/
def EndsNumber (text : List Char) : Prop :=
  ∀ c ∈ text.head?, c.isDigit = false ∧ c ≠ '.' ∧ c ≠ 'e' ∧ c ≠ 'E'

/-- How a fraction is written. -/
def fractionText (fraction : Option (List Char)) : List Char :=
  fraction.elim [] ('.' :: ·)

/-- How an exponent is written. -/
def exponentText (exponent : Option Exponent) : List Char :=
  exponent.elim [] fun exponent =>
    'e' :: (if exponent.negative then '-' else '+') :: exponent.digits

/-- A numeral is its sign, its whole part, its fraction and its exponent. -/
theorem Numeral.text_eq (numeral : Numeral) :
    numeral.text = (if numeral.negative then ['-'] else []) ++ (numeral.whole ++
      (fractionText numeral.fraction ++ exponentText numeral.exponent)) := by
  obtain ⟨negative, whole, fraction, exponent⟩ := numeral
  cases fraction <;> cases exponent <;> simp [text, fractionText, exponentText]

variable {text rest : List Char}

/-- Digits are read up to the first character that is none. -/
theorem digits_append_eq (h : AreDigits text) (hrest : ∀ c ∈ rest.head?, c.isDigit = false) :
    digits (text ++ rest) = (text, rest) := by
  have hstop : rest.takeWhile Char.isDigit = [] ∧ rest.dropWhile Char.isDigit = rest := by
    cases rest with
    | nil => exact ⟨rfl, rfl⟩
    | cons c rest => simp [hrest c rfl]
  rw [digits, List.takeWhile_append_of_pos h.2, List.dropWhile_append_of_pos h.2, hstop.1, hstop.2,
    List.append_nil]

/-- A digit is no sign. -/
theorem sign_append (h : AreDigits text) (negative : Bool) (rest : List Char) :
    sign ((if negative then ['-'] else []) ++ (text ++ rest)) = (negative, text ++ rest) := by
  cases negative with
  | true => rfl
  | false =>
      obtain ⟨c, tail, rfl⟩ := List.exists_cons_of_ne_nil h.1
      have hdigit : c.isDigit = true := h.2 c (.head _)
      show sign (c :: (tail ++ rest)) = _
      rw [sign.eq_def]
      split
      · next heq =>
          obtain ⟨rfl, -⟩ := List.cons.inj heq
          cases hdigit
      · rfl

/-- The whole part of a number is read back in front of what is no digit. -/
theorem whole?_append {whole : List Char} (h : AreDigits whole)
    (hzero : whole.head? = some '0' → whole = ['0'])
    (hrest : ∀ c ∈ rest.head?, c.isDigit = false) :
    whole? (whole ++ rest) = some (whole, rest) := by
  rw [whole?, digits_append_eq h hrest]
  split
  · next hnil => exact absurd (Prod.mk.inj hnil).1 h.1
  · next hlong =>
      obtain ⟨rfl, -⟩ := Prod.mk.inj hlong
      cases hzero rfl
  · next heq => rw [heq]

/-- The fraction of a number is read back in front of what is neither a digit nor a point. -/
theorem fraction?_append {fraction : Option (List Char)} (h : ∀ text ∈ fraction, AreDigits text)
    (hrest : ∀ c ∈ rest.head?, c.isDigit = false ∧ c ≠ '.') :
    fraction? (fractionText fraction ++ rest) = some (fraction, rest) := by
  cases fraction with
  | none =>
      show fraction? rest = _
      rw [fraction?.eq_def]
      split
      · exact absurd rfl (hrest '.' rfl).2
      · rfl
  | some digits =>
      have hdigits := h digits rfl
      show fraction? ('.' :: (digits ++ rest)) = _
      rw [fraction?, digits_append_eq hdigits fun c hc => (hrest c hc).1]
      split
      · next hnil => exact absurd (Prod.mk.inj hnil).1 hdigits.1
      · next heq => cases heq; rfl

/-- The exponent of a number is read back in front of what ends the number. -/
theorem exponent?_append {exponent : Option Exponent}
    (h : ∀ found ∈ exponent, AreDigits found.digits) (hrest : EndsNumber rest) :
    exponent? (exponentText exponent ++ rest) = some (exponent, rest) := by
  cases exponent with
  | none =>
      cases rest with
      | nil => rfl
      | cons c rest =>
          obtain ⟨-, -, hlower, hupper⟩ := hrest c rfl
          show exponent? (c :: rest) = _
          rw [exponent?, if_neg (by simp [hlower, hupper])]
  | some exponent =>
      obtain ⟨negative, power⟩ := exponent
      have hdigits : AreDigits power := h _ rfl
      have hsign : exponentSign ((if negative then '-' else '+') :: (power ++ rest)) =
          (negative, power ++ rest) := by
        cases negative <;> rfl
      show exponent? ('e' :: (if negative then '-' else '+') :: (power ++ rest)) = _
      rw [exponent?, if_pos (.inl rfl), hsign,
        digits_append_eq hdigits fun c hc => (hrest c hc).1]
      split
      · next hnil => exact absurd (Prod.mk.inj hnil).1 hdigits.1
      · next heq => cases heq; rfl

/-- Neither a digit nor a point follows a fraction. -/
theorem head?_exponentText_append (exponent : Option Exponent) (hrest : EndsNumber rest) :
    ∀ c ∈ (exponentText exponent ++ rest).head?, c.isDigit = false ∧ c ≠ '.' := by
  cases exponent with
  | none => exact fun c hc => ⟨(hrest c hc).1, (hrest c hc).2.1⟩
  | some exponent =>
      rintro _ ⟨⟩
      decide

/-- A legible numeral is read up to where it ends. -/
theorem numeral?_text {numeral : Numeral} (h : numeral.Legible) (hrest : EndsNumber rest) :
    numeral? (numeral.text ++ rest) = some (numeral, rest) := by
  obtain ⟨negative, whole, fraction, exponent⟩ := numeral
  have hexponent := head?_exponentText_append exponent hrest
  have hfraction : ∀ c ∈ (fractionText fraction ++ (exponentText exponent ++ rest)).head?,
      c.isDigit = false := by
    cases fraction with
    | none => exact fun c hc => (hexponent c hc).1
    | some digits =>
        rintro _ ⟨⟩
        decide
  have hsign := sign_append h.whole negative (fractionText fraction ++
    (exponentText exponent ++ rest))
  simp only [numeral?, Numeral.text_eq, List.append_assoc, hsign, bind, Option.bind,
    whole?_append h.whole h.zero hfraction, fraction?_append h.fraction hexponent,
    exponent?_append h.exponent hrest]

end Numerals

section Numbers

/-- The decimal digits of a number are digits. -/
theorem areDigits_toDigits (n : Nat) : AreDigits (Nat.toDigits 10 n) :=
  ⟨Nat.toDigits_ne_nil, fun _ hc => Nat.isDigit_of_mem_toDigits (by decide) (by decide) hc⟩

/-- A zero is a digit. -/
theorem areDigits_zero : AreDigits ['0'] :=
  ⟨List.cons_ne_nil _ _, List.forall_mem_singleton.2 rfl⟩

/-- Zeros are digits. -/
theorem isDigit_of_mem_zeros {count : Nat} : ∀ c ∈ List.replicate count '0', c.isDigit = true := by
  intro c hc
  rw [List.eq_of_mem_replicate hc]
  rfl

namespace AreDigits

variable {text : List Char} {count : Nat}

/-- Zeros may stand behind digits. -/
theorem append_zeros (h : AreDigits text) : AreDigits (text ++ List.replicate count '0') :=
  ⟨List.append_ne_nil_of_left_ne_nil h.1 _, fun c hc =>
    (List.mem_append.1 hc).elim (h.2 c) (isDigit_of_mem_zeros c)⟩

/-- Zeros may stand in front of digits. -/
theorem zeros_append (h : AreDigits text) : AreDigits (List.replicate count '0' ++ text) :=
  ⟨List.append_ne_nil_of_right_ne_nil _ h.1, fun c hc =>
    (List.mem_append.1 hc).elim (isDigit_of_mem_zeros c) (h.2 c)⟩

/-- The first digits are digits, if there is one. -/
theorem take (h : AreDigits text) (hcount : 0 < count) : AreDigits (text.take count) := by
  refine ⟨fun hnil => ?_, fun c hc => h.2 c (List.mem_of_mem_take hc)⟩
  rcases List.take_eq_nil_iff.1 hnil with hzero | hempty
  · omega
  · exact h.1 hempty

/-- The last digits are digits, if there is one. -/
theorem drop (h : AreDigits text) (hcount : count < text.length) : AreDigits (text.drop count) := by
  refine ⟨fun hnil => ?_, fun c hc => h.2 c (List.mem_of_mem_drop hc)⟩
  have hlong := List.drop_eq_nil_iff.1 hnil
  omega

end AreDigits

/-- Only zero is written with a leading zero. -/
theorem head?_toDigits {n : Nat} (h : 0 < n) : (Nat.toDigits 10 n).head? ≠ some '0' := by
  induction n using Nat.strongRecOn with
  | ind n ih =>
      by_cases hn : n < 10
      · rw [Nat.toDigits_of_lt_base hn]
        have hall : ∀ d < 10, 0 < d → [d.digitChar].head? ≠ some '0' := by decide
        exact hall n hn h
      · rw [Nat.toDigits_of_base_le (by decide) (Nat.le_of_not_lt hn),
          List.head?_append_of_ne_nil _ Nat.toDigits_ne_nil]
        exact ih (n / 10) (by omega) (by omega)

/-- The digits of a positive number do not start with a zero. -/
theorem exists_toDigits {n : Nat} (h : 0 < n) :
    ∃ c tail, Nat.toDigits 10 n = c :: tail ∧ c ≠ '0' := by
  obtain ⟨c, tail, htext⟩ := List.exists_cons_of_ne_nil (Nat.toDigits_ne_nil (b := 10) (n := n))
  have hfirst := head?_toDigits h
  rw [htext] at hfirst
  exact ⟨c, tail, htext, fun hzero => hfirst (congrArg some hzero)⟩

/-- A natural number is written as a legible numeral, with a sign or without. -/
theorem legible_ofNat (negative : Bool) (n : Nat) :
    Numeral.Legible { Numeral.ofNat n with negative } where
  whole := areDigits_toDigits n
  zero h := by
    rcases Nat.eq_zero_or_pos n with rfl | hn
    · rfl
    · exact absurd h (head?_toDigits hn)
  fraction := nofun
  exponent := nofun

/-- A decimal that is not zero is written legibly in all forms. -/
theorem legible_ofDecimal (negative : Bool) {decimal : Magnitude.Decimal}
    (h : 0 < decimal.digits) : (Numeral.ofDecimal negative decimal).Legible := by
  have hdigits := areDigits_toDigits decimal.digits
  obtain ⟨c, tail, htext, hzero⟩ := exists_toDigits h
  have hlength : (Nat.toDigits 10 decimal.digits).length = tail.length + 1 := by
    rw [htext, List.length_cons]
  -- the whole part is either zero or starts with the first digit
  have hwhole : ∀ more, (c :: more).head? = some '0' → c :: more = ['0'] :=
    fun more hfirst => absurd (Option.some.inj hfirst) hzero
  rw [Numeral.ofDecimal]
  split
  · split
    · refine ⟨hdigits.append_zeros, ?_, fun text htext => ?_, nofun⟩
      · rw [htext]
        exact hwhole _
      · cases htext
        exact areDigits_zero
    · split
      · refine ⟨hdigits.take (Nat.succ_pos _), ?_, fun text htext => ?_, nofun⟩
        · rw [htext]
          exact hwhole _
        · cases htext
          exact hdigits.drop (by omega)
      · refine ⟨areDigits_zero, fun _ => rfl, fun text htext => ?_, nofun⟩
        cases htext
        exact hdigits.zeros_append
  · refine ⟨hdigits.take Nat.one_pos, ?_, fun text htext => ?_, fun exponent hexponent => ?_⟩
    · rw [htext]
      exact hwhole _
    · split at htext
      · cases htext
      · cases htext
        exact hdigits.drop (by omega)
    · cases hexponent
      exact areDigits_toDigits _

/-- Zero does not round to a magnitude other than zero. -/
theorem digits_pos_of_roundsTo {m : Magnitude} {decimal : Magnitude.Decimal}
    (hm : m.significand ≠ 0) (h : m.roundsTo decimal = true) : 0 < decimal.digits := by
  by_contra hzero
  -- the ratio of zero is zero in any scale, and the neighbourhood starts above it
  obtain ⟨digits, exponent⟩ := decimal
  obtain rfl : digits = 0 := Nat.eq_zero_of_not_pos hzero
  have hratio : ∃ den, 0 < den ∧ Magnitude.Decimal.ratio ⟨0, exponent⟩ = (0, den) := by
    unfold Magnitude.Decimal.ratio
    split
    · exact ⟨1, Nat.one_pos, by simp⟩
    · exact ⟨_, Nat.pow_pos (by decide), rfl⟩
  obtain ⟨den, hden, hratio⟩ := hratio
  have hscaled : ∃ den', 0 < den' ∧ Magnitude.scaled 0 den (m.exponent - 2) = (0, den') := by
    unfold Magnitude.scaled
    split
    · exact ⟨_, Nat.mul_pos hden (Nat.pow_pos (by decide)), rfl⟩
    · exact ⟨den, hden, by simp⟩
  obtain ⟨den', hden', hscaled⟩ := hscaled
  have hlow : 0 < m.neighbourhood.1 := by
    unfold Magnitude.neighbourhood
    dsimp only
    split <;> omega
  have hpos := Nat.mul_pos hlow hden'
  simp only [Magnitude.roundsTo, hratio, hscaled] at h
  split at h
  · simp at h; omega
  · simp at h

/-- The nearer of two decimals is one of them. -/
theorem nearer_cases (m : Magnitude) (a b : Magnitude.Decimal) :
    m.nearer a b = a ∨ m.nearer a b = b := by
  rw [Magnitude.nearer]
  dsimp only
  split
  · exact .inl rfl
  · exact .inr rfl

/-- Dropping zeros leaves a positive number positive. -/
theorem digits_dropZeros_pos {decimal : Magnitude.Decimal} (h : 0 < decimal.digits) (count : Nat) :
    0 < (Magnitude.dropZeros decimal count).digits := by
  induction count generalizing decimal with
  | zero => exact h
  | succ count ih =>
      rw [Magnitude.dropZeros]
      split
      · next hlast => exact ih (by dsimp only; omega)
      · exact h

/-- The shortest decimal of a magnitude that is not zero is positive. -/
theorem digits_shortestFrom_pos {m : Magnitude} (hm : m.significand ≠ 0) (lead : Int)
    (count left : Nat) : 0 < (Magnitude.shortestFrom m lead count left).digits := by
  induction left generalizing count with
  | zero => exact Nat.pos_of_ne_zero hm
  | succ left ih =>
      rw [Magnitude.shortestFrom]
      dsimp only
      split
      · next hbelow habove =>
          rcases nearer_cases m _ _ with heq | heq <;> rw [heq]
          · exact digits_pos_of_roundsTo hm hbelow
          · exact Nat.succ_pos _
      · next hbelow _ => exact digits_pos_of_roundsTo hm hbelow
      · exact Nat.succ_pos _
      · exact ih (count + 1)

/-- All numbers are written legibly. -/
theorem Number.legible_numeral (number : Number) : number.numeral.Legible := by
  cases number with
  | natural value => exact legible_ofNat false value
  | minus value => exact legible_ofNat true value
  | float value =>
      obtain ⟨negative, magnitude⟩ := value
      rw [Number.numeral]
      split
      · refine ⟨areDigits_zero, fun _ => rfl, ?_, nofun⟩
        rintro _ ⟨⟩
        exact areDigits_zero
      · next h =>
          have hdigits : 0 < magnitude.shortest.digits :=
            digits_dropZeros_pos (digits_shortestFrom_pos h _ _ _) _
          exact legible_ofDecimal negative hdigits

/-- Digits never make a value smaller. -/
theorem le_ofDigitChars (digits : List Char) (value : Nat) :
    value ≤ Nat.ofDigitChars 10 digits value := by
  rw [Nat.ofDigitChars_eq_ofDigitChars_zero]
  exact Nat.le_trans (Nat.le_mul_of_pos_left value (Nat.pow_pos (by decide)))
    (Nat.le_add_right _ _)

/-- All digits of a number that stays below the limit are absorbed. -/
theorem absorb_eq {limit value : Nat} {digits : List Char}
    (h : Nat.ofDigitChars 10 digits value < limit) :
    absorb limit value digits = (Nat.ofDigitChars 10 digits value, []) := by
  induction digits generalizing value with
  | nil => rw [absorb, Nat.ofDigitChars_nil]
  | cons d digits ih =>
      have hvalue : value * 10 + digitValue d = 10 * value + (d.toNat - '0'.toNat) := by
        rw [digitValue, Nat.mul_comm]
      rw [Nat.ofDigitChars_cons, ← hvalue] at h ⊢
      rw [absorb, if_pos (Nat.lt_of_le_of_lt (le_ofDigitChars digits _) h), ih h]

/-- A number of 64 bits is read back from its numeral. -/
theorem number?_ofNat {n : Nat} (h : n < wordLimit 64) :
    (Numeral.ofNat n).number? = some (.natural n) := by
  have hdigits := Nat.ofDigitChars_ten_toDigits (n := n)
  have habsorb := absorb_eq (hdigits.symm ▸ h)
  rw [hdigits] at habsorb
  simp [Numeral.number?, Numeral.integer?, Numeral.ofNat, habsorb]

end Numbers

section Strings

/-- A lower-case digit stands for its value. -/
theorem hexValue?_hexDigit (value : Nat) (h : value < 16) :
    hexValue? (hexDigit value) = some value := by
  have hall : ∀ value < 16, hexValue? (hexDigit value) = some value := by decide
  exact hall value h

/-- Four digits denote a control character. -/
theorem unit?_control {c : Char} (h : c.toNat < 0x20) :
    unit? '0' '0' (hexDigit (c.toNat / 16)) (hexDigit (c.toNat % 16)) = some c.toNat := by
  have hzero : hexValue? '0' = some 0 := rfl
  have hhigh := hexValue?_hexDigit (c.toNat / 16) (by omega)
  have hlow := hexValue?_hexDigit (c.toNat % 16) (by omega)
  simp only [unit?, hzero, hhigh, hlow, bind, Option.bind, pure]
  congr 1
  omega

/-- A control character is read from its four digits. -/
theorem stringRest_control {c : Char} (h : c.toNat < 0x20) (text : List Char) :
    stringRest none ('\\' :: 'u' :: '0' :: '0' :: hexDigit (c.toNat / 16) ::
      hexDigit (c.toNat % 16) :: text) = character c (stringRest none text) := by
  have hhigh : isHighSurrogate c.toNat = false := by simp [isHighSurrogate]; omega
  have hlow : isLowSurrogate c.toNat = false := by simp [isLowSurrogate]; omega
  rw [stringRest, unit?_control h]
  simp [hhigh, hlow, settle, Char.ofNat_toNat]

/-- A character that needs no escape is read as it is. -/
theorem stringRest_cons {c : Char} (hquote : c ≠ '"') (hbackslash : c ≠ '\\')
    (hcontrol : ¬ c.toNat < 0x20) (text : List Char) :
    stringRest none (c :: text) = character c (stringRest none text) := by
  rw [stringRest.eq_def]
  split
  · next heq => cases heq
  · next heq => exact absurd (List.cons.inj heq).1 hquote
  · next heq => exact absurd (List.cons.inj heq).1 hbackslash
  · next heq => exact absurd (List.cons.inj heq).1 hbackslash
  · next heq =>
      obtain ⟨rfl, rfl⟩ := List.cons.inj heq
      rw [if_neg (by simp [hcontrol, hbackslash])]
      rfl

/-- A character is read from the way it is written. -/
theorem stringRest_escape (c : Char) (text : List Char) :
    stringRest none (escape c ++ text) = character c (stringRest none text) := by
  rw [escape]
  iterate 7
    split
    · next h => rw [h]; rfl
  split
  · next h => exact stringRest_control h text
  · next hquote hbackslash _ _ _ _ _ hcontrol =>
      exact stringRest_cons hquote hbackslash hcontrol text

/-- A string is read up to its closing quote. -/
theorem stringRest_flatMap_escape (content rest : List Char) :
    stringRest none (content.flatMap escape ++ '"' :: rest) = some (some content, rest) := by
  induction content with
  | nil => rfl
  | cons c content ih =>
      rw [List.flatMap_cons, List.append_assoc, stringRest_escape, ih]
      rfl

end Strings

section Tokens

variable {text rest : List Char} {token : Token}

/-- What a number is written as starts with a digit or a sign. -/
theorem exists_text_eq {numeral : Numeral} (h : numeral.Legible) :
    ∃ c tail, numeral.text = c :: tail ∧ (c.isDigit = true ∨ c = '-') := by
  rw [Numeral.text_eq]
  split
  · exact ⟨'-', _, rfl, .inr rfl⟩
  · obtain ⟨c, tail, hwhole⟩ := List.exists_cons_of_ne_nil h.whole.1
    exact ⟨c, _, by rw [hwhole]; rfl, .inl (h.whole.2 c (by rw [hwhole]; exact .head _))⟩

/-- Only a number starts with a digit or a sign. -/
theorem token?_number {c : Char} (h : c.isDigit = true ∨ c = '-') (text : List Char) :
    token? (c :: text) = (numeral? (c :: text)).map fun read => (.number read.1, read.2) := by
  rw [token?.eq_def]
  split
  case h_11 => rfl
  all_goals
    next heq =>
      obtain ⟨rfl, -⟩ := List.cons.inj heq
      simp at h

/-- Where a token can be read it is the first one. -/
theorem tokens_of_token? (hspace : ∀ c ∈ text.head?, isSpace c = false)
    (h : token? text = some (token, rest)) : tokens text = token :: tokens rest := by
  have hstart : text.dropWhile isSpace = text := by
    cases text with
    | nil => rfl
    | cons c tail => rw [List.dropWhile_cons_of_neg (by simp [hspace c rfl])]
  rw [tokens]
  split
  · next hnil =>
      rw [hstart] at hnil
      rw [hnil] at h
      cases h
  · next heq =>
      rw [hstart] at heq
      rw [heq] at h
      split
      · next hnone => cases hnone.symm.trans h
      · next hsome =>
          obtain ⟨rfl, rfl⟩ := Prod.mk.inj (Option.some.inj (hsome.symm.trans h))
          rfl

/-- A legible numeral is read back as one token in front of what ends it. -/
theorem tokens_numeral {numeral : Numeral} (h : numeral.Legible) (hrest : EndsNumber rest) :
    tokens (numeral.text ++ rest) = .number numeral :: tokens rest := by
  obtain ⟨c, tail, htext, hc⟩ := exists_text_eq h
  have hread := numeral?_text h hrest
  rw [htext] at hread ⊢
  refine tokens_of_token? ?_ ?_
  · rintro _ ⟨⟩
    rcases hc with hdigit | rfl
    · cases hspace : isSpace c with
      | false => rfl
      | true =>
          have hcases : ((c = ' ' ∨ c = '\n') ∨ c = '\t') ∨ c = '\r' := by
            simpa [isSpace] using hspace
          rcases hcases with ((rfl | rfl) | rfl) | rfl <;> cases hdigit
    · rfl
  · rw [List.cons_append, token?_number hc, ← List.cons_append, hread]
    rfl

/-- A string is read back as one token, whatever follows it. -/
theorem tokens_string (content rest : List Char) :
    tokens ((Token.string content).text ++ rest) = .string content :: tokens rest := by
  refine tokens_of_token? (by rintro _ ⟨⟩; rfl) ?_
  have htext : (Token.string content).text ++ rest =
      '"' :: (content.flatMap escape ++ '"' :: rest) := by simp [Token.text]
  rw [htext, token?, stringRest_flatMap_escape]
  rfl

/-- A token that is always written in the same way. -/
def Token.isFixed : Token → Bool
  | .number _ | .string _ | .junk => false
  | _ => true

/-- A token that is always written in the same way is read back, whatever follows it. -/
theorem tokens_fixed (token : Token) (h : token.isFixed = true) (rest : List Char) :
    tokens (token.text ++ rest) = token :: tokens rest := by
  refine tokens_of_token? ?_ ?_
  · cases token with
    | number | string | junk => cases h
    | bool value => cases value <;> rintro _ ⟨⟩ <;> rfl
    | _ => rintro _ ⟨⟩; rfl
  · cases token with
    | number | string | junk => cases h
    | bool value => cases value <;> rfl
    | _ => rfl

/-- What tokens are written as. -/
def spelled (tokens : List Token) : List Char :=
  tokens.flatMap Token.text

/-- No tokens are written as no text. -/
@[simp]
theorem spelled_nil : spelled [] = [] := rfl

/-- Tokens are written one behind the other. -/
@[simp]
theorem spelled_cons (token : Token) (others : List Token) :
    spelled (token :: others) = token.text ++ spelled others := rfl

/-- One token is written as its text. -/
theorem spelled_singleton (token : Token) : spelled [token] = token.text :=
  List.append_nil _

/-- What tokens are written as is put together of what their parts are written as. -/
@[simp]
theorem spelled_append (front behind : List Token) :
    spelled (front ++ behind) = spelled front ++ spelled behind :=
  List.flatMap_append

/-- A text that starts with a comma or a closing bracket does not go on with a number. -/
theorem endsNumber_text (h : token = .comma ∨ token = .closeBracket ∨ token = .closeBrace) :
    EndsNumber (token.text ++ text) := by
  rcases h with rfl | rfl | rfl <;> rintro _ ⟨⟩ <;> decide

mutual
/-- The text of a value is cut into the tokens of the value. -/
theorem tokens_value (value : Value) (rest : List Char) (h : EndsNumber rest) :
    tokens (spelled value.tokens ++ rest) = value.tokens ++ tokens rest := by
  cases value with
  | null => exact tokens_fixed .null rfl rest
  | bool value =>
      rw [Value.tokens, spelled_singleton, tokens_fixed (.bool value) rfl, List.singleton_append]
  | number value =>
      rw [Value.tokens, spelled_singleton, Token.text, tokens_numeral value.legible_numeral h,
        List.singleton_append]
  | string value =>
      rw [Value.tokens, spelled_singleton, tokens_string, List.singleton_append]
  | array items =>
      simp only [Value.tokens, spelled_cons, spelled_append, spelled_nil, List.append_assoc,
        List.cons_append, List.nil_append]
      rw [tokens_fixed .openBracket rfl, tokens_items items _ (endsNumber_text (by simp)),
        tokens_fixed .closeBracket rfl]
  | object entries =>
      simp only [Value.tokens, spelled_cons, spelled_append, spelled_nil, List.append_assoc,
        List.cons_append, List.nil_append]
      rw [tokens_fixed .openBrace rfl, tokens_entries entries _ (endsNumber_text (by simp)),
        tokens_fixed .closeBrace rfl]

/-- The text of items is cut into their tokens. -/
theorem tokens_items (items : List Value) (rest : List Char) (h : EndsNumber rest) :
    tokens (spelled (Value.itemTokens items) ++ rest) = Value.itemTokens items ++ tokens rest := by
  match items with
  | [] => rfl
  | [item] => exact tokens_value item rest h
  | item :: second :: others =>
      simp only [Value.itemTokens, spelled_cons, spelled_append, List.append_assoc,
        List.cons_append]
      rw [tokens_value item _ (endsNumber_text (by simp)), tokens_fixed .comma rfl,
        tokens_items (second :: others) rest h]

/-- The text of entries is cut into their tokens. -/
theorem tokens_entries (entries : List (String × Value)) (rest : List Char) (h : EndsNumber rest) :
    tokens (spelled (Value.entryTokens entries) ++ rest) =
      Value.entryTokens entries ++ tokens rest := by
  match entries with
  | [] => rfl
  | [(key, value)] =>
      simp only [Value.entryTokens, spelled_cons, List.append_assoc, List.cons_append]
      rw [tokens_string, tokens_fixed .colon rfl, tokens_value value rest h]
  | (key, value) :: second :: others =>
      simp only [Value.entryTokens, spelled_cons, spelled_append, List.append_assoc,
        List.cons_append]
      rw [tokens_string, tokens_fixed .colon rfl,
        tokens_value value _ (endsNumber_text (by simp)), tokens_fixed .comma rfl,
        tokens_entries (second :: others) rest h]
end

/-- A written value is cut into the tokens that it is written from. -/
theorem tokens_write (value : Value) : tokens value.write.toList = value.tokens := by
  have h := tokens_value value [] nofun
  have hend : tokens [] = [] := by rw [tokens]; rfl
  rw [hend, List.append_nil, List.append_nil] at h
  rw [Value.write, String.toList_ofList]
  exact h

end Tokens

namespace Node

/-- How reading goes on after a step. -/
def resume (rest : List Token) : Step → Node × List Token
  | .done node => (node, rest)
  | .more expected stack => build expected stack rest
  | .fault node => (node, rest)

/-- Building a tree takes a step with each token. -/
theorem build_cons (expected : Expected) (stack : List Frame) (token : Token)
    (rest : List Token) :
    build expected stack (token :: rest) = resume rest (step expected stack token) := by
  rw [build]
  cases step expected stack token <;> rfl

section Build

variable {stack outer : List Frame} {rest : List Token}

/-- An opening bracket starts an array. -/
theorem build_openBracket :
    build .value stack (.openBracket :: rest) = build .value (.array [] :: stack) rest := rfl

/-- An opening brace starts an object. -/
theorem build_openBrace :
    build .value stack (.openBrace :: rest) = build .key (.object [] :: stack) rest := rfl

/-- A key and its colon lead to the value of an entry. -/
theorem build_key (before : List (Node × Node)) (key : List Char) :
    build .key (.object before :: outer) (.string key :: .colon :: rest) =
      build .value (.field before (.string key) :: outer) rest := rfl

/-- Behind a comma in an array an item is expected. -/
theorem build_comma_item (before : List Node) :
    build .next (.array before :: outer) (.comma :: rest) =
      build .value (.array before :: outer) rest := rfl

/-- Behind a comma in an object a key is expected. -/
theorem build_comma_entry (before : List (Node × Node)) :
    build .next (.object before :: outer) (.comma :: rest) =
      build .key (.object before :: outer) rest := rfl

/-- A closing bracket completes an array. -/
theorem build_closeBracket (before : List Node) :
    build .next (.array before :: outer) (.closeBracket :: rest) =
      resume rest (complete (.array before.reverse) outer) :=
  build_cons ..

/-- A closing brace completes an object. -/
theorem build_closeBrace (before : List (Node × Node)) :
    build .next (.object before :: outer) (.closeBrace :: rest) =
      resume rest (complete (.object before.reverse) outer) :=
  build_cons ..

/-- A tree that is complete is an item of the array around it. -/
theorem resume_item (node : Node) (before : List Node) :
    resume rest (complete node (.array before :: outer)) =
      build .next (.array (node :: before) :: outer) rest := rfl

/-- A tree that is complete is the value of the entry around it. -/
theorem resume_field (key node : Node) (before : List (Node × Node)) :
    resume rest (complete node (.field before key :: outer)) =
      build .next (.object ((key, node) :: before) :: outer) rest := rfl

end Build

mutual
/-- The tokens of a value lead to its tree, which is handed to the innermost open frame. -/
theorem build_value (value : Value) (stack : List Frame) (rest : List Token) :
    build .value stack (value.tokens ++ rest) = resume rest (complete (ofValue value) stack) := by
  cases value with
  | null | bool | number | string => exact build_cons ..
  | array items =>
      rw [Value.tokens, List.cons_append, List.cons_append, List.append_assoc, build_openBracket,
        ofValue]
      cases items with
      | nil => exact build_cons ..
      | cons item others =>
          exact build_items [] (item :: others) (List.cons_ne_nil _ _) stack rest
  | object entries =>
      rw [Value.tokens, List.cons_append, List.cons_append, List.append_assoc, build_openBrace,
        ofValue]
      cases entries with
      | nil => exact build_cons ..
      | cons entry others =>
          exact build_entries [] (entry :: others) (List.cons_ne_nil _ _) stack rest

/-- The tokens of the items that are left complete an array. -/
theorem build_items (before : List Node) (items : List Value) (hne : items ≠ [])
    (outer : List Frame) (rest : List Token) :
    build .value (.array before :: outer) (Value.itemTokens items ++ .closeBracket :: rest) =
      resume rest (complete (.array (before.reverse ++ ofItems items)) outer) := by
  match items, hne with
  | [item], _ =>
      rw [Value.itemTokens, build_value, resume_item, build_closeBracket, List.reverse_cons,
        ofItems, ofItems]
  | item :: second :: others, _ =>
      simp only [Value.itemTokens, List.append_assoc, List.cons_append]
      rw [build_value, resume_item, build_comma_item,
        build_items _ (second :: others) (List.cons_ne_nil _ _), List.reverse_cons,
        List.append_assoc, List.singleton_append, ← ofItems]

/-- The tokens of the entries that are left complete an object. -/
theorem build_entries (before : List (Node × Node)) (entries : List (String × Value))
    (hne : entries ≠ []) (outer : List Frame) (rest : List Token) :
    build .key (.object before :: outer) (Value.entryTokens entries ++ .closeBrace :: rest) =
      resume rest (complete (.object (before.reverse ++ ofEntries entries)) outer) := by
  match entries, hne with
  | [(key, value)], _ =>
      rw [Value.entryTokens, List.cons_append, List.cons_append, build_key, build_value,
        resume_field, build_closeBrace, List.reverse_cons, ofEntries, ofEntries]
  | (key, value) :: second :: others, _ =>
      simp only [Value.entryTokens, List.append_assoc, List.cons_append]
      rw [build_key, build_value, resume_field, build_comma_entry,
        build_entries _ (second :: others) (List.cons_ne_nil _ _), List.reverse_cons,
        List.append_assoc, List.singleton_append, ← ofEntries]
end

/-- The tokens of a value are those of its tree, and none are left behind it. -/
theorem ofTokens_tokens (value : Value) : ofTokens value.tokens = (ofValue value, []) := by
  have h := build_value value [] []
  rw [List.append_nil] at h
  exact h

end Node

/-- Decoding the text of a value is decoding its tree. -/
theorem decode_write {α : Type} (decoder : Decoder α) (value : Value) :
    decode decoder value.write = decoder (Node.ofValue value) := by
  rw [decode, tokens_write, Node.ofTokens_tokens]
  cases h : decoder (Node.ofValue value) with
  | error fault => simp [h, bind, Except.bind]
  | ok result => simp [h, bind, Except.bind]

end MiniProgram.Json
