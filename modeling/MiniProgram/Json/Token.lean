import MiniProgram.Json.Number

/-!
# Tokens of JSON text

`tokens text` cuts a text into tokens. The first place that holds no token becomes the token
`junk`, behind which nothing is read. `Token.text` writes a token.

A string token holds its characters, or none when an escape denotes half of a surrogate pair. Such
a string is no error in itself, but it denotes no text.
-/

namespace MiniProgram.Json

/-- A token of JSON text. -/
inductive Token where
  | openBracket
  | closeBracket
  | openBrace
  | closeBrace
  | comma
  | colon
  | null
  | bool (value : Bool)
  | number (numeral : Numeral)
  | string (content : Option (List Char))
  | junk
  deriving DecidableEq, Repr

/-- A character that may separate tokens. -/
def isSpace (c : Char) : Bool :=
  c == ' ' || c == '\n' || c == '\t' || c == '\r'

/-- The value of a hexadecimal digit. -/
def hexValue? (c : Char) : Option Nat :=
  if '0' ≤ c ∧ c ≤ '9' then some (c.toNat - '0'.toNat)
  else if 'a' ≤ c ∧ c ≤ 'f' then some (c.toNat - 'a'.toNat + 10)
  else if 'A' ≤ c ∧ c ≤ 'F' then some (c.toNat - 'A'.toNat + 10)
  else none

/-- The 16-bit unit written with four hexadecimal digits. -/
def unit? (a b c d : Char) : Option Nat := do
  return (((← hexValue? a) * 16 + (← hexValue? b)) * 16 + (← hexValue? c)) * 16 + (← hexValue? d)

/-- The character that a backslash and a letter denote. -/
def escaped? : Char → Option Char
  | '"' => some '"'
  | '\\' => some '\\'
  | '/' => some '/'
  | 'b' => some '\x08'
  | 'f' => some '\x0c'
  | 'n' => some '\n'
  | 'r' => some '\r'
  | 't' => some '\t'
  | _ => none

/-- A 16-bit unit that is the first half of a surrogate pair. -/
def isHighSurrogate (unit : Nat) : Bool :=
  0xD800 ≤ unit && unit ≤ 0xDBFF

/-- A 16-bit unit that is the second half of a surrogate pair. -/
def isLowSurrogate (unit : Nat) : Bool :=
  0xDC00 ≤ unit && unit ≤ 0xDFFF

/-- What a part of a string and the text behind it give: the content of the string from here on,
and the text behind the closing quote. -/
abbrev StringRest := Option (Option (List Char) × List Char)

/-- `character c rest` puts a character in front of the content of a string. -/
def character (c : Char) (rest : StringRest) : StringRest :=
  rest.map fun read => (read.1.map (c :: ·), read.2)

/-- `spoiled rest` is a string of which a part denotes no character. -/
def spoiled (rest : StringRest) : StringRest :=
  rest.map fun read => (none, read.2)

/-- `settle high rest` is `rest`, which does not start with the second half of a surrogate pair. The
string is spoiled if a first half is pending. -/
def settle (high : Option Nat) (rest : StringRest) : StringRest :=
  if high.isSome then spoiled rest else rest

/-- `stringRest high text` reads a string behind its opening quote, or from some character on. It
fails at a control character, at an unknown escape and at the end of the text. `high` is a first
half of a surrogate pair that stands right in front. -/
def stringRest (high : Option Nat) : List Char → StringRest
  | [] => none
  | '"' :: rest => settle high (some (some [], rest))
  | '\\' :: 'u' :: a :: b :: c :: d :: rest =>
    match unit? a b c d with
    | none => none
    | some unit =>
      if isHighSurrogate unit then settle high (stringRest (some unit) rest)
      else if isLowSurrogate unit then
        match high with
        | none => spoiled (stringRest none rest)
        | some first =>
          character (Char.ofNat (0x10000 + (first - 0xD800) * 0x400 + (unit - 0xDC00)))
            (stringRest none rest)
      else settle high (character (Char.ofNat unit) (stringRest none rest))
  | '\\' :: e :: rest =>
    match escaped? e with
    | none => none
    | some c => settle high (character c (stringRest none rest))
  | c :: rest =>
    if c.toNat < 0x20 ∨ c = '\\' then none
    else settle high (character c (stringRest none rest))

/-- `digits text` is the run of digits at the start of a text, and what follows it. -/
def digits (text : List Char) : List Char × List Char :=
  (text.takeWhile Char.isDigit, text.dropWhile Char.isDigit)

/-- `whole? text` reads the digits in front of a decimal point. A zero stands alone. -/
def whole? (text : List Char) : Option (List Char × List Char) :=
  match digits text with
  | ([], _) => none
  | ('0' :: _ :: _, _) => none
  | (whole, rest) => some (whole, rest)

/-- `fraction? text` reads a decimal point and the digits behind it, if there is a point. -/
def fraction? : List Char → Option (Option (List Char) × List Char)
  | '.' :: text =>
    match digits text with
    | ([], _) => none
    | (fraction, rest) => some (some fraction, rest)
  | text => some (none, text)

/-- The sign of an exponent and the text behind it. -/
def exponentSign : List Char → Bool × List Char
  | '-' :: text => (true, text)
  | '+' :: text => (false, text)
  | text => (false, text)

/-- `exponent? text` reads an exponent, if there is one. -/
def exponent? : List Char → Option (Option Exponent × List Char)
  | [] => some (none, [])
  | e :: text =>
    if e = 'e' ∨ e = 'E' then
      match digits (exponentSign text).2 with
      | ([], _) => none
      | (power, rest) => some (some ⟨(exponentSign text).1, power⟩, rest)
    else some (none, e :: text)

/-- The sign of a numeral and the text behind it. -/
def sign : List Char → Bool × List Char
  | '-' :: text => (true, text)
  | text => (false, text)

/-- `numeral? text` reads a numeral, and returns it with the text behind it. -/
def numeral? (text : List Char) : Option (Numeral × List Char) := do
  let (whole, behindWhole) ← whole? (sign text).2
  let (fraction, behindFraction) ← fraction? behindWhole
  let (exponent, rest) ← exponent? behindFraction
  some (⟨(sign text).1, whole, fraction, exponent⟩, rest)

/-- `token? text` reads the token at the start of a text, if there is one. -/
def token? : List Char → Option (Token × List Char)
  | '[' :: rest => some (.openBracket, rest)
  | ']' :: rest => some (.closeBracket, rest)
  | '{' :: rest => some (.openBrace, rest)
  | '}' :: rest => some (.closeBrace, rest)
  | ',' :: rest => some (.comma, rest)
  | ':' :: rest => some (.colon, rest)
  | '"' :: rest => (stringRest none rest).map fun read => (.string read.1, read.2)
  | 'n' :: 'u' :: 'l' :: 'l' :: rest => some (.null, rest)
  | 't' :: 'r' :: 'u' :: 'e' :: rest => some (.bool true, rest)
  | 'f' :: 'a' :: 'l' :: 's' :: 'e' :: rest => some (.bool false, rest)
  | text => (numeral? text).map fun read => (.number read.1, read.2)

/-- Putting a character in front leaves the text behind the string as it is. -/
theorem rest_of_character {c : Char} {rest : StringRest} {read : Option (List Char) × List Char}
    (h : character c rest = some read) : ∃ tail, rest = some tail ∧ read.2 = tail.2 := by
  obtain ⟨tail, htail, rfl⟩ := Option.map_eq_some_iff.1 h
  exact ⟨tail, htail, rfl⟩

/-- Spoiling a string leaves the text behind it as it is. -/
theorem rest_of_spoiled {rest : StringRest} {read : Option (List Char) × List Char}
    (h : spoiled rest = some read) : ∃ tail, rest = some tail ∧ read.2 = tail.2 := by
  obtain ⟨tail, htail, rfl⟩ := Option.map_eq_some_iff.1 h
  exact ⟨tail, htail, rfl⟩

/-- Settling a pending half leaves the text behind the string as it is. -/
theorem rest_of_settle {high : Option Nat} {rest : StringRest}
    {read : Option (List Char) × List Char} (h : settle high rest = some read) :
    ∃ tail, rest = some tail ∧ read.2 = tail.2 := by
  unfold settle at h
  split at h
  · exact rest_of_spoiled h
  · exact ⟨read, h, rfl⟩

/-- A string is longer than what follows it. -/
theorem length_lt_of_stringRest {high : Option Nat} {text : List Char}
    {read : Option (List Char) × List Char} (h : stringRest high text = some read) :
    read.2.length < text.length := by
  fun_induction stringRest high text generalizing read <;>
    grind [rest_of_settle, rest_of_spoiled, rest_of_character]

/-- The digits and what follows them make up the text. -/
theorem digits_append (text : List Char) : (digits text).1 ++ (digits text).2 = text :=
  List.takeWhile_append_dropWhile

/-- The whole part of a numeral and what follows it make up the text. -/
theorem append_of_whole? {text whole rest : List Char} (h : whole? text = some (whole, rest)) :
    whole ++ rest = text ∧ whole ≠ [] := by
  have := digits_append text
  unfold whole? at h
  grind

/-- The whole part of a number takes up some text. -/
theorem length_lt_of_whole? {text whole rest : List Char}
    (h : whole? text = some (whole, rest)) : rest.length < text.length := by
  obtain ⟨same, nonempty⟩ := append_of_whole? h
  have := congrArg List.length same
  have := List.length_pos_iff.2 nonempty
  simp at *; omega

/-- A fraction is followed by no more text than it is read from. -/
theorem length_le_of_fraction? {text rest : List Char} {fraction : Option (List Char)}
    (h : fraction? text = some (fraction, rest)) : rest.length ≤ text.length := by
  unfold fraction? at h
  split at h
  · next tail =>
    have := congrArg List.length (digits_append tail)
    grind
  · grind

/-- What remains behind the sign of an exponent is no longer than the text. -/
theorem length_exponentSign (text : List Char) : (exponentSign text).2.length ≤ text.length := by
  unfold exponentSign
  split <;> simp

/-- An exponent is followed by no more text than it is read from. -/
theorem length_le_of_exponent? {text rest : List Char} {exponent : Option Exponent}
    (h : exponent? text = some (exponent, rest)) : rest.length ≤ text.length := by
  unfold exponent? at h
  split at h
  · grind
  · next e tail =>
    have := congrArg List.length (digits_append (exponentSign tail).2)
    have := length_exponentSign tail
    grind

/-- What remains behind the sign of a number is no longer than the text. -/
theorem length_sign (text : List Char) : (sign text).2.length ≤ text.length := by
  unfold sign
  split <;> simp

/-- A numeral is longer than nothing. -/
theorem length_lt_of_numeral? {text rest : List Char} {numeral : Numeral}
    (h : numeral? text = some (numeral, rest)) : rest.length < text.length := by
  simp only [numeral?, bind, Option.bind_eq_some_iff, Prod.exists] at h
  obtain ⟨whole, afterWhole, hwhole, fraction, afterFraction, hfraction, exponent, behind,
    hexponent, same⟩ := h
  have := length_lt_of_whole? hwhole
  have := length_le_of_fraction? hfraction
  have := length_le_of_exponent? hexponent
  have := length_sign text
  cases same
  omega

/-- A token takes up some text. -/
theorem length_lt_of_token? {text rest : List Char} {token : Token}
    (h : token? text = some (token, rest)) : rest.length < text.length := by
  unfold token? at h
  split at h
  case h_7 =>
    obtain ⟨body, hbody, same⟩ := Option.map_eq_some_iff.1 h
    have := length_lt_of_stringRest hbody
    cases same
    simp only [List.length_cons]; omega
  case h_11 =>
    obtain ⟨body, hbody, same⟩ := Option.map_eq_some_iff.1 h
    cases same
    exact length_lt_of_numeral? hbody
  all_goals cases h; simp only [List.length_cons]; omega

/-- `tokens text` cuts a text into tokens. Where no token can be read it ends with `junk`. -/
def tokens (text : List Char) : List Token :=
  match _h : text.dropWhile isSpace with
  | [] => []
  | c :: rest =>
    match _h' : token? (c :: rest) with
    | none => [.junk]
    | some (token, behind) => token :: tokens behind
termination_by text.length
decreasing_by
  have spaces := (List.dropWhile_suffix isSpace (l := text)).length_le
  have shorter := length_lt_of_token? _h'
  rw [_h] at spaces
  exact Nat.lt_of_lt_of_le shorter spaces

/-- A lower-case hexadecimal digit. -/
def hexDigit (value : Nat) : Char :=
  if value < 10 then Char.ofNat ('0'.toNat + value) else Char.ofNat ('a'.toNat + value - 10)

/-- How a character is written in a string. Only quotes, backslashes and control characters are
escaped. -/
def escape (c : Char) : List Char :=
  if c = '"' then ['\\', '"']
  else if c = '\\' then ['\\', '\\']
  else if c = '\x08' then ['\\', 'b']
  else if c = '\x0c' then ['\\', 'f']
  else if c = '\n' then ['\\', 'n']
  else if c = '\r' then ['\\', 'r']
  else if c = '\t' then ['\\', 't']
  else if c.toNat < 0x20 then
    ['\\', 'u', '0', '0', hexDigit (c.toNat / 16), hexDigit (c.toNat % 16)]
  else [c]

/-- The text of a token. -/
def Token.text : Token → List Char
  | .openBracket => ['[']
  | .closeBracket => [']']
  | .openBrace => ['{']
  | .closeBrace => ['}']
  | .comma => [',']
  | .colon => [':']
  | .null => ['n', 'u', 'l', 'l']
  | .bool true => ['t', 'r', 'u', 'e']
  | .bool false => ['f', 'a', 'l', 's', 'e']
  | .number numeral => numeral.text
  | .string content => '"' :: (content.getD []).flatMap escape ++ ['"']
  | .junk => []

end MiniProgram.Json
