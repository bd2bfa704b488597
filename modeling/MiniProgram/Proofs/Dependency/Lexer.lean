import MiniProgram.Dependency
import MiniProgram.Json.Token
import MiniProgram.Text.Blank

/-!
# Reading modules that only import

A module that only imports others for their side effects is made of few tokens: the word `import`,
string literals, semicolons and comments. `tokens` reads a text into such tokens by the lexical
grammar of JavaScript modules, and reads nothing if the text holds anything else. So a text that
reads as some list of tokens reads as that list for every reader of the language.

The value of a literal is a list of UTF-16 code units, as an escape may denote one half of a pair.
Line and paragraph separators may stand in a literal as they are; line feeds and carriage returns
may not, but for those behind a backslash, which count for nothing. Escapes with octal digits are
none in modules.
-/

namespace MiniProgram.Dependency

/-- A token of a module that only imports others for their side effects. -/
inductive Token where
  | comment (text : List Char)
  | lineComment (text : List Char)
  | importWord
  | literal (value : List Nat)
  | semicolon
  deriving DecidableEq, Repr

/-- A token that is a comment of either kind. -/
def Token.isComment : Token → Bool
  | .comment _ | .lineComment _ => true
  | _ => false

/-- A quote around a literal. -/
inductive Quote where
  | single
  | double
  deriving DecidableEq, Repr

/-- The character of a quote. -/
def Quote.char : Quote → Char
  | .single => '\''
  | .double => '"'

/-- Where a reader is. `importing count` is in the word `import` or right behind it, with some
letters read; `slash` is behind the first character of a comment; `star` is in a comment, right
behind a star. The other phases are in a literal with some quote, of which a value has been read:
`escape` is right behind a backslash, `zero` behind an escaped zero, `carriage` behind an escaped
carriage return, `hex` has digits left, `unicode` is behind an escaped `u`, and `braced` is in
braces. -/
inductive Phase where
  | between
  | importing (count : Nat)
  | slash
  | comment (text : List Char)
  | star (text : List Char)
  | lineComment (text : List Char)
  | literal (quote : Quote) (value : List Nat)
  | escape (quote : Quote) (value : List Nat)
  | zero (quote : Quote) (value : List Nat)
  | carriage (quote : Quote) (value : List Nat)
  | hex (quote : Quote) (value : List Nat) (left : Nat) (code : Nat)
  | unicode (quote : Quote) (value : List Nat)
  | braced (quote : Quote) (value : List Nat) (code : Option Nat)
  deriving DecidableEq, Repr

section Characters

/-- A character that ends a line. -/
def isLineEnd (c : Char) : Bool :=
  c == '\n' || c == '\r' || c == '\u2028' || c == '\u2029'

/-- A character that may separate tokens. The byte order mark is one, and the next line character is
none. -/
def isGap (c : Char) : Bool :=
  (Text.isBlank c && c != '\u0085') || c == '\ufeff'

/-- The UTF-16 code units of a code point. -/
def unitsOf (code : Nat) : List Nat :=
  if code < 0x10000 then [code]
  else [0xD800 + (code - 0x10000) / 0x400, 0xDC00 + (code - 0x10000) % 0x400]

/-- The UTF-16 code units of a text. -/
def units (text : List Char) : List Nat :=
  text.flatMap fun c => unitsOf c.toNat

/-- The character that a backslash and a character denote, when the two are a whole escape. -/
def escaped : Char → Char
  | 'b' => '\x08'
  | 't' => '\t'
  | 'n' => '\n'
  | 'v' => '\x0b'
  | 'f' => '\x0c'
  | 'r' => '\r'
  | c => c

end Characters

section Steps

/-- The letters of the word `import`. -/
def importLetters : List Char := ['i', 'm', 'p', 'o', 'r', 't']

/-- `stepBetween c` reads the first character of a token or one between tokens. -/
def stepBetween (c : Char) : Option (List Token × Phase) :=
  if isGap c then some ([], .between)
  else if c = '/' then some ([], .slash)
  else if c = 'i' then some ([], .importing 1)
  else if c = '\'' then some ([], .literal .single [])
  else if c = '"' then some ([], .literal .double [])
  else if c = ';' then some ([.semicolon], .between)
  else none

/-- `stepLiteral quote value c` reads a character in a literal. -/
def stepLiteral (quote : Quote) (value : List Nat) (c : Char) : Option (List Token × Phase) :=
  if c = quote.char then some ([.literal value], .between)
  else if c = '\\' then some ([], .escape quote value)
  else if c = '\n' ∨ c = '\r' then none
  else some ([], .literal quote (value ++ unitsOf c.toNat))

/-- `stepEscape quote value c` reads the character behind a backslash. -/
def stepEscape (quote : Quote) (value : List Nat) (c : Char) : Option Phase :=
  if c = '\r' then some (.carriage quote value)
  else if isLineEnd c then some (.literal quote value)
  else if c = 'x' then some (.hex quote value 2 0)
  else if c = 'u' then some (.unicode quote value)
  else if c = '0' then some (.zero quote value)
  else if c.isDigit then none
  else some (.literal quote (value ++ unitsOf (escaped c).toNat))

/-- `stepHex quote value left code c` reads one of the hexadecimal digits that are left. -/
def stepHex (quote : Quote) (value : List Nat) (left code : Nat) (c : Char) : Option Phase :=
  (Json.hexValue? c).map fun digit =>
    if left = 1 then .literal quote (value ++ [code * 16 + digit])
    else .hex quote value (left - 1) (code * 16 + digit)

/-- `stepBraced quote value code c` reads a digit of a code point, or the brace behind it. -/
def stepBraced (quote : Quote) (value : List Nat) (code : Option Nat) (c : Char) : Option Phase :=
  if c = '}' then code.map fun code => .literal quote (value ++ unitsOf code)
  else
    (Json.hexValue? c).bind fun digit =>
      if code.getD 0 * 16 + digit ≤ 0x10FFFF then
        some (.braced quote value (some (code.getD 0 * 16 + digit)))
      else none

/-- `step phase c` reads one character. It gives the tokens that are complete then. -/
def step : Phase → Char → Option (List Token × Phase)
  | .between, c => stepBetween c
  | .importing count, c =>
    match importLetters[count]? with
    | some letter => if c = letter then some ([], .importing (count + 1)) else none
    | none =>
      if c = 'i' then none
      else (stepBetween c).map fun (done, next) => (.importWord :: done, next)
  | .slash, c =>
    if c = '*' then some ([], .comment [])
    else if c = '/' then some ([], .lineComment [])
    else none
  | .comment text, c =>
    if c = '*' then some ([], .star text) else some ([], .comment (text ++ [c]))
  | .star text, c =>
    if c = '/' then some ([.comment text], .between)
    else if c = '*' then some ([], .star (text ++ ['*']))
    else some ([], .comment (text ++ ['*', c]))
  | .lineComment text, c =>
    if isLineEnd c then some ([.lineComment text], .between)
    else some ([], .lineComment (text ++ [c]))
  | .literal quote value, c => stepLiteral quote value c
  | .escape quote value, c => (stepEscape quote value c).map ([], ·)
  | .zero quote value, c => if c.isDigit then none else stepLiteral quote (value ++ [0]) c
  | .carriage quote value, c =>
    if c = '\n' then some ([], .literal quote value) else stepLiteral quote value c
  | .hex quote value left code, c => (stepHex quote value left code c).map ([], ·)
  | .unicode quote value, c =>
    if c = '{' then some ([], .braced quote value none)
    else (stepHex quote value 4 0 c).map ([], ·)
  | .braced quote value code, c => (stepBraced quote value code c).map ([], ·)

/-- The tokens that the end of a text completes. -/
def finish : Phase → Option (List Token)
  | .between => some []
  | .importing count => if count < importLetters.length then none else some [.importWord]
  | .lineComment text => some [.lineComment text]
  | _ => none

/-- `read phase text` reads a text to its end. -/
def read (phase : Phase) : List Char → Option (List Token)
  | [] => finish phase
  | c :: rest => (step phase c).bind fun (done, next) => (read next rest).map (done ++ ·)

/-- `advance phase text` reads the beginning of a text. It gives the tokens that are complete
then. -/
def advance (phase : Phase) : List Char → Option (List Token × Phase)
  | [] => some ([], phase)
  | c :: rest =>
    (step phase c).bind fun (done, next) =>
      (advance next rest).map fun (more, last) => (done ++ more, last)

/-- The tokens of a text. -/
def tokens (text : String) : Option (List Token) :=
  read .between text.toList

end Steps

section Reading

variable {phase next : Phase} {c : Char} {text rest : List Char} {done found : List Token}

/-- A text that is read is read character by character. -/
theorem exists_of_read_cons (h : read phase (c :: rest) = some found) :
    ∃ done next more, step phase c = some (done, next) ∧ read next rest = some more ∧
      found = done ++ more := by
  rw [read, Option.bind_eq_some_iff] at h
  obtain ⟨⟨done, next⟩, hstep, h⟩ := h
  obtain ⟨more, hmore, hfound⟩ := Option.map_eq_some_iff.1 h
  exact ⟨done, next, more, hstep, hmore, hfound.symm⟩

/-- What a character completes stands in front of what is read off the rest. -/
theorem read_cons (h : step phase c = some (done, next)) (rest : List Char) :
    read phase (c :: rest) = (read next rest).map (done ++ ·) := by
  rw [read, h]
  rfl

/-- A character that completes no token. -/
theorem read_cons_silent (h : step phase c = some ([], next)) (rest : List Char) :
    read phase (c :: rest) = read next rest := by
  rw [read_cons h]
  cases read next rest <;> rfl

/-- A text with a character that cannot be read is not read. -/
theorem read_of_step_eq_none (h : step phase c = none) (rest : List Char) :
    read phase (c :: rest) = none := by
  rw [read, h]
  rfl

/-- A text may be read in two pieces. -/
theorem read_append (h : advance phase text = some (done, next)) (rest : List Char) :
    read phase (text ++ rest) = (read next rest).map (done ++ ·) := by
  induction text generalizing phase done with
  | nil =>
      obtain ⟨rfl, rfl⟩ := Prod.mk.inj (Option.some.inj h)
      rw [List.nil_append]
      cases read phase rest <;> rfl
  | cons c text ih =>
      rw [advance, Option.bind_eq_some_iff] at h
      obtain ⟨⟨first, middle⟩, hstep, h⟩ := h
      obtain ⟨⟨more, last⟩, hmore, heq⟩ := Option.map_eq_some_iff.1 h
      obtain ⟨rfl, rfl⟩ := Prod.mk.inj heq
      rw [List.cons_append, read_cons hstep, ih hmore, Option.map_map]
      exact congrArg (Option.map · _) (funext fun found => (List.append_assoc _ _ _).symm)

end Reading

end MiniProgram.Dependency
