/-!
# Regions of a module source

A module source is code, interrupted by comments and strings. `scan` reads a source once from the
left and gives every character the region it stands in. A source is refused when a string or a
block comment is left open, or when the brackets of its code do not nest.

A line comment reaches up to the next line feed, a block comment to the first closing mark behind
its opening mark. A string ends at its own quote. A backslash protects the character behind it, and
only a backquoted string may run over an unprotected line feed.
-/

namespace MiniProgram.Source

/-- The three kinds of text that a source is made of. -/
inductive Region where
  | code
  | comment
  | string
  deriving DecidableEq, Repr

/-- A character together with the region it stands in. -/
structure Glyph where
  char : Char
  region : Region
  deriving DecidableEq, Repr

/-- The characters of classified text. -/
def chars (glyphs : List Glyph) : List Char :=
  glyphs.map Glyph.char

/-- What the scanner is inside of. `escaped quote` is a string right behind a backslash. -/
inductive Mode where
  | code
  | lineComment
  | blockComment
  | quoted (quote : Char)
  | escaped (quote : Char)
  deriving DecidableEq, Repr

/-- A character that opens a string in code. -/
def isQuote (c : Char) : Bool :=
  c == '\'' || c == '"' || c == '`'

/-- A character that opens a bracket in code. -/
def isOpening (c : Char) : Bool :=
  c == '(' || c == '[' || c == '{'

/-- The opening bracket that a closing bracket belongs to. -/
def opening? : Char → Option Char
  | ')' => some '('
  | ']' => some '['
  | '}' => some '{'
  | _ => none

/-- `glyph region c` puts the character `c` of the given region in front of a scanned rest. -/
def glyph (region : Region) (c : Char) (rest : Option (List Glyph)) : Option (List Glyph) :=
  rest.map (⟨c, region⟩ :: ·)

/-- `scanFrom mode brackets text` classifies `text`, starting inside of `mode` with the code
brackets `brackets` open, the innermost first. -/
def scanFrom : Mode → List Char → List Char → Option (List Glyph)
  | .code, brackets, [] => if brackets.isEmpty then some [] else none
  | .lineComment, brackets, [] => if brackets.isEmpty then some [] else none
  | _, _, [] => none
  | .code, brackets, '/' :: '/' :: rest =>
    glyph .comment '/' (glyph .comment '/' (scanFrom .lineComment brackets rest))
  | .code, brackets, '/' :: '*' :: rest =>
    glyph .comment '/' (glyph .comment '*' (scanFrom .blockComment brackets rest))
  | .code, brackets, c :: rest =>
    if isQuote c then glyph .string c (scanFrom (.quoted c) brackets rest)
    else if isOpening c then glyph .code c (scanFrom .code (c :: brackets) rest)
    else
      match opening? c with
      | none => glyph .code c (scanFrom .code brackets rest)
      | some opener =>
        match brackets with
        | [] => none
        | innermost :: outer =>
          if innermost = opener then glyph .code c (scanFrom .code outer rest) else none
  | .lineComment, brackets, c :: rest =>
    if c = '\n' then glyph .code c (scanFrom .code brackets rest)
    else glyph .comment c (scanFrom .lineComment brackets rest)
  | .blockComment, brackets, '*' :: '/' :: rest =>
    glyph .comment '*' (glyph .comment '/' (scanFrom .code brackets rest))
  | .blockComment, brackets, c :: rest => glyph .comment c (scanFrom .blockComment brackets rest)
  | .quoted quote, brackets, c :: rest =>
    if c = '\\' then glyph .string c (scanFrom (.escaped quote) brackets rest)
    else if c = quote then glyph .string c (scanFrom .code brackets rest)
    else if c = '\n' ∧ quote ≠ '`' then none
    else glyph .string c (scanFrom (.quoted quote) brackets rest)
  | .escaped quote, brackets, c :: rest =>
    glyph .string c (scanFrom (.quoted quote) brackets rest)

/-- `scan text` classifies every character of `text`, or is `none` when `text` is not balanced. -/
def scan (text : List Char) : Option (List Glyph) :=
  scanFrom .code [] text

/-- Classifying in front of a rest succeeds exactly when the rest was classified. -/
theorem glyph_eq_some_iff {region : Region} {c : Char} {rest : Option (List Glyph)}
    {glyphs : List Glyph} :
    glyph region c rest = some glyphs ↔
      ∃ tail, rest = some tail ∧ glyphs = ⟨c, region⟩ :: tail := by
  cases rest <;> simp [glyph, eq_comm]

/-- The scanner keeps every character in its place. -/
theorem chars_of_scanFrom {mode : Mode} {brackets text : List Char} {glyphs : List Glyph}
    (h : scanFrom mode brackets text = some glyphs) : chars glyphs = text := by
  fun_induction scanFrom mode brackets text generalizing glyphs <;>
    simp_all [glyph_eq_some_iff, chars]
  all_goals grind

/-- A classified source has the characters of the source. -/
theorem chars_of_scan {text : List Char} {glyphs : List Glyph} (h : scan text = some glyphs) :
    chars glyphs = text :=
  chars_of_scanFrom h

/-- Classified text is as long as its characters. -/
theorem length_chars (glyphs : List Glyph) : (chars glyphs).length = glyphs.length :=
  List.length_map _

/-- A classified source is as long as the source. -/
theorem length_of_scan {text : List Char} {glyphs : List Glyph} (h : scan text = some glyphs) :
    glyphs.length = text.length := by
  rw [← chars_of_scan h, length_chars]

end MiniProgram.Source
