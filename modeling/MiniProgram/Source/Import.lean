import MiniProgram.Source.Binding
import MiniProgram.Source.Phrase

/-!
# Import declarations

A source is cut into import declarations and the characters between them. A declaration starts
with the word `import` at the start of a statement and ends behind its first string, or behind the
semicolon and the line break that follow it. `text_segments` says that the cut loses nothing.

A declaration is unused when it binds names and none of them stands as a whole word in the text
between the declarations. `strip` drops the unused declarations.
-/

namespace MiniProgram.Source

open Text

/-- An import declaration: the text it takes up and the names it binds. -/
structure Declaration where
  text : List Glyph
  names : List (List Char)
  deriving Repr

/-- A piece of a source. -/
inductive Segment where
  | other (glyph : Glyph)
  | imports (declaration : Declaration)
  deriving Repr

/-- The text of a piece. -/
def Segment.text : Segment → List Glyph
  | .other glyph => [glyph]
  | .imports declaration => declaration.text

/-- `startsStatement before` says that a statement may start behind the text whose characters are
`before`, the last one first: at the start of a source, behind a semicolon or a closing brace, and
on a new line. -/
def startsStatement (before : List Char) : Bool :=
  match before.dropWhile isBlank with
  | [] => true
  | c :: _ => c == ';' || c == '}' || (before.takeWhile isBlank).contains '\n'

/-- `skipSemicolon glyphs` is the text behind a semicolon, which spaces and tabs may precede. -/
def skipSemicolon (glyphs : List Glyph) : List Glyph :=
  match glyphs.dropWhile fun g => g.char == ' ' || g.char == '\t' with
  | [] => glyphs
  | g :: rest => if g.char = ';' then rest else glyphs

/-- `skipBlankLine glyphs` is the text behind the end of the line, if only blanks precede it. -/
def skipBlankLine (glyphs : List Glyph) : List Glyph :=
  if (glyphs.takeWhile (·.char ≠ '\n')).all (isBlank ·.char) then
    (glyphs.dropWhile (·.char ≠ '\n')).drop 1
  else glyphs

/-- `dropFrom clause` drops the word `from` and the blanks in front of it at the end of a clause. -/
def dropFrom (clause : List Char) : List Char :=
  if ['f', 'r', 'o', 'm'].isSuffixOf clause then trimEnd (clause.take (clause.length - 4))
  else clause

/-- `clause? before glyphs` reads an import declaration that starts right here, behind the
characters `before`. It returns the text between the word `import` and the string, and the text
behind the declaration. -/
def clause? (before : List Char) (glyphs : List Glyph) : Option (List Char × List Glyph) := do
  let behind ← (word? ['i', 'm', 'p', 'o', 'r', 't'] glyphs).filter fun _ =>
    boundary before.head? && startsStatement before
  let clause := trim (chars (behind.takeWhile (·.region ≠ .string)))
  let rest := (behind.dropWhile (·.region ≠ .string)).dropWhile (·.region = .string)
  if rest = [] ∨ clause.head? = some '(' ∨ clause.head? = some '.' then none
  else some (clause, skipBlankLine (skipSemicolon rest))

/-- `declaration? before glyphs` cuts an import declaration off that starts right here. -/
def declaration? (before : List Char) (glyphs : List Glyph) :
    Option (Declaration × List Glyph) :=
  (clause? before glyphs).map fun read =>
    (⟨glyphs.take (glyphs.length - read.2.length), localNames (dropFrom read.1)⟩, read.2)

/-- What remains behind a semicolon is a suffix. -/
theorem skipSemicolon_suffix (glyphs : List Glyph) : skipSemicolon glyphs <:+ glyphs := by
  have h := List.dropWhile_suffix (l := glyphs) fun g : Glyph => g.char == ' ' || g.char == '\t'
  unfold skipSemicolon
  split
  · exact List.suffix_rfl
  · next found =>
    split
    · exact (List.suffix_cons _ _).trans (found ▸ h)
    · exact List.suffix_rfl

/-- What remains behind the end of a line is a suffix. -/
theorem skipBlankLine_suffix (glyphs : List Glyph) : skipBlankLine glyphs <:+ glyphs := by
  unfold skipBlankLine
  split
  · exact (List.drop_suffix _ _).trans (List.dropWhile_suffix _)
  · exact List.suffix_rfl

/-- A declaration is read where the word `import` starts a statement, no parenthesis and no dot
follows it, and a string stands behind it that is not the end of the text. -/
theorem clause?_eq_some_iff {before clause : List Char} {glyphs rest : List Glyph} :
    clause? before glyphs = some (clause, rest) ↔
      ∃ behind last, word? ['i', 'm', 'p', 'o', 'r', 't'] glyphs = some behind ∧
        boundary before.head? = true ∧ startsStatement before = true ∧
        clause = trim (chars (behind.takeWhile (·.region ≠ .string))) ∧
        last = (behind.dropWhile (·.region ≠ .string)).dropWhile (·.region = .string) ∧
        last ≠ [] ∧ clause.head? ≠ some '(' ∧ clause.head? ≠ some '.' ∧
        rest = skipBlankLine (skipSemicolon last) := by
  simp only [clause?, bind, Option.bind_eq_some_iff, Option.filter_eq_some_iff, Bool.and_eq_true]
  grind

/-- What follows a declaration is a suffix of what follows its first word. -/
theorem suffix_of_clause? {before clause : List Char} {glyphs rest : List Glyph}
    (h : clause? before glyphs = some (clause, rest)) :
    ∃ behind, word? ['i', 'm', 'p', 'o', 'r', 't'] glyphs = some behind ∧ rest <:+ behind := by
  obtain ⟨behind, last, hword, -, -, -, rfl, -, -, -, rfl⟩ := clause?_eq_some_iff.1 h
  exact ⟨behind, hword, (skipBlankLine_suffix _).trans <| (skipSemicolon_suffix _).trans <|
    (List.dropWhile_suffix _).trans (List.dropWhile_suffix _)⟩

/-- A declaration and what follows it make up the text. -/
theorem append_of_declaration? {before : List Char} {glyphs rest : List Glyph}
    {declaration : Declaration} (h : declaration? before glyphs = some (declaration, rest)) :
    declaration.text ++ rest = glyphs := by
  obtain ⟨⟨clause, tail⟩, read, same⟩ := Option.map_eq_some_iff.1 h
  cases same
  obtain ⟨behind, word, suffix⟩ := suffix_of_clause? read
  exact List.suffix_iff_eq_append.1 (suffix.trans (suffix_of_word? word))

/-- A declaration takes up some text. -/
theorem length_lt_of_declaration? {before : List Char} {glyphs rest : List Glyph}
    {declaration : Declaration} (h : declaration? before glyphs = some (declaration, rest)) :
    rest.length < glyphs.length := by
  obtain ⟨⟨clause, tail⟩, read, same⟩ := Option.map_eq_some_iff.1 h
  cases same
  obtain ⟨behind, word, suffix⟩ := suffix_of_clause? read
  have hword := congrArg List.length (append_of_word? word)
  have := suffix.length_le
  simp only [length_chars, List.length_append, List.length_cons] at hword
  show tail.length < glyphs.length
  omega

/-- `segmentsFrom before glyphs` cuts `glyphs`, which stand behind the characters `before`. -/
def segmentsFrom (before : List Char) (glyphs : List Glyph) : List Segment :=
  match glyphs with
  | [] => []
  | g :: tail =>
    match _h : declaration? before (g :: tail) with
    | some (declaration, rest) =>
      .imports declaration ::
        segmentsFrom ((chars declaration.text).reverse ++ before) rest
    | none => .other g :: segmentsFrom (g.char :: before) tail
termination_by glyphs.length
decreasing_by
  · exact length_lt_of_declaration? _h
  · simp

/-- `segments glyphs` cuts a source into its import declarations and the text between them. -/
def segments (glyphs : List Glyph) : List Segment :=
  segmentsFrom [] glyphs

/-- Cutting loses nothing, wherever the text stands. -/
theorem text_segmentsFrom (before : List Char) (glyphs : List Glyph) :
    (segmentsFrom before glyphs).flatMap Segment.text = glyphs := by
  fun_induction segmentsFrom before glyphs with
  | case1 => rfl
  | case2 before g tail declaration rest found ih =>
    simp [Segment.text, ih, append_of_declaration? found]
  | case3 before g tail found ih => simp [Segment.text, ih]

/-- The pieces of a source make up the source. -/
theorem text_segments (glyphs : List Glyph) : (segments glyphs).flatMap Segment.text = glyphs :=
  text_segmentsFrom [] glyphs

/-- `body segments` is the text between the import declarations. -/
def body (segments : List Segment) : List Char :=
  segments.filterMap fun
    | .other glyph => some glyph.char
    | .imports _ => none

/-- The names that compiled markup refers to although the source does not show them. -/
def factories : List (List Char) :=
  [['c', 'r', 'e', 'a', 't', 'e', 'E', 'l', 'e', 'm', 'e', 'n', 't'], ['R', 'e', 'a', 'c', 't']]

/-- Compiled markup refers to two names. -/
theorem contains_factories (name : List Char) :
    factories.contains name = (name == "createElement".toList || name == "React".toList) := by
  have hfactories : factories = ["createElement".toList, "React".toList] := by decide +kernel
  rw [hfactories, List.contains_cons, List.contains_cons, List.contains_nil, Bool.or_false]

/-- `isReferenced name text` says that a bound name is needed by `text`. -/
def isReferenced (name text : List Char) : Bool :=
  factories.contains name || occurs name text

/-- `isUnused text declaration` says that the declaration binds names, all of them well formed, of
which `text` needs none. -/
def isUnused (text : List Char) (declaration : Declaration) : Bool :=
  declaration.names ≠ [] && declaration.names.all isName &&
    declaration.names.all fun name => !isReferenced name text

/-- `strip glyphs` drops the unused import declarations of a source. -/
def strip (glyphs : List Glyph) : List Glyph :=
  let pieces := segments glyphs
  let text := body pieces
  (pieces.filter fun
    | .other _ => true
    | .imports declaration => !isUnused text declaration).flatMap Segment.text

/-- Dropping pieces keeps the characters of the others in their order. -/
theorem flatMap_filter_sublist (keep : Segment → Bool) (pieces : List Segment) :
    ((pieces.filter keep).flatMap Segment.text).Sublist (pieces.flatMap Segment.text) := by
  induction pieces with
  | nil => simp
  | cons piece pieces ih =>
    rw [List.filter_cons]
    split
    · simpa using ih
    · simpa using ih.trans (List.sublist_append_right _ _)

/-- Stripping keeps characters in their order. -/
theorem strip_sublist (glyphs : List Glyph) : (strip glyphs).Sublist glyphs := by
  conv => rhs; rw [← text_segments glyphs]
  exact flatMap_filter_sublist _ _

end MiniProgram.Source
