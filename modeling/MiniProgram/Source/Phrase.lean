import MiniProgram.Source.Region
import MiniProgram.Text.Blank
import MiniProgram.Text.Search

/-!
# Reading words and symbols of code

Small readers over classified text. Each one either refuses or returns what is left behind the
part it has read, so what is left is never longer than what was given. When a word is read is said
by `word?_eq_some_iff`, and when a block is by `block?_eq_some_iff`.
-/

namespace MiniProgram.Source

open Text

/-- `skipBlanks glyphs` is the text behind the leading blanks, in whatever region they stand. -/
def skipBlanks (glyphs : List Glyph) : List Glyph :=
  glyphs.dropWhile fun g => isBlank g.char

/-- `word? word glyphs` is the text behind the leading `word`, if the word starts in code and no
identifier character follows it. -/
def word? (word : List Char) (glyphs : List Glyph) : Option (List Glyph) :=
  if chars (glyphs.take word.length) = word ∧ glyphs.head?.map Glyph.region = some .code ∧
      boundary ((glyphs.drop word.length).head?.map Glyph.char) then
    some (glyphs.drop word.length)
  else none

/-- `symbol? symbol glyphs` is the text behind the leading character `symbol`. -/
def symbol? (symbol : Char) : List Glyph → Option (List Glyph)
  | [] => none
  | g :: rest => if g.char = symbol then some rest else none

/-- `prepend g cut` puts `g` in front of the first part of a cut text. -/
def prepend (g : Glyph) (cut : Option (List Glyph × List Glyph)) :
    Option (List Glyph × List Glyph) :=
  cut.map fun parts => (g :: parts.1, parts.2)

/-- `closeBlock depth glyphs` cuts the text behind the closing brace of a block in which `depth`
further blocks are open. Only braces in code count. -/
def closeBlock (depth : Nat) : List Glyph → Option (List Glyph × List Glyph)
  | [] => none
  | g :: rest =>
    if g = ⟨'{', .code⟩ then prepend g (closeBlock (depth + 1) rest)
    else if g = ⟨'}', .code⟩ then
      match depth with
      | 0 => some ([g], rest)
      | outer + 1 => prepend g (closeBlock outer rest)
    else prepend g (closeBlock depth rest)

/-- `block? glyphs` cuts a leading block off, both braces included. -/
def block? : List Glyph → Option (List Glyph × List Glyph)
  | [] => none
  | g :: rest => if g.char = '{' then prepend g (closeBlock 0 rest) else none

/-- Only a cut text can have a character put in front. -/
theorem prepend_eq_some_iff {g : Glyph} {cut : Option (List Glyph × List Glyph)}
    {block rest : List Glyph} :
    prepend g cut = some (block, rest) ↔
      ∃ inner, cut = some (inner, rest) ∧ block = g :: inner := by
  cases cut with
  | none => simp [prepend]
  | some parts => grind [prepend]

/-- What remains behind blanks is a suffix. -/
theorem skipBlanks_suffix (glyphs : List Glyph) : skipBlanks glyphs <:+ glyphs :=
  List.dropWhile_suffix _

/-- A word is read where its text stands, starts in code and ends at a boundary. -/
theorem word?_eq_some_iff {word : List Char} {glyphs rest : List Glyph} :
    word? word glyphs = some rest ↔
      ∃ front, glyphs = front ++ rest ∧ chars front = word ∧
        glyphs.head?.map Glyph.region = some .code ∧ boundary (chars rest).head? = true := by
  simp only [chars, List.head?_map]
  constructor
  · intro h
    unfold word? at h
    split at h
    · next hread =>
        cases h
        obtain ⟨hword, hcode, hend⟩ := hread
        exact ⟨_, (List.take_append_drop _ _).symm, hword, hcode, hend⟩
    · cases h
  · rintro ⟨front, rfl, rfl, hcode, hend⟩
    rw [word?, List.length_map, List.take_left, List.drop_left]
    exact if_pos ⟨rfl, hcode, hend⟩

section Words

variable {word : List Char} {glyphs rest : List Glyph}

/-- What remains behind a word is a suffix. -/
theorem suffix_of_word? (h : word? word glyphs = some rest) : rest <:+ glyphs := by
  obtain ⟨front, rfl, -⟩ := word?_eq_some_iff.1 h
  exact List.suffix_append front rest

/-- A word has the text that was asked for. -/
theorem append_of_word? (h : word? word glyphs = some rest) :
    chars glyphs = word ++ chars rest := by
  obtain ⟨front, rfl, rfl, -⟩ := word?_eq_some_iff.1 h
  exact List.map_append

/-- A word that is read ends at a boundary. -/
theorem boundary_of_word? (h : word? word glyphs = some rest) :
    boundary (chars rest).head? = true := by
  obtain ⟨_, -, -, -, hend⟩ := word?_eq_some_iff.1 h
  exact hend

/-- A word that is read starts in code. -/
theorem exists_of_word? {c : Char} (h : word? (c :: word) glyphs = some rest) :
    ∃ others, glyphs = ⟨c, .code⟩ :: others := by
  obtain ⟨front, rfl, hchars, hcode, -⟩ := word?_eq_some_iff.1 h
  cases front with
  | nil => cases hchars
  | cons g front =>
      obtain ⟨d, region⟩ := g
      obtain rfl : d = c := (List.cons.inj hchars).1
      obtain rfl : region = .code := Option.some.inj hcode
      exact ⟨front ++ rest, rfl⟩

end Words

/-- A symbol is followed by the rest. -/
theorem eq_cons_of_symbol? {symbol : Char} {glyphs rest : List Glyph}
    (h : symbol? symbol glyphs = some rest) : ∃ region, glyphs = ⟨symbol, region⟩ :: rest := by
  cases glyphs with
  | nil => simp [symbol?] at h
  | cons g tail =>
    simp only [symbol?] at h
    split at h
    · next same => cases h; exact ⟨g.region, by simp [← same]⟩
    · cases h

/-- Closing a block cuts the text without losing a character. -/
theorem append_of_closeBlock {depth : Nat} {glyphs block rest : List Glyph}
    (h : closeBlock depth glyphs = some (block, rest)) : glyphs = block ++ rest := by
  fun_induction closeBlock depth glyphs generalizing block rest <;> grind [prepend_eq_some_iff]

/-- A block is an opening brace and the text that closes it. -/
theorem block?_eq_some_iff {glyphs block rest : List Glyph} :
    block? glyphs = some (block, rest) ↔
      ∃ region tail inner, glyphs = ⟨'{', region⟩ :: tail ∧
        closeBlock 0 tail = some (inner, rest) ∧ block = ⟨'{', region⟩ :: inner := by
  constructor
  · intro h
    cases glyphs with
    | nil => cases h
    | cons g tail =>
        obtain ⟨c, region⟩ := g
        simp only [block?] at h
        split at h
        · next hbrace =>
            obtain rfl : c = '{' := hbrace
            obtain ⟨inner, hclose, rfl⟩ := prepend_eq_some_iff.1 h
            exact ⟨region, tail, inner, rfl, hclose, rfl⟩
        · cases h
  · rintro ⟨region, tail, inner, rfl, hclose, rfl⟩
    simp [block?, prepend_eq_some_iff, hclose]

/-- A block and what follows it make up the text. -/
theorem append_of_block? {glyphs block rest : List Glyph}
    (h : block? glyphs = some (block, rest)) : glyphs = block ++ rest := by
  obtain ⟨region, tail, inner, rfl, hclose, rfl⟩ := block?_eq_some_iff.1 h
  rw [append_of_closeBlock hclose, List.cons_append]

end MiniProgram.Source
