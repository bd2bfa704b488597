import Mathlib.Data.List.Basic
import MiniProgram.Proofs.Source.Branch
import MiniProgram.Proofs.Source.Reading
import MiniProgram.Proofs.Source.Segment

/-!
# The parts of an import declaration

A declaration is the word `import`, text without a string, a string, and what ends the line behind
it. Read `declaration?_eq_some` and `exists_parts` first: in text that can be read, `declaration?`
finds exactly what has these parts.

How much is skipped behind the string depends on the text that follows. When another text follows,
nothing but blanks and semicolons of it is skipped (`exists_of_land_append`).
-/

namespace MiniProgram.Source

open Text

section Spans

variable {α : Type} {p : α → Bool} {front rest : List α}

/-- The longest leading part with a property ends where the property does. -/
theorem takeWhile_append_eq_left (hfront : ∀ a ∈ front, p a = true)
    (hrest : ∀ a ∈ rest.head?, p a = false) : (front ++ rest).takeWhile p = front := by
  rw [List.takeWhile_append_of_pos hfront]
  cases rest with
  | nil => simp
  | cons a rest => simp [hrest a rfl]

/-- What is left starts where the property ends. -/
theorem dropWhile_append_eq_right (hfront : ∀ a ∈ front, p a = true)
    (hrest : ∀ a ∈ rest.head?, p a = false) : (front ++ rest).dropWhile p = rest := by
  rw [List.dropWhile_append_of_pos hfront]
  cases rest with
  | nil => rfl
  | cons a rest => simp [hrest a rfl]

/-- There is only one place where a property ends. -/
theorem append_inj_of_span {other otherRest : List α} (p : α → Bool)
    (hfront : ∀ a ∈ front, p a = true) (hrest : ∀ a ∈ rest.head?, p a = false)
    (hother : ∀ a ∈ other, p a = true) (hotherRest : ∀ a ∈ otherRest.head?, p a = false)
    (h : front ++ rest = other ++ otherRest) : front = other ∧ rest = otherRest := by
  have htake := congrArg (List.takeWhile p) h
  have hdrop := congrArg (List.dropWhile p) h
  rw [takeWhile_append_eq_left hfront hrest, takeWhile_append_eq_left hother hotherRest] at htake
  rw [dropWhile_append_eq_right hfront hrest, dropWhile_append_eq_right hother hotherRest] at hdrop
  exact ⟨htake, hdrop⟩

/-- A list is cut where a property ends. -/
theorem exists_of_dropWhile (p : α → Bool) (all : List α) :
    ∃ front, all = front ++ all.dropWhile p ∧ (∀ a ∈ front, p a = true) ∧
      ∀ a ∈ (all.dropWhile p).head?, p a = false := by
  refine ⟨all.takeWhile p, List.takeWhile_append_dropWhile.symm, ?_, ?_⟩
  · exact List.all_eq_true.1 List.all_takeWhile
  · intro a ha
    have hhead := List.head?_dropWhile_not p all
    rw [Option.mem_def.1 ha] at hhead
    exact hhead

end Spans

section Strings

variable {front literal rest : List Glyph}

/-- A text that starts with a string starts with a character of one. -/
theorem region_head?_literal (hliteral : ∀ g ∈ literal, g.region = .string) (hne : literal ≠ [])
    (rest : List Glyph) : ∀ g ∈ (literal ++ rest).head?, decide (g.region ≠ .string) = false := by
  intro g hg
  rw [List.head?_append_of_ne_nil _ hne] at hg
  simpa using hliteral g (List.mem_of_head? hg)

/-- There is only one first string. -/
theorem append_inj_of_literal {otherFront otherLiteral otherRest : List Glyph}
    (hfront : ∀ g ∈ front, g.region ≠ .string) (hliteral : ∀ g ∈ literal, g.region = .string)
    (hne : literal ≠ []) (hrest : ∀ g ∈ rest.head?, g.region ≠ .string)
    (hotherFront : ∀ g ∈ otherFront, g.region ≠ .string)
    (hotherLiteral : ∀ g ∈ otherLiteral, g.region = .string) (hotherNe : otherLiteral ≠ [])
    (hotherRest : ∀ g ∈ otherRest.head?, g.region ≠ .string)
    (h : front ++ (literal ++ rest) = otherFront ++ (otherLiteral ++ otherRest)) :
    front = otherFront ∧ literal = otherLiteral ∧ rest = otherRest := by
  obtain ⟨hsame, hstrings⟩ := append_inj_of_span (fun g => decide (g.region ≠ .string))
    (fun g hg => decide_eq_true (hfront g hg)) (region_head?_literal hliteral hne _)
    (fun g hg => decide_eq_true (hotherFront g hg))
    (region_head?_literal hotherLiteral hotherNe _) h
  exact ⟨hsame, append_inj_of_span (fun g => decide (g.region = .string))
    (fun g hg => decide_eq_true (hliteral g hg)) (fun g hg => decide_eq_false (hrest g hg))
    (fun g hg => decide_eq_true (hotherLiteral g hg))
    (fun g hg => decide_eq_false (hotherRest g hg)) hstrings⟩

end Strings

section Landing

variable {glyphs rest other gap : List Glyph}

/-- `land glyphs` is the text behind a declaration whose string ends right in front of `glyphs`. -/
def land (glyphs : List Glyph) : List Glyph :=
  skipBlankLine (skipSemicolon glyphs)

/-- A character that may be skipped behind the string of a declaration. -/
def isTrailing (c : Char) : Bool :=
  isBlank c || c == ';'

/-- A blank may be skipped behind a declaration. -/
theorem isTrailing_of_isBlank {c : Char} (h : isBlank c = true) : isTrailing c = true := by
  rw [isTrailing, h, Bool.true_or]

/-- What may be skipped belongs to no word and opens neither a string nor a comment. -/
theorem plain_of_isTrailing {c : Char} (h : isTrailing c = true) :
    boundary (some c) = true ∧ isQuote c = false ∧ c ≠ '/' := by
  rw [isTrailing, Bool.or_eq_true, beq_iff_eq] at h
  rcases h with hblank | rfl
  · exact ⟨boundary_of_isBlank hblank, plain_of_isBlank hblank⟩
  · decide

/-- A semicolon is skipped with the spaces and tabs in front of it. -/
theorem skipSemicolon_append {g : Glyph} (hg : g.char = ';')
    (hgap : ∀ g ∈ gap, (g.char == ' ' || g.char == '\t') = true) (rest : List Glyph) :
    skipSemicolon (gap ++ g :: rest) = rest := by
  have hdrop := @dropWhile_append_eq_right _ _ gap (g :: rest) hgap (by simp [hg])
  rw [skipSemicolon, hdrop]
  simp [hg]

/-- Either a semicolon is skipped or nothing. -/
theorem skipSemicolon_cases (glyphs : List Glyph) :
    (∃ gap g, glyphs = gap ++ g :: skipSemicolon glyphs ∧ g.char = ';' ∧
      ∀ g ∈ gap, (g.char == ' ' || g.char == '\t') = true) ∨ skipSemicolon glyphs = glyphs := by
  obtain ⟨gap, hsplit, hgap, -⟩ :=
    exists_of_dropWhile (fun g : Glyph => g.char == ' ' || g.char == '\t') glyphs
  unfold skipSemicolon
  split
  · exact .inr rfl
  · next g rest hdrop =>
      rw [hdrop] at hsplit
      split
      · next hg => exact .inl ⟨gap, g, hsplit, hg, hgap⟩
      · exact .inr rfl

/-- The end of a line is skipped with the blanks in front of it. -/
theorem skipBlankLine_append {g : Glyph} (hg : g.char = '\n')
    (hgap : ∀ g ∈ gap, isBlank g.char = true ∧ decide (g.char ≠ '\n') = true) (rest : List Glyph) :
    skipBlankLine (gap ++ g :: rest) = rest := by
  have hline := fun d hd => (hgap d hd).2
  have htake := @takeWhile_append_eq_left _ _ gap (g :: rest) hline (by simp [hg])
  have hdrop := @dropWhile_append_eq_right _ _ gap (g :: rest) hline (by simp [hg])
  rw [skipBlankLine, htake, hdrop, if_pos (List.all_eq_true.2 fun d hd => (hgap d hd).1)]
  rfl

/-- Blanks at the end of a text are skipped. -/
theorem skipBlankLine_of_blanks
    (hgap : ∀ g ∈ gap, isBlank g.char = true ∧ decide (g.char ≠ '\n') = true) :
    skipBlankLine gap = [] := by
  have hline := fun d hd => (hgap d hd).2
  have htake := @takeWhile_append_eq_left _ _ gap [] hline (by simp)
  have hdrop := @dropWhile_append_eq_right _ _ gap [] hline (by simp)
  rw [List.append_nil] at htake hdrop
  rw [skipBlankLine, htake, hdrop, if_pos (List.all_eq_true.2 fun d hd => (hgap d hd).1)]
  rfl

/-- Either the end of a line is skipped, or blanks at the end of the text, or nothing. -/
theorem skipBlankLine_cases (glyphs : List Glyph) :
    (∃ gap g, glyphs = gap ++ g :: skipBlankLine glyphs ∧ g.char = '\n' ∧
      ∀ g ∈ gap, isBlank g.char = true ∧ decide (g.char ≠ '\n') = true) ∨
    (skipBlankLine glyphs = [] ∧
      ∀ g ∈ glyphs, isBlank g.char = true ∧ decide (g.char ≠ '\n') = true) ∨
    skipBlankLine glyphs = glyphs := by
  obtain ⟨gap, hsplit, hline, hend⟩ :=
    exists_of_dropWhile (fun g : Glyph => decide (g.char ≠ '\n')) glyphs
  have htake : glyphs.takeWhile (fun g => decide (g.char ≠ '\n')) = gap := by
    conv => lhs; rw [hsplit]
    exact takeWhile_append_eq_left hline hend
  unfold skipBlankLine
  rw [htake]
  split
  · next hall =>
      have hgap : ∀ g ∈ gap, isBlank g.char = true ∧ decide (g.char ≠ '\n') = true :=
        fun g hg => ⟨List.all_eq_true.1 hall g hg, hline g hg⟩
      cases hdrop : glyphs.dropWhile fun g => decide (g.char ≠ '\n') with
      | nil =>
          rw [hdrop, List.append_nil] at hsplit
          exact .inr (.inl ⟨rfl, hsplit ▸ hgap⟩)
      | cons g rest =>
          rw [hdrop] at hsplit hend
          exact .inl ⟨gap, g, hsplit, by simpa using hend g rfl, hgap⟩
  · exact .inr (.inr rfl)

/-- No semicolon is skipped behind the end of a line. -/
theorem skipSemicolon_eq_self {g : Glyph} (hg : g.char = '\n')
    (hgap : ∀ g ∈ gap, isBlank g.char = true) (rest : List Glyph) :
    skipSemicolon (gap ++ g :: rest) = gap ++ g :: rest := by
  obtain ⟨front, hsplit, -, -⟩ :=
    exists_of_dropWhile (fun g : Glyph => g.char == ' ' || g.char == '\t') gap
  rw [skipSemicolon, List.dropWhile_append]
  cases hdrop : gap.dropWhile fun g => g.char == ' ' || g.char == '\t' with
  | nil => simp [hg]
  | cons d behind =>
      have hd : d.char ≠ ';' := by
        have hblank := hgap d (by rw [hsplit, hdrop]; simp)
        intro hsame
        rw [hsame] at hblank
        revert hblank
        decide
      simp [hd]

/-- What is skipped up to the semicolon are blanks and the semicolon. -/
theorem exists_of_skipSemicolon (glyphs : List Glyph) :
    ∃ gap, glyphs = gap ++ skipSemicolon glyphs ∧ ∀ g ∈ gap, isTrailing g.char = true := by
  rcases skipSemicolon_cases glyphs with ⟨gap, g, hsplit, hg, hgap⟩ | hsame
  · refine ⟨gap ++ [g], by rw [List.append_assoc]; exact hsplit, ?_⟩
    intro d hd
    rcases List.mem_append.1 hd with hd | hd
    · have hd := hgap d hd
      rw [Bool.or_eq_true, beq_iff_eq, beq_iff_eq] at hd
      rcases hd with hd | hd <;> rw [hd] <;> decide
    · rw [List.mem_singleton.1 hd, hg]
      decide
  · exact ⟨[], hsame.symm, by simp⟩

/-- What is skipped up to the end of the line are blanks. -/
theorem exists_of_skipBlankLine (glyphs : List Glyph) :
    ∃ gap, glyphs = gap ++ skipBlankLine glyphs ∧ ∀ g ∈ gap, isTrailing g.char = true := by
  rcases skipBlankLine_cases glyphs with ⟨gap, g, hsplit, hg, hgap⟩ | ⟨hnil, hgap⟩ | hsame
  · refine ⟨gap ++ [g], by rw [List.append_assoc]; exact hsplit, ?_⟩
    intro d hd
    rcases List.mem_append.1 hd with hd | hd
    · exact isTrailing_of_isBlank (hgap d hd).1
    · rw [List.mem_singleton.1 hd, hg]
      decide
  · exact ⟨glyphs, by rw [hnil, List.append_nil], fun g hg => isTrailing_of_isBlank (hgap g hg).1⟩
  · exact ⟨[], hsame.symm, by simp⟩

/-- Only blanks and semicolons are skipped. -/
theorem exists_of_land (glyphs : List Glyph) :
    ∃ gap, glyphs = gap ++ land glyphs ∧ ∀ g ∈ gap, isTrailing g.char = true := by
  obtain ⟨front, hfront, hfrontTrailing⟩ := exists_of_skipSemicolon glyphs
  obtain ⟨behind, hbehind, hbehindTrailing⟩ := exists_of_skipBlankLine (skipSemicolon glyphs)
  refine ⟨front ++ behind, ?_, ?_⟩
  · rw [List.append_assoc, land, ← hbehind, ← hfront]
  · intro g hg
    exact (List.mem_append.1 hg).elim (hfrontTrailing g) (hbehindTrailing g)

/-- The end of a line is skipped whatever follows it. -/
theorem skipBlankLine_append_congr {tail : List Glyph} (hne : tail ≠ [])
    (hskip : skipBlankLine (tail ++ rest) = rest) (hend : rest = [] → other = []) :
    skipBlankLine (tail ++ other) = other := by
  rcases skipBlankLine_cases (tail ++ rest) with
    ⟨gap, g, hsplit, hg, hgap⟩ | ⟨hnil, hgap⟩ | hsame
  · -- the tail is the end of a line
    rw [hskip, List.append_cons, List.append_cancel_right_eq] at hsplit
    rw [hsplit, List.append_assoc]
    exact skipBlankLine_append hg hgap other
  · obtain rfl : rest = [] := hskip.symm.trans hnil
    rw [hend rfl, List.append_nil] at *
    exact skipBlankLine_of_blanks hgap
  · rw [hskip] at hsame
    exact absurd (List.self_eq_append_left.1 hsame) hne

/-- What is skipped of another text that follows instead is blanks and semicolons. -/
theorem exists_of_land_append {tail : List Glyph} (hland : land (tail ++ rest) = rest)
    (hend : rest = [] → other = []) :
    ∃ gap, other = gap ++ land (tail ++ other) ∧ ∀ g ∈ gap, isTrailing g.char = true := by
  by_cases htail : tail = []
  · rw [htail]
    exact exists_of_land other
  rcases skipSemicolon_cases (tail ++ rest) with ⟨gap, g, hsplit, hg, hgap⟩ | hsame
  · -- the semicolon is skipped whatever follows, and perhaps the end of the line
    obtain ⟨line, hline, -⟩ := exists_of_skipBlankLine (skipSemicolon (tail ++ rest))
    rw [← land, hland] at hline
    rw [hline, ← List.cons_append, ← List.append_assoc, List.append_cancel_right_eq] at hsplit
    have hother : skipSemicolon (tail ++ other) = line ++ other := by
      rw [hsplit, List.append_assoc, List.cons_append, skipSemicolon_append hg hgap]
    have hskip : skipBlankLine (line ++ rest) = rest := hline ▸ hland
    by_cases hline : line = []
    · rw [land, hother, hline]
      exact exists_of_skipBlankLine other
    · refine ⟨[], ?_, by simp⟩
      rw [land, hother, skipBlankLine_append_congr hline hskip hend, List.nil_append]
  · have hskip : skipBlankLine (tail ++ rest) = rest := by rw [land, hsame] at hland; exact hland
    have hother : skipSemicolon (tail ++ other) = tail ++ other := by
      rcases skipBlankLine_cases (tail ++ rest) with
        ⟨gap, g, hsplit, hg, hgap⟩ | ⟨hnil, -⟩ | hwhole
      · rw [hskip, List.append_cons, List.append_cancel_right_eq] at hsplit
        rw [hsplit, List.append_assoc]
        exact skipSemicolon_eq_self hg (fun d hd => (hgap d hd).1) other
      · obtain rfl : rest = [] := hskip.symm.trans hnil
        rw [hend rfl]
        exact hsame
      · rw [hskip] at hwhole
        exact absurd (List.self_eq_append_left.1 hwhole) htail
    refine ⟨[], ?_, by simp⟩
    rw [land, hother, skipBlankLine_append_congr htail hskip hend, List.nil_append]

end Landing

/-- The parts of an import declaration behind the word `import`: the text up to the string, the
string, and what is skipped behind it. -/
structure Parts where
  clause : List Glyph
  literal : List Glyph
  tail : List Glyph
  deriving Repr

/-- The text of a declaration. -/
def Parts.text (parts : Parts) : List Glyph :=
  coded importWord ++ (parts.clause ++ (parts.literal ++ parts.tail))

/-- The names that `declaration?` reads off the text up to the string. -/
def Parts.names (parts : Parts) : List (List Char) :=
  localNames (dropFrom (trim (chars parts.clause)))

/-- The declaration with these parts. -/
def Parts.declaration (parts : Parts) : Declaration :=
  ⟨parts.text, parts.names⟩

/-- `parts.Ready` says that text is an import declaration as far as its own parts tell. -/
structure Parts.Ready (parts : Parts) : Prop where
  boundary : boundary (chars (parts.clause ++ parts.literal)).head? = true
  clause : ∀ g ∈ parts.clause, g.region ≠ .string
  literal : ∀ g ∈ parts.literal, g.region = .string
  nonempty : parts.literal ≠ []
  parenthesis : (trim (chars parts.clause)).head? ≠ some '('
  dot : (trim (chars parts.clause)).head? ≠ some '.'
  tail : ∀ g ∈ parts.tail, isTrailing g.char = true
  quote : ∃ quote ∈ (chars parts.literal).getLast?, isQuote quote = true

/-- A declaration is cut at its string. -/
theorem Parts.text_append (parts : Parts) (rest : List Glyph) :
    parts.text ++ rest =
      (coded importWord ++ parts.clause) ++ (parts.literal ++ (parts.tail ++ rest)) := by
  simp [Parts.text]

/-- There is no string in front of the one that a declaration ends with. -/
theorem Parts.Ready.region_ne {parts : Parts} (h : parts.Ready) :
    ∀ g ∈ coded importWord ++ parts.clause, g.region ≠ .string := by
  intro g hg
  rcases List.mem_append.1 hg with hg | hg
  · rw [region_of_mem_coded hg]
    exact Region.noConfusion
  · exact h.clause g hg

/-- `Behind tail rest` says that a declaration with this tail ends in front of `rest`. -/
structure Behind (tail rest : List Glyph) : Prop where
  nonempty : tail ++ rest ≠ []
  region : ∀ g ∈ (tail ++ rest).head?, g.region ≠ .string
  lands : land (tail ++ rest) = rest

/-- `Declares before parts rest` says that a declaration with these parts starts behind `before` and
ends in front of `rest`. -/
structure Declares (before : List Char) (parts : Parts) (rest : List Glyph) : Prop where
  starts : startsStatement before = true
  boundary : boundary before.head? = true
  ready : parts.Ready
  behind : Behind parts.tail rest

section Reading

variable {before : List Char} {glyphs rest : List Glyph} {parts : Parts} {phase : Phase}

/-- A word is read off text that starts with it. -/
theorem word?_append {word : List Char} {rest : List Glyph} (hne : word ≠ [])
    (hend : boundary (chars rest).head? = true) : word? word (coded word ++ rest) = some rest := by
  refine word?_eq_some_iff.2 ⟨coded word, rfl, chars_coded word, ?_, hend⟩
  cases word with
  | nil => exact absurd rfl hne
  | cons c word => rfl

/-- What has the parts of a declaration is read as one. -/
theorem declaration?_eq_some (h : Declares before parts rest) :
    declaration? before (parts.text ++ rest) = some (parts.declaration, rest) := by
  obtain ⟨hstarts, hboundary, hready, hbehind⟩ := h
  have hglyphs : parts.text ++ rest =
      coded importWord ++ (parts.clause ++ (parts.literal ++ (parts.tail ++ rest))) := by
    simp [Parts.text]
  have hword : word? importWord (parts.text ++ rest) =
      some (parts.clause ++ (parts.literal ++ (parts.tail ++ rest))) := by
    rw [hglyphs, word?_append (by decide)]
    have h := hready.boundary
    have hne := hready.nonempty
    rw [chars_append] at h
    rw [chars_append, chars_append, ← List.append_assoc, List.head?_append_of_ne_nil]
    · exact h
    · simp [chars, hne]
  have hclause : ∀ g ∈ parts.clause, decide (g.region ≠ .string) = true := fun g hg =>
    decide_eq_true (hready.clause g hg)
  have hfirst := region_head?_literal hready.literal hready.nonempty (parts.tail ++ rest)
  have htake := takeWhile_append_eq_left hclause hfirst
  have hdrop := dropWhile_append_eq_right hclause hfirst
  have hlast : (parts.literal ++ (parts.tail ++ rest)).dropWhile
      (fun g => decide (g.region = .string)) = parts.tail ++ rest :=
    dropWhile_append_eq_right (fun g hg => decide_eq_true (hready.literal g hg))
      fun g hg => decide_eq_false (hbehind.region g hg)
  have hread : clause? before (parts.text ++ rest) = some (trim (chars parts.clause), rest) :=
    clause?_eq_some_iff.2 ⟨_, _, hword, hboundary, hstarts, by rw [htake], by rw [hdrop, hlast],
      hbehind.nonempty, hready.parenthesis, hready.dot, hbehind.lands.symm⟩
  rw [declaration?, hread]
  simp [Parts.declaration, Parts.names]

/-- In front of a statement stands a blank, a semicolon or a closing brace. -/
theorem head?_of_startsStatement (h : startsStatement before = true) :
    ∀ c ∈ before.head?, isBlank c = true ∨ c = ';' ∨ c = '}' := by
  intro c hc
  cases before with
  | nil => cases hc
  | cons d before =>
      obtain rfl : d = c := Option.some.inj hc
      by_cases hd : isBlank d = true
      · exact .inl hd
      · simp only [startsStatement, List.dropWhile_cons_of_neg hd,
          List.takeWhile_cons_of_neg hd] at h
        right
        simpa using h

/-- No slash stands right in front of a statement. -/
theorem slash_not_mem_of_startsStatement (h : startsStatement before = true) :
    before.head? ≠ some '/' := by
  intro hslash
  have hhead := head?_of_startsStatement h '/' hslash
  revert hhead
  decide

/-- The word `import` at the start of a statement is code. -/
theorem eq_coded_of_importWord {word : List Glyph} (hfits : phase.Fits before)
    (hstarts : startsStatement before = true) (hword : chars word = importWord)
    (hregion : word.head?.map Glyph.region = some .code) (h : Readable phase (word ++ rest)) :
    word = coded importWord ∧ phase = .code ∧ Readable .code rest := by
  have hplain : ∀ g ∈ word, isQuote g.char = false ∧ g.char ≠ '/' := by
    intro g hg
    have hc : g.char ∈ importWord := hword ▸ List.mem_map_of_mem hg
    revert hc
    generalize g.char = c
    simp only [importWord, List.mem_cons, List.not_mem_nil, or_false]
    rintro (rfl | rfl | rfl | rfl | rfl | rfl) <;> decide
  obtain ⟨middle, hrun, hrest⟩ := Readable.append_iff.1 h
  obtain rfl : phase = .code := by
    cases word with
    | nil => cases hword
    | cons g word =>
        obtain ⟨c, region⟩ := g
        obtain rfl : c = 'i' := (List.cons.inj hword).1
        obtain rfl : region = .code := Option.some.inj hregion
        obtain ⟨next, hstep, -⟩ := run_cons_iff.1 hrun
        exact eq_code_of_step hfits (slash_not_mem_of_startsStatement hstarts) (by decide) hstep
  obtain ⟨hcoded, rfl⟩ := eq_coded_of_run hplain hrun
  exact ⟨hword ▸ hcoded, rfl, hrest⟩

/-- The text behind the word `import` is cut at its first string, if there is one. -/
theorem exists_clause_literal (behind : List Glyph) :
    ∃ clause literal rest, behind = clause ++ (literal ++ rest) ∧
      behind.takeWhile (·.region ≠ .string) = clause ∧
      (behind.dropWhile (·.region ≠ .string)).dropWhile (·.region = .string) = rest ∧
      (∀ g ∈ clause, g.region ≠ .string) ∧ (∀ g ∈ literal, g.region = .string) ∧
      (∀ g ∈ rest.head?, g.region ≠ .string) ∧ (literal = [] → rest = []) := by
  obtain ⟨clause, hsplit, hclause, hquote⟩ :=
    exists_of_dropWhile (fun g : Glyph => decide (g.region ≠ .string)) behind
  obtain ⟨literal, hlater, hliteral, hend⟩ := exists_of_dropWhile
    (fun g : Glyph => decide (g.region = .string)) (behind.dropWhile (·.region ≠ .string))
  refine ⟨clause, literal, _, by rw [← hlater, ← hsplit], ?_, rfl, fun g hg => ?_, fun g hg => ?_,
    fun g hg => of_decide_eq_false (hend g hg), ?_⟩
  · conv => lhs; rw [hsplit]
    exact takeWhile_append_eq_left hclause hquote
  · exact of_decide_eq_true (hclause g hg)
  · exact of_decide_eq_true (hliteral g hg)
  · rintro rfl
    refine List.head?_eq_none_iff.1 (Option.eq_none_iff_forall_ne_some.2 fun g hg => ?_)
    -- the first character would stand in a string and not stand in one
    have hnot := of_decide_eq_false (hend g hg)
    rw [List.nil_append] at hlater
    rw [← hlater] at hg
    exact of_decide_eq_false (hquote g hg) hnot

/-- A word may end behind a quote. -/
theorem boundary_of_isQuote {c : Char} (h : isQuote c = true) : boundary (some c) = true := by
  simp only [isQuote, Bool.or_eq_true, beq_iff_eq] at h
  rcases h with (rfl | rfl) | rfl <;> decide

/-- A declaration ends with the quote of its string or with what is skipped behind it. -/
theorem Parts.Ready.boundary_last (h : parts.Ready) :
    Text.boundary (chars (parts.literal ++ parts.tail)).getLast? = true := by
  obtain ⟨quote, hlast, hquote⟩ := h.quote
  rw [chars_append, List.getLast?_append, Option.mem_def.1 hlast]
  cases htail : (chars parts.tail).getLast? with
  | none => exact boundary_of_isQuote hquote
  | some c =>
      obtain ⟨g, hg, rfl⟩ := List.mem_map.1 (List.mem_of_getLast? htail)
      exact (plain_of_isTrailing (h.tail g hg)).1

/-- The parts that `clause?` reads, whatever their regions. -/
theorem exists_of_clause? {text : List Char} (h : clause? before glyphs = some (text, rest)) :
    ∃ word clause literal tail,
      glyphs = word ++ (clause ++ (literal ++ (tail ++ rest))) ∧ text = trim (chars clause) ∧
      boundary before.head? = true ∧ startsStatement before = true ∧ chars word = importWord ∧
      word.head?.map Glyph.region = some .code ∧ boundary (chars (clause ++ literal)).head? = true ∧
      (∀ g ∈ clause, g.region ≠ .string) ∧ (∀ g ∈ literal, g.region = .string) ∧ literal ≠ [] ∧
      text.head? ≠ some '(' ∧ text.head? ≠ some '.' ∧ (∀ g ∈ tail, isTrailing g.char = true) ∧
      Behind tail rest := by
  obtain ⟨behind, last, hword, hboundary, hstarts, rfl, hlast, hne, hparenthesis, hdot, rfl⟩ :=
    clause?_eq_some_iff.1 h
  obtain ⟨clause, literal, last', hbehind, htake, hdrop, hclause, hliteral, hend, hopened⟩ :=
    exists_clause_literal behind
  obtain rfl : last = last' := hlast.trans hdrop
  rw [htake] at hparenthesis hdot ⊢
  have hliteralNe : literal ≠ [] := mt hopened hne
  obtain ⟨tail, htail, htrailing⟩ := exists_of_land last
  obtain ⟨word, hglyphs, hchars, hcode, hafter⟩ := word?_eq_some_iff.1 hword
  have hwordNe : word ≠ [] := by
    rintro rfl
    cases hchars
  have hregion : word.head?.map Glyph.region = some .code := by
    rwa [hglyphs, List.head?_append_of_ne_nil _ hwordNe] at hcode
  have hcut : behind = clause ++ (literal ++ (tail ++ land last)) := by rw [← htail, ← hbehind]
  refine ⟨word, clause, literal, tail, by rw [hglyphs, hcut, land], rfl, hboundary, hstarts,
    hchars, hregion, ?_, hclause, hliteral, hliteralNe, hparenthesis, hdot, htrailing, ?_⟩
  · rw [hcut, ← List.append_assoc, chars_append, List.head?_append_of_ne_nil] at hafter
    · exact hafter
    · simp [chars, hliteralNe]
  · have hlands : land (tail ++ land last) = land last := by rw [← htail]
    exact ⟨htail ▸ hne, htail ▸ hend, hlands⟩

/-- A declaration that is read in text that can be read has the parts of one. -/
theorem exists_parts {declaration : Declaration} (hfits : phase.Fits before)
    (hreadable : Readable phase glyphs)
    (h : declaration? before glyphs = some (declaration, rest)) :
    ∃ parts : Parts, glyphs = parts.text ++ rest ∧ declaration = parts.declaration ∧
      Declares before parts rest ∧ phase = .code ∧ run .code parts.text = some .code := by
  have happend := append_of_declaration? h
  obtain ⟨⟨text, landed⟩, hread, hsame⟩ := Option.map_eq_some_iff.1 h
  cases hsame
  obtain ⟨word, clause, literal, tail, hglyphs, rfl, hboundary, hstarts, hword, hregion, hafter,
    hclause, hliteral, hne, hparenthesis, hdot, htrailing, hbehind⟩ := exists_of_clause? hread
  rw [hglyphs] at hreadable
  -- the reader is in code in front of the word, behind the string and behind what is skipped
  obtain ⟨rfl, rfl, hrest⟩ := eq_coded_of_importWord hfits hstarts hword hregion hreadable
  obtain ⟨inside, hclauseRun, hinside⟩ := Readable.append_iff.1 hrest
  have hcode : Phase.code.Fits before := trivial
  obtain ⟨hliteralRun, hquote⟩ :=
    run_literal (hcode.run hclauseRun) hne hliteral hbehind.region hbehind.nonempty hinside
  obtain ⟨middle, hmiddle, hlast⟩ := Readable.append_iff.1 hinside
  obtain rfl : Phase.code = middle := Option.some.inj (hliteralRun.symm.trans hmiddle)
  obtain ⟨last, htailRun, -⟩ := Readable.append_iff.1 hlast
  obtain ⟨-, rfl⟩ := eq_coded_of_run (fun g hg => (plain_of_isTrailing (htrailing g hg)).2) htailRun
  have hall : glyphs = (⟨clause, literal, tail⟩ : Parts).text ++ landed := by
    rw [hglyphs]
    simp [Parts.text]
  have htext := List.append_cancel_right (happend.trans hall)
  refine ⟨⟨clause, literal, tail⟩, hall, congrArg (Declaration.mk · _) htext, ?_, rfl, ?_⟩
  · exact ⟨hstarts, hboundary,
      ⟨hafter, hclause, hliteral, hne, hparenthesis, hdot, htrailing, hquote⟩, hbehind⟩
  · have hcoded : run .code (coded importWord) = some .code := by decide
    rw [Parts.text, run_append, hcoded, Option.bind_some, run_append, hclauseRun, Option.bind_some,
      run_append, hliteralRun, Option.bind_some]
    exact htailRun

end Reading

end MiniProgram.Source
