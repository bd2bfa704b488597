import MiniProgram.Proofs.Text.Words
import MiniProgram.Source.Elimination

/-!
# Sources without the word import

A declaration starts with the whole word `import`. So a text in which the word does not stand has
no declaration, and stripping leaves it alone (`strip_eq_self_of_not_standsIn`).
-/

namespace MiniProgram.Source

open Text

/-- The word that a declaration starts with. -/
def importWord : List Char :=
  ['i', 'm', 'p', 'o', 'r', 't']

/-- The word `import` is a name. -/
theorem isName_importWord : isName importWord = true := by decide

/-- A word that is read stands right there. -/
theorem standsIn_of_word? {word : List Char} {glyphs rest : List Glyph} {previous : Option Char}
    (h : word? word glyphs = some rest) (hprevious : boundary previous = true) :
    StandsIn previous word (chars glyphs) :=
  ⟨[], chars rest, append_of_word? h, hprevious, boundary_of_word? h⟩

/-- A declaration starts at a boundary with the word `import`. -/
theorem word?_of_declaration? {before : List Char} {glyphs rest : List Glyph}
    {declaration : Declaration} (h : declaration? before glyphs = some (declaration, rest)) :
    boundary before.head? = true ∧ ∃ behind, word? importWord glyphs = some behind := by
  obtain ⟨⟨clause, tail⟩, hread, -⟩ := Option.map_eq_some_iff.1 h
  obtain ⟨behind, last, hword, hboundary, -⟩ := clause?_eq_some_iff.1 hread
  exact ⟨hboundary, behind, hword⟩

/-- Where a declaration is read the word `import` stands. -/
theorem standsIn_of_declaration? {before : List Char} {glyphs rest : List Glyph}
    {declaration : Declaration} (h : declaration? before glyphs = some (declaration, rest)) :
    StandsIn before.head? importWord (chars glyphs) := by
  obtain ⟨hboundary, behind, hword⟩ := word?_of_declaration? h
  exact standsIn_of_word? hword hboundary

/-- A declaration that is read is a piece in front of the pieces of what follows it. -/
theorem segmentsFrom_of_declaration? {before : List Char} {glyphs rest : List Glyph}
    {declaration : Declaration} (h : declaration? before glyphs = some (declaration, rest)) :
    segmentsFrom before glyphs =
      .imports declaration :: segmentsFrom ((chars declaration.text).reverse ++ before) rest := by
  cases glyphs with
  | nil => exact absurd (length_lt_of_declaration? h) (Nat.not_lt_zero _)
  | cons g tail =>
      rw [segmentsFrom]
      split
      · next found hfound =>
          obtain ⟨rfl, rfl⟩ := Prod.mk.inj (Option.some.inj (hfound.symm.trans h))
          rfl
      · next hnone =>
          rw [h] at hnone
          cases hnone

/-- Without the word `import` there is no declaration. -/
theorem segmentsFrom_eq_map_other {before : List Char} {glyphs : List Glyph}
    (h : ¬ StandsIn before.head? importWord (chars glyphs)) :
    segmentsFrom before glyphs = glyphs.map .other := by
  fun_induction segmentsFrom before glyphs with
  | case1 => rfl
  | case2 before g tail declaration rest found ih => exact absurd (standsIn_of_declaration? found) h
  | case3 before g tail found ih =>
      rw [ih, List.map_cons]
      rintro ⟨front, behind, htail, hfront, hbehind⟩
      refine h ⟨g.char :: front, behind, ?_, getLast?_cons_or .. ▸ hfront, hbehind⟩
      rw [chars, List.map_cons, ← chars, htail]
      rfl

/-- Pieces of one character each hold the text that they are cut from. -/
theorem flatMap_text_other (glyphs : List Glyph) :
    (glyphs.map Segment.other).flatMap Segment.text = glyphs := by
  induction glyphs with
  | nil => rfl
  | cons g glyphs ih => rw [List.map_cons, List.flatMap_cons, ih]; rfl

/-- The body of two lists of pieces is that of the first in front of that of the second. -/
theorem body_append (pieces others : List Segment) :
    body (pieces ++ others) = body pieces ++ body others :=
  List.filterMap_append

/-- The body of characters that belong to no declaration are the characters. -/
theorem body_map_other (glyphs : List Glyph) : body (glyphs.map Segment.other) = chars glyphs := by
  induction glyphs with
  | nil => rfl
  | cons g glyphs ih =>
      rw [List.map_cons, body, List.filterMap_cons, ← body, ih]
      rfl

/-- Declarations have no body. -/
theorem body_map_imports {α : Type} (declaration : α → Declaration) (all : List α) :
    body (all.map fun a => .imports (declaration a)) = [] := by
  induction all with
  | nil => rfl
  | cons a all ih => rwa [List.map_cons, body, List.filterMap_cons, ← body]

/-- A piece that stripping keeps, where `text` is the text between the declarations. -/
def isKept (text : List Char) : Segment → Bool
  | .other _ => true
  | .imports declaration => !isUnused text declaration

/-- What stripping leaves. -/
theorem strip_eq (glyphs : List Glyph) :
    strip glyphs =
      ((segments glyphs).filter (isKept (body (segments glyphs)))).flatMap Segment.text := rfl

/-- Text between declarations is kept. -/
theorem filter_isKept_other (text : List Char) (glyphs : List Glyph) :
    (glyphs.map Segment.other).filter (isKept text) = glyphs.map .other := by
  refine List.filter_eq_self.2 fun piece hpiece => ?_
  obtain ⟨g, -, rfl⟩ := List.mem_map.1 hpiece
  rfl

/-- Stripping leaves a text without the word `import` alone. -/
theorem strip_eq_self_of_not_standsIn {glyphs : List Glyph}
    (h : ¬ StandsIn none importWord (chars glyphs)) : strip glyphs = glyphs := by
  have hsegments : segments glyphs = glyphs.map .other := segmentsFrom_eq_map_other h
  rw [strip_eq, hsegments, filter_isKept_other, flatMap_text_other]

end MiniProgram.Source
