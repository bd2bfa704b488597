import MiniProgram.Source.Branch
import MiniProgram.Source.Import

/-!
# Dead code elimination

Elimination first folds constant branches for as long as it finds one, and then strips unused
imports until nothing changes, because a dropped import may have been the last text that needed
another one. Every step makes the source shorter, so both repetitions end. A source that is not
balanced is returned as it is, and a step that would leave an unbalanced source ends its
repetition.
-/

namespace MiniProgram.Source

/-- `foldAll glyphs` folds constant branches until none is left, or until folding would leave a
source that is not balanced. -/
def foldAll (glyphs : List Glyph) : List Glyph :=
  match _h : fold? glyphs with
  | none => glyphs
  | some folded =>
    match _h' : scan (chars folded) with
    | none => glyphs
    | some next => foldAll next
termination_by glyphs.length
decreasing_by
  have same := congrArg List.length (chars_of_scan _h')
  have shorter := length_lt_of_fold? _h
  simp only [chars, List.length_map] at same
  omega

/-- `stripAll glyphs` strips unused imports until nothing changes. -/
def stripAll (glyphs : List Glyph) : List Char :=
  if _h : strip glyphs = glyphs then chars glyphs
  else
    match _h' : scan (chars (strip glyphs)) with
    | none => chars (strip glyphs)
    | some next => stripAll next
termination_by glyphs.length
decreasing_by
  have same := congrArg List.length (chars_of_scan _h')
  have shorter : (strip glyphs).length < glyphs.length :=
    Nat.lt_of_le_of_ne (strip_sublist glyphs).length_le fun equal =>
      _h ((strip_sublist glyphs).eq_of_length equal)
  simp only [chars, List.length_map] at same
  omega

/-- `eliminateChars text` removes dead code from the characters of a source. -/
def eliminateChars (text : List Char) : List Char :=
  match scan text with
  | none => text
  | some glyphs => stripAll (foldAll glyphs)

/-- `eliminate source` removes the dead code of a module source. -/
def eliminate (source : String) : String :=
  String.ofList (eliminateChars source.toList)

/-- A source that is not balanced is returned as it is. -/
theorem eliminateChars_of_scan_eq_none {text : List Char} (h : scan text = none) :
    eliminateChars text = text := by
  simp [eliminateChars, h]

end MiniProgram.Source
