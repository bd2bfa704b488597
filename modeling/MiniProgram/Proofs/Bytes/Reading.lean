import MiniProgram.Proofs.Bytes.Slice
import MiniProgram.Proofs.Source.Preservation

/-!
# Reading words and symbols at byte offsets

A reader is given a source, the region of each of its bytes and an offset, and cuts the source at
the offset to look at what stands there. `Stands glyphs index front rest` relates an offset to a
classified source: the offset is the size of the text `front` in front of it, and the text `rest`
stands behind it. At such an offset no reader fails (`keywordAt_eq`, `exists_skipAt`,
`symbolAt_eq`), and each one moves on to such an offset.
-/

namespace MiniProgram.Bytes

open Source Text

/-- Whether a text has a word as a whole right at an offset, and the word starts in code. -/
def keywordAt (source : List Char) (regions : List Region) (index : ℕ) (word : List Char) :
    Except Fault Bool :=
  if regions[index]? = some .code then do
    if word.isPrefixOf (← sliceFrom source index) then
      if boundary (← sliceTo source index).getLast? then
        return boundary (← sliceFrom source (index + size word)).head?
      else return false
    else return false
  else .ok false

/-- The offset behind the blanks at an offset. -/
def skipAt (source : List Char) (index : ℕ) : Except Fault ℕ := do
  let blanks ← minus (size (← sliceFrom source index))
    (size (trimStart (← sliceFrom source index)))
  return index + blanks

/-- Whether a symbol stands at an offset. -/
def symbolAt (source : List Char) (index : ℕ) (symbol : Char) : Except Fault Bool := do
  return (← sliceFrom source index).head? = some symbol

/-- `Stands glyphs index front rest` says that an offset cuts a source in two. -/
structure Stands (glyphs : List Glyph) (index : ℕ) (front rest : List Glyph) : Prop where
  text : glyphs = front ++ rest
  offset : index = size (chars front)

namespace Stands

variable {glyphs front middle rest behind : List Glyph} {index : ℕ} {text : List Char}

/-- The offset zero stands in front of a source. -/
theorem start (glyphs : List Glyph) : Stands glyphs 0 [] glyphs where
  text := rfl
  offset := rfl

/-- Behind a part of the text stands the offset that its size leads to. -/
theorem move (h : Stands glyphs index front (middle ++ rest)) :
    Stands glyphs (index + size (chars middle)) (front ++ middle) rest where
  text := by rw [h.text, List.append_assoc]
  offset := by rw [h.offset, chars_append, size_append]

/-- Behind one character stands the offset that its size leads to. -/
theorem step {g : Glyph} (h : Stands glyphs index front (g :: rest)) :
    Stands glyphs (index + g.char.utf8Size) (front ++ [g]) rest := by
  have hmove := @Stands.move _ _ [g] _ _ h
  simpa using hmove

/-- One offset at most stands between two parts. -/
theorem unique {other : ℕ} {otherFront : List Glyph} (h : Stands glyphs index front rest)
    (hother : Stands glyphs other otherFront rest) : index = other := by
  rw [h.offset, hother.offset, List.append_cancel_right (h.text.symm.trans hother.text)]

/-- Behind code that has been read stands the offset that its size leads to. -/
theorem reads (h : Stands glyphs index front rest) (hreads : Reads text rest behind) :
    Stands glyphs (index + size text) (front ++ coded text) behind := by
  rw [hreads.eq_append] at h
  simpa using h.move

/-- The text from an offset on is the part behind it. -/
theorem sliceFrom_eq (h : Stands glyphs index front rest) :
    sliceFrom (chars glyphs) index = .ok (chars rest) := by
  rw [h.text, h.offset, chars_append, sliceFrom_append]

/-- The text up to an offset is the part in front of it. -/
theorem sliceTo_eq (h : Stands glyphs index front rest) :
    sliceTo (chars glyphs) index = .ok (chars front) := by
  rw [h.text, h.offset, chars_append, sliceTo_append]

/-- The text between two offsets is the part between them. -/
theorem slice_eq (h : Stands glyphs index front (middle ++ rest)) :
    slice (chars glyphs) index (index + size (chars middle)) = .ok (chars middle) := by
  rw [h.text, h.offset, chars_append, chars_append, slice_append]

/-- The region of the byte at an offset is the one of the character behind it. -/
theorem region_eq (h : Stands glyphs index front rest) :
    (bytes glyphs)[index]? = rest.head?.map Glyph.region := by
  have hlength : index = (bytes front).length := h.offset.trans (length_bytes front).symm
  rw [h.text, bytes_append, hlength, List.getElem?_append_right (Nat.le_refl _), Nat.sub_self]
  cases rest with
  | nil => rfl
  | cons g rest =>
      rw [bytes, List.flatMap_cons, List.getElem?_append_left (by simpa using g.char.utf8Size_pos)]
      simp [g.char.utf8Size_pos]

/-- The regions of the bytes between two offsets are those of the part between them. -/
theorem take_drop_bytes (h : Stands glyphs index front (middle ++ rest)) :
    ((bytes glyphs).drop index).take (size (chars middle)) = bytes middle := by
  have hfront : index = (bytes front).length := h.offset.trans (length_bytes front).symm
  have hmiddle : size (chars middle) = (bytes middle).length := (length_bytes middle).symm
  rw [h.text, bytes_append, bytes_append, hfront, hmiddle, List.drop_left, List.take_left]

end Stands

section Readers

variable {glyphs front rest behind : List Glyph} {index : ℕ} {word : List Char}

/-- A word stands as a whole at an offset if it is read off the text there, behind a boundary. -/
theorem keywordAt_eq (h : Stands glyphs index front rest) (word : List Char) :
    keywordAt (chars glyphs) (bytes glyphs) index word =
      .ok (boundary (chars front).getLast? && (word? word rest).isSome) := by
  rw [keywordAt, h.region_eq, word?]
  by_cases hcode : rest.head?.map Glyph.region = some .code
  · have htake : chars (rest.take word.length) = word ↔ word.isPrefixOf (chars rest) = true := by
      rw [List.isPrefixOf_iff_prefix, List.prefix_iff_eq_take, chars, List.map_take, eq_comm]
      rfl
    by_cases hleads : chars (rest.take word.length) = word
    · have hbehind : sliceFrom (chars glyphs) (index + size word) =
          .ok (chars (rest.drop word.length)) := by
        rw [← List.take_append_drop word.length rest] at h
        have hmove := h.move.sliceFrom_eq
        rwa [hleads] at hmove
      have hhead : (chars (rest.drop word.length)).head? =
          (rest.drop word.length).head?.map Glyph.char := List.head?_map
      simp only [hcode, if_true, h.sliceFrom_eq, h.sliceTo_eq, hbehind, htake.1 hleads, hleads,
        hhead, true_and, bind, Except.bind, pure, Except.pure]
      cases boundary (chars front).getLast? <;>
        cases boundary ((rest.drop word.length).head?.map Glyph.char) <;> rfl
    · simp only [hcode, if_true, h.sliceFrom_eq, mt htake.2 hleads, hleads, false_and, if_false,
        bind, Except.bind, pure, Except.pure]
      simp
  · rw [if_neg hcode, if_neg (by simp [hcode])]
    simp

/-- Behind the blanks no blank stands. -/
theorem exists_skipAt (h : Stands glyphs index front rest) :
    ∃ gap, rest = gap ++ skipBlanks rest ∧ (∀ g ∈ gap, isBlank g.char = true) ∧
      skipAt (chars glyphs) index = .ok (index + size (chars gap)) := by
  have hsplit : rest = (rest.takeWhile fun g => isBlank g.char) ++ skipBlanks rest :=
    List.takeWhile_append_dropWhile.symm
  refine ⟨_, hsplit, fun g hg => List.all_eq_true.1 List.all_takeWhile g hg, ?_⟩
  have htrim : trimStart (chars rest) = chars (skipBlanks rest) :=
    List.dropWhile_map ..
  have hsize := congrArg (size ∘ chars) hsplit
  simp only [Function.comp_apply, chars_append, size_append] at hsize
  simp only [skipAt, h.sliceFrom_eq, htrim, bind, Except.bind, pure, Except.pure, minus]
  rw [if_pos (by omega), hsize, Nat.add_sub_cancel]

/-- A symbol stands at an offset if it is read off the text there. -/
theorem symbolAt_eq (h : Stands glyphs index front rest) (symbol : Char) :
    symbolAt (chars glyphs) index symbol = .ok (symbol? symbol rest).isSome := by
  simp only [symbolAt, h.sliceFrom_eq, bind, Except.bind, pure, Except.pure]
  cases rest with
  | nil => rfl
  | cons g rest => by_cases hsymbol : g.char = symbol <;> simp [symbol?, hsymbol]

end Readers

end MiniProgram.Bytes
