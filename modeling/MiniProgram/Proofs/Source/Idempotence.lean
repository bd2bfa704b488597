import MiniProgram.Source.Elimination

/-!
# When a second elimination changes nothing

Elimination folds branches before it strips imports, and does not fold again. An import that stood
between the parts of a conditional keeps it from being folded, and once the import is stripped the
conditional is complete. Read `eliminate_idempotent_iff` first: a second run changes nothing exactly
when the first one leaves no conditional that folding would take.
-/

namespace MiniProgram.Source

/-- `Foldable text` says that folding takes a conditional of `text`: it finds one, and what is left
of the text is balanced. -/
def Foldable (text : List Char) : Prop :=
  ∃ glyphs folded next,
    scan text = some glyphs ∧ fold? glyphs = some folded ∧ scan (chars folded) = some next

/-- A classified text is the classification of its own characters. -/
theorem scan_chars {text : List Char} {glyphs : List Glyph} (h : scan text = some glyphs) :
    scan (chars glyphs) = some glyphs := by
  rw [chars_of_scan h]
  exact h

section Folding

variable {glyphs folded next : List Glyph}

/-- Folding goes on from a text that is still balanced. -/
theorem foldAll_of_fold? (hfold : fold? glyphs = some folded)
    (hscan : scan (chars folded) = some next) : foldAll glyphs = foldAll next := by
  rw [foldAll]
  split
  · next hnone => rw [hfold] at hnone; cases hnone
  · next found hfound =>
      obtain rfl : folded = found := Option.some.inj (hfold.symm.trans hfound)
      split
      · next hnone => rw [hscan] at hnone; cases hnone
      · next found hfound =>
          obtain rfl : next = found := Option.some.inj (hscan.symm.trans hfound)
          rfl

/-- Folding stops where it finds nothing or would leave an unbalanced text. -/
theorem foldAll_eq_self
    (hstop : ∀ folded, fold? glyphs = some folded → scan (chars folded) = none) :
    foldAll glyphs = glyphs := by
  rw [foldAll]
  split
  · rfl
  · next folded hfold =>
      split
      · rfl
      · next next hnext => rw [hstop folded hfold] at hnext; cases hnext

/-- A classified text stays the classification of its own characters while it is folded. -/
theorem scan_foldAll (h : scan (chars glyphs) = some glyphs) :
    scan (chars (foldAll glyphs)) = some (foldAll glyphs) := by
  fun_induction foldAll glyphs with
  | case1 => exact h
  | case2 => exact h
  | case3 glyphs folded hfold next hscan ih =>
      exact ih (scan_chars hscan)

/-- Folding never makes a text longer. -/
theorem length_foldAll_le (glyphs : List Glyph) : (foldAll glyphs).length ≤ glyphs.length := by
  fun_induction foldAll glyphs with
  | case1 => exact Nat.le_refl _
  | case2 => exact Nat.le_refl _
  | case3 glyphs folded hfold next hscan ih =>
      have hshorter := length_lt_of_fold? hfold
      have hsame := length_of_scan hscan
      rw [length_chars] at hsame
      omega

/-- Folding makes a foldable text shorter. -/
theorem length_foldAll_lt (hfold : fold? glyphs = some folded)
    (hscan : scan (chars folded) = some next) : (foldAll glyphs).length < glyphs.length := by
  rw [foldAll_of_fold? hfold hscan]
  have hshorter := length_lt_of_fold? hfold
  have hsame := length_of_scan hscan
  have hrest := length_foldAll_le next
  rw [length_chars] at hsame
  omega

end Folding

section Stripping

variable {glyphs next : List Glyph}

/-- Stripping stops at a text that it leaves alone. -/
theorem stripAll_eq_chars (h : strip glyphs = glyphs) : stripAll glyphs = chars glyphs := by
  rw [stripAll, dif_pos h]

/-- Stripping goes on from a text that is still balanced. -/
theorem stripAll_of_scan (hchange : strip glyphs ≠ glyphs)
    (hscan : scan (chars (strip glyphs)) = some next) : stripAll glyphs = stripAll next := by
  rw [stripAll, dif_neg hchange]
  split
  · next hnone => rw [hscan] at hnone; cases hnone
  · next found hfound =>
      obtain rfl : next = found := Option.some.inj (hscan.symm.trans hfound)
      rfl

/-- A stripped text that is balanced has no import left to strip. -/
theorem strip_eq_self_of_scan_stripAll {last : List Glyph}
    (h : scan (chars glyphs) = some glyphs) (hlast : scan (stripAll glyphs) = some last) :
    strip last = last := by
  fun_induction stripAll glyphs with
  | case1 glyphs hsame =>
      obtain rfl : glyphs = last := Option.some.inj (h.symm.trans hlast)
      exact hsame
  | case2 glyphs hchange hnone =>
      rw [hnone] at hlast; cases hlast
  | case3 glyphs hchange next hscan ih =>
      exact ih (scan_chars hscan) hlast

/-- A strip that changes a text makes it shorter. -/
theorem length_strip_lt (h : strip glyphs ≠ glyphs) : (strip glyphs).length < glyphs.length :=
  Nat.lt_of_le_of_ne (strip_sublist glyphs).length_le fun hsame =>
    h ((strip_sublist glyphs).eq_of_length hsame)

/-- Stripping never makes a text longer. -/
theorem length_stripAll_le (glyphs : List Glyph) : (stripAll glyphs).length ≤ glyphs.length := by
  fun_induction stripAll glyphs with
  | case1 glyphs hsame => exact Nat.le_of_eq (length_chars glyphs)
  | case2 glyphs hchange hnone =>
      rw [length_chars]
      exact (strip_sublist glyphs).length_le
  | case3 glyphs hchange next hscan ih =>
      have hsame := length_of_scan hscan
      have hshorter := (strip_sublist glyphs).length_le
      rw [length_chars] at hsame
      omega

end Stripping

/-- What elimination leaves of a balanced source, in one equation. -/
theorem eliminateChars_of_scan {text : List Char} {glyphs : List Glyph}
    (h : scan text = some glyphs) : eliminateChars text = stripAll (foldAll glyphs) := by
  simp [eliminateChars, h]

/-- A balanced result of elimination has no import left to strip. -/
theorem strip_eq_self_of_scan_eliminateChars {text : List Char} {last : List Glyph}
    (hlast : scan (eliminateChars text) = some last) : strip last = last := by
  cases h : scan text with
  | none =>
      rw [eliminateChars_of_scan_eq_none h, h] at hlast
      cases hlast
  | some glyphs =>
      rw [eliminateChars_of_scan h] at hlast
      exact strip_eq_self_of_scan_stripAll (scan_foldAll (scan_chars h)) hlast

/-- A text without anything to fold or to strip is left alone. -/
theorem eliminateChars_eq_self {text : List Char} (hfold : ¬ Foldable text)
    (hstrip : ∀ glyphs, scan text = some glyphs → strip glyphs = glyphs) :
    eliminateChars text = text := by
  cases h : scan text with
  | none => exact eliminateChars_of_scan_eq_none h
  | some glyphs =>
      have hstop : ∀ folded, fold? glyphs = some folded → scan (chars folded) = none := by
        intro folded hfolded
        cases hnext : scan (chars folded) with
        | none => rfl
        | some next => exact absurd ⟨glyphs, folded, next, h, hfolded, hnext⟩ hfold
      rw [eliminateChars_of_scan h, foldAll_eq_self hstop, stripAll_eq_chars (hstrip glyphs h),
        chars_of_scan h]

/-- A foldable text becomes shorter. -/
theorem length_eliminateChars_lt {text : List Char} (h : Foldable text) :
    (eliminateChars text).length < text.length := by
  obtain ⟨glyphs, folded, next, hscan, hfold, hnext⟩ := h
  have hsame := length_of_scan hscan
  have hfolded := length_foldAll_lt hfold hnext
  have hstripped := length_stripAll_le (foldAll glyphs)
  rw [eliminateChars_of_scan hscan]
  omega

/-- The characters of a source after elimination. -/
theorem toList_eliminate (source : String) :
    (eliminate source).toList = eliminateChars source.toList := by
  simp [eliminate]

/-- A second elimination changes nothing where the first one leaves nothing to fold. -/
theorem eliminate_eliminate_of_not_foldable {source : String}
    (hfold : ¬ Foldable (eliminate source).toList) :
    eliminate (eliminate source) = eliminate source := by
  apply String.toList_inj.1
  rw [toList_eliminate (eliminate source)]
  refine eliminateChars_eq_self hfold ?_
  intro last hlast
  rw [toList_eliminate] at hlast
  exact strip_eq_self_of_scan_eliminateChars hlast

/-- A second elimination changes nothing exactly when the first one leaves no conditional that
folding would take. -/
theorem eliminate_idempotent_iff (source : String) :
    eliminate (eliminate source) = eliminate source ↔ ¬ Foldable (eliminate source).toList := by
  refine ⟨?_, eliminate_eliminate_of_not_foldable⟩
  intro hsame hfold
  have hlength := length_eliminateChars_lt hfold
  rw [← toList_eliminate, hsame] at hlength
  exact Nat.lt_irrefl _ hlength

/-- An import inside of a conditional hides it from the first run, and a second run folds it. -/
theorem eliminate_not_idempotent :
    eliminate "<Text>if\nimport a from 'a';\n(true) { x }</Text>;\n" =
        "<Text>if\n(true) { x }</Text>;\n" ∧
      eliminate (eliminate "<Text>if\nimport a from 'a';\n(true) { x }</Text>;\n") =
        "<Text>{ x }</Text>;\n" := by
  decide +kernel

end MiniProgram.Source
