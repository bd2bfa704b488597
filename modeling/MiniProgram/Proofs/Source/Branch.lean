import MiniProgram.Proofs.Source.Idempotence
import MiniProgram.Proofs.Source.Scan
import MiniProgram.Proofs.Text.Words

/-!
# What folding a branch leaves of a text

Folding a conditional only cuts pieces out of a text, and the pieces begin and end at word
boundaries (`sheds_of_foldFrom`). So it makes no new word (`identifiers_foldAll_subset`).

A conditional is the word `if`, blanks and a parenthesis (`chars_of_foldHere`). A text in which
none starts may be put in front of another one without any effect on its folding
(`foldAll_append`).
-/

namespace MiniProgram.Source

open Text

section Readers

variable {glyphs rest : List Glyph}

/-- What remains behind blanks. -/
theorem exists_of_skipBlanks (glyphs : List Glyph) :
    ∃ gap, (∀ c ∈ gap, isBlank c = true) ∧ chars glyphs = gap ++ chars (skipBlanks glyphs) := by
  refine ⟨chars (glyphs.takeWhile fun g => isBlank g.char), ?_, ?_⟩
  · intro c hc
    obtain ⟨g, hg, rfl⟩ := List.mem_map.1 hc
    exact List.all_eq_true.1 List.all_takeWhile g hg
  · rw [skipBlanks, chars, chars, chars, ← List.map_append, List.takeWhile_append_dropWhile]

/-- A closed block ends with a brace of code. -/
theorem exists_append_of_closeBlock {depth : Nat} {block : List Glyph}
    (h : closeBlock depth glyphs = some (block, rest)) :
    ∃ inner, block = inner ++ [⟨'}', .code⟩] := by
  fun_induction closeBlock depth glyphs generalizing block with
  | case1 => cases h
  | case3 =>
      cases h
      exact ⟨[], rfl⟩
  | case2 _ _ ih | case4 _ _ _ ih | case5 _ _ _ _ _ ih =>
      obtain ⟨tail, htail, rfl⟩ := prepend_eq_some_iff.1 h
      obtain ⟨inner, rfl⟩ := ih htail
      exact ⟨_ :: inner, rfl⟩

/-- A block stands between two braces. -/
theorem exists_of_block? {block : List Glyph} (h : block? glyphs = some (block, rest)) :
    ∃ inner, chars block = '{' :: (inner ++ ['}']) := by
  obtain ⟨region, tail, closing, -, hclose, rfl⟩ := block?_eq_some_iff.1 h
  obtain ⟨inner, rfl⟩ := exists_append_of_closeBlock hclose
  exact ⟨chars inner, by rw [chars_cons, chars_append]; rfl⟩

/-- What stands in front of an else branch ends at a boundary, or the branch begins at one. -/
theorem exists_of_alternative? {alternative : List Glyph}
    (h : alternative? glyphs = some alternative) :
    ∃ piece, chars glyphs = piece ++ chars alternative ∧
      (boundary piece.getLast? = true ∨ boundary (chars alternative).head? = true) := by
  obtain ⟨tail, htail, rfl⟩ := Option.map_eq_some_iff.1 h
  obtain ⟨front, -, hfront⟩ := exists_of_skipBlanks glyphs
  obtain ⟨gap, hgap, hrest⟩ := exists_of_skipBlanks tail
  refine ⟨front ++ ['e', 'l', 's', 'e'] ++ gap, ?_, ?_⟩
  · rw [hfront, append_of_word? htail, hrest]
    simp
  · rcases List.eq_nil_or_concat gap with rfl | ⟨gap, c, rfl⟩
    · right
      rw [← List.nil_append (chars (skipBlanks tail)), ← hrest]
      exact boundary_of_word? htail
    · left
      rw [List.concat_eq_append, ← List.append_assoc, List.getLast?_concat]
      exact boundary_of_isBlank (hgap c (by simp))

end Readers

section Words

variable {previous : Option Char} {glyphs folded : List Glyph}

/-- What a branch leaves of its block and what follows is cut out at word boundaries. -/
theorem sheds_of_branch {value : Bool} {block rest : List Glyph} {inner piece : List Char}
    (hprevious : boundary previous = true) (hblock : chars block = '{' :: (inner ++ ['}']))
    (h : branch value block rest = some folded) :
    Sheds previous (piece ++ chars (block ++ rest)) (chars folded) := by
  have hopening : boundary (some '{') = true := by decide
  have hclosing : boundary (some '}') = true := by decide
  have hlast : (chars block).getLast? = some '}' := by
    rw [hblock, ← List.cons_append, List.getLast?_concat]
  have hhead : boundary (chars (block ++ rest)).head? = true := by
    rw [chars_append, hblock]
    exact hopening
  cases branch_eq_some_iff.1 h with
  | dropped =>
      refine .cut piece hprevious (.inr hhead) ?_
      have hall : chars (block ++ rest) = '{' :: (inner ++ '}' :: chars rest) := by
        rw [chars_append, hblock]
        simp
      rw [hall]
      exact .keep (.cut inner hopening (.inr hclosing) (.keep (.refl _ _)))
  | other hsome =>
      obtain ⟨front, hfront, hend⟩ := exists_of_alternative? hsome
      have hall : piece ++ chars (block ++ rest) =
          (piece ++ chars block ++ front) ++ chars folded := by
        rw [chars_append, hfront]
        simp
      rw [hall]
      refine .cut _ hprevious (hend.imp_left fun hend => ?_) (.refl _ _)
      rw [List.getLast?_append, List.getLast?_append, hlast]
      cases hfront : front.getLast? with
      | none => exact hclosing
      | some c => rwa [hfront] at hend
  | kept => exact .cut piece hprevious (.inr hhead) (.refl _ _)
  | @chosen alternative other tail hsome hother =>
      obtain ⟨otherInner, hotherBlock⟩ := exists_of_block? hother
      obtain ⟨front, hfront, -⟩ := exists_of_alternative? hsome
      refine .cut piece hprevious (.inr hhead) ?_
      have hall : chars (block ++ rest) =
          chars block ++ ((front ++ chars other) ++ chars tail) := by
        rw [append_of_block? hother, chars_append] at hfront
        rw [chars_append, hfront]
        simp
      rw [hall, chars_append]
      refine Sheds.append_left _ (.cut _ (by rw [hlast]; exact hclosing) (.inl ?_) (.refl _ _))
      rw [hotherBlock, ← List.cons_append, ← List.append_assoc, List.getLast?_concat]
      exact hclosing

/-- What folding leaves of a conditional is cut out at word boundaries. -/
theorem sheds_of_foldHere (h : foldHere previous glyphs = some folded) :
    Sheds previous (chars glyphs) (chars folded) := by
  obtain ⟨behind, value, inner, block, rest, hword, hprevious, hcondition, hblock, hbranch⟩ :=
    foldHere_eq_some_iff.1 h
  obtain ⟨front, hfront⟩ := suffix_of_condition? hcondition
  obtain ⟨braced, hbraced⟩ := exists_of_block? hblock
  have hall : chars glyphs = (['i', 'f'] ++ chars front) ++ chars (block ++ rest) := by
    rw [append_of_word? hword, ← hfront, append_of_block? hblock]
    simp
  rw [hall]
  exact sheds_of_branch hprevious hbraced hbranch

/-- What folding leaves of a text is cut out at word boundaries. -/
theorem sheds_of_foldFrom (h : foldFrom previous glyphs = some folded) :
    Sheds previous (chars glyphs) (chars folded) := by
  induction glyphs generalizing previous folded with
  | nil => cases h
  | cons g tail ih =>
      unfold foldFrom at h
      split at h
      · next hhere =>
          cases h
          exact sheds_of_foldHere hhere
      · obtain ⟨rest, hrest, rfl⟩ := Option.map_eq_some_iff.1 h
        exact .keep (ih hrest)

/-- Folding makes no new word. -/
theorem identifiers_foldAll_subset (glyphs : List Glyph) :
    identifiers (chars (foldAll glyphs)) ⊆ identifiers (chars glyphs) := by
  fun_induction foldAll glyphs with
  | case1 | case2 => exact List.Subset.refl _
  | case3 glyphs folded hfold next hscan ih =>
      rw [chars_of_scan hscan] at ih
      exact List.Subset.trans ih (identifiers_subset_of_sheds (sheds_of_foldFrom hfold))

end Words

section Front

variable {previous : Option Char} {glyphs folded front : List Glyph}

/-- A conditional is the word `if` with a parenthesis behind it. -/
theorem chars_of_foldHere (h : foldHere previous glyphs = some folded) :
    ∃ gap rest, chars glyphs = 'i' :: 'f' :: (gap ++ '(' :: rest) ∧
      ∀ c ∈ gap, isBlank c = true := by
  obtain ⟨behind, _, _, _, _, hword, -, hcondition, -⟩ := foldHere_eq_some_iff.1 h
  obtain ⟨opened, _, _, hopened, -⟩ := condition?_eq_some_iff.1 hcondition
  obtain ⟨region, hopening⟩ := eq_cons_of_symbol? hopened
  obtain ⟨gap, hgap, hbehind⟩ := exists_of_skipBlanks behind
  refine ⟨gap, chars opened, ?_, hgap⟩
  rw [append_of_word? hword, hbehind, hopening]
  rfl

/-- Where a conditional starts is decided by the boundary in front of it alone. -/
theorem foldFrom_congr {other : Option Char} (h : boundary previous = boundary other)
    (glyphs : List Glyph) : foldFrom previous glyphs = foldFrom other glyphs := by
  cases glyphs with
  | nil => rfl
  | cons g tail => rw [foldFrom, foldFrom, foldHere, foldHere, h]

/-- `Quiet front` says that no conditional starts in `front`, whatever follows. -/
def Quiet (front : List Glyph) : Prop :=
  ∀ before behind previous rest, front = before ++ behind → behind ≠ [] →
    foldHere previous (behind ++ rest) = none

/-- No conditional starts at a character that is no `i` of code. -/
theorem quiet_of_forall (h : ∀ g ∈ front, g.region ≠ .code ∨ g.char ≠ 'i') : Quiet front := by
  intro before behind previous rest hfront hne
  refine Option.eq_none_iff_forall_ne_some.2 fun folded hfold => ?_
  cases behind with
  | nil => exact hne rfl
  | cons g behind =>
      obtain ⟨_, _, _, _, _, hword, -⟩ := foldHere_eq_some_iff.1 hfold
      obtain ⟨others, hothers⟩ := exists_of_word? hword
      obtain rfl : g = ⟨'i', .code⟩ := (List.cons.inj hothers).1
      rcases h ⟨'i', .code⟩ (by simp [hfront]) with hregion | hchar
      · exact hregion rfl
      · exact hchar rfl

/-- No conditional starts behind the first character of a quiet text. -/
theorem Quiet.tail {g : Glyph} (h : Quiet (g :: front)) : Quiet front :=
  fun before behind previous rest hfront =>
    h (g :: before) behind previous rest (by rw [hfront, List.cons_append])

/-- Two quiet texts, one behind the other, are one. -/
theorem Quiet.append {other : List Glyph} (h : Quiet front) (hother : Quiet other) :
    Quiet (front ++ other) := by
  intro before behind previous rest hfront hne
  rcases List.append_eq_append_iff.1 hfront with ⟨inner, rfl, rfl⟩ | ⟨inner, rfl, rfl⟩
  · exact hother inner behind previous rest rfl hne
  · cases inner with
    | nil => exact hother [] other previous rest rfl (by simpa using hne)
    | cons g inner =>
        rw [List.append_assoc]
        exact h before (g :: inner) previous (other ++ rest) rfl (by simp)

/-- Folding goes past a text in which no conditional starts. -/
theorem foldFrom_append (h : Quiet front) (previous : Option Char) (glyphs : List Glyph) :
    foldFrom previous (front ++ glyphs) =
      (foldFrom ((chars front).getLast?.or previous) glyphs).map (front ++ ·) := by
  induction front generalizing previous with
  | nil => simp
  | cons g front ih =>
      have hhere : foldHere previous (g :: (front ++ glyphs)) = none :=
        h [] (g :: front) previous glyphs rfl (by simp)
      rw [List.cons_append, foldFrom, hhere]
      dsimp only
      rw [ih h.tail, Option.map_map, chars_cons, getLast?_cons_or]
      rfl

/-- Folding leaves a balanced front text alone in which no conditional starts. -/
theorem foldAll_append (hquiet : Quiet front) (hend : boundary (chars front).getLast? = true)
    (hscan : ∀ rest, scan (chars front ++ rest) = (scan rest).map (front ++ ·))
    (glyphs : List Glyph) : foldAll (front ++ glyphs) = front ++ foldAll glyphs := by
  have hfold (glyphs : List Glyph) : fold? (front ++ glyphs) = (fold? glyphs).map (front ++ ·) := by
    have hsame : boundary (chars front).getLast? = boundary none := hend
    rw [fold?, foldFrom_append hquiet, Option.or_none, foldFrom_congr hsame, fold?]
  fun_induction foldAll glyphs with
  | case1 glyphs hnone =>
      refine foldAll_eq_self fun folded hfolded => ?_
      rw [hfold, hnone] at hfolded
      cases hfolded
  | case2 glyphs folded hsome hnone =>
      refine foldAll_eq_self fun other hother => ?_
      rw [hfold, hsome] at hother
      cases hother
      rw [chars_append, hscan, hnone]
      rfl
  | case3 glyphs folded hsome next hnext ih =>
      have hfolded : fold? (front ++ glyphs) = some (front ++ folded) := by
        rw [hfold, hsome]
        rfl
      have hfront : scan (chars (front ++ folded)) = some (front ++ next) := by
        rw [chars_append, hscan, hnext]
        rfl
      rw [foldAll_of_fold? hfolded hfront, ih]

end Front

end MiniProgram.Source
