import MiniProgram.Proofs.Bytes.Branch
import MiniProgram.Proofs.Bytes.Removal
import MiniProgram.Proofs.Bytes.Scan
import MiniProgram.Proofs.Source.Termination

/-!
# Dead code elimination at byte offsets

`eliminateBytes` is dead code elimination as a program that counts bytes: it scans a source into a
vector of regions, one for each byte, and folds and strips by cutting the source at offsets. Every
operation of it checks what it is given, and answers with a `Fault` where the offset is behind the
end or inside of a character, where a piece ends in front of its start, where an index is behind the
end of the vector, where a difference is below zero, where a block has no end, and where
declarations overlap. Each of the two loops may take one turn more than the source has characters.

Read `eliminate_never_faults` first: whatever the source, none of this happens.
-/

namespace MiniProgram.Bytes

open Source

/-- Folds constant branches until none is left, or until folding would leave a source that is not
balanced. -/
def foldLoop (source : List Char) (regions : List Region) :
    ℕ → Except Fault (List Char × List Region)
  | 0 => .error .turns
  | turns + 1 => do
    match ← foldBytes? source regions with
    | none => return (source, regions)
    | some folded =>
      match ← regions? folded with
      | none => return (source, regions)
      | some next => foldLoop folded next turns

/-- Strips unused imports until nothing changes, or until the source is not balanced any more. -/
def stripLoop (source : List Char) (regions : List Region) : ℕ → Except Fault (List Char)
  | 0 => .error .turns
  | turns + 1 => do
    let stripped ← stripBytes source regions
    if stripped = source then return source
    else
      match ← regions? stripped with
      | none => return stripped
      | some next => stripLoop stripped next turns

/-- Removes dead code from the characters of a source. -/
def eliminateBytes (source : List Char) : Except Fault (List Char) := do
  match ← regions? source with
  | none => return source
  | some regions =>
    let (folded, next) ← foldLoop source regions (source.length + 1)
    stripLoop folded next (source.length + 1)

section Loops

variable {glyphs : List Glyph} {turns : ℕ}

/-- The loop that folds does not fault or run out of turns, and ends where folding the text does. -/
theorem foldLoop_eq (hscan : scan (chars glyphs) = some glyphs) (hturns : glyphs.length < turns) :
    foldLoop (chars glyphs) (bytes glyphs) turns =
      .ok (chars (foldAll glyphs), bytes (foldAll glyphs)) := by
  fun_induction foldAll glyphs generalizing turns with
  | case1 glyphs hfold =>
      obtain ⟨turns, rfl⟩ := Nat.exists_eq_add_one_of_ne_zero (Nat.ne_zero_of_lt hturns)
      rw [foldLoop, foldBytes?_eq hscan, hfold]
      rfl
  | case2 glyphs folded hfold hnone =>
      obtain ⟨turns, rfl⟩ := Nat.exists_eq_add_one_of_ne_zero (Nat.ne_zero_of_lt hturns)
      rw [foldLoop, foldBytes?_eq hscan, hfold]
      simp only [Option.map_some, regions?_eq, hnone, bind, Except.bind]
      rfl
  | case3 glyphs folded hfold next hnext ih =>
      obtain ⟨turns, rfl⟩ := Nat.exists_eq_add_one_of_ne_zero (Nat.ne_zero_of_lt hturns)
      have hlength : next.length = folded.length := by
        rw [length_of_scan hnext, length_chars]
      have hshorter := length_lt_of_fold? hfold
      have hlater := @ih turns (scan_chars hnext) (by omega)
      rw [foldLoop, foldBytes?_eq hscan, hfold]
      simp only [Option.map_some, regions?_eq, hnext, bind, Except.bind]
      rwa [← chars_of_scan hnext]

/-- Stripping changes the characters if it changes anything, as it only cuts text out. -/
theorem chars_strip_eq_iff : chars (strip glyphs) = chars glyphs ↔ strip glyphs = glyphs := by
  refine ⟨fun hchars => (strip_sublist glyphs).eq_of_length ?_, congrArg chars⟩
  simpa [length_chars] using congrArg List.length hchars

/-- The loop that strips does not fault or run out of turns, and ends where stripping the text does.
-/
theorem stripLoop_eq (hscan : scan (chars glyphs) = some glyphs) (hturns : glyphs.length < turns) :
    stripLoop (chars glyphs) (bytes glyphs) turns = .ok (stripAll glyphs) := by
  fun_induction stripAll glyphs generalizing turns with
  | case1 glyphs hsame =>
      obtain ⟨turns, rfl⟩ := Nat.exists_eq_add_one_of_ne_zero (Nat.ne_zero_of_lt hturns)
      rw [stripLoop, stripBytes_eq hscan]
      exact if_pos (chars_strip_eq_iff.2 hsame)
  | case2 glyphs hchange hnone =>
      obtain ⟨turns, rfl⟩ := Nat.exists_eq_add_one_of_ne_zero (Nat.ne_zero_of_lt hturns)
      rw [stripLoop, stripBytes_eq hscan]
      simp only [if_neg (mt chars_strip_eq_iff.1 hchange), regions?_eq, hnone, bind, Except.bind]
      rfl
  | case3 glyphs hchange next hnext ih =>
      obtain ⟨turns, rfl⟩ := Nat.exists_eq_add_one_of_ne_zero (Nat.ne_zero_of_lt hturns)
      have hlength : next.length = (strip glyphs).length := by
        rw [length_of_scan hnext, length_chars]
      have hshorter := length_strip_lt hchange
      have hlater := @ih turns (scan_chars hnext) (by omega)
      rw [stripLoop, stripBytes_eq hscan]
      simp only [if_neg (mt chars_strip_eq_iff.1 hchange), regions?_eq, hnext, bind, Except.bind]
      rwa [← chars_of_scan hnext]

end Loops

/-- On every text the program that counts bytes answers, and its answer is that of
`eliminateChars`. -/
theorem eliminateBytes_eq (source : List Char) :
    eliminateBytes source = .ok (eliminateChars source) := by
  rw [eliminateBytes, regions?_eq]
  cases hscan : scan source with
  | none =>
      rw [eliminateChars_of_scan_eq_none hscan]
      rfl
  | some glyphs =>
      have hchars := chars_of_scan hscan
      have hscanned := scan_chars hscan
      have hlength := length_of_scan hscan
      have hfold := foldLoop_eq hscanned (Nat.lt_succ_of_le hlength.le)
      have hstrip := stripLoop_eq (scan_foldAll hscanned)
        (Nat.lt_succ_of_le ((length_foldAll_le glyphs).trans hlength.le))
      rw [hchars] at hfold
      simp only [Option.map_some, bind, Except.bind, hfold, hstrip, eliminateChars_of_scan hscan]

/-- Dead code elimination of a module source never fails at run time: no offset is out of range or
inside of a character, no piece ends in front of its start, no counter goes below zero, every block
has an end, no declaration overlaps with another one, and no loop goes on. -/
theorem eliminate_never_faults (source : String) :
    eliminateBytes source.toList = .ok (eliminate source).toList := by
  rw [eliminateBytes_eq, eliminate, String.toList_ofList]

end MiniProgram.Bytes
