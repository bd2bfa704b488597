import Mathlib.Logic.Function.Iterate
import MiniProgram.Proofs.Source.Preservation

/-!
# How elimination ends

Elimination is two repetitions, one behind the other, and `turn` is a single turn of them. `Turns`
lists all that a turn can do: a fold cuts text out of a conditional, a strip cuts declarations out,
and each of them makes the text shorter, or else the turn moves on to what comes next.

Read `eliminate_ends` first: from every source the turns come to an end, after at most two more of
them than the source has characters, and what is left is text of the source in its order.
-/

namespace MiniProgram.Source

section Cutting

/-- `Unwraps before after` says how a fold cuts a conditional out of a text. Of a conditional
without an else branch whose block does not run the braces of the block stay, else the block stays
or what follows `else`. Nothing is put in. -/
inductive Unwraps : List Char → List Char → Prop where
  | braces (front header inner behind : List Char) :
      Unwraps (front ++ 'i' :: 'f' :: (header ++ '{' :: (inner ++ '}' :: behind)))
        (front ++ '{' :: '}' :: behind)
  | block (front header inner gap behind : List Char) :
      Unwraps (front ++ 'i' :: 'f' :: (header ++ '{' :: (inner ++ '}' :: (gap ++ behind))))
        (front ++ '{' :: (inner ++ '}' :: behind))
  | alternative (front header inner gap behind : List Char) :
      Unwraps (front ++ 'i' :: 'f' :: (header ++ '{' :: (inner ++ '}' :: (gap ++ behind))))
        (front ++ behind)

variable {glyphs folded : List Glyph}

/-- A text in front of a conditional stays as it is. -/
theorem Unwraps.append_left {before after : List Char} (h : Unwraps before after)
    (front : List Char) : Unwraps (front ++ before) (front ++ after) := by
  cases h with
  | braces first header inner behind =>
      simpa using Unwraps.braces (front ++ first) header inner behind
  | block first header inner gap behind =>
      simpa using Unwraps.block (front ++ first) header inner gap behind
  | alternative first header inner gap behind =>
      simpa using Unwraps.alternative (front ++ first) header inner gap behind

/-- Folding a conditional only cuts text out of it. -/
theorem unwraps_of_foldHere {previous : Option Char} (h : foldHere previous glyphs = some folded) :
    Unwraps (chars glyphs) (chars folded) := by
  obtain ⟨behind, value, opened, block, rest, hword, -, hcondition, hblock, hbranch⟩ :=
    foldHere_eq_some_iff.1 h
  obtain ⟨header, hheader⟩ := suffix_of_condition? hcondition
  obtain ⟨inner, hinner⟩ := exists_of_block? hblock
  have hall : chars glyphs =
      'i' :: 'f' :: (chars header ++ '{' :: (inner ++ '}' :: chars rest)) := by
    rw [append_of_word? hword, ← hheader, append_of_block? hblock, chars_append, chars_append,
      hinner]
    simp
  rw [hall]
  cases branch_eq_some_iff.1 hbranch with
  | dropped => exact .braces [] (chars header) inner (chars rest)
  | other hsome =>
      obtain ⟨gap, hgap, -⟩ := exists_of_alternative? hsome
      rw [hgap]
      exact .alternative [] (chars header) inner gap (chars folded)
  | kept =>
      have hleft : chars (block ++ rest) = '{' :: (inner ++ '}' :: chars rest) := by
        rw [chars_append, hinner]
        simp
      rw [hleft]
      exact .block [] (chars header) inner [] (chars rest)
  | @chosen alternative other tail hsome hother =>
      obtain ⟨gap, hgap, -⟩ := exists_of_alternative? hsome
      have hrest : chars rest = gap ++ chars other ++ chars tail := by
        rw [hgap, append_of_block? hother, chars_append, List.append_assoc]
      have hleft : chars (block ++ tail) = '{' :: (inner ++ '}' :: chars tail) := by
        rw [chars_append, hinner]
        simp
      rw [hrest, hleft]
      exact .block [] (chars header) inner (gap ++ chars other) (chars tail)

/-- Folding only cuts text out of a conditional. -/
theorem unwraps_of_fold? (h : fold? glyphs = some folded) :
    Unwraps (chars glyphs) (chars folded) := by
  obtain ⟨front, rest, here, tail, rfl, rfl, hhere⟩ := exists_of_foldFrom h
  rw [chars_append, chars_append]
  exact (unwraps_of_foldHere hhere).append_left (chars front)

end Cutting

section Turning

/-- How far elimination has come: it folds a classified text, it strips one, or it has finished. -/
inductive Progress where
  | folding (glyphs : List Glyph)
  | stripping (glyphs : List Glyph)
  | finished (text : List Char)

namespace Progress

/-- The text at hand. -/
def text : Progress → List Char
  | .folding glyphs | .stripping glyphs => chars glyphs
  | .finished text => text

/-- Where elimination of a text starts. A text that is not balanced is finished at once. -/
def start (text : List Char) : Progress :=
  match scan text with
  | none => .finished text
  | some glyphs => .folding glyphs

/-- One turn. A fold that would leave an unbalanced text is not taken, and a strip that does is the
last one. -/
def turn : Progress → Progress
  | .folding glyphs =>
    match fold? glyphs with
    | none => .stripping glyphs
    | some folded =>
      match scan (chars folded) with
      | none => .stripping glyphs
      | some next => .folding next
  | .stripping glyphs =>
    if strip glyphs = glyphs then .finished (chars glyphs)
    else
      match scan (chars (strip glyphs)) with
      | none => .finished (chars (strip glyphs))
      | some next => .stripping next
  | .finished text => .finished text

/-- What elimination leaves in the end. -/
def result : Progress → List Char
  | .folding glyphs => stripAll (foldAll glyphs)
  | .stripping glyphs => stripAll glyphs
  | .finished text => text

/-- How many turns are left at most. -/
def remaining : Progress → Nat
  | .folding glyphs => glyphs.length + 2
  | .stripping glyphs => glyphs.length + 1
  | .finished _ => 0

end Progress

/-- `Turns before after` lists all that a turn can do. The two repetitions cut text out, and what
they leave is shorter. Folding ends and stripping begins with the same text. Stripping ends with the
text at hand, or with a shorter one that is not balanced. -/
inductive Turns : Progress → Progress → Prop where
  | fold {glyphs next : List Glyph} : Unwraps (chars glyphs) (chars next) →
      next.length < glyphs.length → Turns (.folding glyphs) (.folding next)
  | proceed (glyphs : List Glyph) : Turns (.folding glyphs) (.stripping glyphs)
  | strip {glyphs next : List Glyph} : (chars next).Sublist (chars glyphs) →
      next.length < glyphs.length → Turns (.stripping glyphs) (.stripping next)
  | settle (glyphs : List Glyph) : Turns (.stripping glyphs) (.finished (chars glyphs))
  | spoil {glyphs : List Glyph} {text : List Char} : text.Sublist (chars glyphs) →
      text.length < glyphs.length → scan text = none → Turns (.stripping glyphs) (.finished text)

namespace Progress

variable {progress next : Progress} {glyphs : List Glyph}

/-- Every turn is one of those that are listed, until elimination has finished. -/
theorem turns_turn (progress : Progress) :
    (∃ text, progress = .finished text) ∨ Turns progress progress.turn := by
  cases progress with
  | finished text => exact .inl ⟨text, rfl⟩
  | folding glyphs =>
      right
      rw [turn]
      split
      · exact .proceed glyphs
      · next folded hfold =>
          split
          · exact .proceed glyphs
          · next next hnext =>
              refine .fold ?_ ?_
              · rw [chars_of_scan hnext]
                exact unwraps_of_fold? hfold
              · rw [length_of_scan hnext, length_chars]
                exact length_lt_of_fold? hfold
  | stripping glyphs =>
      right
      rw [turn]
      split
      · exact .settle glyphs
      · next hchange =>
          have hsublist : (chars (strip glyphs)).Sublist (chars glyphs) :=
            (strip_sublist glyphs).map Glyph.char
          have hshorter : (chars (strip glyphs)).length < glyphs.length := by
            rw [length_chars]
            exact length_strip_lt hchange
          split
          · next hnone => exact .spoil hsublist hshorter hnone
          · next next hnext =>
              refine .strip ?_ ?_
              · rwa [chars_of_scan hnext]
              · rwa [length_of_scan hnext]

/-- A turn uses up one of the turns that are left. -/
theorem remaining_lt_of_turns (h : Turns progress next) : next.remaining < progress.remaining := by
  cases h with
  | fold _ hshorter | strip _ hshorter => simpa [remaining] using hshorter
  | proceed | settle | spoil => simp [remaining]

/-- Stripping ends with a text that is not balanced. -/
theorem stripAll_of_scan_eq_none (hchange : strip glyphs ≠ glyphs)
    (hnone : scan (chars (strip glyphs)) = none) : stripAll glyphs = chars (strip glyphs) := by
  rw [stripAll, dif_neg hchange]
  split
  · rfl
  · next found hfound => rw [hnone] at hfound; cases hfound

/-- A turn does not change what elimination leaves in the end. -/
theorem result_turn (progress : Progress) : progress.turn.result = progress.result := by
  cases progress with
  | finished text => rfl
  | folding glyphs =>
      rw [turn]
      split
      · next hnone =>
          have hsame : foldAll glyphs = glyphs := foldAll_eq_self fun folded hfold => by
            rw [hnone] at hfold; cases hfold
          simp only [result, hsame]
      · next folded hfold =>
          split
          · next hnone =>
              have hsame : foldAll glyphs = glyphs := foldAll_eq_self fun other hother => by
                rwa [← Option.some.inj (hfold.symm.trans hother)]
              simp only [result, hsame]
          · next next hnext => simp only [result, foldAll_of_fold? hfold hnext]
  | stripping glyphs =>
      rw [turn]
      split
      · next hsame => exact (stripAll_eq_chars hsame).symm
      · next hchange =>
          split
          · next hnone => exact (stripAll_of_scan_eq_none hchange hnone).symm
          · next next hnext => exact (stripAll_of_scan hchange hnext).symm

/-- A run started on a text results in what elimination makes of the text. -/
theorem result_start (text : List Char) : (start text).result = eliminateChars text := by
  cases h : scan text with
  | none => rw [start, h, eliminateChars_of_scan_eq_none h]; rfl
  | some glyphs => rw [start, h, eliminateChars_of_scan h]; rfl

/-- A run takes no more turns than the text has characters, and two. -/
theorem remaining_start_le (text : List Char) : (start text).remaining ≤ text.length + 2 := by
  cases h : scan text with
  | none => simp [start, h, remaining]
  | some glyphs =>
      have hlength := length_of_scan h
      simp [start, h, remaining, hlength]

/-- The turns come to an end, and each of them is one of those that are listed. -/
theorem exists_turns (progress : Progress) :
    ∃ turns ≤ progress.remaining, turn^[turns] progress = .finished progress.result ∧
      ∀ n < turns, Turns (turn^[n] progress) (turn^[n + 1] progress) := by
  induction hleft : progress.remaining using Nat.strong_induction_on generalizing progress with
  | _ left ih =>
      rcases turns_turn progress with ⟨text, rfl⟩ | hturn
      · exact ⟨0, Nat.zero_le _, rfl, fun n hn => absurd hn (Nat.not_lt_zero n)⟩
      · have hlt := remaining_lt_of_turns hturn
        obtain ⟨turns, hturns, hend, hall⟩ := ih _ (hleft ▸ hlt) progress.turn rfl
        refine ⟨turns + 1, by omega, ?_, fun n hn => ?_⟩
        · rw [Function.iterate_succ_apply, hend, result_turn]
        · cases n with
          | zero => exact hturn
          | succ n =>
              rw [Function.iterate_succ_apply, Function.iterate_succ_apply turn (n + 1)]
              exact hall n (Nat.lt_of_succ_lt_succ hn)

end Progress

end Turning

/-- Elimination of any source ends: after at most two more turns than the source has characters it
has finished with what `eliminate` answers. Each turn on the way cuts text out and leaves a shorter
one, or moves on with the text at hand. So what is left are characters of the source in their
order. -/
theorem eliminate_ends (source : String) :
    ∃ turns ≤ source.length + 2,
      Progress.turn^[turns] (.start source.toList) = .finished (eliminate source).toList ∧
      (∀ n < turns, Turns (Progress.turn^[n] (.start source.toList))
        (Progress.turn^[n + 1] (.start source.toList))) ∧
      (eliminate source).toList.Sublist source.toList := by
  obtain ⟨turns, hturns, hend, hall⟩ := Progress.exists_turns (.start source.toList)
  have hbound := Progress.remaining_start_le source.toList
  rw [String.length_toList] at hbound
  refine ⟨turns, hturns.trans hbound, ?_, hall, ?_⟩
  · rw [hend, Progress.result_start, toList_eliminate]
  · rw [toList_eliminate]
    exact eliminateChars_sublist _

end MiniProgram.Source
