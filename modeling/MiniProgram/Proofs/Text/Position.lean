import Mathlib.Data.List.Induction
import Mathlib.Data.Nat.Notation

/-!
# Positions in a text that is cut

A position is a line and a column, both counted from zero. Columns may count characters or the units
of an encoding, where `width` is the number of units of a character. A text has at most one
character at a position (`charAt_position`).

Where text is cut out, what is kept moves. Read `position_whole_eq_iff` first: a character keeps its
position exactly when no line feed is cut out in front of it, and nothing is on its line.
-/

namespace MiniProgram.Text

/-- The position behind a character. -/
def advance (width : Char → ℕ) (here : ℕ × ℕ) (c : Char) : ℕ × ℕ :=
  if c = '\n' then (here.1 + 1, 0) else (here.1, here.2 + width c)

/-- The position behind a text. -/
def position (width : Char → ℕ) (front : List Char) : ℕ × ℕ :=
  front.foldl (advance width) (0, 0)

/-- `charFrom width goal here text` is the character at position `goal` of a text that starts at
position `here`. -/
def charFrom (width : Char → ℕ) (goal here : ℕ × ℕ) : List Char → Option Char
  | [] => none
  | c :: rest => if here = goal then some c else charFrom width goal (advance width here c) rest

/-- The character at a position of a text. -/
def charAt (width : Char → ℕ) (text : List Char) (goal : ℕ × ℕ) : Option Char :=
  charFrom width goal (0, 0) text

section Positions

variable {width : Char → ℕ} {here goal : ℕ × ℕ} {front rest : List Char} {c : Char}

/-- The position behind one character more is one step on. -/
theorem position_append_singleton (width : Char → ℕ) (front : List Char) (c : Char) :
    position width (front ++ [c]) = advance width (position width front) c := by
  rw [position, List.foldl_append]
  rfl

/-- A position in front of another one in the order of a text. -/
def Precedes (a b : ℕ × ℕ) : Prop :=
  a.1 < b.1 ∨ a.1 = b.1 ∧ a.2 < b.2

/-- The order of positions is transitive. -/
theorem Precedes.trans {a b d : ℕ × ℕ} (h : Precedes a b) (h' : Precedes b d) : Precedes a d := by
  unfold Precedes at *
  omega

/-- No position is in front of itself. -/
theorem Precedes.ne {a b : ℕ × ℕ} (h : Precedes a b) : a ≠ b := by
  rintro rfl
  unfold Precedes at h
  omega

/-- A character that takes up room moves the position on. -/
theorem precedes_advance (hwidth : ∀ c, 0 < width c) (here : ℕ × ℕ) (c : Char) :
    Precedes here (advance width here c) := by
  have hc := hwidth c
  unfold advance Precedes
  split <;> omega

/-- Each character moves the position on. -/
theorem precedes_foldl (hwidth : ∀ c, 0 < width c) (hne : front ≠ []) (here : ℕ × ℕ) :
    Precedes here (front.foldl (advance width) here) := by
  induction front generalizing here with
  | nil => exact absurd rfl hne
  | cons c front ih =>
      have hstep := precedes_advance hwidth here c
      cases front with
      | nil => exact hstep
      | cons d front => exact hstep.trans (ih (by simp) _)

/-- The character at the position behind a text is the next one. -/
theorem charFrom_append (hwidth : ∀ c, 0 < width c)
    (hgoal : front.foldl (advance width) here = goal) :
    charFrom width goal here (front ++ c :: rest) = some c := by
  induction front generalizing here with
  | nil => exact if_pos hgoal
  | cons d front ih =>
      have hne : here ≠ goal := hgoal ▸ (precedes_foldl hwidth (by simp) here).ne
      rw [List.cons_append, charFrom, if_neg hne]
      exact ih hgoal

/-- A character is found at the position behind the text in front of it. -/
theorem charAt_position (hwidth : ∀ c, 0 < width c) (front rest : List Char) (c : Char) :
    charAt width (front ++ c :: rest) (position width front) = some c :=
  charFrom_append hwidth rfl

/-- What is found at a position has the text behind which the position is in front of it. -/
theorem exists_of_charFrom {text : List Char} (h : charFrom width goal here text = some c) :
    ∃ front rest, text = front ++ c :: rest ∧ front.foldl (advance width) here = goal := by
  induction text generalizing here with
  | nil => cases h
  | cons d text ih =>
      rw [charFrom] at h
      split at h
      · next hgoal =>
          cases h
          exact ⟨[], text, rfl, hgoal⟩
      · obtain ⟨front, rest, rfl, hgoal⟩ := ih h
        exact ⟨d :: front, rest, rfl, hgoal⟩

/-- A character at a position stands behind a text that ends there. -/
theorem exists_of_charAt {text : List Char} (h : charAt width text goal = some c) :
    ∃ front rest, text = front ++ c :: rest ∧ position width front = goal :=
  exists_of_charFrom h

end Positions

/-- The characters of a text, of which some are kept and the others cut out. -/
abbrev Marks :=
  List (Char × Bool)

/-- The text before anything is cut out. -/
def Marks.whole (marks : Marks) : List Char :=
  marks.map Prod.fst

/-- What is kept of a text. -/
def Marks.kept (marks : Marks) : List Char :=
  (marks.filter Prod.snd).map Prod.fst

/-- `marks.Intact` says that no line feed is cut out, and nothing behind the last one. -/
def Marks.Intact (marks : Marks) : Prop :=
  (∀ mark ∈ marks, mark.1 = '\n' → mark.2 = true) ∧
    ∀ mark ∈ marks.reverse.takeWhile (·.1 ≠ '\n'), mark.2 = true

namespace Marks

variable {width : Char → ℕ} {marks : Marks} {here there : ℕ × ℕ} {c : Char}

/-- The whole of two texts is put together of the whole of each. -/
theorem whole_append (marks others : Marks) :
    whole (marks ++ others) = whole marks ++ whole others :=
  List.map_append

/-- What is kept of two texts is put together of what is kept of each. -/
theorem kept_append (marks others : Marks) :
    kept (marks ++ others) = kept marks ++ kept others := by
  rw [kept, List.filter_append, List.map_append]
  rfl

/-- Text is cut out of another one exactly when it is a sublist. -/
theorem exists_iff_sublist {text whole : List Char} :
    (∃ marks : Marks, marks.whole = whole ∧ marks.kept = text) ↔ text.Sublist whole := by
  constructor
  · rintro ⟨marks, rfl, rfl⟩
    exact List.filter_sublist.map Prod.fst
  · intro h
    induction h with
    | slnil => exact ⟨[], rfl, rfl⟩
    | cons c _ ih =>
        obtain ⟨marks, rfl, rfl⟩ := ih
        exact ⟨(c, false) :: marks, rfl, rfl⟩
    | cons_cons c _ ih =>
        obtain ⟨marks, rfl, rfl⟩ := ih
        exact ⟨(c, true) :: marks, rfl, rfl⟩

/-- A character that is kept has its place among those of the whole text. -/
theorem exists_of_kept_eq_append_cons {marks : Marks} {front rest : List Char} {c : Char}
    (h : marks.kept = front ++ c :: rest) :
    ∃ before behind : Marks, marks = before ++ (c, true) :: behind ∧ before.kept = front := by
  induction marks generalizing front with
  | nil => cases front <;> cases h
  | cons mark marks ih =>
      obtain ⟨d, isKept⟩ := mark
      cases isKept with
      | false =>
          obtain ⟨before, behind, rfl, hbefore⟩ := ih h
          exact ⟨(d, false) :: before, behind, rfl, hbefore⟩
      | true =>
          cases front with
          | nil =>
              obtain ⟨rfl, -⟩ := List.cons.inj h
              exact ⟨[], marks, rfl, rfl⟩
          | cons e front =>
              obtain ⟨rfl, htail⟩ := List.cons.inj h
              obtain ⟨before, behind, rfl, hbefore⟩ := ih htail
              exact ⟨(d, true) :: before, behind, rfl, congrArg (d :: ·) hbefore⟩

/-- `Trails marks here there` compares the position `here` behind what is kept with the position
`there` behind the whole text. It is no later, on the same line unless a line feed is cut out, and
then in the same column unless something on the line is. -/
structure Trails (marks : Marks) (here there : ℕ × ℕ) : Prop where
  line_le : here.1 ≤ there.1
  line_eq_iff : here.1 = there.1 ↔ ∀ mark ∈ marks, mark.1 = '\n' → mark.2 = true
  column_le : here.1 = there.1 → here.2 ≤ there.2
  column_eq_iff : here.1 = there.1 →
    (here.2 = there.2 ↔ ∀ mark ∈ marks.reverse.takeWhile (·.1 ≠ '\n'), mark.2 = true)

/-- Nothing stands on a line that starts. -/
theorem takeWhile_append_lineFeed (marks : Marks) (isKept : Bool) :
    (marks ++ [('\n', isKept)]).reverse.takeWhile (·.1 ≠ '\n') = [] := by
  simp

/-- Any other character stands on the line in front of it. -/
theorem takeWhile_append_of_ne (hc : c ≠ '\n') (marks : Marks) (isKept : Bool) :
    (marks ++ [(c, isKept)]).reverse.takeWhile (·.1 ≠ '\n') =
      (c, isKept) :: marks.reverse.takeWhile (·.1 ≠ '\n') := by
  simp [hc]

/-- Behind a line feed that is kept both positions start a line. -/
theorem Trails.keep_lineFeed (h : Trails marks here there) :
    Trails (marks ++ [('\n', true)]) (here.1 + 1, 0) (there.1 + 1, 0) where
  line_le := Nat.succ_le_succ h.line_le
  line_eq_iff := by
    rw [Nat.add_right_cancel_iff, h.line_eq_iff, List.forall_mem_append]
    exact ⟨fun hmarks => ⟨hmarks, by simp⟩, And.left⟩
  column_le _ := Nat.le_refl 0
  column_eq_iff _ := by
    rw [takeWhile_append_lineFeed]
    exact iff_of_true rfl (by simp)

/-- A line feed that is cut out moves on the position behind the whole text alone. -/
theorem Trails.cut_lineFeed (h : Trails marks here there) :
    Trails (marks ++ [('\n', false)]) here (there.1 + 1, 0) :=
  have hne : here.1 ≠ there.1 + 1 := Nat.ne_of_lt (Nat.lt_succ_of_le h.line_le)
  { line_le := Nat.le_succ_of_le h.line_le
    line_eq_iff := iff_of_false hne fun hmarks =>
      absurd (hmarks ('\n', false) (by simp) rfl) (by decide)
    column_le := fun hsame => absurd hsame hne
    column_eq_iff := fun hsame => absurd hsame hne }

/-- A character that is no line feed does not change whether the lines are the same. -/
theorem Trails.line_eq_append_iff (h : Trails marks here there) (hc : c ≠ '\n') (isKept : Bool) :
    here.1 = there.1 ↔ ∀ mark ∈ marks ++ [(c, isKept)], mark.1 = '\n' → mark.2 = true := by
  rw [h.line_eq_iff, List.forall_mem_append]
  exact ⟨fun hmarks => ⟨hmarks, by simp [hc]⟩, And.left⟩

/-- A character that is kept moves both positions on. -/
theorem Trails.keep (h : Trails marks here there) (hc : c ≠ '\n') (units : ℕ) :
    Trails (marks ++ [(c, true)]) (here.1, here.2 + units) (there.1, there.2 + units) where
  line_le := h.line_le
  line_eq_iff := h.line_eq_append_iff hc true
  column_le hsame := Nat.add_le_add_right (h.column_le hsame) units
  column_eq_iff hsame := by
    rw [Nat.add_right_cancel_iff, h.column_eq_iff hsame, takeWhile_append_of_ne hc,
      List.forall_mem_cons]
    exact ⟨fun hmarks => ⟨rfl, hmarks⟩, And.right⟩

/-- A character that is cut out moves on the position behind the whole text alone. -/
theorem Trails.cut (h : Trails marks here there) (hc : c ≠ '\n') {units : ℕ} (hunits : 0 < units) :
    Trails (marks ++ [(c, false)]) here (there.1, there.2 + units) where
  line_le := h.line_le
  line_eq_iff := h.line_eq_append_iff hc false
  column_le hsame := Nat.le_add_right_of_le (h.column_le hsame)
  column_eq_iff hsame := by
    rw [takeWhile_append_of_ne hc, List.forall_mem_cons]
    have hle := h.column_le hsame
    exact iff_of_false (by dsimp only; omega) fun hmarks => Bool.false_ne_true hmarks.1

/-- Where what is kept stands, compared with where it stood. -/
theorem trails_position (hwidth : ∀ c, 0 < width c) (marks : Marks) :
    Trails marks (position width marks.kept) (position width marks.whole) := by
  -- the text grows at its end, where a line feed or one more character of the line is added
  induction marks using List.reverseRecOn with
  | nil =>
      exact ⟨Nat.le_refl 0, iff_of_true rfl (by simp), fun _ => Nat.le_refl 0,
        fun _ => iff_of_true rfl (by simp)⟩
  | append_singleton marks mark ih =>
      obtain ⟨c, isKept⟩ := mark
      rw [kept_append, whole_append, show whole [(c, isKept)] = [c] from rfl,
        position_append_singleton]
      cases isKept with
      | false =>
          rw [show kept [(c, false)] = [] from rfl, List.append_nil, advance]
          split
          · next hc =>
              subst hc
              exact ih.cut_lineFeed
          · next hc => exact ih.cut hc (hwidth c)
      | true =>
          rw [show kept [(c, true)] = [c] from rfl, position_append_singleton, advance, advance]
          split
          · next hc =>
              subst hc
              exact ih.keep_lineFeed
          · next hc => exact ih.keep hc (width c)

/-- Text keeps its position exactly when it is intact in front. -/
theorem position_whole_eq_iff (hwidth : ∀ c, 0 < width c) (marks : Marks) :
    position width marks.whole = position width marks.kept ↔ marks.Intact := by
  have htrails := trails_position hwidth marks
  rw [eq_comm, Prod.ext_iff, Intact, ← htrails.line_eq_iff]
  exact and_congr_right htrails.column_eq_iff

/-- The character at a position of what is kept has that position in the whole text exactly when the
text in front of it is intact. -/
theorem exists_of_charAt_kept (hwidth : ∀ c, 0 < width c) {marks : Marks} {goal : ℕ × ℕ} {c : Char}
    (h : charAt width marks.kept goal = some c) :
    ∃ before behind : Marks, marks = before ++ (c, true) :: behind ∧
      (position width before.whole = goal ↔ before.Intact) ∧
      (before.Intact → charAt width marks.whole goal = some c) := by
  obtain ⟨front, rest, hsplit, rfl⟩ := exists_of_charAt h
  obtain ⟨before, behind, rfl, rfl⟩ := exists_of_kept_eq_append_cons hsplit
  have hiff := position_whole_eq_iff hwidth before
  refine ⟨before, behind, rfl, hiff, fun hintact => ?_⟩
  rw [← hiff.2 hintact, whole_append]
  exact charAt_position hwidth _ _ _

end Marks

end MiniProgram.Text
