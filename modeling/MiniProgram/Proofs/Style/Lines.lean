import MiniProgram.Proofs.Text.Blank
import MiniProgram.Style.Sheet

/-!
# Trimming the lines of a text

`tidy` trims the lines of a text and leaves out those that are blank. Read `tidy_append` first: it
takes a text apart between two characters that are no blanks, and makes of the blanks between them
one line feed, or leaves them alone if they are on one line.
-/

namespace MiniProgram.Style

open Text

variable {text front back gap : List Char} {c d : Char}

/-- The trimmed lines of a text that are not blank, one below the other. -/
def tidy (text : List Char) : List Char :=
  ['\n'].intercalate (solidLines text)

/-- What trimming the lines makes of the blanks between two other characters. -/
def joint (gap : List Char) : List Char :=
  if '\n' ∈ gap then ['\n'] else gap

section Lines

/-- The lines of two texts with a line feed between them stand one after the other. -/
theorem solidLines_append (front back : List Char) :
    solidLines (front ++ '\n' :: back) = solidLines front ++ solidLines back := by
  rw [solidLines, List.splitOn_append_cons_self, List.map_append, List.filter_append]
  rfl

/-- A text without a line feed is one line, or none if it is blank. -/
theorem solidLines_of_line (h : '\n' ∉ text) :
    solidLines text = [trim text].filter (· ≠ []) := by
  rw [solidLines, List.splitOn_eq_singleton h]
  rfl

/-- The last line of a text goes on with what stands behind the text. -/
theorem exists_last_line (text : List Char) :
    ∃ lines last, '\n' ∉ last ∧
      ∀ back, solidLines (text ++ back) = lines ++ solidLines (last ++ back) := by
  by_cases hmem : '\n' ∈ text
  · obtain ⟨last, front, htext, hlast⟩ := List.eq_append_cons_of_mem (List.mem_reverse.2 hmem)
    have htext : text = front.reverse ++ '\n' :: last.reverse := by
      rw [← List.reverse_reverse text, htext]
      simp
    refine ⟨solidLines front.reverse, last.reverse, by simpa using hlast, fun back => ?_⟩
    rw [htext, List.append_assoc, List.cons_append, solidLines_append]
  · exact ⟨[], text, hmem, fun back => rfl⟩

/-- The first line of a text goes on with what stands in front of the text. -/
theorem exists_first_line (text : List Char) :
    ∃ first lines, '\n' ∉ first ∧
      ∀ front, solidLines (front ++ text) = solidLines (front ++ first) ++ lines := by
  by_cases hmem : '\n' ∈ text
  · obtain ⟨first, back, htext, hfirst⟩ := List.eq_append_cons_of_mem hmem
    refine ⟨first, solidLines back, hfirst, fun front => ?_⟩
    rw [htext, ← List.append_assoc, solidLines_append]
  · exact ⟨text, [], hmem, fun front => (List.append_nil _).symm⟩

/-- Blanks in front of a text change no line. -/
theorem solidLines_blanks_append (hgap : ∀ c ∈ gap, isBlank c = true) (text : List Char) :
    solidLines (gap ++ text) = solidLines text := by
  induction gap with
  | nil => rfl
  | cons c gap ih =>
      obtain ⟨hc, hgap⟩ := List.forall_mem_cons.1 hgap
      rw [← ih hgap]
      by_cases hfeed : c = '\n'
      · rw [hfeed]
        exact solidLines_append [] (gap ++ text)
      · obtain ⟨first, lines, hfirst, hlines⟩ := exists_first_line (gap ++ text)
        have htrim : trim (c :: first) = trim first := by
          rw [← List.singleton_append, trim_blanks_append (by simpa using hc)]
        have hline : solidLines (c :: first) = solidLines first := by
          rw [solidLines_of_line (by simp [hfirst, Ne.symm hfeed]), solidLines_of_line hfirst,
            htrim]
        calc solidLines (c :: (gap ++ text))
            = solidLines (c :: first) ++ lines := hlines [c]
          _ = solidLines (gap ++ text) := by rw [hline]; exact (hlines []).symm

/-- Blanks hold no line. -/
theorem solidLines_of_blanks (hgap : ∀ c ∈ gap, isBlank c = true) : solidLines gap = [] := by
  rw [← List.append_nil gap, solidLines_blanks_append hgap]
  rfl

/-- Blanks behind a text change no line. -/
theorem solidLines_append_blanks (hgap : ∀ c ∈ gap, isBlank c = true) (text : List Char) :
    solidLines (text ++ gap) = solidLines text := by
  have hline : ∀ gap, '\n' ∉ gap → (∀ c ∈ gap, isBlank c = true) →
      solidLines (text ++ gap) = solidLines text := by
    intro gap hfeed hgap
    obtain ⟨lines, last, hlast, hlines⟩ := exists_last_line text
    have hsame : solidLines (last ++ gap) = solidLines last := by
      rw [solidLines_of_line (by simp [hlast, hfeed]), solidLines_of_line hlast,
        trim_append_blanks hgap]
    calc solidLines (text ++ gap)
        = lines ++ solidLines (last ++ []) := by rw [hlines, hsame, List.append_nil]
      _ = solidLines text := by rw [← hlines, List.append_nil]
  by_cases hmem : '\n' ∈ gap
  · obtain ⟨front, back, rfl, hfront⟩ := List.eq_append_cons_of_mem hmem
    have hback : ∀ c ∈ back, isBlank c = true := fun c hc => hgap c (by simp [hc])
    rw [← List.append_assoc, solidLines_append, solidLines_of_blanks hback, List.append_nil]
    exact hline front hfront fun c hc => hgap c (by simp [hc])
  · exact hline gap hmem hgap

end Lines

section Texts

/-- Trimming the start stops in front of what is no blank. -/
theorem trimStart_append_cons (hc : isBlank c = false) (front back : List Char) :
    trimStart (front ++ c :: back) = trimStart front ++ c :: back :=
  trimStart_append (List.cons_ne_nil c []) (by simpa using hc) front back

/-- Trimming the end takes nothing off that stands in front of a character that is no blank. -/
theorem trimEnd_append_cons (hc : isBlank c = false) (front back : List Char) :
    trimEnd (front ++ c :: back) = front ++ c :: trimEnd back := by
  have hreverse := trimStart_append_cons hc back.reverse front.reverse
  rw [trimEnd, trimEnd, List.reverse_append, List.reverse_cons, List.append_assoc,
    List.singleton_append, ← trimStart, hreverse]
  simp [trimStart]

/-- A line between two characters that are no blanks is trimmed in front of the first one and behind
the second one. -/
theorem trim_between (hc : isBlank c = false) (hd : isBlank d = false)
    (front gap back : List Char) :
    trim (front ++ c :: (gap ++ d :: back)) =
      trimStart front ++ c :: (gap ++ d :: trimEnd back) := by
  rw [trim, trimStart_append_cons hc, ← List.cons_append, ← List.append_assoc,
    trimEnd_append_cons hd, List.append_assoc, List.cons_append]

/-- Two lists that are not empty are joined with a separator between them. -/
theorem intercalate_append {sep : List Char} {front back : List (List Char)} (hfront : front ≠ [])
    (hback : back ≠ []) :
    sep.intercalate (front ++ back) = sep.intercalate front ++ sep ++ sep.intercalate back := by
  induction front with
  | nil => exact absurd rfl hfront
  | cons first front ih =>
      cases front with
      | nil => simp [List.intercalate_cons_of_ne_nil hback]
      | cons second front =>
          rw [List.cons_append, List.intercalate_cons_of_ne_nil (by simp),
            ih (List.cons_ne_nil _ _), List.intercalate_cons_cons]
          simp only [List.append_assoc]

/-- The beginning of the first text stands in front of the joined texts. -/
theorem intercalate_cons_append (sep left right : List Char) (back : List (List Char)) :
    sep.intercalate ((left ++ right) :: back) = left ++ sep.intercalate (right :: back) := by
  cases back with
  | nil => simp
  | cons next back => simp only [List.intercalate_cons_cons, List.append_assoc]

/-- A text can be taken apart in the middle of a line. -/
theorem intercalate_between (sep left right : List Char) (front back : List (List Char)) :
    sep.intercalate (front ++ (left ++ right) :: back) =
      sep.intercalate (front ++ [left]) ++ sep.intercalate (right :: back) := by
  cases front with
  | nil => simp [intercalate_cons_append]
  | cons first front =>
      rw [intercalate_append (List.cons_ne_nil _ _) (List.cons_ne_nil _ _),
        intercalate_append (List.cons_ne_nil _ _) (List.cons_ne_nil _ _), intercalate_cons_append,
        List.intercalate_singleton]
      simp only [List.append_assoc]

end Texts

section Gaps

variable (hc : isBlank c = false) (hd : isBlank d = false)

/-- A character that is no blank is no line feed. -/
theorem feed_ne (hc : isBlank c = false) : '\n' ≠ c := by
  rintro rfl
  exact absurd hc (by decide)

include hc in
/-- The last line of a text that ends with a character that is no blank. -/
theorem exists_solidLines_concat (front : List Char) :
    ∃ lines last, '\n' ∉ last ∧ solidLines (front ++ [c]) = lines ++ [trimStart last ++ [c]] ∧
      ∀ back, solidLines (front ++ c :: back) = lines ++ solidLines (last ++ c :: back) := by
  obtain ⟨lines, last, hlast, hlines⟩ := exists_last_line front
  have htrim : trim (last ++ [c]) = trimStart last ++ [c] := by
    rw [trim, trimStart_append_cons hc]
    exact trimEnd_append_cons hc _ []
  refine ⟨lines, last, hlast, ?_, fun back => hlines (c :: back)⟩
  rw [hlines, solidLines_of_line (by simp [hlast, feed_ne hc]), htrim]
  simp

include hd in
/-- The first line of a text that starts with a character that is no blank. -/
theorem exists_solidLines_cons (back : List Char) :
    ∃ first lines, '\n' ∉ first ∧ solidLines (d :: back) = (d :: trimEnd first) :: lines ∧
      ∀ front, solidLines (front ++ d :: back) = solidLines (front ++ d :: first) ++ lines := by
  obtain ⟨first, lines, hfirst, hlines⟩ := exists_first_line back
  have hfront : ∀ front, solidLines (front ++ d :: back) =
      solidLines (front ++ d :: first) ++ lines := by
    intro front
    have hsame := hlines (front ++ [d])
    rwa [List.append_assoc, List.append_assoc] at hsame
  have htrim : trim (d :: first) = d :: trimEnd first := by
    rw [trim, show trimStart (d :: first) = d :: first from trimStart_append_cons hd [] first]
    exact trimEnd_append_cons hd [] first
  refine ⟨first, lines, hfirst, ?_, hfront⟩
  rw [← List.nil_append (d :: back), hfront, List.nil_append,
    solidLines_of_line (by simp [hfirst, feed_ne hd]), htrim]
  simp

include hc hd in
/-- Between two characters that are no blanks a text can be taken apart. -/
theorem tidy_append (hgap : ∀ b ∈ gap, isBlank b = true) (front back : List Char) :
    tidy (front ++ c :: (gap ++ d :: back)) =
      tidy (front ++ [c]) ++ joint gap ++ tidy (d :: back) := by
  obtain ⟨lines, last, hlast, hleft, hlines⟩ := exists_solidLines_concat hc front
  obtain ⟨first, others, hfirst, hright, hothers⟩ := exists_solidLines_cons hd back
  unfold joint
  split
  · next hmem =>
      obtain ⟨a, b, rfl, -⟩ := List.eq_append_cons_of_mem hmem
      have ha : ∀ c ∈ a, isBlank c = true := fun c hc => hgap c (by simp [hc])
      have hb : ∀ c ∈ b, isBlank c = true := fun c hc => hgap c (by simp [hc])
      have hsplit : front ++ c :: (a ++ '\n' :: b ++ d :: back) =
          front ++ [c] ++ a ++ '\n' :: (b ++ d :: back) := by simp
      rw [tidy, hsplit, solidLines_append, solidLines_append_blanks ha, solidLines_blanks_append hb,
        intercalate_append (by simp [hleft]) (by simp [hright])]
      rfl
  · next hmem =>
      -- the gap is in the middle of a line, of which each of both texts has a part
      have hline : solidLines (last ++ c :: (gap ++ d :: first)) =
          [trimStart last ++ [c] ++ gap ++ d :: trimEnd first] := by
        rw [solidLines_of_line (by simp [hlast, hfirst, hmem, feed_ne hc, feed_ne hd]),
          trim_between hc hd]
        simp
      have hwhole : solidLines (front ++ c :: (gap ++ d :: back)) =
          lines ++ (trimStart last ++ [c] ++ gap ++ d :: trimEnd first) :: others := by
        have hsplit := hothers (last ++ c :: gap)
        rw [List.append_assoc, List.append_assoc, List.cons_append, List.cons_append,
          hline] at hsplit
        rw [hlines, hsplit, List.singleton_append]
      have hend := intercalate_between ['\n'] (trimStart last ++ [c]) gap lines []
      rw [List.intercalate_singleton] at hend
      rw [tidy, tidy, tidy, hwhole, hleft, hright, intercalate_between, hend]

/-- The blanks behind the last character that is no blank do not matter. -/
theorem tidy_append_blanks (hgap : ∀ c ∈ gap, isBlank c = true) (text : List Char) :
    tidy (text ++ gap) = tidy text := by
  rw [tidy, solidLines_append_blanks hgap]
  rfl

/-- Blanks in front of a text are trimmed. -/
theorem tidy_blanks_append (hgap : ∀ c ∈ gap, isBlank c = true) (text : List Char) :
    tidy (gap ++ text) = tidy text := by
  rw [tidy, solidLines_blanks_append hgap]
  rfl

end Gaps

section Ends

/-- A text is blank, or it starts with blanks and another character. -/
theorem blank_or_exists_cons (text : List Char) :
    (∀ c ∈ text, isBlank c = true) ∨
      ∃ gap c back, (∀ b ∈ gap, isBlank b = true) ∧ isBlank c = false ∧
        text = gap ++ c :: back := by
  induction text with
  | nil => simp
  | cons d text ih =>
      cases hd : isBlank d with
      | false => exact .inr ⟨[], d, text, by simp, hd, rfl⟩
      | true =>
          rcases ih with hblank | ⟨gap, c, back, hgap, hc, rfl⟩
          · exact .inl (List.forall_mem_cons.2 ⟨hd, hblank⟩)
          · exact .inr ⟨d :: gap, c, back, List.forall_mem_cons.2 ⟨hd, hgap⟩, hc, rfl⟩

/-- Trimmed lines do not start with a blank. -/
theorem isBlank_head?_tidy (text : List Char) : ∀ c ∈ (tidy text).head?, isBlank c = false := by
  rcases blank_or_exists_cons text with hblank | ⟨gap, d, back, hgap, hd, rfl⟩
  · rw [tidy, solidLines_of_blanks hblank]
    simp
  · obtain ⟨first, lines, -, hlines, -⟩ := exists_solidLines_cons hd back
    rw [tidy, solidLines_blanks_append hgap, hlines,
      show d :: trimEnd first = [d] ++ trimEnd first from rfl, intercalate_cons_append]
    simpa using hd

/-- A trimmed text ends with no blank. -/
theorem isBlank_getLast?_tidy (text : List Char) :
    ∀ c ∈ (tidy text).getLast?, isBlank c = false := by
  rcases blank_or_exists_cons text.reverse with hblank | ⟨gap, d, front, hgap, hd, htext⟩
  · rw [tidy, solidLines_of_blanks (by simpa using hblank)]
    simp
  · have htext : text = front.reverse ++ [d] ++ gap.reverse := by
      rw [← List.reverse_reverse text, htext]
      simp
    obtain ⟨lines, last, -, hlines, -⟩ := exists_solidLines_concat hd front.reverse
    have hend := intercalate_between ['\n'] (trimStart last) [d] lines []
    rw [tidy, htext, solidLines_append_blanks (by simpa using hgap), hlines, hend]
    simpa using hd

end Ends

end MiniProgram.Style
