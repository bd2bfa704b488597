import MiniProgram.Proofs.Text.Blank

/-!
# Marks of two characters

Where a mark of two characters stands in a text. It is looked for from place to place
(`pair_infix_cons_iff`), and it does not reach over a character that is not one of its own
(`pair_infix_append_cons_iff`). So blanks at the ends of a text do not matter, and a mark stands in
a text of several lines exactly when it stands in one of them.
-/

namespace MiniProgram.Text

variable {a b c : Char} {text front back gap : List Char}

/-- A mark stands at the front of a text if its two characters come first. -/
theorem pair_prefix_cons_iff : [a, b] <+: c :: text ↔ c = a ∧ text.head? = some b := by
  cases text <;> simp [List.cons_prefix_cons, eq_comm]

/-- Whether a mark stands in a text is decided at its first character, or behind it. -/
theorem pair_infix_cons_iff :
    [a, b] <:+: c :: text ↔ (c = a ∧ text.head? = some b) ∨ [a, b] <:+: text := by
  rw [List.infix_cons_iff, pair_prefix_cons_iff]

/-- A mark does not reach over another character. -/
theorem pair_infix_append_cons_iff (ha : c ≠ a) (hb : c ≠ b) (front back : List Char) :
    [a, b] <:+: front ++ c :: back ↔ [a, b] <:+: front ∨ [a, b] <:+: back := by
  induction front with
  | nil => simp [pair_infix_cons_iff, ha]
  | cons d front ih =>
      have hhead : (front ++ c :: back).head? = some b ↔ front.head? = some b := by
        cases front with
        | nil => simp [hb]
        | cons e front => rfl
      rw [List.cons_append, pair_infix_cons_iff, pair_infix_cons_iff, hhead, ih, or_assoc]

section Blanks

/-- A mark whose first character is no blank does not start in blanks. -/
theorem pair_infix_blanks_append (ha : isBlank a = false) (hgap : ∀ c ∈ gap, isBlank c = true)
    (text : List Char) : [a, b] <:+: gap ++ text ↔ [a, b] <:+: text := by
  induction gap with
  | nil => rfl
  | cons c gap ih =>
      obtain ⟨hc, hgap⟩ := List.forall_mem_cons.1 hgap
      rw [List.cons_append, pair_infix_cons_iff, ih hgap, or_iff_right]
      rintro ⟨rfl, -⟩
      rw [ha] at hc
      cases hc

/-- A mark without blanks does not end in blanks. -/
theorem pair_infix_append_blanks (ha : isBlank a = false) (hb : isBlank b = false)
    (hgap : ∀ c ∈ gap, isBlank c = true) (text : List Char) :
    [a, b] <:+: text ++ gap ↔ [a, b] <:+: text := by
  cases gap with
  | nil => rw [List.append_nil]
  | cons c gap =>
      obtain ⟨hc, hgap⟩ := List.forall_mem_cons.1 hgap
      have hblanks := @pair_infix_blanks_append a b gap ha hgap []
      rw [List.append_nil] at hblanks
      rw [pair_infix_append_cons_iff, hblanks, or_iff_left (by simp)]
      · rintro rfl
        rw [ha] at hc
        cases hc
      · rintro rfl
        rw [hb] at hc
        cases hc

/-- Trimming does not touch a mark without blanks. -/
theorem pair_infix_trim_iff (ha : isBlank a = false) (hb : isBlank b = false) (text : List Char) :
    [a, b] <:+: trim text ↔ [a, b] <:+: text := by
  obtain ⟨front, back, hfront, hback, htext⟩ := exists_gaps text
  conv => rhs; rw [htext]
  rw [pair_infix_blanks_append ha hfront, pair_infix_append_blanks ha hb hback]

end Blanks

/-- A mark stands in one of the lines that a text is put together of. -/
theorem pair_infix_intercalate_iff (ha : c ≠ a) (hb : c ≠ b) (lines : List (List Char)) :
    [a, b] <:+: [c].intercalate lines ↔ ∃ line ∈ lines, [a, b] <:+: line := by
  induction lines with
  | nil => simp
  | cons line lines ih =>
      cases lines with
      | nil => simp
      | cons next lines =>
          rw [List.intercalate_cons_cons, List.append_assoc, List.singleton_append,
            pair_infix_append_cons_iff ha hb, ih]
          simp

end MiniProgram.Text
