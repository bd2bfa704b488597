import Mathlib.Data.List.SplitBy
import MiniProgram.Text.Blank

/-!
# Trimming and cutting into words

Blanks have few codes (`blankCodes`), and what holds of none of them is found by trying them all.

`words` cuts a text wherever a blank and another character meet (`words_append`). So blanks in
front of a text do not matter, and a run of other characters is a word when it ends in front of a
blank.
-/

namespace MiniProgram.Text

variable {text gap run rest : List Char}

/-- The codes of the blanks. -/
def blankCodes : List Nat :=
  [0x09, 0x0A, 0x0B, 0x0C, 0x0D, 0x20, 0x85, 0xA0, 0x1680, 0x2000, 0x2001, 0x2002, 0x2003, 0x2004,
    0x2005, 0x2006, 0x2007, 0x2008, 0x2009, 0x200A, 0x2028, 0x2029, 0x202F, 0x205F, 0x3000]

section Blanks

variable {c : Char}

/-- The codes of the blanks are listed. -/
theorem toNat_mem_blankCodes (h : isBlank c = true) : c.toNat ∈ blankCodes := by
  simp only [isBlank, Bool.or_eq_true, Bool.and_eq_true, decide_eq_true_eq, beq_iff_eq] at h
  simp only [blankCodes, List.mem_cons, List.not_mem_nil, or_false]
  omega

/-- A blank is not in a class of characters that has none of their codes. -/
theorem eq_false_of_isBlank {isMember : Char → Bool}
    (hall : ∀ code ∈ blankCodes, isMember (Char.ofNat code) = false) (h : isBlank c = true) :
    isMember c = false := by
  simpa using hall c.toNat (toNat_mem_blankCodes h)

end Blanks

section Trimming

/-- Leading blanks do not count for trimming the front. -/
theorem trimStart_blanks_append (hgap : ∀ c ∈ gap, isBlank c = true) (text : List Char) :
    trimStart (gap ++ text) = trimStart text := by
  rw [trimStart, List.dropWhile_append_of_pos hgap]
  rfl

/-- A text that starts without a blank is trimmed already. -/
theorem trimStart_append_eq_self (hne : text ≠ []) (h : ∀ c ∈ text, isBlank c = false)
    (rest : List Char) : trimStart (text ++ rest) = text ++ rest := by
  cases text with
  | nil => exact absurd rfl hne
  | cons c text => simp [trimStart, h c (by simp)]

/-- Trailing blanks do not count for trimming the end. -/
theorem trimEnd_append_blanks (hgap : ∀ c ∈ gap, isBlank c = true) (text : List Char) :
    trimEnd (text ++ gap) = trimEnd text := by
  rw [trimEnd, List.reverse_append, List.dropWhile_append_of_pos (by simpa using hgap)]
  rfl

/-- A text that ends without a blank is trimmed already. -/
theorem trimEnd_append_eq_self (hne : text ≠ []) (h : ∀ c ∈ text, isBlank c = false)
    (front : List Char) : trimEnd (front ++ text) = front ++ text := by
  have hreverse : trimStart (text.reverse ++ front.reverse) = text.reverse ++ front.reverse :=
    trimStart_append_eq_self (by simpa using hne) (by simpa using h) front.reverse
  rw [trimStart] at hreverse
  rw [trimEnd, List.reverse_append, hreverse, ← List.reverse_append, List.reverse_reverse]

/-- Trimming stops in front of what is no blank. -/
theorem trimStart_append (hne : text ≠ []) (h : ∀ c ∈ text, isBlank c = false)
    (front rest : List Char) :
    trimStart (front ++ (text ++ rest)) = trimStart front ++ (text ++ rest) := by
  rw [trimStart, List.dropWhile_append]
  split
  · next hfront =>
      rw [trimStart, List.isEmpty_iff.1 hfront]
      exact trimStart_append_eq_self hne h rest
  · rfl

/-- Trimming the end stops behind what is no blank. -/
theorem trimEnd_append (hne : text ≠ []) (h : ∀ c ∈ text, isBlank c = false) (rest : List Char) :
    trimEnd (text ++ rest) = text ++ trimEnd rest := by
  have hreverse : trimStart (rest.reverse ++ (text.reverse ++ [])) =
      trimStart rest.reverse ++ (text.reverse ++ []) :=
    trimStart_append (by simpa using hne) (by simpa using h) rest.reverse []
  rw [List.append_nil] at hreverse
  calc trimEnd (text ++ rest)
      = (trimStart (rest.reverse ++ text.reverse)).reverse := by
        rw [trimEnd, List.reverse_append, trimStart]
    _ = text ++ trimEnd rest := by
        rw [hreverse, List.reverse_append, List.reverse_reverse, trimEnd, trimStart]

/-- Leading blanks do not count for trimming. -/
theorem trim_blanks_append (hgap : ∀ c ∈ gap, isBlank c = true) (text : List Char) :
    trim (gap ++ text) = trim text := by
  rw [trim, trimStart_blanks_append hgap, trim]

/-- Trailing blanks do not count for trimming. -/
theorem trim_append_blanks (hgap : ∀ c ∈ gap, isBlank c = true) (text : List Char) :
    trim (text ++ gap) = trim text := by
  rw [trim, trim, trimStart, List.dropWhile_append]
  split
  · next hblank =>
      have hstart : trimStart gap = [] := by
        rw [← List.append_nil gap, trimStart_blanks_append hgap]
        rfl
      rw [← trimStart, hstart, trimStart, List.isEmpty_iff.1 hblank]
  · exact trimEnd_append_blanks hgap _

/-- What trimming takes off the end is blank. -/
theorem exists_of_trimEnd (text : List Char) :
    ∃ gap, (∀ c ∈ gap, isBlank c = true) ∧ text = trimEnd text ++ gap := by
  refine ⟨(text.reverse.takeWhile isBlank).reverse, ?_, ?_⟩
  · intro c hc
    exact List.all_eq_true.1 List.all_takeWhile c (List.mem_reverse.1 hc)
  · rw [trimEnd, ← List.reverse_append, List.takeWhile_append_dropWhile, List.reverse_reverse]

/-- Trimming leaves nothing of blanks only. -/
theorem trim_eq_nil_iff : trim text = [] ↔ ∀ c ∈ text, isBlank c = true := by
  constructor
  · intro htrim
    obtain ⟨gap, hgap, hstart⟩ := exists_of_trimEnd (trimStart text)
    rw [← trim, htrim, List.nil_append] at hstart
    rw [← List.takeWhile_append_dropWhile (p := isBlank) (l := text), List.forall_mem_append]
    exact ⟨List.all_eq_true.1 List.all_takeWhile, fun c hc => hgap c (hstart ▸ hc)⟩
  · intro hblank
    rw [← List.append_nil text, trim_blanks_append hblank]
    rfl

/-- Behind a start without blanks only the end is trimmed. -/
theorem trim_append_eq (hne : text ≠ []) (h : ∀ c ∈ text, isBlank c = false)
    (rest : List Char) : trim (text ++ rest) = text ++ trimEnd rest := by
  rw [trim, trimStart_append_eq_self hne h, trimEnd_append hne h]

/-- Trimming keeps characters in their order. -/
theorem trim_sublist (text : List Char) : (trim text).Sublist text :=
  (List.IsPrefix.sublist <| trimEnd_prefix (trimStart text)).trans (trimStart_suffix text).sublist

/-- What trimming takes off both ends is blank. -/
theorem exists_gaps (text : List Char) :
    ∃ front back, (∀ c ∈ front, isBlank c = true) ∧ (∀ c ∈ back, isBlank c = true) ∧
      text = front ++ (trim text ++ back) := by
  obtain ⟨gap, hgap, htrim⟩ := exists_of_trimEnd (trimStart text)
  have hstart : ∀ c ∈ text.takeWhile isBlank, isBlank c = true := fun c hc =>
    List.all_eq_true.1 List.all_takeWhile c hc
  refine ⟨_, gap, hstart, hgap, ?_⟩
  rw [trim, ← htrim, trimStart, List.takeWhile_append_dropWhile]

/-- What is trimmed has no blanks at its ends. -/
theorem trim_trim (text : List Char) : trim (trim text) = trim text := by
  obtain ⟨front, back, hfront, hback, htext⟩ := exists_gaps text
  calc trim (trim text)
      = trim (front ++ (trim text ++ back)) := by
        rw [trim_blanks_append hfront, trim_append_blanks hback]
    _ = trim text := by rw [← htext]

end Trimming

/-- What a text is taken apart at is in none of the parts. -/
theorem not_mem_of_mem_splitOn {separator : Char} {part : List Char}
    (h : part ∈ text.splitOn separator) : separator ∉ part := by
  induction text generalizing part with
  | nil => simp_all
  | cons c text ih =>
      rw [List.splitOn_cons_eq_if_modifyHead] at h
      split at h
      · rcases List.mem_cons.1 h with rfl | h
        · exact List.not_mem_nil
        · exact ih h
      · next hc =>
          cases hparts : text.splitOn separator with
          | nil => exact absurd hparts (List.splitOn_ne_nil _ _)
          | cons first rest =>
              rw [hparts] at h ih
              rcases List.mem_cons.1 h with rfl | h
              · refine fun hmem => (List.mem_cons.1 hmem).elim ?_ (ih List.mem_cons_self)
                exact fun heq => hc (beq_iff_eq.2 heq.symm)
              · exact ih (List.mem_cons_of_mem _ h)

/-- What stands in parts that are put together stands in one of them or between them. -/
theorem exists_of_mem_intercalate {α : Type} {separator a : α} {parts : List (List α)}
    (h : a ∈ [separator].intercalate parts) : a = separator ∨ ∃ part ∈ parts, a ∈ part := by
  induction parts with
  | nil => cases h
  | cons first rest ih =>
      cases rest with
      | nil => exact .inr ⟨first, .head _, by simpa using h⟩
      | cons second rest =>
          rw [List.intercalate_cons_cons, List.append_assoc, List.mem_append] at h
          rcases h with h | h
          · exact .inr ⟨first, .head _, h⟩
          · rcases List.mem_cons.1 h with rfl | h
            · exact .inl rfl
            · exact (ih h).imp_right fun ⟨part, hpart, ha⟩ => ⟨part, .tail _ hpart, ha⟩

section Words

/-- A text is cut where a blank and another character meet. -/
theorem words_append (h : ∀ c ∈ text.getLast?, ∀ d ∈ rest.head?, isBlank c ≠ isBlank d) :
    words (text ++ rest) = words text ++ words rest := by
  rw [words, List.splitBy_append (by simpa using h), List.filter_append]
  rfl

/-- A text of characters of one kind is one piece. -/
theorem splitBy_eq_singleton {kind : Bool} (hne : text ≠ []) (h : ∀ c ∈ text, isBlank c = kind) :
    (text.splitBy fun c d => isBlank c == isBlank d) = [text] := by
  refine List.splitBy_of_isChain hne (List.Pairwise.isChain ?_)
  refine List.pairwise_of_forall_mem_list fun c hc d hd => ?_
  rw [h c hc, h d hd, beq_self_eq_true]

/-- Blanks hold no word. -/
theorem words_of_blanks (hgap : ∀ c ∈ gap, isBlank c = true) : words gap = [] := by
  cases gap with
  | nil => rfl
  | cons c gap =>
      rw [words, splitBy_eq_singleton (by simp) hgap]
      simpa using hgap

/-- Characters that are no blanks are one word. -/
theorem words_of_run (hne : run ≠ []) (h : ∀ c ∈ run, isBlank c = false) : words run = [run] := by
  rw [words, splitBy_eq_singleton hne h]
  obtain ⟨c, hc⟩ := List.exists_mem_of_ne_nil run hne
  simpa using ⟨c, hc, h c hc⟩

/-- Blanks in front of a word do not matter. -/
theorem words_blanks_append (hgap : ∀ c ∈ gap, isBlank c = true)
    (hrest : ∀ d ∈ rest.head?, isBlank d = false) : words (gap ++ rest) = words rest := by
  rw [words_append, words_of_blanks hgap, List.nil_append]
  intro c hc d hd
  rw [hgap c (List.mem_of_getLast? hc), hrest d hd]
  simp

/-- A run that a blank follows is the first word. -/
theorem words_run_append (hne : run ≠ []) (h : ∀ c ∈ run, isBlank c = false)
    (hrest : ∀ d ∈ rest.head?, isBlank d = true) : words (run ++ rest) = run :: words rest := by
  rw [words_append, words_of_run hne h, List.singleton_append]
  intro c hc d hd
  rw [h c (List.mem_of_getLast? hc), hrest d hd]
  simp

end Words

end MiniProgram.Text
