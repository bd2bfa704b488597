import Mathlib.Data.List.Basic
import MiniProgram.Source.Binding

/-!
# Cutting an import clause

A clause is cut at its first opening and its last closing brace, if the one stands in front of the
other. `splitBraces_append` gives the parts of a clause with both braces, and a clause without them
is left whole.
-/

namespace MiniProgram.Source

section Characters

variable {c : Char} {front rest text : List Char}

/-- The characters of a text in which `c` does not stand all differ from `c`. -/
theorem ne_of_mem (h : c ∉ text) : ∀ d ∈ text, decide (d ≠ c) = true := fun d hd => by
  simpa using fun hsame : d = c => h (hsame ▸ hd)

/-- In front of the first `c` stands what is in front of it. -/
theorem takeWhile_ne_append (h : c ∉ front) (rest : List Char) :
    (front ++ c :: rest).takeWhile (· ≠ c) = front := by
  rw [List.takeWhile_append_of_pos (ne_of_mem h), List.takeWhile_cons_of_neg (by simp),
    List.append_nil]

/-- From the first `c` on stand that `c` and what is behind it. -/
theorem dropWhile_ne_append (h : c ∉ front) (rest : List Char) :
    (front ++ c :: rest).dropWhile (· ≠ c) = c :: rest := by
  rw [List.dropWhile_append_of_pos (ne_of_mem h), List.dropWhile_cons_of_neg (by simp)]

/-- Nothing is left from the first `c` on where none stands. -/
theorem dropWhile_ne_eq_nil (h : c ∉ text) : text.dropWhile (· ≠ c) = [] := by
  rw [← List.append_nil text, List.dropWhile_append_of_pos (ne_of_mem h), List.dropWhile_nil]

/-- A character stands in a text if it has a last place there. -/
theorem exists_last (h : c ∈ text) : ∃ front rest, text = front ++ c :: rest ∧ c ∉ rest := by
  obtain ⟨rest, front, hreverse, hrest⟩ := List.eq_append_cons_of_mem (List.mem_reverse.2 h)
  refine ⟨front.reverse, rest.reverse, ?_, by simpa using hrest⟩
  rw [← List.reverse_reverse text, hreverse]
  simp

end Characters

section Braces

variable {front inner behind text : List Char}

/-- A text without an opening brace is all outside. -/
theorem splitBraces_of_not_mem (h : '{' ∉ text) : splitBraces text = (text, none) := by
  rw [splitBraces, dropWhile_ne_eq_nil h]

/-- A text without a closing brace behind the first opening one is all outside. -/
theorem splitBraces_of_unclosed (hfront : '{' ∉ front) (hbehind : '}' ∉ behind) :
    splitBraces (front ++ '{' :: behind) = (front ++ '{' :: behind, none) := by
  rw [splitBraces, dropWhile_ne_append hfront]
  simp only [dropWhile_ne_eq_nil (mt List.mem_reverse.1 hbehind)]

/-- A text is cut at its first opening and its last closing brace. -/
theorem splitBraces_append (hfront : '{' ∉ front) (hbehind : '}' ∉ behind) :
    splitBraces (front ++ '{' :: (inner ++ '}' :: behind)) = (front ++ behind, some inner) := by
  have hreverse : (inner ++ '}' :: behind).reverse = behind.reverse ++ '}' :: inner.reverse := by
    simp
  have hlast : '}' ∉ behind.reverse := by simpa using hbehind
  rw [splitBraces, dropWhile_ne_append hfront, takeWhile_ne_append hfront]
  simp only [hreverse, dropWhile_ne_append hlast, takeWhile_ne_append hlast, List.reverse_reverse]

end Braces

end MiniProgram.Source
