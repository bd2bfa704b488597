import MiniProgram.Proofs.Bytes.Slice
import MiniProgram.Proofs.Source.Binding

/-!
# Reading the clause of an import declaration at byte offsets

The braces of a clause are looked for by their offsets, and the clause is cut there. Read
`splitBracesAt_eq` first: cutting never fails, and the parts are those of `splitBraces`.
-/

namespace MiniProgram.Bytes

open Source Text

/-- The offset of the first place of a character. -/
def firstIndex? (c : Char) (text : List Char) : Option ℕ :=
  ((charIndices 0 text).find? fun entry => entry.2 = c).map Prod.fst

/-- The offset of the last place of a character. -/
def lastIndex? (c : Char) (text : List Char) : Option ℕ :=
  ((charIndices 0 text).reverse.find? fun entry => entry.2 = c).map Prod.fst

/-- Separates the text between the first opening and the last closing brace from the text around
them. -/
def splitBracesAt (clause : List Char) : Except Fault (List Char × Option (List Char)) :=
  match firstIndex? '{' clause, lastIndex? '}' clause with
  | some opened, some close =>
    if opened < close then do
      let outside := (← sliceTo clause opened) ++ (← sliceFrom clause (close + 1))
      return (outside, some (← slice clause (opened + 1) close))
    else .ok (clause, none)
  | _, _ => .ok (clause, none)

/-- The names that are bound by the text around the braces and the text between them. -/
def namesOf (parts : List Char × Option (List Char)) : List (List Char) :=
  (((parts.1.splitOn ',').map trim).filter (· ≠ [])).map outerName ++
    (parts.2.elim [] (·.splitOn ',')).filterMap fun entry => (words entry).getLast?

/-- The names that an import clause binds. -/
def localNamesAt (clause : List Char) : Except Fault (List (List Char)) := do
  return namesOf (← splitBracesAt (trim (dropTypeWord clause)))

section Indices

variable {c : Char} {front rest text : List Char}

/-- A character that is not in a text has no place there. -/
theorem find?_charIndices (h : c ∉ text) (start : ℕ) :
    (charIndices start text).find? (fun entry => entry.2 = c) = none := by
  refine List.find?_eq_none.2 fun entry hentry => ?_
  rw [decide_eq_true_eq]
  rintro rfl
  obtain ⟨front, rest, rfl, -⟩ := mem_charIndices_iff.1 hentry
  exact h (by simp)

/-- A character that is not in a text has no first place. -/
theorem firstIndex?_eq_none (h : c ∉ text) : firstIndex? c text = none := by
  rw [firstIndex?, find?_charIndices h, Option.map_none]

/-- The first place of a character is behind the text without it. -/
theorem firstIndex?_append (h : c ∉ front) (rest : List Char) :
    firstIndex? c (front ++ c :: rest) = some (size front) := by
  rw [firstIndex?, charIndices_append, List.find?_append, find?_charIndices h, charIndices]
  simp

/-- A character that is not in a text has no last place. -/
theorem lastIndex?_eq_none (h : c ∉ text) : lastIndex? c text = none := by
  have hnone := find?_charIndices h 0
  rw [List.find?_eq_none] at hnone
  rw [lastIndex?, List.find?_eq_none.2 fun entry hentry => hnone entry (List.mem_reverse.1 hentry),
    Option.map_none]

/-- The last place of a character is in front of the text without it. -/
theorem lastIndex?_append (front : List Char) (h : c ∉ rest) :
    lastIndex? c (front ++ c :: rest) = some (size front) := by
  have hnone := find?_charIndices h (0 + size front + c.utf8Size)
  rw [List.find?_eq_none] at hnone
  have hrest : (charIndices (0 + size front + c.utf8Size) rest).reverse.find?
      (fun entry => entry.2 = c) = none :=
    List.find?_eq_none.2 fun entry hentry => hnone entry (List.mem_reverse.1 hentry)
  rw [lastIndex?, charIndices_append, charIndices, List.reverse_append, List.reverse_cons,
    List.append_assoc, List.find?_append, hrest]
  simp

end Indices

section Braces

variable {c : Char} {front rest text : List Char}

/-- A clause is split at its first opening and its last closing brace. -/
theorem splitBracesAt_append {inner last : List Char} (hfront : '{' ∉ front) (hlast : '}' ∉ last) :
    splitBracesAt (front ++ '{' :: (inner ++ '}' :: last)) = .ok (front ++ last, some inner) := by
  have hopened : size (front ++ ['{']) = size front + 1 := size_append front ['{']
  have hclose : lastIndex? '}' (front ++ '{' :: (inner ++ '}' :: last)) =
      some (size front + 1 + size inner) := by
    rw [← hopened, ← size_append, ← lastIndex?_append _ hlast]
    simp
  have hbehind : sliceFrom (front ++ '{' :: (inner ++ '}' :: last))
      (size front + 1 + size inner + 1) = .ok last := by
    have h := sliceFrom_append (front ++ ['{'] ++ inner ++ ['}']) last
    have hclosed : size (front ++ ['{'] ++ inner ++ ['}']) = size front + 1 + size inner + 1 := by
      rw [size_append, size_append, hopened]
      rfl
    rw [hclosed] at h
    simpa using h
  have hinside : slice (front ++ '{' :: (inner ++ '}' :: last)) (size front + 1)
      (size front + 1 + size inner) = .ok inner := by
    have h := slice_append (front ++ ['{']) inner ('}' :: last)
    rw [hopened] at h
    simpa using h
  rw [splitBracesAt, firstIndex?_append hfront, hclose]
  simp only [sliceTo_append, hbehind, hinside, bind, Except.bind, pure, Except.pure]
  exact if_pos (by omega)

/-- The braces are cut out between characters, and the first one stands in front of the last. -/
theorem splitBracesAt_eq (clause : List Char) :
    splitBracesAt clause = .ok (splitBraces clause) := by
  by_cases hopens : '{' ∈ clause
  · obtain ⟨front, behind, rfl, hfront⟩ := List.eq_append_cons_of_mem hopens
    by_cases hcloses : '}' ∈ behind
    · obtain ⟨inner, last, rfl, hlast⟩ := exists_last hcloses
      rw [splitBracesAt_append hfront hlast, splitBraces_append hfront hlast]
    · rw [splitBracesAt, firstIndex?_append hfront, splitBraces_of_unclosed hfront hcloses]
      by_cases hbefore : '}' ∈ front
      · obtain ⟨before, inner, rfl, hinner⟩ := exists_last hbefore
        have hlast : lastIndex? '}' (before ++ '}' :: inner ++ '{' :: behind) =
            some (size before) := by
          rw [List.append_assoc, List.cons_append, lastIndex?_append]
          simp [hinner, hcloses]
        simp only [hlast]
        rw [if_neg (by simp)]
      · rw [lastIndex?_eq_none (by simp [hbefore, hcloses])]
  · rw [splitBracesAt, firstIndex?_eq_none hopens, splitBraces_of_not_mem hopens]

/-- Reading the names of a clause by offsets does not fault, and gives the names that are read off
its text. -/
theorem localNamesAt_eq (clause : List Char) : localNamesAt clause = .ok (localNames clause) := by
  rw [localNamesAt, splitBracesAt_eq]
  rfl

end Braces

end MiniProgram.Bytes
