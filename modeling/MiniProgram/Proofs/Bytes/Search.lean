import MiniProgram.Proofs.Bytes.Slice
import MiniProgram.Proofs.Text.Words

/-!
# Occurrences of a pattern and their offsets

Occurrences are looked for from the left, each one behind the end of the one before it, so they do
not overlap. A pattern of one character occurs wherever the character stands
(`getElem?_occurrences_append`). A pattern whose first character stands in it only once cannot
overlap with itself, and is found wherever it stands (`occurrencesFrom_cons`). Of any other pattern
an occurrence is found unless one that is found reaches into it (`mem_occurrencesFrom_or`).
-/

namespace MiniProgram.Bytes

open Text (search_induction)

/-- `occurrencesFrom pattern start text` lists the offsets at which a pattern occurs in a text that
starts at an offset. An empty pattern occurs in front of every character and at the end. -/
def occurrencesFrom (pattern : List Char) (start : ℕ) (text : List Char) : List ℕ :=
  match text with
  | [] => if pattern = [] then [start] else []
  | c :: rest =>
    if pattern.isPrefixOf (c :: rest) then
      start :: occurrencesFrom pattern (start + size (c :: rest.take (pattern.length - 1)))
        (rest.drop (pattern.length - 1))
    else occurrencesFrom pattern (start + c.utf8Size) rest
termination_by text.length
decreasing_by
  · simp only [List.length_drop, List.length_cons]; omega
  · simp only [List.length_cons]; omega

/-- The offsets at which a pattern occurs in a text. -/
def occurrences (pattern text : List Char) : List ℕ :=
  occurrencesFrom pattern 0 text

section Equations

variable {pattern : List Char}

/-- A pattern that is not empty does not occur in an empty text. -/
theorem occurrencesFrom_nil (hne : pattern ≠ []) (start : ℕ) :
    occurrencesFrom pattern start [] = [] := by
  rw [occurrencesFrom, if_neg hne]

/-- Where a pattern occurs, its offset is listed and the search goes on behind it. -/
theorem occurrencesFrom_found (hne : pattern ≠ []) (start : ℕ) (behind : List Char) :
    occurrencesFrom pattern start (pattern ++ behind) =
      start :: occurrencesFrom pattern (start + size pattern) behind := by
  obtain ⟨p, pattern, rfl⟩ := List.exists_cons_of_ne_nil hne
  have hprefix : (p :: pattern).isPrefixOf (p :: (pattern ++ behind)) = true :=
    List.isPrefixOf_iff_prefix.2 (List.prefix_append (p :: pattern) behind)
  rw [List.cons_append, occurrencesFrom, if_pos hprefix, List.length_cons, Nat.add_sub_cancel,
    List.take_left, List.drop_left]

/-- Where a pattern does not occur, the search goes on with the next character. -/
theorem occurrencesFrom_other {c : Char} {rest : List Char} (h : ¬ pattern <+: c :: rest)
    (start : ℕ) :
    occurrencesFrom pattern start (c :: rest) =
      occurrencesFrom pattern (start + c.utf8Size) rest := by
  rw [occurrencesFrom, if_neg (mt List.isPrefixOf_iff_prefix.1 h)]

end Equations

section Single

variable {c d : Char} {start : ℕ} {rest : List Char}

/-- A character occurs where it stands. -/
theorem occurrencesFrom_cons_self (c : Char) (start : ℕ) (rest : List Char) :
    occurrencesFrom [c] start (c :: rest) =
      start :: occurrencesFrom [c] (start + c.utf8Size) rest := by
  simpa using occurrencesFrom_found (List.cons_ne_nil c []) start rest

/-- A character does not occur where another one stands. -/
theorem occurrencesFrom_cons_of_ne (h : d ≠ c) :
    occurrencesFrom [c] start (d :: rest) = occurrencesFrom [c] (start + d.utf8Size) rest :=
  occurrencesFrom_other (by simpa using h.symm) start

/-- A character has as many occurrences as it is counted in the text. -/
theorem length_occurrencesFrom (c : Char) (start : ℕ) (text : List Char) :
    (occurrencesFrom [c] start text).length = text.count c := by
  induction text generalizing start with
  | nil => simp [occurrencesFrom]
  | cons d rest ih =>
      by_cases h : d = c
      · rw [h, occurrencesFrom_cons_self, List.length_cons, ih, List.count_cons_self]
      · rw [occurrencesFrom_cons_of_ne h, ih, List.count_cons_of_ne h]

/-- The occurrence of a character with a number is behind as many others. -/
theorem getElem?_occurrencesFrom_append (c : Char) (start : ℕ) (front rest : List Char) :
    (occurrencesFrom [c] start (front ++ c :: rest))[front.count c]? =
      some (start + size front) := by
  induction front generalizing start with
  | nil =>
      rw [List.nil_append, occurrencesFrom_cons_self]
      rfl
  | cons d front ih =>
      by_cases h : d = c
      · rw [h, List.cons_append, occurrencesFrom_cons_self, List.count_cons_self,
          List.getElem?_cons_succ, ih, size_cons, Nat.add_assoc]
      · rw [List.cons_append, occurrencesFrom_cons_of_ne h, List.count_cons_of_ne h, ih,
          size_cons, Nat.add_assoc]

/-- Occurrences of a character are numbered by how often it stands in front of them. -/
theorem getElem?_occurrences_append (c : Char) (front rest : List Char) :
    (occurrences [c] (front ++ c :: rest))[front.count c]? = some (size front) := by
  rw [occurrences, getElem?_occurrencesFrom_append, Nat.zero_add]

/-- A character has as many occurrences as it is counted in the text. -/
theorem length_occurrences (c : Char) (text : List Char) :
    (occurrences [c] text).length = text.count c :=
  length_occurrencesFrom c 0 text

end Single

section Words

variable {p : Char} {pattern front : List Char}

/-- A pattern does not occur where its first character is missing. -/
theorem occurrencesFrom_append (h : p ∉ front) (start : ℕ) (rest : List Char) :
    occurrencesFrom (p :: pattern) start (front ++ rest) =
      occurrencesFrom (p :: pattern) (start + size front) rest := by
  induction front generalizing start with
  | nil => rfl
  | cons c front ih =>
      rw [List.mem_cons, not_or] at h
      rw [List.cons_append, occurrencesFrom_other (by simp [h.1]), ih h.2, size_cons,
        Nat.add_assoc]

/-- A pattern that cannot overlap with itself is looked for character by character. -/
theorem occurrencesFrom_cons (h : p ∉ pattern) (start : ℕ) (c : Char) (rest : List Char) :
    occurrencesFrom (p :: pattern) start (c :: rest) =
      (if List.isPrefixOf (p :: pattern) (c :: rest) then [start] else []) ++
        occurrencesFrom (p :: pattern) (start + c.utf8Size) rest := by
  split
  · next hprefix =>
      obtain ⟨rfl, behind, rfl⟩ := List.cons_prefix_cons.1 (List.isPrefixOf_iff_prefix.1 hprefix)
      rw [← List.cons_append, occurrencesFrom_found (List.cons_ne_nil p pattern),
        occurrencesFrom_append h, size_cons, Nat.add_assoc]
      rfl
  · next hprefix => exact occurrencesFrom_other (mt List.isPrefixOf_iff_prefix.2 hprefix) start

end Words

section Patterns

variable {pattern text before after : List Char} {start index : ℕ}

/-- What is found is an occurrence. -/
theorem exists_of_mem_occurrencesFrom (hne : pattern ≠ [])
    (h : index ∈ occurrencesFrom pattern start text) :
    ∃ before after, text = before ++ (pattern ++ after) ∧ index = start + size before := by
  induction text using search_induction hne generalizing start with
  | nil =>
      rw [occurrencesFrom_nil hne] at h
      cases h
  | found behind ih =>
      rw [occurrencesFrom_found hne] at h
      rcases List.mem_cons.1 h with rfl | h
      · exact ⟨[], behind, rfl, rfl⟩
      · obtain ⟨before, after, rfl, rfl⟩ := ih h
        exact ⟨pattern ++ before, after, by simp, by rw [size_append, Nat.add_assoc]⟩
  | other c rest hstart ih =>
      rw [occurrencesFrom_other hstart] at h
      obtain ⟨before, after, rfl, rfl⟩ := ih h
      exact ⟨c :: before, after, rfl, by rw [size_cons, Nat.add_assoc]⟩

/-- Occurrences that are found do not overlap. -/
theorem pairwise_occurrencesFrom (hne : pattern ≠ []) (start : ℕ) (text : List Char) :
    (occurrencesFrom pattern start text).Pairwise fun index later =>
      index + size pattern ≤ later := by
  induction text using search_induction hne generalizing start with
  | nil =>
      rw [occurrencesFrom_nil hne]
      exact .nil
  | found behind ih =>
      rw [occurrencesFrom_found hne]
      refine .cons (fun later hlater => ?_) (ih _)
      obtain ⟨before, after, -, rfl⟩ := exists_of_mem_occurrencesFrom hne hlater
      exact Nat.le_add_right _ _
  | other c rest hstart ih =>
      rw [occurrencesFrom_other hstart]
      exact ih _

/-- An occurrence is found, unless one that is found in front of it reaches into it. -/
theorem mem_occurrencesFrom_or (hne : pattern ≠ []) (h : text = before ++ (pattern ++ after))
    (start : ℕ) :
    start + size before ∈ occurrencesFrom pattern start text ∨
      ∃ index ∈ occurrencesFrom pattern start text,
        index < start + size before ∧ start + size before < index + size pattern := by
  induction text using search_induction hne generalizing before start with
  | nil => simp [hne] at h
  | found behind ih =>
      rw [occurrencesFrom_found hne]
      by_cases hshort : size before < size pattern
      · cases before with
        | nil => exact .inl List.mem_cons_self
        | cons c before =>
            have hpos := c.utf8Size_pos
            rw [size_cons] at hshort ⊢
            exact .inr ⟨start, List.mem_cons_self, by omega, by omega⟩
      · -- it stands behind the occurrence that is found first
        obtain ⟨front, rfl⟩ : ∃ front, before = pattern ++ front := by
          rcases List.append_eq_append_iff.1 h with ⟨front, hfront, -⟩ | ⟨inside, hinside, -⟩
          · exact ⟨front, hfront⟩
          · have hsize := congrArg size hinside
            rw [size_append] at hsize
            obtain rfl := size_eq_zero_iff.1 (by omega : size inside = 0)
            exact ⟨[], by simpa using hinside.symm⟩
        rw [List.append_assoc] at h
        rw [size_append, ← Nat.add_assoc]
        refine (ih (List.append_cancel_left h) (start + size pattern)).imp
          (List.mem_cons_of_mem _) ?_
        rintro ⟨index, hindex, hbounds⟩
        exact ⟨index, List.mem_cons_of_mem _ hindex, hbounds⟩
  | other c rest hstart ih =>
      rw [occurrencesFrom_other hstart]
      cases before with
      | nil => exact absurd ⟨after, h.symm⟩ hstart
      | cons d before =>
          obtain ⟨rfl, hrest⟩ := List.cons.inj h
          rw [size_cons, ← Nat.add_assoc]
          exact ih hrest (start + c.utf8Size)

end Patterns

end MiniProgram.Bytes
