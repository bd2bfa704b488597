import MiniProgram.Source.Phrase

/-!
# Folding constant branches

A conditional with the condition `true` or `false` and a block behind it is replaced by the branch
that runs. The first foldable conditional of the text is folded:

* `if (false) B` leaves an empty block, so that the place of the statement stays filled;
* `if (false) B else R` leaves `R`;
* `if (true) B` leaves `B`, and so does `if (true) B else C` where `C` is a block;
* any other conditional stays as it is.

`Branches` says the same with one rule for each case. `length_lt_of_fold?` says that folding makes
the text shorter.
-/

namespace MiniProgram.Source

open Text

/-- `constant? glyphs` reads one of the words `true` and `false`, and returns its value and what
follows it. -/
def constant? (glyphs : List Glyph) : Option (Bool × List Glyph) :=
  match word? ['t', 'r', 'u', 'e'] glyphs with
  | some rest => some (true, rest)
  | none => (word? ['f', 'a', 'l', 's', 'e'] glyphs).map (false, ·)

/-- `condition? glyphs` reads a constant condition in parentheses, and returns its value and what
follows it. -/
def condition? (glyphs : List Glyph) : Option (Bool × List Glyph) := do
  let opened ← symbol? '(' (skipBlanks glyphs)
  let (value, behind) ← constant? (skipBlanks opened)
  let closed ← symbol? ')' (skipBlanks behind)
  some (value, skipBlanks closed)

/-- `alternative? glyphs` is the text of an else branch that follows a block. -/
def alternative? (glyphs : List Glyph) : Option (List Glyph) :=
  (word? ['e', 'l', 's', 'e'] (skipBlanks glyphs)).map skipBlanks

/-- The block that keeps the place of a dropped statement. -/
def emptyBlock : List Glyph :=
  [⟨'{', .code⟩, ⟨'}', .code⟩]

/-- `branch value block rest` is what a conditional with the constant `value` leaves of its
`block` and the text `rest` behind the block. -/
def branch (value : Bool) (block rest : List Glyph) : Option (List Glyph) :=
  match value, alternative? rest with
  | false, none => some (emptyBlock ++ rest)
  | false, some alternative => some alternative
  | true, none => some (block ++ rest)
  | true, some alternative => (block? alternative).map fun cut => block ++ cut.2

/-- `foldHere previous glyphs` folds the conditional that starts right here, where `previous` is
the character in front. -/
def foldHere (previous : Option Char) (glyphs : List Glyph) : Option (List Glyph) := do
  let behind ← (word? ['i', 'f'] glyphs).filter fun _ => boundary previous
  let (value, inner) ← condition? behind
  let (block, rest) ← block? inner
  branch value block rest

/-- `foldFrom previous glyphs` folds the first foldable conditional of `glyphs`. -/
def foldFrom (previous : Option Char) : List Glyph → Option (List Glyph)
  | [] => none
  | g :: rest =>
    match foldHere previous (g :: rest) with
    | some folded => some folded
    | none => (foldFrom (some g.char) rest).map (g :: ·)

/-- `fold? glyphs` folds the first foldable conditional, if there is one. -/
def fold? (glyphs : List Glyph) : Option (List Glyph) :=
  foldFrom none glyphs

/-- `Branches block rest value folded` says that a conditional with the constant `value` leaves
`folded` of its `block` and the text `rest` behind the block. -/
inductive Branches (block rest : List Glyph) : Bool → List Glyph → Prop where
  | dropped : alternative? rest = none → Branches block rest false (emptyBlock ++ rest)
  | other {alternative} : alternative? rest = some alternative →
      Branches block rest false alternative
  | kept : alternative? rest = none → Branches block rest true (block ++ rest)
  | chosen {alternative other tail} : alternative? rest = some alternative →
      block? alternative = some (other, tail) → Branches block rest true (block ++ tail)

section Inversion

variable {glyphs block rest folded : List Glyph} {value : Bool}

/-- A constant is one of two words. -/
theorem word?_of_constant? (h : constant? glyphs = some (value, rest)) :
    value = true ∧ word? ['t', 'r', 'u', 'e'] glyphs = some rest ∨
      value = false ∧ word? ['f', 'a', 'l', 's', 'e'] glyphs = some rest := by
  unfold constant? at h
  split at h
  · next htrue =>
      cases h
      exact .inl ⟨rfl, htrue⟩
  · obtain ⟨tail, hfalse, hsame⟩ := Option.map_eq_some_iff.1 h
    cases hsame
    exact .inr ⟨rfl, hfalse⟩

/-- A condition is a constant between parentheses. -/
theorem condition?_eq_some_iff :
    condition? glyphs = some (value, rest) ↔
      ∃ opened behind closed, symbol? '(' (skipBlanks glyphs) = some opened ∧
        constant? (skipBlanks opened) = some (value, behind) ∧
        symbol? ')' (skipBlanks behind) = some closed ∧ rest = skipBlanks closed := by
  simp only [condition?, bind, Option.bind_eq_some_iff, Prod.exists, Option.some.injEq,
    Prod.mk.injEq]
  grind

/-- What a branch leaves is what the rules say. -/
theorem branch_eq_some_iff :
    branch value block rest = some folded ↔ Branches block rest value folded := by
  constructor
  · intro h
    unfold branch at h
    split at h
    · next hnone =>
        cases h
        exact .dropped hnone
    · next hsome =>
        cases h
        exact .other hsome
    · next hnone =>
        cases h
        exact .kept hnone
    · next hsome =>
        obtain ⟨cut, hcut, rfl⟩ := Option.map_eq_some_iff.1 h
        exact .chosen hsome hcut
  · intro h
    cases h with
    | dropped hnone | kept hnone => simp [branch, hnone]
    | other hsome => simp [branch, hsome]
    | chosen hsome hcut => simp [branch, hsome, hcut]

/-- A conditional that is folded is the word `if` at a boundary, a constant condition and a block,
and is replaced by the branch that runs. -/
theorem foldHere_eq_some_iff {previous : Option Char} :
    foldHere previous glyphs = some folded ↔
      ∃ behind value inner block rest, word? ['i', 'f'] glyphs = some behind ∧
        boundary previous = true ∧ condition? behind = some (value, inner) ∧
        block? inner = some (block, rest) ∧ branch value block rest = some folded := by
  simp only [foldHere, bind, Option.bind_eq_some_iff, Option.filter_eq_some_iff, Prod.exists]
  grind

end Inversion

/-- What follows a constant is a suffix of the text. -/
theorem suffix_of_constant? {glyphs rest : List Glyph} {value : Bool}
    (h : constant? glyphs = some (value, rest)) : rest <:+ glyphs := by
  rcases word?_of_constant? h with ⟨-, hword⟩ | ⟨-, hword⟩ <;> exact suffix_of_word? hword

/-- What follows a constant condition is a suffix of the text. -/
theorem suffix_of_condition? {glyphs rest : List Glyph} {value : Bool}
    (h : condition? glyphs = some (value, rest)) : rest <:+ glyphs := by
  obtain ⟨opened, behind, closed, hopen, hconstant, hclose, rfl⟩ := condition?_eq_some_iff.1 h
  obtain ⟨_, hopen⟩ := eq_cons_of_symbol? hopen
  obtain ⟨_, hclose⟩ := eq_cons_of_symbol? hclose
  have hopened : opened <:+ glyphs :=
    (List.suffix_cons _ _).trans (hopen ▸ skipBlanks_suffix glyphs)
  have hclosed : closed <:+ behind :=
    (List.suffix_cons _ _).trans (hclose ▸ skipBlanks_suffix behind)
  exact ((skipBlanks_suffix closed).trans hclosed).trans
    ((suffix_of_constant? hconstant).trans ((skipBlanks_suffix opened).trans hopened))

/-- What follows `else` is a suffix of the text. -/
theorem suffix_of_alternative? {glyphs rest : List Glyph} (h : alternative? glyphs = some rest) :
    rest <:+ glyphs := by
  obtain ⟨tail, word, rfl⟩ := Option.map_eq_some_iff.1 h
  exact ((skipBlanks_suffix tail).trans (suffix_of_word? word)).trans (skipBlanks_suffix _)

/-- A block has at least its two braces. -/
theorem two_le_length_of_block? {glyphs block rest : List Glyph}
    (h : block? glyphs = some (block, rest)) : 2 ≤ block.length := by
  obtain ⟨region, tail, inner, rfl, hclose, rfl⟩ := block?_eq_some_iff.1 h
  have hinner : inner ≠ [] := by
    rintro rfl
    cases tail <;> grind [closeBlock, prepend_eq_some_iff]
  have := List.length_pos_iff.2 hinner
  rw [List.length_cons]
  omega

/-- What a conditional leaves is no longer than its block and what follows. -/
theorem length_le_of_branch {value : Bool} {block rest folded : List Glyph}
    (two : 2 ≤ block.length) (h : branch value block rest = some folded) :
    folded.length ≤ block.length + rest.length := by
  cases branch_eq_some_iff.1 h with
  | dropped => simp [emptyBlock]; omega
  | other hsome =>
      have := (suffix_of_alternative? hsome).length_le
      omega
  | kept => simp
  | chosen hsome hcut =>
      have hlength := congrArg List.length (append_of_block? hcut)
      have := (suffix_of_alternative? hsome).length_le
      simp at hlength ⊢; omega

/-- Folding a conditional makes the text shorter. -/
theorem length_lt_of_foldHere {previous : Option Char} {glyphs folded : List Glyph}
    (h : foldHere previous glyphs = some folded) : folded.length < glyphs.length := by
  obtain ⟨behind, value, inner, block, rest, hword, -, hcondition, hblock, hbranch⟩ :=
    foldHere_eq_some_iff.1 h
  have hword := congrArg List.length (append_of_word? hword)
  have hcondition := (suffix_of_condition? hcondition).length_le
  have hlength := congrArg List.length (append_of_block? hblock)
  have hbranch := length_le_of_branch (two_le_length_of_block? hblock) hbranch
  simp only [length_chars, List.length_append, List.length_cons] at hword hlength
  omega

/-- Folding the first conditional makes the text shorter. -/
theorem length_lt_of_foldFrom {previous : Option Char} {glyphs folded : List Glyph}
    (h : foldFrom previous glyphs = some folded) : folded.length < glyphs.length := by
  induction glyphs generalizing previous folded with
  | nil => simp [foldFrom] at h
  | cons g rest ih =>
    unfold foldFrom at h
    split at h
    · next here => cases h; exact length_lt_of_foldHere here
    · obtain ⟨tail, htail, rfl⟩ := Option.map_eq_some_iff.1 h
      have := ih htail
      simp; omega

/-- Folding makes the text shorter. -/
theorem length_lt_of_fold? {glyphs folded : List Glyph} (h : fold? glyphs = some folded) :
    folded.length < glyphs.length :=
  length_lt_of_foldFrom h

end MiniProgram.Source
