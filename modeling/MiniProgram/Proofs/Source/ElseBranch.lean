import MiniProgram.Proofs.Source.Preservation

/-!
# Comments in front of an else branch

Read `eliminate_else_iff` first: a conditional that is folded is treated as having an else branch if
and only if no comment stands between its block and its `else`. The reader skips white space there
and no comments. So an `else` behind a comment is left in the text, without the `if` that it
belongs to.
-/

namespace MiniProgram.Source

open Text

variable {glyphs before folded here block rest behind part tail : List Glyph} {value : Bool}

/-- White space and comments, which separate the tokens of a program. -/
def isSeparator (g : Glyph) : Bool :=
  g.region = .comment || (g.region = .code && isBlank g.char)

/-- The white space and the comments that a text starts with. -/
def separators (glyphs : List Glyph) : List Glyph :=
  glyphs.takeWhile isSeparator

/-- The text from its first token on. -/
def skipSeparators (glyphs : List Glyph) : List Glyph :=
  glyphs.dropWhile isSeparator

/-- `Conditional glyphs value block rest` says that a text starts with a conditional on the constant
`value`, and what stands in its block and behind it. -/
def Conditional (glyphs : List Glyph) (value : Bool) (block rest : List Glyph) : Prop :=
  ∃ behind inner, word? ['i', 'f'] glyphs = some behind ∧
    condition? behind = some (value, inner) ∧ block? inner = some (block, rest)

/-- `TakesElse block behind value tail` says that a conditional on the constant `value` leaves
`tail` as one that has an else branch, where `behind` is the text behind its `else`. -/
inductive TakesElse (block behind : List Glyph) : Bool → List Glyph → Prop where
  | chosen : TakesElse block behind false (skipBlanks behind)
  | dropped {other rest} : block? (skipBlanks behind) = some (other, rest) →
      TakesElse block behind true (block ++ rest)

/-- What a conditional without an else branch leaves of itself. -/
def kept (value : Bool) (block : List Glyph) : List Glyph :=
  if value then block else emptyBlock

/-- There is one conditional at most at a place. -/
theorem Conditional.unique {value' : Bool} {block' rest' : List Glyph}
    (h : Conditional here value block rest) (h' : Conditional here value' block' rest') :
    value = value' ∧ block = block' ∧ rest = rest' := by
  obtain ⟨behind, inner, hword, hcondition, hcut⟩ := h
  obtain ⟨behind', inner', hword', hcondition', hcut'⟩ := h'
  obtain rfl : behind = behind' := Option.some.inj (hword.symm.trans hword')
  obtain ⟨rfl, rfl⟩ := Prod.mk.inj (Option.some.inj (hcondition.symm.trans hcondition'))
  obtain ⟨rfl, rfl⟩ := Prod.mk.inj (Option.some.inj (hcut.symm.trans hcut'))
  exact ⟨rfl, rfl, rfl⟩

section Separators

variable {blanks : List Char} {c : Char} {others : List Glyph}

/-- Blanks of code in front of a token are all that is skipped, with comments or without. -/
theorem skip_blanks_append (hblanks : ∀ d ∈ blanks, isBlank d = true) (hc : isBlank c = false)
    (others : List Glyph) :
    separators (coded blanks ++ ⟨c, .code⟩ :: others) = coded blanks ∧
      skipSeparators (coded blanks ++ ⟨c, .code⟩ :: others) = ⟨c, .code⟩ :: others ∧
      skipBlanks (coded blanks ++ ⟨c, .code⟩ :: others) = ⟨c, .code⟩ :: others := by
  have hseparators : ∀ g ∈ coded blanks, isSeparator g = true := by
    intro g hg
    obtain ⟨d, hd, rfl⟩ := List.mem_map.1 hg
    simp [isSeparator, hblanks d hd]
  have hblank : ∀ g ∈ coded blanks, isBlank g.char = true := by
    intro g hg
    obtain ⟨d, hd, rfl⟩ := List.mem_map.1 hg
    exact hblanks d hd
  have htoken : ¬ isSeparator ⟨c, .code⟩ = true := by simp [isSeparator, hc]
  refine ⟨?_, ?_, ?_⟩
  · rw [separators, List.takeWhile_append_of_pos hseparators, List.takeWhile_cons_of_neg htoken,
      List.append_nil]
  · rw [skipSeparators, List.dropWhile_append_of_pos hseparators, List.dropWhile_cons_of_neg htoken]
  · rw [skipBlanks, List.dropWhile_append_of_pos hblank, List.dropWhile_cons_of_neg (by simp [hc])]

/-- White space without comments is blanks of code. -/
theorem exists_of_separators (h : ∀ g ∈ separators glyphs, g.region ≠ .comment) :
    ∃ blanks, glyphs = coded blanks ++ skipSeparators glyphs ∧ ∀ c ∈ blanks, isBlank c = true := by
  have hblank : ∀ g ∈ separators glyphs, g.region = .code ∧ isBlank g.char = true := by
    intro g hg
    have hseparators : isSeparator g = true := List.all_eq_true.1 List.all_takeWhile g hg
    simpa [isSeparator, h g hg] using hseparators
  refine ⟨chars (separators glyphs), ?_, ?_⟩
  · rw [← eq_coded_chars fun g hg => (hblank g hg).1]
    exact List.takeWhile_append_dropWhile.symm
  · intro c hc
    obtain ⟨g, hg, rfl⟩ := List.mem_map.1 hc
    exact (hblank g hg).2

/-- An else branch is found behind a block if its `else` is the first token there, and no comment
stands in front of it. -/
theorem alternative?_eq_some_iff (h : Readable .code rest) :
    alternative? rest = some part ↔
      ∃ behind, word? ['e', 'l', 's', 'e'] (skipSeparators rest) = some behind ∧
        (∀ g ∈ separators rest, g.region ≠ .comment) ∧ part = skipBlanks behind := by
  constructor
  · intro halternative
    obtain ⟨behind, hword, rfl⟩ := Option.map_eq_some_iff.1 halternative
    obtain ⟨others, hothers⟩ := exists_of_word? hword
    obtain ⟨blanks, hreads, hblanks⟩ := reads_skipBlanks h
    have hsplit := hreads.eq_append
    rw [hothers] at hsplit hword
    obtain ⟨hseparators, hskip, -⟩ :=
      skip_blanks_append hblanks (by decide : isBlank 'e' = false) others
    rw [hsplit, hseparators, hskip]
    refine ⟨behind, hword, fun g hg => ?_, rfl⟩
    rw [region_of_mem_coded hg]
    decide
  · rintro ⟨behind, hword, hseparators, rfl⟩
    obtain ⟨others, hothers⟩ := exists_of_word? hword
    obtain ⟨blanks, hsplit, hblanks⟩ := exists_of_separators hseparators
    rw [hothers] at hsplit hword
    obtain ⟨-, -, hskip⟩ := skip_blanks_append hblanks (by decide : isBlank 'e' = false) others
    rw [alternative?, hsplit, hskip, hword, Option.map_some]

end Separators

/-- A conditional that is treated as one with an else branch leaves less than one without. -/
theorem length_lt_of_takesElse (hbehind : behind.length ≤ rest.length)
    (h : TakesElse block behind value tail) : tail.length < (kept value block ++ rest).length := by
  have hskip := (skipBlanks_suffix behind).length_le
  cases h with
  | chosen =>
      simp [kept, emptyBlock]
      omega
  | @dropped other last hcut =>
      have hlength := congrArg List.length (append_of_block? hcut)
      have htwo := two_le_length_of_block? hcut
      simp [kept] at hlength ⊢
      omega

/-- What a conditional leaves when no else branch is found, and when one is. -/
theorem branch_cases (h : branch value block rest = some tail) :
    alternative? rest = none ∧ tail = kept value block ++ rest ∨
      ∃ part, alternative? rest = some part ∧
        ∀ behind, part = skipBlanks behind → TakesElse block behind value tail := by
  cases branch_eq_some_iff.1 h with
  | dropped hnone | kept hnone => exact .inl ⟨hnone, rfl⟩
  | other hsome => exact .inr ⟨_, hsome, fun behind hpart => hpart ▸ .chosen⟩
  | chosen hsome hcut => exact .inr ⟨_, hsome, fun behind hpart => .dropped (hpart ▸ hcut)⟩

/-- A conditional that is folded stands in code, and so does what follows its block. -/
theorem conditional_of_foldHere {phase : Phase} {previous : Option Char}
    (hfold : foldHere previous here = some tail) (h : Readable phase here) :
    ∃ value block rest, Conditional here value block rest ∧ Readable .code rest ∧
      branch value block rest = some tail := by
  obtain ⟨behind, value, inner, block, rest, hword, -, hcondition, hcut, hbranch⟩ :=
    foldHere_eq_some_iff.1 hfold
  have hif := reads_word? (by decide) (by decide) hword h
  obtain ⟨text, htext, -⟩ := reads_condition? hcondition hif.readable
  exact ⟨value, block, rest, ⟨behind, inner, hword, hcondition, hcut⟩,
    (block_of_block? hcut htext.readable).readable, hbranch⟩

/-- Every step of folding turns one conditional into what it leaves. If the first token behind its
block is no `else`, its block is left, or an empty one. If it is, then the conditional is treated as
one with that else branch if and only if no comment stands in front of the `else`; and if one does,
the `else` is left in the text behind the block. -/
theorem eliminate_else_iff {text : List Char} (hscan : scan text = some glyphs)
    (hfolds : Folds glyphs before folded) :
    ∃ front here value block rest tail, before = front ++ here ∧ folded = front ++ tail ∧
      Conditional here value block rest ∧
      (word? ['e', 'l', 's', 'e'] (skipSeparators rest) = none → tail = kept value block ++ rest) ∧
      ∀ behind, word? ['e', 'l', 's', 'e'] (skipSeparators rest) = some behind →
        (TakesElse block behind value tail ↔ ∀ g ∈ separators rest, g.region ≠ .comment) ∧
        ((∃ g ∈ separators rest, g.region = .comment) → tail = kept value block ++ rest) := by
  obtain ⟨hbefore, hfold⟩ := hfolds.scan_eq (scan_chars hscan)
  obtain ⟨front, here, previous, tail, rfl, rfl, hhere⟩ := exists_of_foldFrom hfold
  obtain ⟨phase, -, hreadable⟩ := Readable.append_iff.1 (readable_of_scan hbefore)
  obtain ⟨value, block, rest, hconditional, hrest, hbranch⟩ :=
    conditional_of_foldHere hhere hreadable
  refine ⟨front, here, value, block, rest, tail, rfl, rfl, hconditional, ?_⟩
  rcases branch_cases hbranch with ⟨hnone, rfl⟩ | ⟨part, hsome, htakes⟩
  · refine ⟨fun _ => rfl, fun behind hword => ⟨iff_of_false ?_ ?_, fun _ => rfl⟩⟩
    · have hlength := ((suffix_of_word? hword).trans (List.dropWhile_suffix _)).length_le
      exact fun htakes => (length_lt_of_takesElse hlength htakes).ne rfl
    · intro hseparators
      rw [(alternative?_eq_some_iff hrest).2 ⟨behind, hword, hseparators, rfl⟩] at hnone
      cases hnone
  · obtain ⟨behind, hword, hseparators, hpart⟩ := (alternative?_eq_some_iff hrest).1 hsome
    refine ⟨fun hnone => ?_, fun other hother => ?_⟩
    · rw [hword] at hnone
      cases hnone
    · obtain rfl : behind = other := Option.some.inj (hword.symm.trans hother)
      refine ⟨iff_of_true (htakes behind hpart) hseparators, ?_⟩
      rintro ⟨g, hg, hcomment⟩
      exact absurd hcomment (hseparators g hg)

section Sources

/-- A conditional with an else branch on the next line. -/
def spaced : List Glyph :=
  coded "if (true) \x7b a() \x7d\nelse \x7b b() \x7d;".toList

/-- Behind a line feed an else branch is found, and it goes with its `else`. -/
theorem eliminate_else_iff_line :
    scan (chars spaced) = some spaced ∧ Folds spaced spaced (coded "\x7b a() \x7d;".toList) ∧
      TakesElse (coded "\x7b a() \x7d".toList) (coded " \x7b b() \x7d;".toList) true
        (coded "\x7b a() \x7d;".toList) := by
  have hscan : scan (chars spaced) = some spaced := by decide +kernel
  have hfold : fold? spaced = some (coded "\x7b a() \x7d;".toList) := by decide +kernel
  have hnext : scan (chars (coded "\x7b a() \x7d;".toList)) =
      some (coded "\x7b a() \x7d;".toList) := by
    decide +kernel
  obtain ⟨front, here, value, block, rest, tail, hbefore, hfolded, hconditional, -, helse⟩ :=
    eliminate_else_iff hscan (.here hfold hnext)
  -- the source has one conditional, at its start
  obtain rfl : front = [] := by
    have hstart : ∀ n < spaced.length + 1, (word? ['i', 'f'] (spaced.drop n)).isSome = true →
        n = 0 := by
      decide +kernel
    have hlength := congrArg List.length hbefore
    rw [List.length_append] at hlength
    obtain ⟨behind, -, hword, -⟩ := hconditional
    refine List.length_eq_zero_iff.1 (hstart front.length (by omega) ?_)
    rw [hbefore, List.drop_left, hword]
    rfl
  rw [List.nil_append] at hbefore hfolded
  subst hbefore hfolded
  have hhere : Conditional spaced true (coded "\x7b a() \x7d".toList)
      (coded "\nelse \x7b b() \x7d;".toList) :=
    ⟨coded " (true) \x7b a() \x7d\nelse \x7b b() \x7d;".toList,
      coded "\x7b a() \x7d\nelse \x7b b() \x7d;".toList,
      by decide +kernel, by decide +kernel, by decide +kernel⟩
  obtain ⟨rfl, rfl, rfl⟩ := hconditional.unique hhere
  refine ⟨hscan, .here hfold hnext, (helse _ (by decide +kernel)).1.2 ?_⟩
  decide +kernel

/-- The text behind the block of a conditional, with a comment in front of its `else`. -/
def commented : List Glyph :=
  coded [' '] ++ "/* c */".toList.map (⟨·, .comment⟩) ++ coded " else \x7b b(); \x7d\n".toList

/-- Behind a comment no else branch is found. The `else` stays, and the `if` goes. -/
theorem eliminate_orphans_else :
    scan "if (false) \x7b a(); \x7d /* c */ else \x7b b(); \x7d\n".toList =
        some (coded "if (false) \x7b a(); \x7d".toList ++ commented) ∧
      Folds (coded "if (false) \x7b a(); \x7d".toList ++ commented)
        (coded "if (false) \x7b a(); \x7d".toList ++ commented) (emptyBlock ++ commented) ∧
      Conditional (coded "if (false) \x7b a(); \x7d".toList ++ commented) false
        (coded "\x7b a(); \x7d".toList) commented ∧
      word? ['e', 'l', 's', 'e'] (skipSeparators commented) =
        some (coded " \x7b b(); \x7d\n".toList) ∧
      ¬ TakesElse (coded "\x7b a(); \x7d".toList) (coded " \x7b b(); \x7d\n".toList) false
        (emptyBlock ++ commented) ∧
      eliminate "if (false) \x7b a(); \x7d /* c */ else \x7b b(); \x7d\n" =
        "\x7b\x7d /* c */ else \x7b b(); \x7d\n" := by
  have hnext : scan (chars (emptyBlock ++ commented)) = some (emptyBlock ++ commented) := by
    decide +kernel
  refine ⟨by decide +kernel, .here (by decide +kernel) hnext, ?_, by decide +kernel, ?_,
    by decide +kernel⟩
  · exact ⟨coded " (false) \x7b a(); \x7d".toList ++ commented,
      coded "\x7b a(); \x7d".toList ++ commented,
      by decide +kernel, by decide +kernel, by decide +kernel⟩
  · exact fun htakes => (length_lt_of_takesElse (by decide) htakes).ne rfl

end Sources

end MiniProgram.Source
