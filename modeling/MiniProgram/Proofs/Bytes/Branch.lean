import MiniProgram.Proofs.Bytes.Reading
import MiniProgram.Proofs.Bytes.Search

/-!
# Folding constant branches at byte offsets

`foldBytes? source regions` folds the first foldable conditional of a source: it tries every offset
at which `if` occurs, reads on from offset to offset, and puts the result together of slices of the
source. The end of a block is looked for with a counter of open braces, which may not go below zero,
and a block without an end is a fault.

All offsets that are read from are in code, and the brackets behind them close what is open there
(`Place`), so every block has an end. Read `foldBytes?_eq` first: no step fails, and the result is
that of `fold?`.
-/

namespace MiniProgram.Bytes

open Source Text

/-- The offset of the brace at which no block is open any more, where `depth` blocks are open in
front of the given characters. Offsets count from `start`, and only braces in code count. -/
def blockEndFrom (regions : List Region) (start depth : ℕ) :
    List (ℕ × Char) → Except Fault (Option ℕ)
  | [] => .ok none
  | (index, c) :: later =>
    match regions[start + index]? with
    | none => .error (.index (start + index))
    | some region =>
      if region ≠ .code then blockEndFrom regions start depth later
      else if c = '{' then blockEndFrom regions start (depth + 1) later
      else if c = '}' then do
        let outer ← minus depth 1
        if outer = 0 then return some (start + index)
        else blockEndFrom regions start outer later
      else blockEndFrom regions start depth later

/-- The offset of the brace that closes the block at an offset. -/
def blockEndAt (source : List Char) (regions : List Region) (start : ℕ) : Except Fault ℕ := do
  match ← blockEndFrom regions start 0 (charIndices 0 (← sliceFrom source start)) with
  | some close => return close
  | none => throw (.unclosed start)

/-- The constant at an offset, and the offset behind it. -/
def constantAt (source : List Char) (regions : List Region) (index : ℕ) :
    Except Fault (Option (Bool × ℕ)) := do
  if ← keywordAt source regions index ['t', 'r', 'u', 'e'] then return some (true, index + 4)
  else if ← keywordAt source regions index ['f', 'a', 'l', 's', 'e'] then
    return some (false, index + 5)
  else return none

/-- The constant condition at an offset, and the offset of the text behind it. -/
def conditionAt (source : List Char) (regions : List Region) (index : ℕ) :
    Except Fault (Option (Bool × ℕ)) := do
  let opened ← skipAt source index
  if ← symbolAt source opened '(' then
    match ← constantAt source regions (← skipAt source (opened + 1)) with
    | none => return none
    | some (value, behind) =>
      let closed ← skipAt source behind
      if ← symbolAt source closed ')' then return some (value, ← skipAt source (closed + 1))
      else return none
  else return none

/-- What a conditional is replaced by whose block reaches from one offset to another, and the offset
up to which it is replaced. -/
def branchAt (source : List Char) (regions : List Region) (value : Bool) (opened close : ℕ) :
    Except Fault (Option (List Char × ℕ)) := do
  let after ← skipAt source (close + 1)
  let hasElse ← keywordAt source regions after ['e', 'l', 's', 'e']
  let rest ← if hasElse then skipAt source (after + 4) else pure after
  match value, hasElse with
  | false, false => return some (['{', '}'], close + 1)
  | false, true => return some ([], rest)
  | true, false => return some (← slice source opened (close + 1), close + 1)
  | true, true =>
    if ← symbolAt source rest '{' then
      let elseClose ← blockEndAt source regions rest
      return some (← slice source opened (close + 1), elseClose + 1)
    else return none

/-- Folds the conditional at an offset. -/
def foldAt (source : List Char) (regions : List Region) (start : ℕ) :
    Except Fault (Option (List Char)) := do
  if ← keywordAt source regions start ['i', 'f'] then
    match ← conditionAt source regions (start + 2) with
    | none => return none
    | some (value, opened) =>
      if ← symbolAt source opened '{' then
        let close ← blockEndAt source regions opened
        match ← branchAt source regions value opened close with
        | none => return none
        | some (replacement, stop) =>
          return some ((← sliceTo source start) ++ (replacement ++ (← sliceFrom source stop)))
      else return none
  else return none

/-- Folds the conditional at the first of some offsets where there is one. -/
def foldAmong (source : List Char) (regions : List Region) :
    List ℕ → Except Fault (Option (List Char))
  | [] => .ok none
  | start :: later => do
    match ← foldAt source regions start with
    | some folded => return some folded
    | none => foldAmong source regions later

/-- Folds the first foldable conditional of a source. -/
def foldBytes? (source : List Char) (regions : List Region) : Except Fault (Option (List Char)) :=
  foldAmong source regions (occurrences ['i', 'f'] source)

/-- A place in the code of a source, behind which every bracket is closed that is open there. -/
structure Place (glyphs : List Glyph) (index : ℕ) (front rest : List Glyph) : Prop extends
    Stands glyphs index front rest where
  readable : Readable .code rest
  closes : ∃ stack, nest stack (brackets rest) = some []

section Blocks

variable {glyphs front rest block behind later : List Glyph} {inside outer : List Char}
  {index start offset depth : ℕ}

/-- An opening brace of code opens one block more. -/
theorem closeBlock_opening (depth : ℕ) (rest : List Glyph) :
    closeBlock depth (⟨'{', .code⟩ :: rest) =
      prepend ⟨'{', .code⟩ (closeBlock (depth + 1) rest) := by
  rw [closeBlock.eq_def]
  rfl

/-- A closing brace of code closes an inner block. -/
theorem closeBlock_closing (depth : ℕ) (rest : List Glyph) :
    closeBlock (depth + 1) (⟨'}', .code⟩ :: rest) =
      prepend ⟨'}', .code⟩ (closeBlock depth rest) := by
  rw [closeBlock.eq_def]
  rfl

/-- What is no brace of code belongs to the block. -/
theorem closeBlock_other {g : Glyph} (hopens : g ≠ ⟨'{', .code⟩) (hcloses : g ≠ ⟨'}', .code⟩)
    (depth : ℕ) (rest : List Glyph) :
    closeBlock depth (g :: rest) = prepend g (closeBlock depth rest) := by
  rw [closeBlock.eq_def]
  simp only [if_neg hopens, if_neg hcloses]

/-- A cut that is there is still there with a character in front. -/
theorem exists_prepend {cut : Option (List Glyph × List Glyph)} (g : Glyph)
    (h : ∃ block behind, cut = some (block, behind)) :
    ∃ block behind, prepend g cut = some (block, behind) := by
  obtain ⟨block, behind, rfl⟩ := h
  exact ⟨g :: block, behind, rfl⟩

/-- If all brackets are closed at the end, then a closing brace is found. -/
theorem exists_closeBlock (h : nest (inside ++ '{' :: outer) (brackets rest) = some []) :
    ∃ block behind, closeBlock (inside.count '{') rest = some (block, behind) := by
  induction rest generalizing inside with
  | nil => simp [brackets_nil, nest_nil] at h
  | cons g rest ih =>
      obtain ⟨c, region⟩ := g
      by_cases hbracket : region = .code ∧ isBracket c = true
      · obtain ⟨rfl, hc⟩ := hbracket
        rw [brackets_cons_of_bracket hc] at h
        obtain ⟨middle, hturn, hrest⟩ := nest_cons_iff.1 h
        cases hkind : opening? c with
        | none =>
            obtain rfl := Option.some.inj ((turn_opening hkind _).symm.trans hturn)
            have hlater := @ih (c :: inside) hrest
            by_cases hbrace : c = '{'
            · subst hbrace
              rw [List.count_cons_self] at hlater
              rw [closeBlock_opening]
              exact exists_prepend _ hlater
            · rw [List.count_cons_of_ne hbrace] at hlater
              rw [closeBlock_other (by simpa using hbrace) (by rintro ⟨⟩; cases hkind)]
              exact exists_prepend _ hlater
        | some opener =>
            have hstack := eq_cons_of_turn hkind hturn
            have hopens : c ≠ '{' := by
              rintro rfl
              cases hkind
            cases inside with
            | nil =>
                obtain ⟨rfl, -⟩ := List.cons.inj hstack
                obtain rfl := eq_brace_of_opening? hkind
                exact ⟨_, _, rfl⟩
            | cons d inside =>
                obtain ⟨rfl, rfl⟩ := List.cons.inj hstack
                by_cases hbrace : d = '{'
                · subst hbrace
                  obtain rfl := eq_brace_of_opening? hkind
                  rw [List.count_cons_self, closeBlock_closing]
                  exact exists_prepend _ (ih hrest)
                · have hcloses : (⟨c, .code⟩ : Glyph) ≠ ⟨'}', .code⟩ := by
                    rintro ⟨⟩
                    exact hbrace (Option.some.inj hkind).symm
                  rw [List.count_cons_of_ne hbrace,
                    closeBlock_other (by simpa using hopens) hcloses]
                  exact exists_prepend _ (ih hrest)
      · have hplain : (⟨c, region⟩ : Glyph).region = .code → isBracket c = false := by
          simpa using hbracket
        rw [brackets_cons_of_not hplain] at h
        have hother (d : Char) (hd : isBracket d = true) : (⟨c, region⟩ : Glyph) ≠ ⟨d, .code⟩ := by
          rintro ⟨⟩
          exact hbracket ⟨rfl, hd⟩
        rw [closeBlock_other (hother _ (by decide)) (hother _ (by decide))]
        exact exists_prepend _ (ih h)

/-- The counter is one above the number of further blocks that are open. -/
theorem blockEndFrom_eq (h : Stands glyphs (start + offset) front later)
    (hcut : closeBlock depth later = some (block, behind)) :
    ∃ close, blockEndFrom (bytes glyphs) start (depth + 1) (charIndices offset (chars later)) =
        .ok (some close) ∧ close + 1 = start + offset + size (chars block) := by
  -- along the cut, where the next character stands behind the bytes of the last one
  have hstep : ∀ {g : Glyph} {later front : List Glyph} {offset : ℕ},
      Stands glyphs (start + offset) front (g :: later) →
        (bytes glyphs)[start + offset]? = some g.region ∧
        Stands glyphs (start + (offset + g.char.utf8Size)) (front ++ [g]) later := by
    intro g later front offset h
    exact ⟨h.region_eq, Nat.add_assoc start offset _ ▸ h.step⟩
  fun_induction closeBlock depth later generalizing block front offset with
  | case1 => cases hcut
  | case2 depth later ih =>
      obtain ⟨inner, hinner, rfl⟩ := prepend_eq_some_iff.1 hcut
      obtain ⟨hregion, hnext⟩ := hstep h
      obtain ⟨close, hclose, hsize⟩ := ih hnext hinner
      refine ⟨close, ?_, by rw [hsize, chars_cons, size_cons]; omega⟩
      rw [chars_cons, charIndices, blockEndFrom, hregion]
      exact hclose
  | case3 later =>
      cases hcut
      obtain ⟨hregion, -⟩ := hstep h
      refine ⟨start + offset, ?_, rfl⟩
      rw [chars_cons, charIndices, blockEndFrom, hregion]
      rfl
  | case4 later depth _ ih =>
      obtain ⟨inner, hinner, rfl⟩ := prepend_eq_some_iff.1 hcut
      obtain ⟨hregion, hnext⟩ := hstep h
      obtain ⟨close, hclose, hsize⟩ := ih hnext hinner
      refine ⟨close, ?_, by rw [hsize, chars_cons, size_cons]; omega⟩
      rw [chars_cons, charIndices, blockEndFrom, hregion]
      exact hclose
  | case5 depth g later hopens hcloses ih =>
      obtain ⟨inner, hinner, rfl⟩ := prepend_eq_some_iff.1 hcut
      obtain ⟨hregion, hnext⟩ := hstep h
      obtain ⟨close, hclose, hsize⟩ := ih hnext hinner
      refine ⟨close, ?_, by rw [hsize, chars_cons, size_cons]; omega⟩
      obtain ⟨c, region⟩ := g
      rw [chars_cons, charIndices, blockEndFrom, hregion]
      cases region <;> simp_all

end Blocks

namespace Place

variable {glyphs front rest behind block : List Glyph} {index : ℕ} {text : List Char}

/-- If all brackets are closed behind a text, then they are closed behind its last part. -/
theorem closes_append (h : ∃ stack, nest stack (brackets (front ++ rest)) = some []) :
    ∃ stack, nest stack (brackets rest) = some [] := by
  obtain ⟨stack, hnest⟩ := h
  rw [brackets_append, nest_append_iff] at hnest
  obtain ⟨middle, -, hrest⟩ := hnest
  exact ⟨middle, hrest⟩

/-- Behind code without blocks that has been read stands a place, if the brackets behind it are
closed. -/
theorem of_reads (h : Stands glyphs index front rest)
    (hcloses : ∃ stack, nest stack (brackets rest) = some []) (hreads : Reads text rest behind) :
    Place glyphs (index + size text) (front ++ coded text) behind where
  toStands := h.reads hreads
  readable := hreads.readable
  closes := closes_append (hreads.eq_append ▸ hcloses)

/-- Behind code that has been read at a place stands a place. -/
theorem reads (h : Place glyphs index front rest) (hreads : Reads text rest behind) :
    Place glyphs (index + size text) (front ++ coded text) behind :=
  of_reads h.toStands h.closes hreads

/-- Behind a block at a place stands a place. -/
theorem behind_block (h : Place glyphs index front rest)
    (hcut : block? rest = some (block, behind)) :
    Place glyphs (index + size (chars block)) (front ++ block) behind := by
  obtain rfl := append_of_block? hcut
  exact ⟨h.toStands.move, (block_of_block? hcut h.readable).readable, closes_append h.closes⟩

/-- Behind the blanks at a place is a place. -/
theorem exists_skipAt (h : Place glyphs index front rest) :
    ∃ gap, skipAt (chars glyphs) index = .ok (index + size gap) ∧
      (∀ c ∈ gap, isBlank c = true) ∧
      Place glyphs (index + size gap) (front ++ coded gap) (skipBlanks rest) := by
  obtain ⟨gap, hreads, hblanks⟩ := reads_skipBlanks h.readable
  refine ⟨gap, ?_, hblanks, h.reads hreads⟩
  obtain ⟨skipped, hskipped, -, hskip⟩ := Bytes.exists_skipAt h.toStands
  have hsame : skipped = coded gap :=
    List.append_cancel_right (hskipped.symm.trans hreads.eq_append)
  rw [hskip, hsame, chars_coded]

/-- A block that starts at a place has an end. -/
theorem exists_block (h : Place glyphs index front rest) (hopens : symbol? '{' rest = some behind) :
    ∃ block behind, block? rest = some (block, behind) := by
  obtain ⟨stack, hnest⟩ := h.closes
  have hreads := reads_symbol? (by decide) hopens h.readable
  rw [hreads.eq_append, brackets_append, nest_append_iff] at hnest
  obtain ⟨middle, hbrace, hbehind⟩ := hnest
  obtain rfl : '{' :: stack = middle := Option.some.inj hbrace
  obtain ⟨block, later, hcut⟩ := @exists_closeBlock _ [] stack hbehind
  exact ⟨_, _, by rw [hreads.eq_append]; exact prepend_eq_some_iff.2 ⟨block, hcut, rfl⟩⟩

/-- The block at a place ends at the brace that the cut ends with, and no index is out of range on
the way. -/
theorem blockEndAt_eq (h : Place glyphs index front rest)
    (hcut : block? rest = some (block, behind)) :
    ∃ close, blockEndAt (chars glyphs) (bytes glyphs) index = .ok close ∧
      close + 1 = index + size (chars block) := by
  obtain ⟨tail, rfl⟩ : ∃ tail, rest = ⟨'{', .code⟩ :: tail := by
    obtain ⟨⟨inner, rfl⟩, -, -⟩ := block_of_block? hcut h.readable
    exact ⟨_, append_of_block? hcut⟩
  obtain ⟨inner, hinner, rfl⟩ := prepend_eq_some_iff.1 hcut
  have hbehind : Stands glyphs (index + 1) (front ++ [⟨'{', .code⟩]) tail := h.toStands.step
  obtain ⟨close, hclose, hsize⟩ := blockEndFrom_eq hbehind hinner
  have hend : blockEndFrom (bytes glyphs) index 0 (charIndices 0 (chars (⟨'{', .code⟩ :: tail))) =
      .ok (some close) := by
    rw [chars_cons, charIndices, blockEndFrom, Nat.add_zero, h.region_eq]
    exact hclose
  refine ⟨close, ?_, by rw [chars_cons, size_cons, hsize, Nat.add_assoc]; rfl⟩
  simp only [blockEndAt, h.sliceFrom_eq, hend, bind, Except.bind, pure, Except.pure]

end Place

section Conditions

variable {glyphs front rest : List Glyph} {index : ℕ}

/-- What is found in a source: nothing by both readers, or the same value with the same text behind
it. -/
inductive Finds (glyphs : List Glyph) : Option (Bool × List Glyph) → Option (Bool × ℕ) → Prop where
  | nothing : Finds glyphs none none
  | value {value front rest index} : Place glyphs index front rest →
      Finds glyphs (some (value, rest)) (some (value, index))

/-- Blanks behind a boundary end with a boundary. -/
theorem boundary_getLast?_append {front gap : List Char} (hfront : boundary front.getLast? = true)
    (hgap : ∀ c ∈ gap, isBlank c = true) : boundary (front ++ gap).getLast? = true := by
  rcases List.eq_nil_or_concat gap with rfl | ⟨gap, c, rfl⟩
  · rwa [List.append_nil]
  · rw [List.concat_eq_append, ← List.append_assoc, List.getLast?_concat]
    exact boundary_of_isBlank (hgap c (by simp))

/-- Reading a constant at an offset finds what reading it off the text finds. -/
theorem exists_constantAt (h : Place glyphs index front rest)
    (hboundary : boundary (chars front).getLast? = true) :
    ∃ answer, constantAt (chars glyphs) (bytes glyphs) index = .ok answer ∧
      Finds glyphs (constant? rest) answer := by
  simp only [constantAt, keywordAt_eq h.toStands, hboundary, Bool.true_and, bind, Except.bind, pure,
    Except.pure]
  rw [constant?]
  cases htrue : word? ['t', 'r', 'u', 'e'] rest with
  | some behind =>
      exact ⟨_, rfl, .value (h.reads (reads_word? (by decide) (by decide) htrue h.readable))⟩
  | none =>
      cases hfalse : word? ['f', 'a', 'l', 's', 'e'] rest with
      | some behind =>
          exact ⟨_, rfl, .value (h.reads (reads_word? (by decide) (by decide) hfalse h.readable))⟩
      | none => exact ⟨_, rfl, .nothing⟩

/-- Reading a condition at an offset finds what reading it off the text finds. -/
theorem exists_conditionAt (h : Place glyphs index front rest) :
    ∃ answer, conditionAt (chars glyphs) (bytes glyphs) index = .ok answer ∧
      Finds glyphs (condition? rest) answer := by
  obtain ⟨gap, hskip, -, hopened⟩ := h.exists_skipAt
  simp only [conditionAt, hskip, symbolAt_eq hopened.toStands, bind, Except.bind, pure, Except.pure]
  simp only [condition?, Option.bind_eq_bind]
  cases hopens : symbol? '(' (skipBlanks rest) with
  | none => exact ⟨none, rfl, .nothing⟩
  | some opened =>
      have hinside : Place glyphs (index + size gap + 1) _ opened :=
        hopened.reads (reads_symbol? (by decide) hopens hopened.readable)
      obtain ⟨inner, hskip, hblanks, hfirst⟩ := hinside.exists_skipAt
      have hboundary :
          boundary (chars (front ++ coded gap ++ coded ['('] ++ coded inner)).getLast? = true := by
        rw [chars_append, chars_coded]
        refine boundary_getLast?_append ?_ hblanks
        rw [chars_append, chars_coded, List.getLast?_concat]
        decide
      obtain ⟨answer, hconstant, hfinds⟩ := exists_constantAt hfirst hboundary
      simp only [Option.isSome_some, if_true, hskip, hconstant, Option.bind_some]
      generalize constant? (skipBlanks opened) = found at hfinds
      cases hfinds with
      | nothing => exact ⟨none, rfl, .nothing⟩
      | @value value front behind index hbehind =>
          obtain ⟨tail, hskip, -, hclosed⟩ := hbehind.exists_skipAt
          simp only [hskip, symbolAt_eq hclosed.toStands, Option.bind_some]
          cases hcloses : symbol? ')' (skipBlanks behind) with
          | none => exact ⟨none, rfl, .nothing⟩
          | some closed =>
              have hlast : Place glyphs (index + size tail + 1) _ closed :=
                hclosed.reads (reads_symbol? (by decide) hcloses hclosed.readable)
              obtain ⟨last, hskip, -, hend⟩ := hlast.exists_skipAt
              simp only [Option.isSome_some, if_true, hskip, Option.bind_some]
              exact ⟨_, rfl, .value hend⟩

end Conditions

section Folding

variable {glyphs front rest inner block : List Glyph} {index close : ℕ}

/-- What a part of a source is replaced by: nothing by both readers, or the same text in front of
the same rest. -/
inductive Replaces (glyphs : List Glyph) : Option (List Glyph) → Option (List Char × ℕ) → Prop where
  | nothing : Replaces glyphs none none
  | text {replacement front rest index} : Stands glyphs index front rest →
      Replaces glyphs (some (replacement ++ rest)) (some (chars replacement, index))

/-- Without an opening brace there is no block. -/
theorem block?_eq_none (h : symbol? '{' rest = none) : block? rest = none := by
  cases rest with
  | nil => rfl
  | cons g rest =>
      rw [symbol?] at h
      split at h
      · cases h
      · next hother => exact if_neg hother

/-- Behind a block and blanks there is a boundary. -/
theorem boundary_behind_block {gap : List Char} (h : Place glyphs index front inner)
    (hcut : block? inner = some (block, rest)) (hgap : ∀ c ∈ gap, isBlank c = true) :
    boundary (chars (front ++ block ++ coded gap)).getLast? = true := by
  obtain ⟨⟨inside, rfl⟩, -, -⟩ := block_of_block? hcut h.readable
  rw [chars_append, chars_coded]
  refine boundary_getLast?_append ?_ hgap
  rw [← List.cons_append, ← List.append_assoc, chars_append]
  simp only [chars_cons, chars_nil, List.getLast?_concat]
  decide

/-- Choosing a branch at an offset replaces the conditional by what choosing it in the text leaves.
-/
theorem exists_branchAt (h : Place glyphs index front inner)
    (hcut : block? inner = some (block, rest)) (hclose : close + 1 = index + size (chars block))
    (value : Bool) :
    ∃ answer, branchAt (chars glyphs) (bytes glyphs) value index close = .ok answer ∧
      Replaces glyphs (branch value block rest) answer := by
  have hbehind := h.behind_block hcut
  have hslice : slice (chars glyphs) index (close + 1) = .ok (chars block) := by
    rw [hclose]
    exact (append_of_block? hcut ▸ h.toStands : Stands glyphs index front (block ++ rest)).slice_eq
  rw [← hclose] at hbehind
  obtain ⟨gap, hskip, hblanks, hafter⟩ := hbehind.exists_skipAt
  have hboundary := boundary_behind_block h hcut hblanks
  simp only [branchAt, hskip, keywordAt_eq hafter.toStands, hboundary, Bool.true_and, bind,
    Except.bind, pure, Except.pure]
  cases helse : word? ['e', 'l', 's', 'e'] (skipBlanks rest) with
  | none =>
      have hnone : alternative? rest = none := by rw [alternative?, helse, Option.map_none]
      cases value with
      | false =>
          rw [branch.eq_def, hnone]
          exact ⟨_, rfl, @Replaces.text _ emptyBlock _ _ _ hbehind.toStands⟩
      | true =>
          rw [branch.eq_def, hnone]
          simp only [Option.isSome_none, hslice]
          exact ⟨_, rfl, .text hbehind.toStands⟩
  | some tail =>
      have hsome : alternative? rest = some (skipBlanks tail) := by
        rw [alternative?, helse, Option.map_some]
      have htail : Place glyphs (close + 1 + size gap + 4) _ tail :=
        hafter.reads (reads_word? (by decide) (by decide) helse hafter.readable)
      obtain ⟨last, hskip, -, hpart⟩ := htail.exists_skipAt
      simp only [Option.isSome_some, if_true, hskip]
      cases value with
      | false =>
          rw [branch.eq_def, hsome]
          exact ⟨_, rfl, @Replaces.text _ [] _ _ _ hpart.toStands⟩
      | true =>
          rw [branch.eq_def, hsome]
          simp only [symbolAt_eq hpart.toStands]
          cases hopens : symbol? '{' (skipBlanks tail) with
          | none =>
              rw [block?_eq_none hopens]
              exact ⟨_, rfl, .nothing⟩
          | some others =>
              obtain ⟨other, behind, hother⟩ := hpart.exists_block hopens
              obtain ⟨elseClose, hend, hsize⟩ := hpart.blockEndAt_eq hother
              have hlast := (hpart.behind_block hother).toStands
              rw [← hsize] at hlast
              simp only [Option.isSome_some, if_true, hend, hslice, hother, Option.map_some]
              exact ⟨_, rfl, .text hlast⟩

/-- Folding at an offset never fails, and does what is done at the character there. -/
theorem foldAt_eq {phase : Phase} (h : Stands glyphs index front rest)
    (hreadable : Readable phase rest) (hcloses : ∃ stack, nest stack (brackets rest) = some []) :
    foldAt (chars glyphs) (bytes glyphs) index =
      .ok ((foldHere (chars front).getLast? rest).map fun folded => chars (front ++ folded)) := by
  simp only [foldAt, keywordAt_eq h, bind, Except.bind, pure, Except.pure]
  simp only [foldHere, Option.bind_eq_bind]
  cases hboundary : boundary (chars front).getLast? with
  | false => cases word? ['i', 'f'] rest <;> rfl
  | true =>
      cases hword : word? ['i', 'f'] rest with
      | none => rfl
      | some behind =>
          have hbehind : Place glyphs (index + 2) _ behind :=
            .of_reads h hcloses (reads_word? (by decide) (by decide) hword hreadable)
          obtain ⟨answer, hcondition, hfinds⟩ := exists_conditionAt hbehind
          simp only [Option.isSome_some, Bool.and_self, if_true, hcondition, Option.filter_some,
            Option.bind_some]
          generalize condition? behind = found at hfinds
          cases hfinds with
          | nothing => rfl
          | @value value front inner opened hinner =>
              simp only [symbolAt_eq hinner.toStands, Option.bind_some]
              cases hopens : symbol? '{' inner with
              | none =>
                  rw [block?_eq_none hopens]
                  rfl
              | some inside =>
                  obtain ⟨block, rest, hcut⟩ := hinner.exists_block hopens
                  obtain ⟨close, hend, hsize⟩ := hinner.blockEndAt_eq hcut
                  obtain ⟨answer, hbranch, hreplaces⟩ := exists_branchAt hinner hcut hsize value
                  simp only [Option.isSome_some, if_true, hend, hbranch, hcut, Option.bind_some]
                  generalize branch value block rest = folded at hreplaces
                  cases hreplaces with
                  | nothing => rfl
                  | text hstop =>
                      simp only [h.sliceTo_eq, hstop.sliceFrom_eq, Option.map_some, chars_append]

/-- Only where the word stands a conditional is folded. -/
theorem foldHere_eq_none {previous : Option Char}
    (h : List.isPrefixOf ['i', 'f'] (chars rest) = false) : foldHere previous rest = none := by
  refine Option.eq_none_iff_forall_ne_some.2 fun folded hfold => ?_
  obtain ⟨gap, behind, htext, -⟩ := chars_of_foldHere hfold
  rw [htext] at h
  simp at h

/-- Of the offsets at which `if` stands the first that can be folded is where folding the text finds
a conditional. By induction on the text, where each offset belongs to one of its characters. -/
theorem foldAmong_eq {phase : Phase} (h : Stands glyphs index front rest)
    (hreadable : Readable phase rest) (hcloses : ∃ stack, nest stack (brackets rest) = some []) :
    foldAmong (chars glyphs) (bytes glyphs) (occurrencesFrom ['i', 'f'] index (chars rest)) =
      .ok ((foldFrom (chars front).getLast? rest).map fun folded => chars (front ++ folded)) := by
  induction rest generalizing phase front index with
  | nil =>
      rw [chars_nil, occurrencesFrom]
      rfl
  | cons g rest ih =>
      obtain ⟨next, -, hnext⟩ := Readable.cons_iff.1 hreadable
      have hlater := ih h.step hnext (@Place.closes_append [g] rest hcloses)
      have hlast : (chars (front ++ [g])).getLast? = some g.char := by simp
      have hfolded :
          (foldFrom (some g.char) rest).map (fun folded => chars (front ++ [g] ++ folded)) =
            ((foldFrom (some g.char) rest).map (g :: ·)).map fun folded =>
              chars (front ++ folded) := by
        simp [Function.comp_def]
      rw [hlast, hfolded] at hlater
      rw [chars_cons, occurrencesFrom_cons (by decide), foldFrom]
      cases hprefix : List.isPrefixOf ['i', 'f'] (g.char :: chars rest) with
      | false =>
          have hnone : foldHere (chars front).getLast? (g :: rest) = none :=
            foldHere_eq_none hprefix
          rw [if_neg Bool.false_ne_true, List.nil_append, hlater, hnone]
      | true =>
          rw [if_pos rfl, List.singleton_append]
          simp only [foldAmong, foldAt_eq h hreadable hcloses, hlater, bind, Except.bind]
          cases foldHere (chars front).getLast? (g :: rest) <;> rfl

/-- Folding never fails and never misses the end of a block. -/
theorem foldBytes?_eq (hscan : scan (chars glyphs) = some glyphs) :
    foldBytes? (chars glyphs) (bytes glyphs) = .ok ((fold? glyphs).map chars) := by
  obtain ⟨hreadable, hnested⟩ := scan_chars_iff.1 hscan
  exact foldAmong_eq (.start glyphs) hreadable ⟨[], hnested.nest_eq []⟩

end Folding

end MiniProgram.Bytes
