import MiniProgram.Proofs.Source.Declaration

/-!
# What stripping leaves is cut again

Stripping drops declarations, and the next round cuts what is left once more. A declaration may then
start where none started before, right behind a dropped one, and swallow text up to the next string.
But no text comes out of a declaration: read `sheds_of_thinned` first. Behind a declaration that is
kept the same cut is found again, or one that swallowed it goes on exactly as far
(`Thinned.exists_of_literal`).
-/

namespace MiniProgram.Source

open Text

/-- The text between the declarations of `glyphs`, which stand behind the characters `before`. -/
def bodyFrom (before : List Char) (glyphs : List Glyph) : List Char :=
  body (segmentsFrom before glyphs)

/-- What may start behind `before` may start behind `other`. -/
structure Agrees (before other : List Char) : Prop where
  starts : startsStatement before = true → startsStatement other = true
  boundary : boundary before.head? = true → boundary other.head? = true

section Agreement

variable {before other : List Char}

/-- A text agrees with itself. -/
theorem Agrees.refl (before : List Char) : Agrees before before :=
  ⟨id, id⟩

/-- Whether a statement may start is decided by the last character, unless it is a blank. -/
theorem startsStatement_cons (c : Char) (before : List Char) :
    startsStatement (c :: before) =
      if isBlank c then c == '\n' || startsStatement before else c == ';' || c == '}' := by
  by_cases hc : isBlank c = true
  · rw [if_pos hc, startsStatement, List.dropWhile_cons_of_pos hc, List.takeWhile_cons_of_pos hc,
      startsStatement]
    cases before.dropWhile isBlank with
    | nil => simp
    | cons d rest =>
        simp only [List.contains_cons]
        by_cases hline : c = '\n'
        · simp [hline]
        · simp [beq_eq_false_iff_ne.2 hline, beq_eq_false_iff_ne.2 (Ne.symm hline)]
  · rw [if_neg hc, startsStatement, List.dropWhile_cons_of_neg hc, List.takeWhile_cons_of_neg hc]
    simp

/-- Two texts that agree still do with a character behind both. -/
theorem Agrees.cons (c : Char) (h : Agrees before other) : Agrees (c :: before) (c :: other) := by
  refine ⟨fun hstarts => ?_, id⟩
  rw [startsStatement_cons] at hstarts ⊢
  by_cases hc : isBlank c = true
  · rw [if_pos hc, Bool.or_eq_true] at hstarts ⊢
    exact hstarts.imp_right h.starts
  · rw [if_neg hc] at hstarts ⊢
    exact hstarts

/-- Two texts that agree still do with a text behind both. -/
theorem Agrees.append (h : Agrees before other) (text : List Char) :
    Agrees (text.reverse ++ before) (text.reverse ++ other) := by
  induction text generalizing before other with
  | nil => exact h
  | cons c text ih =>
      rw [List.reverse_cons, List.append_assoc, List.append_assoc]
      exact ih (h.cons c)

end Agreement

/-- `Thinned before glyphs other rest` says that `rest`, behind `other`, is left of `glyphs`, behind
`before`, when some of its declarations are dropped. -/
inductive Thinned : List Char → List Glyph → List Char → List Glyph → Prop where
  | nil {before other} : Agrees before other → Thinned before [] other []
  | other {before other g glyphs rest} : Agrees before other →
      declaration? before (g :: glyphs) = none →
      Thinned (g.char :: before) glyphs (g.char :: other) rest →
      Thinned before (g :: glyphs) other (g :: rest)
  | kept {before other glyphs rest} (parts : Parts) : Agrees before other →
      Declares before parts glyphs →
      Thinned ((chars parts.text).reverse ++ before) glyphs
        ((chars parts.text).reverse ++ other) rest →
      Thinned before (parts.text ++ glyphs) other (parts.text ++ rest)
  | dropped {before other glyphs rest} (parts : Parts) : Agrees before other →
      Declares before parts glyphs →
      Thinned ((chars parts.text).reverse ++ before) glyphs other rest →
      Thinned before (parts.text ++ glyphs) other rest

section Bodies

variable {before : List Char} {glyphs : List Glyph} {parts : Parts}

/-- Nothing is left of an empty text. -/
@[simp]
theorem bodyFrom_nil (before : List Char) : bodyFrom before [] = [] := by
  rw [bodyFrom, segmentsFrom]
  rfl

/-- A character with which no declaration starts is left. -/
theorem bodyFrom_cons {g : Glyph} (h : declaration? before (g :: glyphs) = none) :
    bodyFrom before (g :: glyphs) = g.char :: bodyFrom (g.char :: before) glyphs := by
  rw [bodyFrom, segmentsFrom]
  split
  · next hsome => rw [h] at hsome; cases hsome
  · rfl

/-- Nothing is left of a declaration. -/
theorem bodyFrom_of_declaration? {declaration : Declaration} {rest : List Glyph}
    (h : declaration? before glyphs = some (declaration, rest)) :
    bodyFrom before glyphs = bodyFrom ((chars declaration.text).reverse ++ before) rest := by
  rw [bodyFrom, segmentsFrom_of_declaration? h]
  rfl

/-- Nothing is left of a text that has the parts of a declaration. -/
theorem bodyFrom_append (h : Declares before parts glyphs) :
    bodyFrom before (parts.text ++ glyphs) =
      bodyFrom ((chars parts.text).reverse ++ before) glyphs :=
  bodyFrom_of_declaration? (declaration?_eq_some h)

end Bodies

section Thinning

variable {before other : List Char} {glyphs rest : List Glyph} {phase : Phase}

/-- Dropping declarations of text that can be read leaves such a text. -/
theorem thinned_of_segmentsFrom {keep : Segment → Bool} (hkeep : ∀ g, keep (.other g) = true)
    (hfits : phase.Fits before) (hreadable : Readable phase glyphs)
    (hagrees : Agrees before other) :
    Thinned before glyphs other (((segmentsFrom before glyphs).filter keep).flatMap Segment.text) ∧
      Readable phase (((segmentsFrom before glyphs).filter keep).flatMap Segment.text) := by
  fun_induction segmentsFrom before glyphs generalizing other phase with
  | case1 => exact ⟨.nil hagrees, hreadable⟩
  | case2 before g tail declaration rest found ih =>
      obtain ⟨parts, hglyphs, rfl, hdeclares, rfl, hrun⟩ := exists_parts hfits hreadable found
      rw [hglyphs] at hreadable ⊢
      obtain ⟨middle, hmiddle, hrest⟩ := Readable.append_iff.1 hreadable
      obtain rfl : Phase.code = middle := Option.some.inj (hrun.symm.trans hmiddle)
      have hbehind : Phase.code.Fits ((chars parts.declaration.text).reverse ++ before) := trivial
      rw [List.filter_cons]
      split
      · obtain ⟨hthinned, hreads⟩ := ih hbehind hrest (hagrees.append _)
        exact ⟨.kept parts hagrees hdeclares hthinned,
          Readable.append_iff.2 ⟨.code, hrun, hreads⟩⟩
      · -- behind the dropped declaration another one may start, as it did
        have hdropped : Agrees ((chars parts.declaration.text).reverse ++ before) other :=
          ⟨fun _ => hagrees.starts hdeclares.starts, fun _ => hagrees.boundary hdeclares.boundary⟩
        obtain ⟨hthinned, hreads⟩ := ih hbehind hrest hdropped
        exact ⟨.dropped parts hagrees hdeclares hthinned, hreads⟩
  | case3 before g tail found ih =>
      obtain ⟨last, hrun, hlast⟩ := hreadable
      obtain ⟨next, hstep, hnext⟩ := run_cons_iff.1 hrun
      obtain ⟨hthinned, hreads⟩ := ih (hfits.step hstep) ⟨last, hnext, hlast⟩ (hagrees.cons g.char)
      rw [List.filter_cons, if_pos (hkeep g)]
      exact ⟨.other hagrees found hthinned, hreads.cons hstep⟩

/-- What is left is empty only when all text was in declarations. -/
theorem bodyFrom_of_thinned_nil (h : Thinned before glyphs other []) :
    bodyFrom before glyphs = [] := by
  generalize hrest : [] = rest at h
  induction h with
  | nil => exact bodyFrom_nil _
  | other => cases hrest
  | kept parts => cases hrest
  | dropped parts hagrees hdeclares h ih => rw [bodyFrom_append hdeclares, ih hrest]

/-- No statement starts right behind a string. -/
theorem not_startsStatement_of_tail {parts : Parts} (hready : parts.Ready) (htail : parts.tail = [])
    (before : List Char) : ¬ startsStatement ((chars parts.text).reverse ++ before) = true := by
  intro hstarts
  obtain ⟨quote, hlast, hquote⟩ := hready.quote
  have hhead : ((chars parts.text).reverse ++ before).head? = some quote := by
    rw [List.head?_append, List.head?_reverse, Parts.text, htail, List.append_nil, chars_append,
      chars_append, List.getLast?_append, List.getLast?_append, Option.mem_def.1 hlast]
    rfl
  have hplain := head?_of_startsStatement hstarts quote hhead
  simp only [isQuote, Bool.or_eq_true, beq_iff_eq] at hquote
  rcases hquote with (rfl | rfl) | rfl <;> revert hplain <;> decide

/-- What follows a declaration that is kept still follows it, up to blanks and semicolons that its
end takes over. -/
theorem exists_of_behind {parts : Parts} (hready : parts.Ready) (hbehind : Behind parts.tail glyphs)
    (h : Thinned ((chars parts.text).reverse ++ before) glyphs other rest) :
    ∃ gap, rest = gap ++ land (parts.tail ++ rest) ∧ (∀ g ∈ gap, isTrailing g.char = true) ∧
      parts.tail ++ rest ≠ [] ∧ ∀ g ∈ (parts.tail ++ rest).head?, g.region ≠ .string := by
  have hend : glyphs = [] → rest = [] := by
    rintro rfl
    generalize hempty : ([] : List Glyph) = glyphs at h
    cases h with
    | nil => rfl
    | other => cases hempty
    | kept parts => cases hempty
    | dropped parts => cases hempty
  obtain ⟨gap, hgap, htrailing⟩ := exists_of_land_append hbehind.lands hend
  refine ⟨gap, hgap, htrailing, ?_⟩
  cases htail : parts.tail with
  | cons g tail =>
      have hregion := hbehind.region
      rw [htail] at hregion
      exact ⟨by simp, hregion⟩
  | nil =>
      have hne := hbehind.nonempty
      have hregion := hbehind.region
      rw [htail, List.nil_append] at hne hregion
      rw [List.nil_append]
      have hquiet := not_startsStatement_of_tail hready htail before
      cases h with
      | nil => exact absurd rfl hne
      | other => exact ⟨by simp, hregion⟩
      | kept parts _ hdeclares => exact absurd hdeclares.starts hquiet
      | dropped parts _ hdeclares => exact absurd hdeclares.starts hquiet

/-- A declaration that is kept is found again, perhaps with more of the line behind it. -/
theorem exists_declares {parts : Parts} (hagrees : Agrees before other)
    (hdeclares : Declares before parts glyphs)
    (h : Thinned ((chars parts.text).reverse ++ before) glyphs
      ((chars parts.text).reverse ++ other) rest) :
    ∃ again behind, parts.text ++ rest = again.text ++ behind ∧ Declares other again behind := by
  obtain ⟨gap, hgap, htrailing, hne, hregion⟩ := exists_of_behind hdeclares.ready hdeclares.behind h
  refine ⟨⟨parts.clause, parts.literal, parts.tail ++ gap⟩, land (parts.tail ++ rest), ?_, ?_⟩
  · conv => lhs; rw [hgap]
    simp [Parts.text]
  · have hready := hdeclares.ready
    have hall : (parts.tail ++ gap) ++ land (parts.tail ++ rest) = parts.tail ++ rest := by
      rw [List.append_assoc, ← hgap]
    refine ⟨hagrees.starts hdeclares.starts, hagrees.boundary hdeclares.boundary, ?_, ?_⟩
    · refine ⟨hready.boundary, hready.clause, hready.literal, hready.nonempty, hready.parenthesis,
        hready.dot, ?_, hready.quote⟩
      intro g hg
      exact (List.mem_append.1 hg).elim (hready.tail g) (htrailing g)
    · refine ⟨?_, ?_, congrArg land hall⟩
      · show (parts.tail ++ gap) ++ land (parts.tail ++ rest) ≠ []
        rwa [hall]
      · show ∀ g ∈ ((parts.tail ++ gap) ++ land (parts.tail ++ rest)).head?, g.region ≠ .string
        rwa [hall]

/-- A character that is left where no declaration starts was left between declarations. -/
theorem Thinned.exists_of_cons {g : Glyph} (h : Thinned before glyphs other (g :: rest))
    (hg : g ≠ ⟨'i', .code⟩ ∨ declaration? other (g :: rest) = none) :
    ∃ front behind, Thinned (g.char :: front) behind (g.char :: other) rest ∧
      bodyFrom before glyphs = g.char :: bodyFrom (g.char :: front) behind := by
  generalize hall : g :: rest = all at h
  induction h with
  | nil => cases hall
  | @other before other d glyphs rest hagrees hnone h ih =>
      obtain ⟨rfl, rfl⟩ := List.cons.inj hall
      exact ⟨before, glyphs, h, bodyFrom_cons hnone⟩
  | @kept before other glyphs rest parts hagrees hdeclares h ih =>
      -- where a kept declaration starts, one is found again
      obtain ⟨again, behind, hagain, hfound⟩ := exists_declares hagrees hdeclares h
      rcases hg with hg | hg
      · exact absurd (List.cons.inj hall).1 hg
      · rw [hall, hagain, declaration?_eq_some hfound] at hg
        cases hg
  | @dropped before other glyphs rest parts hagrees hdeclares h ih =>
      rw [bodyFrom_append hdeclares]
      exact ih hg hall

/-- Text in which no declaration that is kept starts was left between declarations. -/
theorem Thinned.exists_of_append {front : List Glyph} (hfront : ∀ g ∈ front, g ≠ ⟨'i', .code⟩)
    (h : Thinned before glyphs other (front ++ rest)) :
    ∃ before' behind, Thinned before' behind ((chars front).reverse ++ other) rest ∧
      bodyFrom before glyphs = chars front ++ bodyFrom before' behind := by
  induction front generalizing before glyphs other with
  | nil => exact ⟨before, glyphs, h, rfl⟩
  | cons g front ih =>
      obtain ⟨hg, hfront⟩ := List.forall_mem_cons.1 hfront
      obtain ⟨before', behind, hbehind, hbody⟩ := Thinned.exists_of_cons h (.inl hg)
      obtain ⟨last, final, hfinal, hrest⟩ := ih hfront hbehind
      refine ⟨last, final, ?_, ?_⟩
      · rwa [chars_cons, List.reverse_cons, List.append_assoc]
      · rw [hbody, hrest]
        rfl

/-- A blank or a semicolon is not the `i` of a declaration. -/
theorem ne_of_isTrailing {g : Glyph} (h : isTrailing g.char = true) : g ≠ ⟨'i', .code⟩ := by
  rintro rfl
  revert h
  decide

/-- What is skipped at the end of a line ends at a boundary. -/
theorem boundary_of_trailing {gap : List Glyph} {previous : Option Char}
    (hgap : ∀ g ∈ gap, isTrailing g.char = true) (hprevious : boundary previous = true) :
    boundary ((chars gap).getLast?.or previous) = true := by
  cases hlast : (chars gap).getLast? with
  | none => exact hprevious
  | some c =>
      obtain ⟨g, hg, rfl⟩ := List.mem_map.1 (List.mem_of_getLast? hlast)
      exact (plain_of_isTrailing (hgap g hg)).1

/-- A cut that ends with the string of a declaration that is kept ends where the declaration did, up
to blanks and semicolons behind it. -/
theorem exists_of_kept {parts : Parts} {tail behind : List Glyph}
    (hdeclares : Declares before parts glyphs)
    (h : Thinned ((chars parts.text).reverse ++ before) glyphs
      ((chars parts.text).reverse ++ other) rest)
    (hbehind : Behind tail behind) (hsame : tail ++ behind = parts.tail ++ rest) :
    ∃ before' glyphs' gap, tail = parts.tail ++ gap ∧ (∀ g ∈ gap, isTrailing g.char = true) ∧
      Thinned before' glyphs' ((chars (parts.text ++ gap)).reverse ++ other) behind ∧
      bodyFrom before (parts.text ++ glyphs) = chars gap ++ bodyFrom before' glyphs' := by
  obtain ⟨gap, hgap, htrailing, -⟩ := exists_of_behind hdeclares.ready hdeclares.behind h
  rw [← hsame, hbehind.lands] at hgap
  rw [hgap] at h
  obtain ⟨before', glyphs', hthinned, hbody⟩ :=
    Thinned.exists_of_append (fun g hg => ne_of_isTrailing (htrailing g hg)) h
  refine ⟨before', glyphs', gap, ?_, htrailing, ?_, ?_⟩
  · rw [hgap, ← List.append_assoc] at hsame
    exact List.append_cancel_right hsame
  · rwa [chars_append, List.reverse_append, List.append_assoc]
  · rw [bodyFrom_append hdeclares, hbody]

/-- A cut in what is left, from the text in front of a string to the end of its line, ends between
the pieces of the whole text. What it takes of the text between the declarations ends at a
boundary. -/
theorem Thinned.exists_of_literal {front literal tail behind : List Glyph} {previous : Option Char}
    (h : Thinned before glyphs other (front ++ (literal ++ (tail ++ behind))))
    (hfront : ∀ g ∈ front, g.region ≠ .string) (hliteral : ∀ g ∈ literal, g.region = .string)
    (hne : literal ≠ []) (htail : ∀ g ∈ tail, isTrailing g.char = true)
    (hbehind : Behind tail behind)
    (hlast : boundary (chars (literal ++ tail)).getLast? = true)
    (hprevious : boundary before.head? = true → boundary previous = true) :
    ∃ before' glyphs' piece,
      Thinned before' glyphs' ((chars (front ++ (literal ++ tail))).reverse ++ other) behind ∧
      bodyFrom before glyphs = piece ++ bodyFrom before' glyphs' ∧
      boundary (piece.getLast?.or previous) = true := by
  generalize hall : front ++ (literal ++ (tail ++ behind)) = all at h
  induction h generalizing front previous with
  | nil => simp [hne] at hall
  | @other before other g glyphs rest hagrees hnone h ih =>
      cases front with
      | nil =>
          -- the string stood between declarations, and so does the end of its line
          have hwhole := Thinned.other hagrees hnone h
          rw [← hall, List.nil_append, ← List.append_assoc] at hwhole
          have hplain : ∀ g ∈ literal ++ tail, g ≠ ⟨'i', .code⟩ := by
            intro d hd
            rcases List.mem_append.1 hd with hd | hd
            · rintro rfl
              exact Region.noConfusion (hliteral _ hd)
            · exact ne_of_isTrailing (htail d hd)
          obtain ⟨before', glyphs', hthinned, hbody⟩ := Thinned.exists_of_append hplain hwhole
          refine ⟨before', glyphs', _, hthinned, hbody, ?_⟩
          have hsome : (chars (literal ++ tail)).getLast? ≠ none := by simp [chars, hne]
          obtain ⟨c, hc⟩ := Option.ne_none_iff_exists'.1 hsome
          rw [hc] at hlast ⊢
          exact hlast
      | cons d front =>
          obtain ⟨rfl, hrest⟩ := List.cons.inj hall
          obtain ⟨-, hfront⟩ := List.forall_mem_cons.1 hfront
          obtain ⟨before', glyphs', piece, hthinned, hbody, hend⟩ :=
            @ih front (some d.char) hfront id hrest
          refine ⟨before', glyphs', d.char :: piece, ?_, ?_, ?_⟩
          · rwa [List.cons_append, chars_cons, List.reverse_cons, List.append_assoc]
          · rw [bodyFrom_cons hnone, hbody]
            rfl
          · rwa [getLast?_cons_or]
  | @kept before other glyphs rest parts hagrees hdeclares h ih =>
      -- the string is that of the declaration, and the cut ends with it or a few blanks later
      have hready := hdeclares.ready
      obtain ⟨-, -, -, -, hregion⟩ := exists_of_behind hready hdeclares.behind h
      rw [parts.text_append] at hall
      obtain ⟨rfl, rfl, hrest⟩ := append_inj_of_literal hfront hliteral hne hbehind.region
        hready.region_ne hready.literal hready.nonempty hregion hall
      obtain ⟨before', glyphs', gap, rfl, htrailing, hthinned, hbody⟩ :=
        exists_of_kept hdeclares h hbehind hrest
      refine ⟨before', glyphs', chars gap, ?_, hbody, ?_⟩
      · simpa [Parts.text] using hthinned
      · exact boundary_of_trailing htrailing (hprevious hdeclares.boundary)
  | @dropped before other glyphs rest parts hagrees hdeclares h ih =>
      -- a dropped declaration adds nothing, and the body ends at a boundary in front of it
      obtain ⟨before', glyphs', piece, hthinned, hbody, hend⟩ :=
        ih hfront (fun _ => hprevious hdeclares.boundary) hall
      exact ⟨before', glyphs', piece, hthinned, by rw [bodyFrom_append hdeclares, hbody], hend⟩

/-- No text comes out of a declaration when others are dropped. -/
theorem sheds_of_thinned {previous : Option Char} (h : Thinned before glyphs other rest)
    (hfits : phase.Fits other) (hreadable : Readable phase rest)
    (hbefore : boundary before.head? = true → boundary previous = true)
    (hother : boundary other.head? = true → boundary previous = true) :
    Sheds previous (bodyFrom before glyphs) (bodyFrom other rest) := by
  -- the induction follows the cut of what is left; `h` says where it stands in the whole text
  fun_induction segmentsFrom other rest generalizing before glyphs previous phase with
  | case1 other =>
      rw [bodyFrom_of_thinned_nil h, bodyFrom_nil]
      exact .nil _
  | case2 other g tail declaration rest found ih =>
      obtain ⟨parts, hglyphs, rfl, hdeclares, rfl, hrun⟩ := exists_parts hfits hreadable found
      have hready := hdeclares.ready
      rw [hglyphs] at h hreadable ⊢
      obtain ⟨middle, hmiddle, hrest⟩ := Readable.append_iff.1 hreadable
      obtain rfl : Phase.code = middle := Option.some.inj (hrun.symm.trans hmiddle)
      -- what the declaration takes of the whole text is cut out of its body
      rw [parts.text_append] at h
      obtain ⟨before', glyphs', piece, hthinned, hbody, hend⟩ :=
        h.exists_of_literal hready.region_ne hready.literal hready.nonempty hready.tail
          hdeclares.behind hready.boundary_last hbefore
      have htext : (coded importWord ++ parts.clause) ++ (parts.literal ++ parts.tail) =
          parts.text := by
        simp [Parts.text]
      rw [htext] at hthinned
      rw [bodyFrom_append hdeclares, hbody]
      have hcode : Phase.code.Fits ((chars parts.text).reverse ++ other) := trivial
      refine .cut piece (hother hdeclares.boundary) (.inl ?_)
        (ih hthinned hcode hrest (fun _ => rfl) fun _ => rfl)
      cases hlast : piece.getLast? with
      | none => rfl
      | some c =>
          rw [hlast] at hend
          exact hend
  | case3 other g tail found ih =>
      obtain ⟨before', glyphs', hthinned, hbody⟩ := h.exists_of_cons (.inr found)
      obtain ⟨last, hrun, hlast⟩ := hreadable
      obtain ⟨next, hstep, hnext⟩ := run_cons_iff.1 hrun
      rw [bodyFrom_cons found, hbody]
      exact .keep (ih hthinned (hfits.step hstep) ⟨last, hnext, hlast⟩ id id)

end Thinning

/-- Stripping text that can be read leaves text that can be read, with no new word between its
declarations. -/
theorem readable_strip {glyphs : List Glyph} (h : Readable .code glyphs) :
    Readable .code (strip glyphs) ∧
      identifiers (body (segments (strip glyphs))) ⊆ identifiers (body (segments glyphs)) := by
  have hfits : Phase.code.Fits [] := trivial
  have hkeep (g : Glyph) : isKept (body (segments glyphs)) (.other g) = true := rfl
  obtain ⟨hthinned, hreadable⟩ := thinned_of_segmentsFrom hkeep hfits h (.refl [])
  exact ⟨hreadable, identifiers_subset_of_sheds
    (sheds_of_thinned hthinned hfits hreadable id id)⟩

end MiniProgram.Source
