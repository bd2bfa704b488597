import MiniProgram.Proofs.Source.Stripping

/-!
# Single pieces of a source

The cut of a source into pieces goes on behind each piece as it would from there on
(`segmentsFrom_of_append`). Read `sheds_of_segmentsFrom` first: what pieces leave between the
declarations ends at a boundary where they do, and has no word that does not stand in their text. So
a name that stands neither in front of a declaration nor behind it is not in the text between the
declarations (`not_mem_identifiers_body`).
-/

namespace MiniProgram.Source

open Text

section Phases

variable {glyphs front literal rest : List Glyph}

/-- Behind a string the reader is back in code. -/
theorem readable_of_literal (hliteral : ∀ g ∈ literal, g.region = .string) (hne : literal ≠ [])
    (hregion : ∀ g ∈ rest.head?, g.region ≠ .string) (hrest : rest ≠ [])
    (h : Readable .code (front ++ (literal ++ rest))) : Readable .code rest := by
  obtain ⟨inside, hfront, hinside⟩ := Readable.append_iff.1 h
  have hcode : Phase.code.Fits [] := trivial
  obtain ⟨hrun, -⟩ := run_literal (hcode.run hfront) hne hliteral hregion hrest hinside
  obtain ⟨middle, hmiddle, hlast⟩ := Readable.append_iff.1 hinside
  obtain rfl : Phase.code = middle := Option.some.inj (hrun.symm.trans hmiddle)
  exact hlast

/-- Text without quotes and slashes stands in code if what is in front of it does. -/
theorem region_of_plain (h : Readable .code (front ++ rest))
    (hplain : ∀ g ∈ front, isQuote g.char = false ∧ g.char ≠ '/') :
    ∀ g ∈ front, g.region = .code := by
  obtain ⟨middle, hrun, -⟩ := Readable.append_iff.1 h
  obtain ⟨hcoded, -⟩ := eq_coded_of_run hplain hrun
  rw [hcoded]
  exact fun g hg => region_of_mem_coded hg

end Phases

section Cutting

variable {before : List Char} {glyphs : List Glyph} {pieces others : List Segment}

/-- What follows some pieces is cut behind them. -/
theorem segmentsFrom_of_append (h : segmentsFrom before glyphs = pieces ++ others) :
    segmentsFrom ((chars (pieces.flatMap Segment.text)).reverse ++ before)
      (others.flatMap Segment.text) = others := by
  induction pieces generalizing before glyphs with
  | nil =>
      have htext := text_segmentsFrom before glyphs
      rw [h, List.nil_append] at htext
      rw [List.nil_append] at h
      rw [htext]
      exact h
  | cons piece pieces ih =>
      rw [List.flatMap_cons, chars_append, List.reverse_append, List.append_assoc]
      cases glyphs with
      | nil => simp [segmentsFrom] at h
      | cons g tail =>
          rw [segmentsFrom] at h
          split at h
          · next declaration rest found =>
              obtain ⟨rfl, hrest⟩ := List.cons.inj h
              exact ih hrest
          · obtain ⟨rfl, hrest⟩ := List.cons.inj h
            exact ih hrest

/-- A declaration among the pieces was read where it stands. -/
theorem declaration?_of_segmentsFrom {declaration : Declaration}
    (h : segmentsFrom before glyphs = .imports declaration :: others) :
    declaration? before glyphs = some (declaration, others.flatMap Segment.text) := by
  cases glyphs with
  | nil => simp [segmentsFrom] at h
  | cons g tail =>
      rw [segmentsFrom] at h
      split at h
      · next found rest hfound =>
          obtain ⟨hsame, hrest⟩ := List.cons.inj h
          obtain rfl := Segment.imports.inj hsame
          rw [hfound, ← hrest, text_segmentsFrom]
      · cases (List.cons.inj h).1

/-- No declaration starts in text without the word `import` that ends at a boundary. -/
theorem declaration?_append_eq_none {g : Glyph} {front rest : List Glyph}
    (hstands : ¬ StandsIn before.head? importWord (chars (g :: front)))
    (hlast : boundary (chars (g :: front)).getLast? = true) :
    declaration? before (g :: (front ++ rest)) = none := by
  refine Option.eq_none_iff_forall_ne_some.2 fun found hfound => ?_
  obtain ⟨hboundary, behind, hword⟩ := word?_of_declaration? hfound
  have hall : chars (g :: front) ++ chars rest = importWord ++ chars behind := by
    rw [← chars_append]
    exact append_of_word? hword
  have hafter := boundary_of_word? hword
  rcases List.append_eq_append_iff.1 hall with ⟨inner, hinside, -⟩ | ⟨inner, hfront, hbehind⟩
  · -- the text would end inside of the word
    obtain ⟨c, hc⟩ : ∃ c, (chars (g :: front)).getLast? = some c :=
      Option.isSome_iff_exists.1 (by rw [List.getLast?_isSome]; exact List.cons_ne_nil _ _)
    have hmem : c ∈ importWord := by
      rw [hinside]
      exact List.mem_append_left _ (List.mem_of_getLast? hc)
    rw [hc, boundary_some, Bool.not_eq_true',
      (isName_iff.1 isName_importWord).2 c hmem] at hlast
    cases hlast
  · refine hstands ⟨[], inner, hfront, hboundary, ?_⟩
    cases inner with
    | nil => rfl
    | cons c inner => rwa [hbehind] at hafter

/-- Text without the word `import` is cut into its characters. -/
theorem exists_segmentsFrom_append {front rest : List Glyph}
    (hstands : ¬ StandsIn before.head? importWord (chars front))
    (hlast : boundary (chars front).getLast? = true) :
    ∃ others, segmentsFrom before (front ++ rest) = front.map .other ++ others := by
  induction front generalizing before with
  | nil => exact ⟨_, rfl⟩
  | cons g front ih =>
      have hnone : declaration? before (g :: (front ++ rest)) = none :=
        declaration?_append_eq_none hstands hlast
      have hlater : ¬ StandsIn (some g.char) importWord (chars front) := by
        rintro ⟨inner, behind, htext, hinner, hbehind⟩
        refine hstands ⟨g.char :: inner, behind, ?_, getLast?_cons_or .. ▸ hinner, hbehind⟩
        rw [chars_cons, htext]
        rfl
      have hend : boundary (chars front).getLast? = true := by
        cases front with
        | nil => rfl
        | cons d front => exact hlast
      obtain ⟨others, hothers⟩ := @ih (g.char :: before) hlater hend
      refine ⟨others, ?_⟩
      rw [List.cons_append, segmentsFrom]
      split
      · next found => rw [hnone] at found; cases found
      · rw [hothers]
        rfl

/-- Any other character among the pieces stands where it was. -/
theorem exists_of_segmentsFrom_other {g : Glyph}
    (h : segmentsFrom before glyphs = .other g :: others) :
    ∃ tail, glyphs = g :: tail ∧ segmentsFrom (g.char :: before) tail = others := by
  cases glyphs with
  | nil => simp [segmentsFrom] at h
  | cons d tail =>
      rw [segmentsFrom] at h
      split at h
      · cases (List.cons.inj h).1
      · obtain ⟨hsame, hrest⟩ := List.cons.inj h
        obtain rfl := Segment.other.inj hsame
        exact ⟨tail, rfl, hrest⟩

end Cutting

section Bodies

variable {before : List Char} {glyphs : List Glyph} {pieces others : List Segment} {phase : Phase}

/-- A declaration ends at a boundary. -/
theorem Parts.Ready.boundary_text {parts : Parts} (h : parts.Ready) :
    Text.boundary (chars parts.text).getLast? = true := by
  have hlast := h.boundary_last
  have htext : parts.text =
      (coded importWord ++ parts.clause) ++ (parts.literal ++ parts.tail) := by
    simp [Parts.text]
  rwa [htext, chars_append, List.getLast?_append_of_ne_nil]
  simp [chars, h.nonempty]

/-- What pieces leave between the declarations is shed of their text, and ends at a boundary if they
do. -/
theorem sheds_of_segmentsFrom (previous : Option Char) (hfits : phase.Fits before)
    (hreadable : Readable phase glyphs) (h : segmentsFrom before glyphs = pieces ++ others)
    (hprevious : boundary before.head? = true → boundary previous = true) :
    Sheds previous (chars (pieces.flatMap Segment.text)) (body pieces) ∧
      (boundary ((chars (pieces.flatMap Segment.text)).getLast?.or before.head?) = true →
        boundary ((body pieces).getLast?.or previous) = true) := by
  induction pieces generalizing before glyphs previous phase with
  | nil => exact ⟨.nil _, hprevious⟩
  | cons piece pieces ih =>
      rw [List.flatMap_cons, chars_append, getLast?_append_or]
      cases piece with
      | imports declaration =>
          have found := declaration?_of_segmentsFrom h
          obtain ⟨parts, hglyphs, rfl, hdeclares, rfl, hrun⟩ := exists_parts hfits hreadable found
          have hboundary := hprevious hdeclares.boundary
          rw [hglyphs] at hreadable
          obtain ⟨middle, hmiddle, hrest⟩ := Readable.append_iff.1 hreadable
          obtain rfl : Phase.code = middle := Option.some.inj (hrun.symm.trans hmiddle)
          have hcode : Phase.code.Fits ((chars parts.text).reverse ++ before) := trivial
          rw [segmentsFrom_of_declaration? found] at h
          have hlater := fun previous => ih previous hcode hrest (List.cons.inj h).2
          refine ⟨.cut _ hboundary (.inl hdeclares.ready.boundary_text)
            (hlater none fun _ => rfl).1, fun hend => ?_⟩
          refine (hlater previous fun _ => hboundary).2 ?_
          rwa [List.head?_append, List.head?_reverse]
      | other g =>
          obtain ⟨tail, rfl, hpieces⟩ := exists_of_segmentsFrom_other h
          obtain ⟨last, hrun, hlast⟩ := hreadable
          obtain ⟨next, hstep, hnext⟩ := run_cons_iff.1 hrun
          obtain ⟨hsheds, hend⟩ :=
            ih (some g.char) (hfits.step hstep) ⟨last, hnext, hlast⟩ hpieces id
          refine ⟨.keep hsheds, fun hboundary => ?_⟩
          show boundary ((g.char :: body pieces).getLast?.or previous) = true
          rw [getLast?_cons_or]
          exact hend hboundary

/-- A text is cut into words at a boundary. -/
theorem identifiers_append_subset {text : List Char} (h : boundary text.getLast? = true)
    (rest : List Char) : identifiers (text ++ rest) ⊆ identifiers text ++ identifiers rest := by
  rcases List.eq_nil_or_concat text with rfl | ⟨front, c, rfl⟩
  · simp [identifiers]
  · rw [List.concat_eq_append] at h ⊢
    rw [List.getLast?_concat, boundary_some, Bool.not_eq_true'] at h
    rw [List.append_assoc, List.singleton_append, identifiers_append_cons _ _ h,
      identifiers_append_cons _ _ h]
    exact fun name hname => by simpa [identifiers] using hname

/-- Blanks in front of a text add no identifiers. -/
theorem identifiers_blanks_append {gap : List Char} (hgap : ∀ c ∈ gap, isBlank c = true)
    (rest : List Char) : identifiers (gap ++ rest) = identifiers rest := by
  induction gap with
  | nil => rfl
  | cons c gap ih =>
      obtain ⟨hc, hgap⟩ := List.forall_mem_cons.1 hgap
      rw [List.cons_append, identifiers_cons (isIdentifierChar_of_isBlank hc), ih hgap]

/-- A declaration among the pieces of a text that can be read has the parts of one, and what follows
it can be read. -/
theorem exists_parts_of_segments {declaration : Declaration} (hreadable : Readable .code glyphs)
    (h : segments glyphs = pieces ++ .imports declaration :: others) :
    ∃ parts : Parts, declaration = parts.declaration ∧
      Declares (chars (pieces.flatMap Segment.text)).reverse parts (others.flatMap Segment.text) ∧
      Readable .code (parts.text ++ others.flatMap Segment.text) ∧
      Readable .code (others.flatMap Segment.text) := by
  have htext := text_segments glyphs
  rw [h, List.flatMap_append] at htext
  rw [← htext] at hreadable
  obtain ⟨phase, hrun, hbehind⟩ := Readable.append_iff.1 hreadable
  have hstart : Phase.code.Fits [] := trivial
  have hfits := hstart.run hrun
  have hcut := segmentsFrom_of_append h
  rw [List.append_nil] at hfits hcut
  obtain ⟨parts, hparts, rfl, hdeclares, rfl, hcode⟩ :=
    exists_parts hfits hbehind (declaration?_of_segmentsFrom hcut)
  rw [hparts] at hbehind
  obtain ⟨middle, hmiddle, hrest⟩ := Readable.append_iff.1 hbehind
  obtain rfl : Phase.code = middle := Option.some.inj (hcode.symm.trans hmiddle)
  exact ⟨parts, rfl, hdeclares, hbehind, hrest⟩

/-- A name that stands neither in front of a declaration nor behind it does not stand in the text
between the declarations. -/
theorem not_mem_identifiers_body {declaration : Declaration} {name : List Char}
    (hreadable : Readable .code glyphs)
    (h : segments glyphs = pieces ++ .imports declaration :: others)
    (hfront : name ∉ identifiers (chars (pieces.flatMap Segment.text)))
    (hbehind : name ∉ identifiers (chars (others.flatMap Segment.text))) :
    name ∉ identifiers (body (segments glyphs)) := by
  obtain ⟨parts, rfl, hdeclares, -, hrest⟩ := exists_parts_of_segments hreadable h
  have hstart : Phase.code.Fits [] := trivial
  obtain ⟨hpieces, hend⟩ := sheds_of_segmentsFrom none hstart hreadable h fun _ => rfl
  have hboundary := hdeclares.boundary
  rw [List.head?_reverse] at hboundary
  rw [List.head?_nil, Option.or_none, Option.or_none] at hend
  have hlater : segmentsFrom ((chars (pieces.flatMap Segment.text ++ parts.text)).reverse)
      (others.flatMap Segment.text) = others ++ [] := by
    rw [segments, List.append_cons] at h
    have hcut := segmentsFrom_of_append h
    simp only [List.flatMap_append, List.flatMap_cons, List.flatMap_nil, List.append_nil] at hcut
    rw [List.append_nil]
    exact hcut
  have hcode : Phase.code.Fits (chars (pieces.flatMap Segment.text ++ parts.text)).reverse :=
    trivial
  obtain ⟨hothers, -⟩ := sheds_of_segmentsFrom none hcode hrest hlater fun _ => rfl
  intro hmem
  rw [h, body_append] at hmem
  rcases List.mem_append.1 (identifiers_append_subset (hend hboundary) _ hmem) with hmem | hmem
  · exact hfront (identifiers_subset_of_sheds hpieces hmem)
  · exact hbehind (identifiers_subset_of_sheds hothers hmem)

end Bodies

end MiniProgram.Source
