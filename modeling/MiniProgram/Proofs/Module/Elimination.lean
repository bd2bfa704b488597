import MiniProgram.Proofs.Module.Import

/-!
# Eliminating a module of import lines and a body

Read `eliminate_imports` first. It says what elimination leaves of any import lines in front of a
body in which the word `import` does not stand: the lines that the folded body needs, unchanged and
in order, and the folded body.

Folding does not look at the lines, and stripping cuts the text exactly into them and the characters
of the body. Once the lines that are not needed are gone, stripping changes nothing more.
-/

namespace MiniProgram.Module

open Source Text
open Source.Token (word mark)

/-- `line.isNeeded text` says that an import line binds no name, or one that `text` refers to, or
one of the two that compiled markup refers to. -/
def Import.isNeeded (text : List Char) (line : Import) : Bool :=
  line.names.isEmpty || line.names.any fun name =>
    name == "createElement".toList || name == "React".toList || (identifiers text).contains name

/-- The declaration that an import line is read as. -/
def Import.declaration (line : Import) : Declaration :=
  ⟨line.glyphs, line.names⟩

/-- The names that an import line binds are well formed. -/
theorem Import.isName_of_mem (line : Import) {name : List Char} (h : name ∈ line.names) :
    isName name = true := by
  refine line.spaced.isName_of_mem (List.mem_cons_of_mem _ ?_)
  unfold Import.names at h
  cases hclause : line.clause with
  | none => rw [hclause] at h; cases h
  | some clause =>
      rw [hclause] at h
      exact List.mem_append_left _ (Clause.word_mem_tokens h)

section Stripping

variable {lines : List Import} {rest : List Glyph}

/-- Stripping keeps an import line exactly when it is needed. -/
theorem isKept_declaration (text : List Char) (line : Import) :
    isKept text (.imports line.declaration) = line.isNeeded text := by
  have hnames : line.names.all isName = true :=
    List.all_eq_true.2 fun name hname => line.isName_of_mem hname
  have hreferenced : line.names.any (isReferenced · text) =
      line.names.any fun name =>
        name == "createElement".toList || name == "React".toList ||
          (identifiers text).contains name := by
    rw [Bool.eq_iff_iff, List.any_eq_true, List.any_eq_true]
    refine exists_congr fun name => and_congr_right fun hname => ?_
    have hoccurs : occurs name text = (identifiers text).contains name := by
      rw [Bool.eq_iff_iff, occurs_iff_mem (line.isName_of_mem hname), List.contains_iff_mem]
    rw [isReferenced, contains_factories, hoccurs]
  unfold Import.isNeeded
  rw [← hreferenced]
  cases hempty : line.names with
  | nil => simp [isKept, isUnused, Import.declaration, hempty]
  | cons name names =>
      rw [hempty] at hnames
      simp only [isKept, isUnused, Import.declaration, hempty, hnames]
      simp [← List.not_any_eq_all_not]

/-- A statement may start on the line behind a semicolon. -/
theorem startsStatement_of_line (before : List Char) :
    startsStatement ('\n' :: ';' :: before) = true := by
  have hdrop : ('\n' :: ';' :: before).dropWhile isBlank = ';' :: before := by
    rw [List.dropWhile_cons_of_pos (by decide), List.dropWhile_cons_of_neg (by decide)]
  rw [startsStatement, hdrop]
  rfl

/-- Import lines are cut off one by one. -/
theorem segmentsFrom_flatMap_glyphs {before : List Char} (hboundary : boundary before.head? = true)
    (hstarts : startsStatement before = true) :
    ∃ behind : List Char, boundary behind.head? = true ∧
      segmentsFrom before (lines.flatMap Import.glyphs ++ rest) =
        lines.map (fun line => .imports line.declaration) ++ segmentsFrom behind rest := by
  induction lines generalizing before with
  | nil => exact ⟨before, hboundary, rfl⟩
  | cons line lines ih =>
      have hlast : (chars line.glyphs).reverse ++ before =
          '\n' :: ';' :: '\'' :: (line.path.reverse ++ '\'' :: line.head.reverse ++ before) := by
        simp [Import.text]
      have hend : boundary (some '\n') = true := by decide
      obtain ⟨behind, hbehind, hsegments⟩ :=
        @ih ((chars line.glyphs).reverse ++ before) (by rw [hlast]; exact hend)
          (by rw [hlast]; exact startsStatement_of_line _)
      refine ⟨behind, hbehind, ?_⟩
      rw [List.flatMap_cons, List.append_assoc,
        segmentsFrom_of_declaration? (line.declaration?_eq hboundary hstarts _), hsegments]
      rfl

/-- Stripping keeps the lines that the rest needs, if the word `import` does not stand in it. -/
theorem strip_lines (himport : importWord ∉ identifiers (chars rest)) :
    strip (lines.flatMap Import.glyphs ++ rest) =
      (lines.filter (Import.isNeeded (chars rest))).flatMap Import.glyphs ++ rest := by
  obtain ⟨behind, hbehind, hsegments⟩ :=
    @segmentsFrom_flatMap_glyphs lines rest [] rfl rfl
  have hother : segmentsFrom behind rest = rest.map .other := by
    refine segmentsFrom_eq_map_other fun hstands => himport ?_
    exact mem_identifiers_iff.2 ⟨isName_importWord, hstands.congr hbehind⟩
  have hpieces : segments (lines.flatMap Import.glyphs ++ rest) =
      (lines.map fun line => .imports line.declaration) ++ rest.map .other := by
    rw [segments, hsegments, hother]
  have hbody : body (segments (lines.flatMap Import.glyphs ++ rest)) = chars rest := by
    rw [hpieces, body_append, body_map_imports, body_map_other, List.nil_append]
  have hkept : (isKept (chars rest) ∘ fun line => .imports line.declaration) =
      Import.isNeeded (chars rest) :=
    funext fun line => isKept_declaration (chars rest) line
  rw [strip_eq, hbody, hpieces, List.filter_append, filter_isKept_other, List.flatMap_append,
    flatMap_text_other, List.filter_map, hkept, List.flatMap_map]
  rfl

end Stripping

section Elimination

variable {lines : List Import} {rest : List Glyph}

/-- The scanner passes import lines. -/
theorem passes_lines (lines : List Import) : Passes (lines.flatMap Import.glyphs) := by
  induction lines with
  | nil => exact .nil
  | cons line lines ih => exact line.passes.append ih

/-- No conditional starts in import lines. -/
theorem quiet_lines (lines : List Import) : Quiet (lines.flatMap Import.glyphs) := by
  induction lines with
  | nil =>
      intro before behind previous rest hnil hne
      exact absurd (List.append_eq_nil_iff.1 hnil.symm).2 hne
  | cons line lines ih => exact line.quiet.append ih

/-- The characters of import lines are their texts. -/
theorem chars_lines (lines : List Import) :
    chars (lines.flatMap Import.glyphs) = lines.flatMap Import.text := by
  induction lines with
  | nil => rfl
  | cons line lines ih =>
      rw [List.flatMap_cons, chars_append, ih, Import.chars_glyphs, List.flatMap_cons]

/-- A line ends with a line feed. -/
theorem boundary_getLast?_lines (lines : List Import) :
    boundary (chars (lines.flatMap Import.glyphs)).getLast? = true := by
  rw [chars_lines]
  induction lines with
  | nil => rfl
  | cons line lines ih =>
      have htext : line.text = (line.head ++ '\'' :: (line.path ++ ['\'', ';'])) ++ ['\n'] := by
        simp [Import.text]
      have hline : line.text.getLast? = some '\n' := by rw [htext, List.getLast?_concat]
      rw [List.flatMap_cons, List.getLast?_append, hline]
      cases hlast : (lines.flatMap Import.text).getLast? with
      | none => decide
      | some c => rwa [hlast] at ih

/-- Folding leaves import lines alone. -/
theorem foldAll_lines (lines : List Import) (rest : List Glyph) :
    foldAll (lines.flatMap Import.glyphs ++ rest) =
      lines.flatMap Import.glyphs ++ foldAll rest :=
  foldAll_append (quiet_lines lines) (boundary_getLast?_lines lines)
    (passes_lines lines).scan_append rest

/-- Stripping ends with the lines that the rest needs. -/
theorem stripAll_lines (hscan : scan (chars rest) = some rest)
    (himport : importWord ∉ identifiers (chars rest)) :
    stripAll (lines.flatMap Import.glyphs ++ rest) =
      (lines.filter (Import.isNeeded (chars rest))).flatMap Import.text ++ chars rest := by
  -- what the first round keeps, the second one keeps too
  have hagain :
      strip ((lines.filter (Import.isNeeded (chars rest))).flatMap Import.glyphs ++ rest) =
      (lines.filter (Import.isNeeded (chars rest))).flatMap Import.glyphs ++ rest := by
    rw [strip_lines himport, List.filter_filter]
    simp
  have hend :
      stripAll ((lines.filter (Import.isNeeded (chars rest))).flatMap Import.glyphs ++ rest) =
      (lines.filter (Import.isNeeded (chars rest))).flatMap Import.text ++ chars rest := by
    rw [stripAll_eq_chars hagain, chars_append, chars_lines]
  by_cases hsame : strip (lines.flatMap Import.glyphs ++ rest) =
      lines.flatMap Import.glyphs ++ rest
  · rw [← hend, ← strip_lines himport, hsame]
  · have hnext : scan (chars (strip (lines.flatMap Import.glyphs ++ rest))) =
        some ((lines.filter (Import.isNeeded (chars rest))).flatMap Import.glyphs ++ rest) := by
      rw [strip_lines himport, chars_append, (passes_lines _).scan_append, hscan]
      rfl
    rw [stripAll_of_scan hsame hnext, hend]

/-- Elimination on the characters of import lines and a body. -/
theorem eliminateChars_lines {body : List Char} {glyphs : List Glyph}
    (hscan : scan body = some glyphs) (himport : importWord ∉ identifiers body) :
    eliminateChars (lines.flatMap Import.text ++ body) =
      (lines.filter (Import.isNeeded (eliminateChars body))).flatMap Import.text ++
        eliminateChars body := by
  have hfolded := scan_foldAll (scan_chars hscan)
  have hnone : importWord ∉ identifiers (chars (foldAll glyphs)) := fun hmem =>
    himport (chars_of_scan hscan ▸ identifiers_foldAll_subset glyphs hmem)
  have hbody : eliminateChars body = chars (foldAll glyphs) := by
    rw [eliminateChars_of_scan hscan]
    exact @stripAll_lines [] (foldAll glyphs) hfolded hnone
  have hall : scan (lines.flatMap Import.text ++ body) =
      some (lines.flatMap Import.glyphs ++ glyphs) := by
    rw [← chars_lines, (passes_lines lines).scan_append, hscan]
    rfl
  rw [hbody, eliminateChars_of_scan hall, foldAll_lines, stripAll_lines hfolded hnone]

end Elimination

/-- The import line of a clause, with one space behind each token. -/
def Import.ofClause (clause : Option Clause) (path : List Char)
    (hvalid : ∀ token ∈ clauseTokens clause, token.isValid = true)
    (hplain : ∀ c ∈ path, c ≠ '\'' ∧ c ≠ '\\' ∧ c ≠ '\n')
    (huntyped : clause.bind Clause.default? ≠ some typeWord) : Import where
  clause := clause
  head := (word importWord :: clauseTokens clause).flatMap Token.spell
  path := path
  starts := List.prefix_append_of_prefix (List.prefix_append _ _)
  spaced := .of_spell (List.forall_mem_cons.2 ⟨isName_importWord, hvalid⟩)
  plain := hplain
  untyped := huntyped

/-- Elimination leaves of import lines in front of a body the lines that the eliminated body needs,
unchanged and in order, and the eliminated body. -/
theorem eliminate_imports (lines : List Import) {body : String}
    (hscan : (scan body.toList).isSome = true) (himport : importWord ∉ identifiers body.toList) :
    eliminate (String.ofList (lines.flatMap Import.text) ++ body) =
      String.ofList ((lines.filter (Import.isNeeded (eliminate body).toList)).flatMap Import.text) ++
        eliminate body := by
  obtain ⟨glyphs, hglyphs⟩ := Option.isSome_iff_exists.1 hscan
  apply String.toList_inj.1
  simp only [toList_eliminate, String.toList_append, String.toList_ofList]
  exact eliminateChars_lines hglyphs himport

/-- Of two imports, the one whose renamed binding the body calls is kept. -/
theorem eliminate_imports_renamed :
    (scan "if (true) { c(); }\n".toList).isSome = true ∧
      importWord ∉ identifiers "if (true) { c(); }\n".toList ∧
      eliminate (String.ofList ([
          Import.ofClause (some (.both ['a'] (.list [.renamed ['b'] ['c']] true))) ['m']
            (by decide) (by simp) (by decide),
          Import.ofClause (some (.bindings (.all ['d']))) ['n'] (by decide) (by simp) (by decide)
        ].flatMap Import.text) ++ "if (true) { c(); }\n") =
        "import a , { b as c , } from 'm';\n{ c(); }\n" := by
  have hscan : (scan "if (true) { c(); }\n".toList).isSome = true := by decide +kernel
  have himport : importWord ∉ identifiers "if (true) { c(); }\n".toList := by decide +kernel
  refine ⟨hscan, himport, (eliminate_imports _ hscan himport).trans ?_⟩
  decide +kernel

end MiniProgram.Module
