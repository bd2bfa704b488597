import MiniProgram.Proofs.Module.Removal
import MiniProgram.Proofs.Source.Lexeme
import MiniProgram.Proofs.Source.Pieces

/-!
# Deleting whole import declarations

An `Occurrence` is an import declaration of a source at the start of a statement, as the module
grammar has it: with comments and white space between its tokens, with or without a `with` clause of
attributes, and ended by a semicolon, by the end of a line or by the end of the file. It is
`Removed` if stripping deletes the whole declaration and of its neighbours no more than blanks and
the end of the line behind it.

Read `removed_iff_legible` first: of the declarations none of whose names is needed elsewhere, these
are exactly the `Legible` ones, among them all `Plain` ones. Stripping ends a declaration with its
first string and with the semicolon and the line behind it, so a `with` clause is left behind
(`not_removed_attributed`). It looks for a character behind the string, so a declaration whose
string ends the file stays.
-/

namespace MiniProgram.Module

open Source Text
open Source.Token (word mark)

/-- The word `with`. -/
def withWord : List Char :=
  ['w', 'i', 't', 'h']

/-- Comments and white space. -/
def IsGap (glyphs : List Glyph) : Prop :=
  ∀ g ∈ glyphs, isGap g = true

/-- A string token between single or double quotes. -/
def IsString (glyphs : List Glyph) : Prop :=
  ∃ quote body, (quote = '\'' ∨ quote = '"') ∧ IsBody quote body ∧
    glyphs = (Lexeme.string quote body).glyphs

/-- An import attribute: a name or a string, a colon and a string. -/
inductive IsAttribute : List Glyph → Prop where
  | named {name gap inner value} : isName name = true → IsGap gap → IsGap inner → IsString value →
      IsAttribute (coded name ++ (gap ++ ⟨':', .code⟩ :: (inner ++ value)))
  | quoted {key gap inner value} : IsString key → IsGap gap → IsGap inner → IsString value →
      IsAttribute (key ++ (gap ++ ⟨':', .code⟩ :: (inner ++ value)))

/-- Attributes with commas between them, and the closing brace behind them. -/
inductive AreAttributes : List Glyph → Prop where
  | close {gap} : IsGap gap → AreAttributes (gap ++ [⟨'}', .code⟩])
  | last {gap first behind} : IsGap gap → IsAttribute first → IsGap behind →
      AreAttributes (gap ++ (first ++ (behind ++ [⟨'}', .code⟩])))
  | more {gap first behind rest} : IsGap gap → IsAttribute first → IsGap behind →
      AreAttributes rest → AreAttributes (gap ++ (first ++ (behind ++ ⟨',', .code⟩ :: rest)))

/-- A `with` clause, or none. -/
inductive IsWithClause : List Glyph → Prop where
  | none : IsWithClause []
  | attributes {gap inner rest} : IsGap gap → IsGap inner → AreAttributes rest →
      IsWithClause (gap ++ (coded withWord ++ (inner ++ ⟨'{', .code⟩ :: rest)))

/-- `Ends attributes ending behind` says that a declaration with this `with` clause ends with
`ending` in front of `behind`: with a semicolon, or with nothing if the file or a line ends behind
it and what follows does not belong to the declaration. -/
inductive Ends (attributes : List Glyph) : List Glyph → List Glyph → Prop where
  | semicolon {gap} (behind : List Glyph) : IsGap gap →
      Ends attributes (gap ++ [⟨';', .code⟩]) behind
  | line {gap rest} : IsGap gap → (∀ g ∈ rest.head?, isGap g = false) →
      rest = [] ∨ (chars gap).any endsLine = true → rest.head? ≠ some ⟨';', .code⟩ →
      (attributes = [] → word? withWord rest = none) → Ends attributes [] (gap ++ rest)

/-- An import declaration of a source, at the start of a statement. -/
structure Occurrence (source : List Glyph) where
  front : List Glyph
  clause : Option Clause
  /-- The text between the word `import` and the string that names the module. -/
  between : List Glyph
  literal : List Glyph
  attributes : List Glyph
  ending : List Glyph
  behind : List Glyph
  text : source =
    front ++ (coded importWord ++ (between ++ (literal ++ (attributes ++ (ending ++ behind)))))
  starts : StatementStart front
  boundary : boundary (chars between).head? = true
  written : Written (clauseTokens clause) between
  isString : IsString literal
  isWithClause : IsWithClause attributes
  ends : Ends attributes ending behind

/-- Blanks in a line, and perhaps the end of the line. -/
def IsLineEnd (glyphs : List Glyph) : Prop :=
  ∃ blanks feed, glyphs = blanks ++ feed ∧
    (∀ g ∈ blanks, isBlank g.char = true ∧ g.char ≠ '\n') ∧ (feed = [] ∨ chars feed = ['\n'])

namespace Occurrence

variable {source : List Glyph} (site : Occurrence source)

/-- The text of the declaration. -/
def declaration : List Glyph :=
  coded importWord ++ (site.between ++ (site.literal ++ (site.attributes ++ site.ending)))

/-- The names that the declaration binds. -/
def names : List (List Char) :=
  site.clause.elim [] Clause.names

/-- The names that stripping reads off the declaration. -/
def listed : List (List Char) :=
  localNames (dropFrom (trim (chars site.between)))

/-- The names are valid, and neither the rest of the source nor compiled markup needs one. -/
def Unneeded : Prop :=
  ∀ name ∈ site.names, isName name = true ∧ isReferenced name (chars site.front) = false ∧
    isReferenced name (chars site.behind) = false

/-- Stripping deletes the declaration, with no more of what is behind it than the blanks and the end
of the line. -/
def Removed : Prop :=
  ∃ gap rest pieces declaration others, site.behind = gap ++ rest ∧ IsLineEnd gap ∧
    segments source = pieces ++ .imports declaration :: others ∧
    pieces.flatMap Segment.text = site.front ∧ declaration.text = site.declaration ++ gap ∧
    isUnused (body (segments source)) declaration = true

/-- Stripping reads the declaration as it is meant. -/
structure Legible : Prop where
  /-- Only blanks stand in front of it on its line, or a semicolon or a closing brace and blanks. -/
  starts : startsStatement (chars site.front).reverse = true
  /-- Nothing that is taken for a declaration in front of it reaches into it. -/
  free : ∃ pieces others, segments source = pieces ++ others ∧
    pieces.flatMap Segment.text = site.front
  /-- No binding is renamed from a string. -/
  plain : ∀ g ∈ site.between, g.region ≠ .string
  bare : site.attributes = []
  /-- The string does not end the file. -/
  followed : site.ending ++ site.behind ≠ []
  spaced : ∀ g ∈ site.ending, g.char = ' ' ∨ g.char = '\t' ∨ g.char = ';'
  lists : site.listed ≠ []
  /-- What is read beside the names, as it stands in a comment, is no obstacle. -/
  unneeded : ∀ name ∈ site.listed, name ∉ site.names →
    isName name = true ∧ isReferenced name (body (segments source)) = false

/-- The declaration is the first one of the source, is written with blanks alone and has no `with`
clause. -/
structure Plain : Prop where
  starts : startsStatement (chars site.front).reverse = true
  first : importWord ∉ identifiers (chars site.front)
  blanks : ∃ text, site.between = coded text ∧ Spaced (clauseTokens site.clause) text
  untyped : site.clause.bind Clause.default? ≠ some typeWord
  binds : site.names ≠ []
  bare : site.attributes = []
  followed : site.ending ++ site.behind ≠ []
  spaced : ∀ g ∈ site.ending, g.char = ' ' ∨ g.char = '\t' ∨ g.char = ';'

end Occurrence

section Writing

variable {tokens : List Token} {glyphs : List Glyph}

/-- White space and comments belong to no string. -/
theorem region_ne_of_isGap {g : Glyph} (h : isGap g = true) : g.region ≠ .string := by
  intro hstring
  simp [isGap, hstring] at h

/-- Every character of a string belongs to one. -/
theorem IsString.region_eq (h : IsString glyphs) : ∀ g ∈ glyphs, g.region = .string := by
  obtain ⟨quote, body, -, -, rfl⟩ := h
  intro g hg
  obtain ⟨c, -, rfl⟩ := List.mem_map.1 hg
  rfl

/-- No string is empty, as it has its quotes. -/
theorem IsString.ne_nil (h : IsString glyphs) : glyphs ≠ [] := by
  obtain ⟨quote, body, -, -, rfl⟩ := h
  simp [Lexeme.glyphs, Lexeme.text]

/-- A word may end in front of a string. -/
theorem IsString.boundary_head? (h : IsString glyphs) : boundary (chars glyphs).head? = true := by
  obtain ⟨quote, body, hquote, -, rfl⟩ := h
  rw [Lexeme.chars_glyphs]
  obtain rfl | rfl := hquote <;> exact rfl

/-- A string ends with a quote. -/
theorem IsString.exists_last (h : IsString glyphs) :
    ∃ quote ∈ (chars glyphs).getLast?, isQuote quote = true := by
  obtain ⟨quote, body, hquote, -, rfl⟩ := h
  refine ⟨quote, ?_, by obtain rfl | rfl := hquote <;> decide⟩
  rw [Lexeme.chars_glyphs, Lexeme.text, ← List.cons_append]
  exact List.getLast?_concat

/-- What is written without strings may hold in code only white space, names and its own marks. -/
theorem Written.not_mem {c : Char} (h : Written tokens glyphs) (hspace : isSpace c = false)
    (hname : isIdentifierChar c = false) (hmark : Token.mark c ∉ tokens)
    (hplain : ∀ g ∈ glyphs, g.region ≠ .string) : (⟨c, .code⟩ : Glyph) ∉ glyphs := by
  induction h with
  | nil => exact List.not_mem_nil
  | gap hgap _ ih =>
      refine List.not_mem_cons_of_ne_of_not_mem ?_ (ih hmark (List.forall_mem_cons.1 hplain).2)
      rintro rfl
      simp [isGap, hspace] at hgap
  | word hisName _ _ ih =>
      refine List.not_mem_append (fun hmem => ?_)
        (ih (List.not_mem_of_not_mem_cons hmark) (List.forall_mem_append.1 hplain).2)
      obtain ⟨d, hd, hsame⟩ := List.mem_map.1 hmem
      cases hsame
      rw [(isName_iff.1 hisName).2 c hd] at hname
      cases hname
  | mark _ _ ih =>
      refine List.not_mem_cons_of_ne_of_not_mem ?_
        (ih (List.not_mem_of_not_mem_cons hmark) (List.forall_mem_cons.1 hplain).2)
      rintro ⟨⟩
      exact hmark List.mem_cons_self
  | original hliteral =>
      obtain ⟨quote, inside, -, rfl, -⟩ := hliteral
      exact absurd rfl (hplain _ List.mem_cons_self)

/-- The word `as` is written in code. -/
theorem Written.mem_as (h : Written (.word asWord :: tokens) glyphs) :
    (⟨'a', .code⟩ : Glyph) ∈ glyphs := by
  generalize hall : Token.word asWord :: tokens = all at h
  induction h generalizing tokens with
  | nil => cases hall
  | gap _ _ ih => exact List.mem_cons_of_mem _ (ih hall)
  | word =>
      obtain ⟨hname, -⟩ := List.cons.inj hall
      obtain rfl := Token.word.inj hname
      simp [asWord, coded]
  | mark => cases (List.cons.inj hall).1
  | original _ _ ih => exact List.mem_append_right _ (ih rfl)

/-- Behind a string that is the original name of a binding stands the word `as`. -/
theorem Written.exists_string (h : Written tokens glyphs)
    (hstring : ∃ g ∈ glyphs, g.region = .string) :
    ∃ front g rest, glyphs = front ++ g :: rest ∧ (∀ d ∈ front, d.region ≠ .string) ∧
      g.region = .string ∧ (⟨'a', .code⟩ : Glyph) ∈ rest := by
  -- the first string stands behind what holds none
  have hlater : ∀ {first glyphs : List Glyph}, (∀ d ∈ first, d.region ≠ .string) →
      (∃ g ∈ first ++ glyphs, g.region = .string) →
      ((∃ g ∈ glyphs, g.region = .string) → ∃ front g rest, glyphs = front ++ g :: rest ∧
        (∀ d ∈ front, d.region ≠ .string) ∧ g.region = .string ∧ (⟨'a', .code⟩ : Glyph) ∈ rest) →
      ∃ front g rest, first ++ glyphs = front ++ g :: rest ∧ (∀ d ∈ front, d.region ≠ .string) ∧
        g.region = .string ∧ (⟨'a', .code⟩ : Glyph) ∈ rest := by
    intro first glyphs hfirst ⟨g, hg, hregion⟩ ih
    have hmem := (List.mem_append.1 hg).resolve_left fun hmem => hfirst g hmem hregion
    obtain ⟨front, d, rest, rfl, hfront, hd, hrest⟩ := ih ⟨g, hmem, hregion⟩
    exact ⟨first ++ front, d, rest, (List.append_assoc ..).symm,
      List.forall_mem_append.2 ⟨hfirst, hfront⟩, hd, hrest⟩
  induction h with
  | nil => simp at hstring
  | gap hgap _ ih =>
      exact @hlater [_] _ (List.forall_mem_singleton.2 (region_ne_of_isGap hgap)) hstring ih
  | word hisName _ _ ih =>
      refine hlater (fun d hd => ?_) hstring ih
      rw [region_of_mem_coded hd]
      exact Region.noConfusion
  | mark _ _ ih =>
      exact @hlater [_] _ (List.forall_mem_singleton.2 Region.noConfusion) hstring ih
  | original hliteral hwritten ih =>
      obtain ⟨quote, inside, -, rfl, -⟩ := hliteral
      exact ⟨[], _, _, rfl, by simp, rfl, List.mem_append_right _ hwritten.mem_as⟩

/-- A `with` clause holds the word `with`, unless there is none. -/
theorem IsWithClause.eq_nil_or_mem (h : IsWithClause glyphs) :
    glyphs = [] ∨ (⟨'w', .code⟩ : Glyph) ∈ glyphs := by
  cases h with
  | none => exact .inl rfl
  | attributes => exact .inr (List.mem_append_right _ (List.mem_append_left _ (by decide)))

/-- What is cut off as a declaration ends with its string, up to blanks and semicolons. -/
theorem isTrailing_of_mem {front rest clause literal tail : List Glyph} {g d : Glyph}
    (hfront : ∀ g ∈ front, g.region ≠ .string) (hg : g.region = .string)
    (hclause : ∀ g ∈ clause, g.region ≠ .string) (hliteral : ∀ g ∈ literal, g.region = .string)
    (hne : literal ≠ []) (htail : ∀ g ∈ tail, isTrailing g.char = true)
    (hsame : front ++ g :: rest = clause ++ (literal ++ tail)) (hd : d ∈ rest)
    (hcode : d.region = .code) : isTrailing d.char = true := by
  obtain ⟨-, hbehind⟩ := append_inj_of_span (fun g => decide (g.region ≠ .string))
    (fun g hg => decide_eq_true (hfront g hg)) (fun d hd => by cases hd; simpa using hg)
    (fun g hg => decide_eq_true (hclause g hg)) (region_head?_literal hliteral hne tail) hsame
  have hmem : d ∈ literal ++ tail := hbehind ▸ List.mem_cons_of_mem g hd
  refine (List.mem_append.1 hmem).elim (fun hmem => ?_) (htail d)
  rw [hliteral d hmem] at hcode
  cases hcode

/-- A statement starts at a boundary. -/
theorem boundary_of_startsStatement {before : List Char} (h : startsStatement before = true) :
    boundary before.head? = true := by
  cases hlast : before.head? with
  | none => rfl
  | some c =>
      rcases head?_of_startsStatement h c hlast with hblank | rfl | rfl
      · exact boundary_of_isBlank hblank
      · decide
      · decide

/-- In front of the first character that trimming leaves stand blanks. -/
theorem exists_of_head?_trim {c : Char} (h : (trim (chars glyphs)).head? = some c) :
    ∃ gap g rest, glyphs = gap ++ g :: rest ∧ (∀ d ∈ gap, isBlank d.char = true) ∧ g.char = c := by
  obtain ⟨gap, hsplit, hgap, -⟩ := exists_of_dropWhile (fun g : Glyph => isBlank g.char) glyphs
  have hstart : trimStart (chars glyphs) =
      chars (glyphs.dropWhile fun g => isBlank g.char) := List.dropWhile_map ..
  obtain ⟨behind, hbehind⟩ := trimEnd_prefix (trimStart (chars glyphs))
  have hfirst : (trimStart (chars glyphs)).head? = some c := by
    rw [← hbehind, List.head?_append, ← trim, h]
    rfl
  rw [hstart] at hfirst
  cases htail : glyphs.dropWhile fun g => isBlank g.char with
  | nil =>
      rw [htail] at hfirst
      cases hfirst
  | cons g rest =>
      rw [htail] at hsplit hfirst
      exact ⟨gap, g, rest, hsplit, hgap, Option.some.inj hfirst⟩

end Writing

section Ending

variable {attributes ending behind gap rest : List Glyph}

/-- What is skipped at the end of a line are its blanks and perhaps its end. -/
theorem exists_lineEnd (glyphs : List Glyph) :
    ∃ gap, glyphs = gap ++ skipBlankLine glyphs ∧ IsLineEnd gap := by
  rcases skipBlankLine_cases glyphs with ⟨blanks, g, hsplit, hg, hblanks⟩ | ⟨hnil, hblanks⟩ | hsame
  · refine ⟨blanks ++ [g], by rwa [List.append_assoc, List.singleton_append], blanks, [g], rfl, ?_,
      .inr (by rw [chars_cons, hg, chars_nil])⟩
    exact fun d hd => (hblanks d hd).imp_right of_decide_eq_true
  · refine ⟨glyphs, by rw [hnil, List.append_nil], glyphs, [], (List.append_nil _).symm, ?_,
      .inl rfl⟩
    exact fun d hd => (hblanks d hd).imp_right of_decide_eq_true
  · exact ⟨[], hsame.symm, [], [], rfl, by simp, .inl rfl⟩

/-- The end of a line consists of blanks. -/
theorem IsLineEnd.isBlank_eq (h : IsLineEnd gap) : ∀ g ∈ gap, isBlank g.char = true := by
  obtain ⟨blanks, feed, rfl, hblanks, hfeed⟩ := h
  refine List.forall_mem_append.2 ⟨fun g hg => (hblanks g hg).1, fun g hg => ?_⟩
  have hmem : g.char ∈ chars feed := List.mem_map_of_mem hg
  rcases hfeed with rfl | hfeed
  · cases hg
  · rw [hfeed, List.mem_singleton] at hmem
    rw [hmem]
    decide

/-- No string follows the string of a declaration at once. -/
theorem Ends.region_head? (h : Ends attributes ending behind) :
    ∀ g ∈ (ending ++ behind).head?, g.region ≠ .string := by
  have hmem {gap rest : List Glyph} {g : Glyph} (hgap : IsGap gap)
      (hg : g ∈ (gap ++ rest).head?) (hrest : gap = [] → g ∈ rest.head? → g.region ≠ .string) :
      g.region ≠ .string := by
    cases gap with
    | nil => exact hrest rfl hg
    | cons d gap =>
        obtain rfl : d = g := Option.some.inj hg
        exact region_ne_of_isGap (hgap d List.mem_cons_self)
  intro g hg
  cases h with
  | semicolon behind hgap =>
      rw [List.append_assoc] at hg
      refine hmem hgap hg fun _ hg => ?_
      cases hg
      exact Region.noConfusion
  | line hgap _ hend =>
      rw [List.nil_append] at hg
      refine hmem hgap hg fun hnil hg => ?_
      -- nothing follows at once, as no line ends in between
      rw [hnil] at hend
      rw [hend.resolve_right (by decide)] at hg
      cases hg

/-- A semicolon in code is no white space. -/
theorem isGap_semicolon {g : Glyph} (hchar : g.char = ';') (hcode : g.region = .code) :
    isGap g = false := by
  simp only [isGap, hchar, hcode]
  decide

/-- A space or a tab in code is white space. -/
theorem isGap_space {g : Glyph} (hchar : (g.char == ' ' || g.char == '\t') = true)
    (hcode : g.region = .code) : isGap g = true := by
  rw [Bool.or_eq_true, beq_iff_eq, beq_iff_eq] at hchar
  rcases hchar with hchar | hchar <;> simp only [isGap, hchar, hcode] <;> decide

/-- The first semicolon behind spaces and tabs stands in code. -/
theorem region_of_semicolon {front : List Glyph} {g : Glyph}
    (h : Readable .code (front ++ g :: rest)) (hg : g.char = ';')
    (hfront : ∀ g ∈ front, (g.char == ' ' || g.char == '\t') = true) :
    ∀ d ∈ front ++ [g], d.region = .code := by
  rw [← List.singleton_append, ← List.append_assoc] at h
  refine region_of_plain h (List.forall_mem_append.2 ⟨fun d hd => ?_, ?_⟩)
  · have hchar := hfront d hd
    rw [Bool.or_eq_true, beq_iff_eq, beq_iff_eq] at hchar
    rcases hchar with hchar | hchar <;> rw [hchar] <;> decide
  · rw [List.forall_mem_singleton, hg]
    decide

/-- Behind white space and comments that end a line, no semicolon of the declaration is found. -/
theorem skipSemicolon_line (hgap : IsGap gap) (hstop : ∀ g ∈ rest.head?, isGap g = false)
    (hsemicolon : rest.head? ≠ some ⟨';', .code⟩) (hreadable : Readable .code (gap ++ rest)) :
    skipSemicolon (gap ++ rest) = gap ++ rest := by
  rcases skipSemicolon_cases (gap ++ rest) with ⟨spaces, g, hsplit, hg, hspaces⟩ | hsame
  · have hregion := region_of_semicolon (hsplit ▸ hreadable) hg hspaces
    have hcode : g.region = .code := hregion g (by simp)
    have hne : rest.head? ≠ some g := by
      obtain ⟨c, region⟩ := g
      obtain rfl : c = ';' := hg
      obtain rfl : region = .code := hcode
      exact hsemicolon
    rcases List.append_eq_append_iff.1 hsplit with ⟨inner, rfl, hrest⟩ | ⟨inner, rfl, hrest⟩
    · cases inner with
      | nil => exact absurd (by rw [hrest]; rfl) hne
      | cons d inner =>
          have hd := hstop d (by rw [hrest]; rfl)
          rw [isGap_space (hspaces d (by simp)) (hregion d (by simp))] at hd
          cases hd
    · cases inner with
      | nil => exact absurd (by rw [List.nil_append] at hrest; rw [← hrest]; rfl) hne
      | cons d inner =>
          obtain rfl := (List.cons.inj hrest).1
          have hd := hgap g (by simp)
          rw [isGap_semicolon hg hcode] at hd
          cases hd
  · exact hsame

/-- With only spaces and tabs in front of its semicolon a declaration ends behind it, or in front of
the end of the line. -/
theorem Ends.land_eq (h : Ends attributes ending behind)
    (hreadable : Readable .code (ending ++ behind))
    (hspaced : ∀ g ∈ ending, g.char = ' ' ∨ g.char = '\t' ∨ g.char = ';') :
    land (ending ++ behind) = skipBlankLine behind := by
  cases h with
  | @semicolon gap behind hgap =>
      have hplain : ∀ g ∈ gap ++ [⟨';', .code⟩], isQuote g.char = false ∧ g.char ≠ '/' := by
        intro g hg
        rcases hspaced g hg with hchar | hchar | hchar <;> rw [hchar] <;> decide
      have hregion := region_of_plain hreadable hplain
      have hspaces : ∀ g ∈ gap, (g.char == ' ' || g.char == '\t') = true := by
        intro g hg
        have hmem : g ∈ gap ++ [⟨';', .code⟩] := List.mem_append_left _ hg
        rcases hspaced g hmem with hchar | hchar | hchar
        · rw [hchar]
          decide
        · rw [hchar]
          decide
        · have hfalse := hgap g hg
          rw [isGap_semicolon hchar (hregion g hmem)] at hfalse
          cases hfalse
      rw [land, List.append_assoc, List.singleton_append, skipSemicolon_append rfl hspaces]
  | line hgap hstop _ hsemicolon =>
      rw [List.nil_append] at hreadable ⊢
      rw [land, skipSemicolon_line hgap hstop hsemicolon hreadable]

/-- If a declaration is found to end where it does, only spaces and tabs stand in front of its
semicolon. -/
theorem Ends.spaced (h : Ends attributes ending behind)
    (hreadable : Readable .code (ending ++ behind)) (hbehind : behind = gap ++ rest)
    (hland : land (ending ++ behind) = rest) :
    ∀ g ∈ ending, g.char = ' ' ∨ g.char = '\t' ∨ g.char = ';' := by
  cases h with
  | line => exact fun g hg => absurd hg List.not_mem_nil
  | @semicolon first behind hfirst =>
      have hspaces : ∀ g ∈ first, (g.char == ' ' || g.char == '\t') = true := by
        rw [List.append_assoc, List.singleton_append] at hreadable hland
        rcases skipSemicolon_cases (first ++ ⟨';', .code⟩ :: behind) with
          ⟨spaces, g, hsplit, hg, hspaces⟩ | hsame
        · rcases List.append_eq_append_iff.1 hsplit with ⟨inner, rfl, -⟩ | ⟨inner, rfl, hrest⟩
          · exact fun g hg => hspaces g (List.mem_append_left _ hg)
          · cases inner with
            | nil => simpa using hspaces
            | cons d inner =>
                obtain rfl := (List.cons.inj hrest).1
                have hregion := region_of_semicolon (hsplit ▸ hreadable) hg hspaces
                have hfalse := hfirst g (by simp)
                rw [isGap_semicolon hg (hregion g (by simp))] at hfalse
                cases hfalse
        · -- the semicolon would stand among the blanks at the end of a line
          obtain ⟨blanks, hblanks, hline⟩ := exists_lineEnd (first ++ ⟨';', .code⟩ :: behind)
          rw [land, hsame] at hland
          rw [hland, hbehind] at hblanks
          have hall : (first ++ ⟨';', .code⟩ :: gap) ++ rest = blanks ++ rest := by
            rw [← hblanks]
            simp
          have hmem : (⟨';', .code⟩ : Glyph) ∈ blanks := by
            rw [← List.append_cancel_right hall]
            simp
          exact absurd (hline.isBlank_eq _ hmem) (by decide)
      refine List.forall_mem_append.2 ⟨fun g hg => ?_, by simp⟩
      have hchar := hspaces g hg
      rw [Bool.or_eq_true, beq_iff_eq, beq_iff_eq] at hchar
      exact hchar.elim .inl fun hchar => .inr (.inl hchar)

end Ending

namespace Occurrence

variable {source : List Glyph} {site : Occurrence source}

/-- A source is the declaration with what stands in front of and behind it. -/
theorem source_eq (site : Occurrence source) :
    source = site.front ++ (site.declaration ++ site.behind) := by
  conv => lhs; rw [site.text]
  simp [declaration]

/-- The pieces behind the declaration are the text behind it. -/
theorem flatMap_text_of_segments {gap rest : List Glyph} {pieces others : List Segment}
    {declaration : Declaration} (site : Occurrence source) (hbehind : site.behind = gap ++ rest)
    (hsegments : segments source = pieces ++ .imports declaration :: others)
    (hfront : pieces.flatMap Segment.text = site.front)
    (htext : declaration.text = site.declaration ++ gap) :
    others.flatMap Segment.text = rest := by
  have hall := text_segments source
  rw [hsegments, List.flatMap_append, List.flatMap_cons, hfront, Segment.text, htext] at hall
  have hsource := hall.trans site.source_eq
  rw [hbehind, List.append_assoc] at hsource
  exact List.append_cancel_left (List.append_cancel_left (List.append_cancel_left hsource))

/-- What stands behind the string of a declaration can be read. -/
theorem readable_behind (hreadable : Readable .code source) (hbare : site.attributes = [])
    (hfollowed : site.ending ++ site.behind ≠ []) :
    Readable .code (site.ending ++ site.behind) := by
  rw [site.text, hbare, List.nil_append] at hreadable
  have hall : Readable .code ((site.front ++ (coded importWord ++ site.between)) ++
      (site.literal ++ (site.ending ++ site.behind))) := by simpa using hreadable
  exact readable_of_literal site.isString.region_eq site.isString.ne_nil site.ends.region_head?
    hfollowed hall

section Cut

variable {gap rest : List Glyph} {parts : Parts}

/-- What is cut off with a removed declaration has the parts of one. -/
theorem Removed.exists_parts (hreadable : Readable .code source) (h : site.Removed) :
    ∃ gap rest parts, site.behind = gap ++ rest ∧
      Declares (chars site.front).reverse parts rest ∧ parts.text = site.declaration ++ gap ∧
      (∃ pieces others, segments source = pieces ++ others ∧
        pieces.flatMap Segment.text = site.front) ∧
      isUnused (body (segments source)) parts.declaration = true := by
  obtain ⟨gap, rest, pieces, declaration, others, hbehind, -, hsegments, hfront, htext,
    hunused⟩ := h
  obtain ⟨parts, rfl, hdeclares, -, -⟩ := exists_parts_of_segments hreadable hsegments
  rw [hfront, flatMap_text_of_segments site hbehind hsegments hfront htext] at hdeclares
  exact ⟨gap, rest, parts, hbehind, hdeclares, htext, ⟨pieces, _, hsegments, hfront⟩, hunused⟩

/-- What follows the word `import` is the same for the declaration and for the parts that are cut
off. -/
theorem between_append_eq (htext : parts.text = site.declaration ++ gap) :
    site.between ++ (site.literal ++ (site.attributes ++ (site.ending ++ gap))) =
      parts.clause ++ (parts.literal ++ parts.tail) := by
  have hall : coded importWord ++ (parts.clause ++ (parts.literal ++ parts.tail)) =
    site.declaration ++ gap := htext
  rw [declaration, List.append_assoc] at hall
  simpa using (List.append_cancel_left hall).symm

/-- A declaration that is cut off has no string in front of the one that names the module. -/
theorem plain_of_ready (hready : parts.Ready) (htext : parts.text = site.declaration ++ gap) :
    ∀ g ∈ site.between, g.region ≠ .string := by
  intro d hd hstring
  obtain ⟨front, g, behind, hsplit, hfirst, hg, hmem⟩ :=
    site.written.exists_string ⟨d, hd, hstring⟩
  have hsame := between_append_eq htext
  rw [hsplit, List.append_assoc, List.cons_append] at hsame
  have htrailing := isTrailing_of_mem hfirst hg hready.clause hready.literal hready.nonempty
    hready.tail hsame (List.mem_append_left _ hmem) rfl
  exact absurd htrailing (by decide)

/-- A declaration that is cut off has no `with` clause. -/
theorem bare_of_ready (hready : parts.Ready) (htext : parts.text = site.declaration ++ gap) :
    site.attributes = [] := by
  rcases site.isWithClause.eq_nil_or_mem with hnil | hmem
  · exact hnil
  · obtain ⟨g, literal, hliteral⟩ := List.exists_cons_of_ne_nil site.isString.ne_nil
    have hg := site.isString.region_eq g (by rw [hliteral]; exact List.mem_cons_self)
    have hsame := between_append_eq htext
    rw [hliteral, List.cons_append] at hsame
    have htrailing := isTrailing_of_mem (plain_of_ready hready htext) hg hready.clause
      hready.literal hready.nonempty hready.tail hsame
      (List.mem_append_right _ (List.mem_append_left _ hmem)) rfl
    exact absurd htrailing (by decide)

/-- The parts of what is cut off are those of the declaration. -/
theorem parts_of_declares {before : List Char} (hbehind : site.behind = gap ++ rest)
    (hdeclares : Declares before parts rest) (htext : parts.text = site.declaration ++ gap) :
    site.between = parts.clause ∧ site.ending ++ gap = parts.tail := by
  have hready := hdeclares.ready
  have hsame := between_append_eq htext
  rw [bare_of_ready hready htext, List.nil_append] at hsame
  have hend : ∀ g ∈ (site.ending ++ gap).head?, g.region ≠ .string := by
    intro g hg
    refine site.ends.region_head? g ?_
    rw [hbehind, ← List.append_assoc, List.head?_append, Option.mem_def.1 hg]
    rfl
  have htail : ∀ g ∈ parts.tail.head?, g.region ≠ .string := by
    intro g hg
    refine hdeclares.behind.region g ?_
    rw [List.head?_append, Option.mem_def.1 hg]
    rfl
  obtain ⟨hclause, -, hlast⟩ := append_inj_of_literal (plain_of_ready hready htext)
    site.isString.region_eq site.isString.ne_nil hend hready.clause hready.literal
    hready.nonempty htail hsame
  exact ⟨hclause, hlast⟩

end Cut

/-- A declaration that is deleted is read as it is meant. -/
theorem legible_of_removed (hreadable : Readable .code source) (h : site.Removed) :
    site.Legible := by
  obtain ⟨gap, rest, parts, hbehind, hdeclares, htext, hfree, hunused⟩ := h.exists_parts hreadable
  obtain ⟨hclause, htail⟩ := parts_of_declares hbehind hdeclares htext
  have hbare := bare_of_ready hdeclares.ready htext
  have hall : site.ending ++ site.behind = parts.tail ++ rest := by
    rw [hbehind, ← List.append_assoc, htail]
  have hfollowed : site.ending ++ site.behind ≠ [] := hall ▸ hdeclares.behind.nonempty
  have hland : land (site.ending ++ site.behind) = rest := hall ▸ hdeclares.behind.lands
  have hnames : parts.declaration.names = site.listed := by
    rw [listed, hclause]
    rfl
  simp only [isUnused, hnames, Bool.and_eq_true, List.all_eq_true, decide_eq_true_eq] at hunused
  obtain ⟨⟨hlists, hvalid⟩, hneeded⟩ := hunused
  exact {
    starts := hdeclares.starts
    free := hfree
    plain := plain_of_ready hdeclares.ready htext
    bare := hbare
    followed := hfollowed
    spaced := site.ends.spaced (readable_behind hreadable hbare hfollowed) hbehind hland
    lists := hlists
    unneeded := fun name hname _ => ⟨hvalid name hname, by simpa using hneeded name hname⟩ }

/-- What stands behind the word `import` can be read. -/
theorem readable_between (hreadable : Readable .code source)
    (hstarts : startsStatement (chars site.front).reverse = true) :
    Readable .code (site.between ++
      (site.literal ++ (site.attributes ++ (site.ending ++ site.behind)))) := by
  rw [site.text] at hreadable
  obtain ⟨phase, hfront, hword⟩ := Readable.append_iff.1 hreadable
  have hcode : Phase.code.Fits [] := trivial
  have hfits := hcode.run hfront
  rw [List.append_nil] at hfits
  exact (eq_coded_of_importWord hfits hstarts (chars_coded _) rfl hword).2.2

/-- What stands behind the word `import` starts with no bracket and no point, after its blanks. -/
theorem head?_trim_ne {c : Char} (hreadable : Readable .code source)
    (hstarts : startsStatement (chars site.front).reverse = true)
    (hplain : ∀ g ∈ site.between, g.region ≠ .string)
    (hc : isMark c = true ∧ isSpace c = false ∧ c ∉ ['*', ',', '{', '}']) :
    (trim (chars site.between)).head? ≠ some c := by
  obtain ⟨hmark, hspace, hother⟩ := hc
  intro hhead
  obtain ⟨gap, g, rest, hsplit, hgap, rfl⟩ := exists_of_head?_trim hhead
  -- no comment starts in front of it
  have hcode : g.region = .code := by
    have hbetween := readable_between hreadable hstarts
    rw [hsplit, List.append_cons, List.append_assoc] at hbetween
    refine region_of_plain hbetween (List.forall_mem_append.2 ⟨fun d hd => ?_, ?_⟩) g (by simp)
    · exact plain_of_isBlank (hgap d hd)
    · rw [List.forall_mem_singleton]
      simp only [isMark, Bool.and_eq_true, Bool.not_eq_true', bne_iff_ne] at hmark
      exact ⟨hmark.1.2, hmark.2⟩
  have hmem : (⟨g.char, .code⟩ : Glyph) ∈ site.between := by
    rw [hsplit, ← hcode]
    exact List.mem_append_right _ List.mem_cons_self
  exact site.written.not_mem hspace (isIdentifierChar_of_isMark hmark)
    (mark_not_mem_clause hother) hplain hmem

/-- What is read as it is meant has the parts of a declaration. -/
theorem Legible.ready {gap : List Glyph} (hreadable : Readable .code source) (h : site.Legible)
    (hline : IsLineEnd gap) :
    (⟨site.between, site.literal, site.ending ++ gap⟩ : Parts).Ready where
  boundary := by
    show Text.boundary (chars (site.between ++ site.literal)).head? = true
    have hbetween := site.boundary
    rw [chars_append]
    cases hchars : chars site.between with
    | nil => exact site.isString.boundary_head?
    | cons c text => rwa [hchars] at hbetween
  clause := h.plain
  literal := site.isString.region_eq
  nonempty := site.isString.ne_nil
  parenthesis := head?_trim_ne hreadable h.starts h.plain (by decide)
  dot := head?_trim_ne hreadable h.starts h.plain (by decide)
  tail := by
    refine List.forall_mem_append.2 ⟨fun g hg => ?_, fun g hg => ?_⟩
    · rcases h.spaced g hg with hchar | hchar | hchar <;> rw [hchar] <;> decide
    · exact isTrailing_of_isBlank (hline.isBlank_eq g hg)
  quote := site.isString.exists_last

/-- What is read as it is meant is found. -/
theorem declaration?_of_legible (hreadable : Readable .code source) (h : site.Legible) :
    ∃ gap, site.behind = gap ++ skipBlankLine site.behind ∧ IsLineEnd gap ∧
      declaration? (chars site.front).reverse (site.declaration ++ site.behind) =
        some (⟨site.declaration ++ gap, site.listed⟩, skipBlankLine site.behind) := by
  obtain ⟨gap, hgap, hline⟩ := exists_lineEnd site.behind
  refine ⟨gap, hgap, hline, ?_⟩
  let parts : Parts := ⟨site.between, site.literal, site.ending ++ gap⟩
  have htext : parts.text = site.declaration ++ gap := by
    simp [parts, Parts.text, declaration, h.bare]
  have hall : parts.tail ++ skipBlankLine site.behind = site.ending ++ site.behind := by
    rw [List.append_assoc, ← hgap]
  have hlands := site.ends.land_eq (readable_behind hreadable h.bare h.followed) h.spaced
  have hdeclares : Declares (chars site.front).reverse parts (skipBlankLine site.behind) :=
    ⟨h.starts, boundary_of_startsStatement h.starts, h.ready hreadable hline, hall ▸ h.followed,
      hall ▸ site.ends.region_head?, by rw [hall, hlands]⟩
  have hread := declaration?_eq_some hdeclares
  rw [htext, List.append_assoc, ← hgap, Parts.declaration, htext] at hread
  exact hread

/-- A name that the rest of the source does not need is not needed between the declarations. -/
theorem isReferenced_body_eq_false {gap rest : List Glyph} {pieces others : List Segment}
    {declaration : Declaration} {name : List Char} (hreadable : Readable .code source)
    (hbehind : site.behind = gap ++ rest) (hline : IsLineEnd gap)
    (hsegments : segments source = pieces ++ .imports declaration :: others)
    (hfront : pieces.flatMap Segment.text = site.front)
    (hothers : others.flatMap Segment.text = rest) (hisName : isName name = true)
    (hinFront : isReferenced name (chars site.front) = false)
    (hinBehind : isReferenced name (chars site.behind) = false) :
    isReferenced name (body (segments source)) = false := by
  rw [isReferenced, Bool.or_eq_false_iff] at hinFront hinBehind ⊢
  refine ⟨hinFront.1, Bool.eq_false_iff.2 fun hoccurs => ?_⟩
  refine not_mem_identifiers_body hreadable hsegments ?_ ?_ ((occurs_iff_mem hisName).1 hoccurs)
  · rw [hfront, ← occurs_iff_mem hisName, hinFront.2]
    exact Bool.false_ne_true
  · have hblanks : ∀ c ∈ chars gap, isBlank c = true := List.forall_mem_map.2 hline.isBlank_eq
    rw [hothers, ← identifiers_blanks_append hblanks, ← chars_append, ← hbehind,
      ← occurs_iff_mem hisName, hinBehind.2]
    exact Bool.false_ne_true

/-- What is read as it is meant is deleted, if none of its names is needed. -/
theorem removed_of_legible (hreadable : Readable .code source) (hunneeded : site.Unneeded)
    (h : site.Legible) : site.Removed := by
  obtain ⟨pieces, others, hsegments, hfront⟩ := h.free
  obtain ⟨gap, hgap, hline, hread⟩ := declaration?_of_legible hreadable h
  have hothers : others = .imports ⟨site.declaration ++ gap, site.listed⟩ ::
      segmentsFrom ((chars (site.declaration ++ gap)).reverse ++ (chars site.front).reverse)
        (skipBlankLine site.behind) := by
    have hcut := segmentsFrom_of_append hsegments
    rw [hfront, List.append_nil] at hcut
    have hrest : others.flatMap Segment.text = site.declaration ++ site.behind := by
      have hall := text_segments source
      rw [hsegments, List.flatMap_append, hfront] at hall
      exact List.append_cancel_left (hall.trans site.source_eq)
    rw [hrest, segmentsFrom_of_declaration? hread] at hcut
    exact hcut.symm
  rw [hothers] at hsegments
  refine ⟨gap, _, pieces, _, _, hgap, hline, hsegments, hfront, rfl, ?_⟩
  have hvalid : ∀ name ∈ site.listed,
      isName name = true ∧ isReferenced name (body (segments source)) = false := by
    intro name hname
    by_cases hmem : name ∈ site.names
    · obtain ⟨hisName, hinFront, hinBehind⟩ := hunneeded name hmem
      exact ⟨hisName, isReferenced_body_eq_false hreadable hgap hline hsegments hfront
        (text_segmentsFrom _ _) hisName hinFront hinBehind⟩
    · exact h.unneeded name hname hmem
  simp only [isUnused, Bool.and_eq_true, List.all_eq_true, decide_eq_true_eq]
  exact ⟨⟨h.lists, fun name hname => (hvalid name hname).1⟩,
    fun name hname => by rw [(hvalid name hname).2]; rfl⟩

/-- With the declaration goes none of the rest but the end of its line. What is left of the rest is
what other declarations leave. -/
theorem Removed.exists_strip_eq (h : site.Removed) :
    ∃ gap rest first last, site.behind = gap ++ rest ∧ IsLineEnd gap ∧
      strip source = first ++ last ∧ first.Sublist site.front ∧ last.Sublist rest := by
  obtain ⟨gap, rest, pieces, declaration, others, hbehind, hline, hsegments, hfront, htext,
    hunused⟩ := h
  have hothers : others.flatMap Segment.text = rest :=
    flatMap_text_of_segments site hbehind hsegments hfront htext
  obtain ⟨keep, hkeep⟩ : ∃ keep, isKept (body (segments source)) = keep := ⟨_, rfl⟩
  have hdropped : keep (.imports declaration) = false := by
    rw [← hkeep, isKept, hunused]
    rfl
  have hstrip : strip source = (pieces.filter keep).flatMap Segment.text ++
      (others.filter keep).flatMap Segment.text := by
    rw [strip_eq, hkeep, hsegments, List.filter_append,
      List.filter_cons_of_neg (by rw [hdropped]; decide), List.flatMap_append]
  exact ⟨gap, rest, _, _, hbehind, hline, hstrip, hfront ▸ flatMap_filter_sublist keep pieces,
    hothers ▸ flatMap_filter_sublist keep others⟩

/-- A clause that is written with blanks alone is listed as it is meant, unless its default name is
`type`. -/
theorem Plain.listed_eq (h : site.Plain) : site.listed = site.names := by
  obtain ⟨text, hbetween, hspaced⟩ := h.blanks
  rw [listed, hbetween, chars_coded, localNames_of_clauseTokens hspaced h.untyped, names]

/-- A plain declaration is read as it is meant. -/
theorem legible_of_plain (h : site.Plain) : site.Legible where
  starts := h.starts
  free := by
    have hstands : ¬ StandsIn none importWord (chars site.front) := fun hstands =>
      h.first (mem_identifiers_iff.2 ⟨isName_importWord, hstands⟩)
    have hlast := boundary_of_startsStatement h.starts
    rw [List.head?_reverse] at hlast
    obtain ⟨others, hothers⟩ := @exists_segmentsFrom_append [] site.front
      (site.declaration ++ site.behind) hstands hlast
    exact ⟨_, others, (congrArg segments site.source_eq).trans hothers, flatMap_text_other _⟩
  plain := by
    obtain ⟨text, hbetween, -⟩ := h.blanks
    intro g hg
    rw [hbetween] at hg
    rw [region_of_mem_coded hg]
    exact Region.noConfusion
  bare := h.bare
  followed := h.followed
  spaced := h.spaced
  lists := h.listed_eq ▸ h.binds
  unneeded := fun name hname hother => absurd (h.listed_eq ▸ hname) hother

end Occurrence

/-- An import declaration none of whose names is needed is deleted as a whole, and but for the end
of its line alone, exactly when it is read as it is meant, as every plain one is. -/
theorem removed_iff_legible {source : List Glyph} (site : Occurrence source)
    (hscan : scan (chars source) = some source) (hunneeded : site.Unneeded) :
    (site.Removed ↔ site.Legible) ∧ (site.Plain → site.Removed) ∧
      (site.Removed → ∃ gap rest first last, site.behind = gap ++ rest ∧ IsLineEnd gap ∧
        strip source = first ++ last ∧ first.Sublist site.front ∧ last.Sublist rest) := by
  have hreadable := readable_of_scan hscan
  have hremoved := Occurrence.removed_of_legible hreadable hunneeded
  exact ⟨⟨Occurrence.legible_of_removed hreadable, hremoved⟩,
    fun hplain => hremoved (Occurrence.legible_of_plain hplain), Occurrence.Removed.exists_strip_eq⟩

section Examples

/-- What stands between the word `import` and the string of an import of a default name. -/
def defaultText (name : List Char) : List Char :=
  ' ' :: (name ++ ' ' :: (fromWord ++ [' ']))

/-- The text of an import of a default name writes its tokens. -/
theorem spaced_default {name : List Char} (h : isName name = true) :
    Spaced (clauseTokens (some (.default name))) (defaultText name) :=
  .blank (by decide) (.word h rfl (.blank (by decide) (.word (by decide) rfl
    (.blank (by decide) .nil))))

/-- The characters of an import of a default name write its tokens. -/
theorem written_default {name : List Char} (h : isName name = true) :
    Written (clauseTokens (some (.default name))) (coded (defaultText name)) := by
  have htext : coded (defaultText name) =
      ⟨' ', .code⟩ :: (coded name ++ ⟨' ', .code⟩ :: (coded fromWord ++ [⟨' ', .code⟩])) := by
    simp [defaultText, coded]
  rw [htext]
  exact .gap (by decide) (.word h (by decide) (.gap (by decide) (.word (by decide) (by decide)
    (.gap (by decide) .nil))))

/-- A name between quotes is a string. -/
theorem isString_quoted {name : List Char} (h : isName name = true) : IsString (quoted name) := by
  have hbody {text : List Char} (htext : ∀ c ∈ text, isIdentifierChar c = true) :
      IsBody '\'' text := by
    induction text with
    | nil => exact .nil
    | cons c text ih =>
        obtain ⟨hc, htext⟩ := List.forall_mem_cons.1 htext
        have hne (d : Char) (hd : isIdentifierChar d = false) : c ≠ d := by
          rintro rfl
          rw [hc] at hd
          cases hd
        exact .plain (hne _ (by decide)) (hne _ (by decide))
          (fun hfeed => absurd hfeed (hne _ (by decide))) (ih htext)
  exact ⟨'\'', name, .inl rfl, hbody (isName_iff.1 h).2, rfl⟩

/-- The text of an import of a default name from a module of the same name. -/
def importText (name : List Char) : List Glyph :=
  coded importWord ++ (coded (defaultText name) ++ quoted name)

/-- The import of the default name `a` on the first line of a source. -/
def plainSite : Occurrence (importText ['a'] ++ coded ";\nb();\n".toList) where
  front := []
  clause := some (.default ['a'])
  between := coded (defaultText ['a'])
  literal := quoted ['a']
  attributes := []
  ending := [⟨';', .code⟩]
  behind := coded "\nb();\n".toList
  text := rfl
  starts := ⟨rfl, [], [], rfl, by simp, .inl rfl⟩
  boundary := rfl
  written := written_default (by decide)
  isString := isString_quoted (by decide)
  isWithClause := .none
  ends := .semicolon _ fun _ h => absurd h List.not_mem_nil

/-- An import on a line of its own is deleted. -/
theorem removed_plain :
    (∃ text, scan text = some (importText ['a'] ++ coded ";\nb();\n".toList)) ∧
      plainSite.Unneeded ∧ plainSite.Removed := by
  have hunneeded : plainSite.Unneeded := by
    intro name hname
    obtain rfl : name = ['a'] := List.mem_singleton.1 hname
    decide +kernel
  have hscan : scan (chars (importText ['a'] ++ coded ";\nb();\n".toList)) =
      some (importText ['a'] ++ coded ";\nb();\n".toList) := by
    decide +kernel
  have hplain : plainSite.Plain := {
    starts := rfl
    first := List.not_mem_nil
    blanks := ⟨_, rfl, spaced_default (by decide)⟩
    untyped := by decide
    binds := List.cons_ne_nil _ _
    bare := rfl
    followed := List.cons_ne_nil _ _
    spaced := fun g hg => by
      obtain rfl := List.mem_singleton.1 hg
      decide }
  exact ⟨⟨_, hscan⟩, hunneeded, (removed_iff_legible plainSite hscan hunneeded).2.1 hplain⟩

/-- A `with` clause of one attribute. -/
def attributedText : List Glyph :=
  coded " with \x7b type: ".toList ++ (quoted "json".toList ++ coded " \x7d".toList)

/-- The `with` clause of one attribute is one. -/
theorem isWithClause_attributedText : IsWithClause attributedText := by
  have hspace : IsGap [⟨' ', .code⟩] := List.forall_mem_singleton.2 rfl
  have hattribute : IsAttribute (coded "type:".toList ++ (⟨' ', .code⟩ :: quoted "json".toList)) :=
    @IsAttribute.named "type".toList [] [⟨' ', .code⟩] _ (by decide)
      (fun _ h => absurd h List.not_mem_nil) hspace (isString_quoted (by decide))
  exact .attributes hspace hspace (.last hspace hattribute hspace)

/-- A `with` clause is left behind, and an import at the end of the file stays, although nothing
needs the names. -/
theorem not_removed_attributed :
    ∃ (source : List Glyph) (attributed last : Occurrence source),
      chars source =
        "import a from 'a' with \x7b type: 'json' \x7d;b();\nimport c from 'c'".toList ∧
      scan (chars source) = some source ∧ attributed.Unneeded ∧ last.Unneeded ∧
      chars (strip source) = " with \x7b type: 'json' \x7d;b();\nimport c from 'c'".toList ∧
      ¬ attributed.Removed ∧ ¬ last.Removed := by
  let front := importText ['a'] ++ (attributedText ++ coded ";b();\n".toList)
  have hscan : scan (chars (front ++ importText ['c'])) = some (front ++ importText ['c']) := by
    decide +kernel
  let attributed : Occurrence (front ++ importText ['c']) := {
    front := []
    clause := some (.default ['a'])
    between := coded (defaultText ['a'])
    literal := quoted ['a']
    attributes := attributedText
    ending := [⟨';', .code⟩]
    behind := coded "b();\n".toList ++ importText ['c']
    text := rfl
    starts := ⟨rfl, [], [], rfl, by simp, .inl rfl⟩
    boundary := rfl
    written := written_default (by decide)
    isString := isString_quoted (by decide)
    isWithClause := isWithClause_attributedText
    ends := .semicolon _ fun _ h => absurd h List.not_mem_nil }
  let last : Occurrence (front ++ importText ['c']) := {
    front := front
    clause := some (.default ['c'])
    between := coded (defaultText ['c'])
    literal := quoted ['c']
    attributes := []
    ending := []
    behind := []
    text := rfl
    starts := ⟨by decide +kernel, importText ['a'] ++ (attributedText ++ coded ";b();".toList),
      [⟨'\n', .code⟩], rfl, List.forall_mem_singleton.2 rfl, .inr (.inl rfl)⟩
    boundary := rfl
    written := written_default (by decide)
    isString := isString_quoted (by decide)
    isWithClause := .none
    ends := .line (fun _ h => absurd h List.not_mem_nil) (by simp) (.inl rfl) (by simp)
      fun _ => rfl }
  refine ⟨_, attributed, last, by decide +kernel, hscan, ?_, ?_, by decide +kernel, fun h => ?_,
    fun h => ?_⟩
  · intro name hname
    obtain rfl : name = ['a'] := List.mem_singleton.1 hname
    decide +kernel
  · intro name hname
    obtain rfl : name = ['c'] := List.mem_singleton.1 hname
    decide +kernel
  · exact absurd (Occurrence.legible_of_removed (readable_of_scan hscan) h).bare (by decide)
  · exact (Occurrence.legible_of_removed (readable_of_scan hscan) h).followed rfl

end Examples

end MiniProgram.Module
