import MiniProgram.Proofs.Module.Clause
import MiniProgram.Proofs.Source.Declaration

/-!
# Import lines

An import line is the word `import`, a clause with the word `from`, or neither, then a string and a
semicolon at the end of a line. The scanner passes it (`Import.passes`), folding finds nothing in it
(`Import.quiet`), and `declaration?` reads exactly the line and its names
(`Import.declaration?_eq`).
-/

namespace MiniProgram.Module

open Source Text
open Source.Token (word mark)

/-- The word `from`. -/
def fromWord : List Char :=
  ['f', 'r', 'o', 'm']

/-- The tokens between the word `import` and the string. -/
def clauseTokens : Option Clause → List Token
  | none => []
  | some clause => clause.tokens ++ [word fromWord]

/-- An import line. `head` is its text up to the string, `path` the text of the string. -/
structure Import where
  clause : Option Clause
  head : List Char
  path : List Char
  /-- No blank stands in front of the line. -/
  starts : importWord <+: head
  spaced : Spaced (word importWord :: clauseTokens clause) head
  plain : ∀ c ∈ path, c ≠ '\'' ∧ c ≠ '\\' ∧ c ≠ '\n'
  /-- A default name `type` would be read as the start of a clause that binds types. -/
  untyped : clause.bind Clause.default? ≠ some typeWord

namespace Import

variable (line : Import)

/-- The text of an import line. -/
def text : List Char :=
  line.head ++ '\'' :: (line.path ++ ['\'', ';', '\n'])

/-- The text of an import line with its regions. -/
def glyphs : List Glyph :=
  coded line.head ++ (quoted line.path ++ coded [';', '\n'])

/-- The names that an import line binds. -/
def names : List (List Char) :=
  line.clause.elim [] Clause.names

/-- The characters of an import line are its text. -/
@[simp]
theorem chars_glyphs : chars line.glyphs = line.text := by
  simp [glyphs, text]

end Import

section Flat

/-- A mark that is no bracket. -/
def isFlat (token : Token) : Bool :=
  match token with
  | .word _ => true
  | .mark c => c == '*' || c == ','

/-- Tokens without brackets are passed by the scanner. -/
theorem passes_of_flat {tokens : List Token} {text : List Char} (h : Spaced tokens text)
    (hflat : ∀ token ∈ tokens, isFlat token = true) : Passes (coded text) := by
  refine passes_coded fun c hc => ?_
  obtain ⟨hquote, hslash⟩ := h.isQuote_of_mem c hc
  have hbracket (d : Char) (hd : isMark d = true) (hflat' : isFlat (.mark d) = false) : c ≠ d := by
    rintro rfl
    have hmem := (h.mem_iff_mark hd).1 hc
    rw [hflat _ hmem] at hflat'
    cases hflat'
  refine ⟨hquote, hslash, ?_, ?_⟩
  · simp [isOpening, hbracket '(' (by decide) (by decide), hbracket '[' (by decide) (by decide),
      hbracket '{' (by decide) (by decide)]
  · unfold opening?
    split
    · exact absurd rfl (hbracket ')' (by decide) (by decide))
    · exact absurd rfl (hbracket ']' (by decide) (by decide))
    · exact absurd rfl (hbracket '}' (by decide) (by decide))
    · rfl

/-- So are tokens with one pair of braces. -/
theorem passes_of_braces {front inner behind : List Token} {text : List Char}
    (h : Spaced (front ++ mark '{' :: (inner ++ mark '}' :: behind)) text)
    (hfront : ∀ token ∈ front, isFlat token = true) (hinner : ∀ token ∈ inner, isFlat token = true)
    (hbehind : ∀ token ∈ behind, isFlat token = true) : Passes (coded text) := by
  obtain ⟨first, rest, rfl, -, hfirst, hrest⟩ := h.exists_of_append_mark
  obtain ⟨second, third, rfl, -, hsecond, hthird⟩ := hrest.exists_of_append_mark
  have hbraces := (passes_of_flat hsecond hinner).braces
  have hall := (passes_of_flat hfirst hfront).append
    (hbraces.append (passes_of_flat hthird hbehind))
  simpa using hall

/-- A list has no tokens but words and commas. -/
theorem isFlat_of_mem_list {parts : List (List Token)} (h : ∀ part ∈ parts, ∀ c, mark c ∉ part) :
    ∀ token ∈ [mark ','].intercalate parts, isFlat token = true := by
  have hpart : ∀ part ∈ parts, ∀ token ∈ part, isFlat token = true := by
    intro part hpart token htoken
    cases token with
    | word name => rfl
    | mark c => exact absurd htoken (h part hpart c)
  clear h
  induction parts with
  | nil => simp
  | cons part parts ih =>
      obtain ⟨hfirst, hrest⟩ := List.forall_mem_cons.1 hpart
      cases parts with
      | nil => simpa using hfirst
      | cons next parts =>
          rw [List.intercalate_cons_cons, List.append_assoc, List.singleton_append]
          exact List.forall_mem_append.2 ⟨hfirst, List.forall_mem_cons.2 ⟨rfl, ih hrest⟩⟩

/-- What stands in front of the string of an import line is passed by the scanner. -/
theorem passes_of_clause {clause : Option Clause} {text : List Char}
    (h : Spaced (word importWord :: clauseTokens clause) text) : Passes (coded text) := by
  match clause with
  | none | some (.default _) | some (.bindings (.all _)) | some (.both _ (.all _)) =>
      exact passes_of_flat h (by simp [clauseTokens, Clause.tokens, Bindings.tokens, isFlat])
  | some (.bindings (.list specifiers trailing)) =>
      have hlist : Spaced ([word importWord] ++ mark '{' ::
          ([mark ','].intercalate (parts specifiers trailing) ++
            mark '}' :: [word fromWord])) text := by
        simpa [clauseTokens, Clause.tokens, Bindings.tokens] using h
      exact passes_of_braces hlist (by simp [isFlat])
        (isFlat_of_mem_list fun part hpart c => mark_not_mem_parts part hpart) (by simp [isFlat])
  | some (.both name (.list specifiers trailing)) =>
      have hlist : Spaced ([word importWord, word name, mark ','] ++ mark '{' ::
          ([mark ','].intercalate (parts specifiers trailing) ++
            mark '}' :: [word fromWord])) text := by
        simpa [clauseTokens, Clause.tokens, Bindings.tokens] using h
      exact passes_of_braces hlist (by simp [isFlat])
        (isFlat_of_mem_list fun part hpart c => mark_not_mem_parts part hpart) (by simp [isFlat])

/-- A clause has no tokens but words, and the marks of bindings. -/
theorem mark_not_mem_clause {clause : Option Clause} {c : Char} (hc : c ∉ ['*', ',', '{', '}']) :
    mark c ∉ clauseTokens clause := by
  have hlist (specifiers : List Specifier) (trailing : Bool) :
      mark c ∉ [mark ','].intercalate (parts specifiers trailing) := by
    intro hmem
    have hflat := isFlat_of_mem_list (fun part hpart c => mark_not_mem_parts part hpart) _ hmem
    simp only [isFlat, Bool.or_eq_true, beq_iff_eq] at hflat
    rcases hflat with rfl | rfl <;> simp at hc
  simp only [List.mem_cons, List.not_mem_nil, or_false, not_or] at hc
  obtain ⟨hstar, hcomma, hopening, hclosing⟩ := hc
  match clause with
  | none => simp [clauseTokens]
  | some (.default _) => simp [clauseTokens, Clause.tokens]
  | some (.bindings (.all _)) => simp [clauseTokens, Clause.tokens, Bindings.tokens, hstar]
  | some (.both _ (.all _)) =>
      simp [clauseTokens, Clause.tokens, Bindings.tokens, hstar, hcomma]
  | some (.bindings (.list specifiers trailing)) =>
      simp [clauseTokens, Clause.tokens, Bindings.tokens, hopening, hclosing, hlist]
  | some (.both _ (.list specifiers trailing)) =>
      simp [clauseTokens, Clause.tokens, Bindings.tokens, hopening, hclosing, hcomma, hlist]

end Flat

namespace Import

variable (line : Import)

/-- The scanner passes an import line. -/
theorem passes : Passes line.glyphs := by
  have hend : Passes (coded [';', '\n']) := passes_coded (by simp [isQuote, isOpening, opening?])
  exact (passes_of_clause line.spaced).append ((passes_quoted line.plain).append hend)

/-- The clause of an import line holds no other marks than stars, commas and braces. -/
theorem not_mem_head {c : Char} (hmark : isMark c = true) (hc : c ∉ ['*', ',', '{', '}']) :
    c ∉ line.head := by
  refine mt (line.spaced.mem_iff_mark hmark).1 fun hmem => ?_
  rcases List.mem_cons.1 hmem with hmem | hmem
  · cases hmem
  · exact mark_not_mem_clause hc hmem

/-- Two texts differ if `c` comes before any `d` in one and `d` before any `c` in the other. -/
theorem append_cons_ne {c d : Char} {front behind otherFront otherBehind : List Char} (hne : c ≠ d)
    (hc : c ∉ otherFront) (hd : d ∉ front) :
    front ++ c :: behind ≠ otherFront ++ d :: otherBehind := by
  intro hsame
  rcases List.append_eq_append_iff.1 hsame with ⟨inner, rfl, htail⟩ | ⟨inner, rfl, htail⟩
  · cases inner with
    | nil => exact hne (List.cons.inj htail).1
    | cons e inner =>
        obtain ⟨rfl, -⟩ := List.cons.inj htail
        exact hc (by simp)
  · cases inner with
    | nil => exact hne (List.cons.inj htail).1.symm
    | cons e inner =>
        obtain ⟨rfl, -⟩ := List.cons.inj htail
        exact hd (by simp)

/-- No conditional starts in an import line: there is no parenthesis in front of its string. -/
theorem quiet : Quiet line.glyphs := by
  have hstring : Quiet (quoted line.path ++ coded [';', '\n']) := by
    refine (quiet_of_forall fun g hg => .inl ?_).append (quiet_of_forall (by decide))
    rw [region_of_mem_quoted hg]
    exact Region.noConfusion
  intro before behind previous rest hglyphs hne
  rcases List.append_eq_append_iff.1 hglyphs with ⟨inner, -, hinner⟩ | ⟨inner, hhead, hbehind⟩
  · exact hstring inner behind previous rest hinner hne
  · refine Option.eq_none_iff_forall_ne_some.2 fun folded hfold => ?_
    obtain ⟨gap, after, hchars, hgap⟩ := chars_of_foldHere hfold
    have hparenthesis : '(' ∉ chars inner := by
      intro hmem
      have hnone : '(' ∉ line.head := line.not_mem_head (by decide) (by decide)
      refine hnone ?_
      rw [← chars_coded line.head, hhead, chars_append]
      exact List.mem_append_right _ hmem
    have hquote : '\'' ∉ 'i' :: 'f' :: gap := by
      simp only [List.mem_cons, not_or]
      refine ⟨by decide, by decide, fun hmem => ?_⟩
      have hblank := hgap _ hmem
      revert hblank
      decide
    have hsame : chars inner ++ '\'' :: chars ((line.path ++ ['\'']).map (⟨·, .string⟩) ++
        coded [';', '\n'] ++ rest) = ('i' :: 'f' :: gap) ++ '(' :: after := by
      rw [hbehind] at hchars
      simpa [quoted] using hchars
    exact append_cons_ne (by decide) hquote hparenthesis hsame

/-- The word `import` is followed by a boundary and the tokens of the clause. -/
theorem exists_head :
    ∃ tail, line.head = importWord ++ tail ∧ boundary (tail ++ ['\'']).head? = true ∧
      Spaced (clauseTokens line.clause) tail := by
  obtain ⟨tail, htail⟩ := line.starts
  obtain ⟨gap, behind, hhead, hgap, -, hend, hbehind⟩ := line.spaced.exists_of_word
  have hgap' : gap = [] := by
    cases gap with
    | nil => rfl
    | cons c gap =>
        rw [← htail] at hhead
        obtain rfl : 'i' = c := (List.cons.inj hhead).1
        have hblank : isBlank 'i' = false := by decide
        rw [hgap 'i' (by simp)] at hblank
        cases hblank
  subst hgap'
  refine ⟨behind, hhead, ?_, hbehind⟩
  cases behind with
  | nil => decide
  | cons c behind => exact hend

end Import

section Reading

/-- A word at the end of a clause is dropped with the blanks in front of it. -/
theorem dropFrom_trim {front gap : List Char} (hgap : ∀ c ∈ gap, isBlank c = true) :
    dropFrom (trim (front ++ fromWord ++ gap)) = trim front := by
  have hblank : ∀ c ∈ fromWord, isBlank c = false := Spaced.isBlank_of_mem_name (by decide)
  have htrim : trim (front ++ fromWord ++ gap) = trimStart front ++ fromWord := by
    rw [trim, List.append_assoc, trimStart_append (by decide) hblank, ← List.append_assoc,
      trimEnd_append_blanks hgap, trimEnd_append_eq_self (by decide) hblank]
  have hsuffix : (['f', 'r', 'o', 'm'].isSuffixOf (trimStart front ++ fromWord)) = true :=
    List.isSuffixOf_iff_suffix.2 (List.suffix_append _ _)
  rw [htrim, dropFrom, if_pos hsuffix, List.length_append]
  simp [fromWord, trim]

/-- The names of a clause are read off the text between the word `import` and the string. -/
theorem localNames_of_clauseTokens {clause : Option Clause} {text : List Char}
    (h : Spaced (clauseTokens clause) text)
    (huntyped : clause.bind Clause.default? ≠ some typeWord) :
    localNames (dropFrom (trim text)) = clause.elim [] Clause.names := by
  cases clause with
  | none =>
      have htrim : trim text = [] := by
        rw [trim, ← List.append_nil text, trimStart_blanks_append h.isBlank_of_nil]
        rfl
      rw [htrim]
      decide
  | some clause =>
      obtain ⟨front, last, rfl, hfront, hlast⟩ := h.exists_of_append
      obtain ⟨gap, behind, rfl, hgap, -, -, hbehind⟩ := hlast.exists_of_word
      have hall : front ++ (gap ++ fromWord ++ behind) = (front ++ gap) ++ fromWord ++ behind := by
        simp
      rw [hall, dropFrom_trim hbehind.isBlank_of_nil]
      exact localNames_of_spaced (hfront.append_blanks_end hgap).trim huntyped

end Reading

namespace Import

variable (line : Import)

/-- The parts of an import line whose clause is written as `tail`. -/
def parts (tail : List Char) : Parts :=
  ⟨coded tail, quoted line.path, coded [';', '\n']⟩

/-- The parts of an import line are such that they can be read. -/
theorem ready_parts {tail : List Char} (hend : boundary (tail ++ ['\'']).head? = true)
    (htail : Spaced (clauseTokens line.clause) tail) : (line.parts tail).Ready where
  boundary := by
    rw [parts, chars_append, chars_coded]
    cases tail with
    | nil => exact hend
    | cons c tail => exact hend
  clause := by
    intro g hg
    rw [region_of_mem_coded hg]
    exact Region.noConfusion
  literal := fun g hg => region_of_mem_quoted hg
  nonempty := by simp [parts, quoted]
  parenthesis := by
    intro hhead
    rw [parts, chars_coded] at hhead
    exact mark_not_mem_clause (by decide)
      ((htail.trim.mem_iff_mark (by decide)).1 (List.mem_of_head? hhead))
  dot := by
    intro hhead
    rw [parts, chars_coded] at hhead
    exact mark_not_mem_clause (by decide)
      ((htail.trim.mem_iff_mark (by decide)).1 (List.mem_of_head? hhead))
  tail := by
    show ∀ g ∈ coded [';', '\n'], isTrailing g.char = true
    decide
  quote := by
    refine ⟨'\'', ?_, by decide⟩
    rw [parts, chars_quoted, ← List.cons_append]
    exact List.getLast?_concat

/-- Whatever follows an import line, the line ends with its line feed. -/
theorem behind_parts (tail : List Char) (rest : List Glyph) :
    Behind (line.parts tail).tail rest where
  nonempty := by simp [parts]
  region := by
    intro g hg
    cases hg
    exact Region.noConfusion
  lands := by simp [parts, land, skipSemicolon, skipBlankLine]

/-- `declaration?` reads exactly an import line. -/
theorem declaration?_eq {before : List Char} (hboundary : boundary before.head? = true)
    (hstarts : startsStatement before = true) (rest : List Glyph) :
    declaration? before (line.glyphs ++ rest) = some (⟨line.glyphs, line.names⟩, rest) := by
  obtain ⟨tail, hhead, hend, htail⟩ := line.exists_head
  have htext : (line.parts tail).text = line.glyphs := by
    simp [Parts.text, parts, glyphs, hhead]
  have hnames : (line.parts tail).names = line.names := by
    rw [Parts.names, parts, chars_coded, localNames_of_clauseTokens htail line.untyped, names]
  have hdeclares : Declares before (line.parts tail) rest :=
    ⟨hstarts, hboundary, line.ready_parts hend htail, line.behind_parts tail rest⟩
  have hread := declaration?_eq_some hdeclares
  rwa [Parts.declaration, htext, hnames] at hread

end Import

end MiniProgram.Module
