import MiniProgram.Proofs.Source.Scan
import MiniProgram.Proofs.Text.Blank
import MiniProgram.Proofs.Text.Words
import MiniProgram.Source.Phrase

/-!
# Words and marks of code

`Spaced tokens text` says that `text` writes `tokens` with any blanks in front of, between and
behind them. Two words need a blank in between, and that is all they need. A text writes only one
list of tokens (`Spaced.unique`), and each reader of code reads one token off it.
-/

namespace MiniProgram.Source

open Text

/-- A word or a mark of code. -/
inductive Token where
  | word (name : List Char)
  | mark (symbol : Char)
  deriving DecidableEq, Repr

/-- A character that is a token of its own: it belongs to no word, is no blank, and opens neither a
string nor a comment. -/
def isMark (c : Char) : Bool :=
  !isIdentifierChar c && !isBlank c && !isQuote c && c != '/'

/-- `Spaced tokens text` says that `text` writes `tokens`, with any blanks around them. -/
inductive Spaced : List Token → List Char → Prop where
  | nil : Spaced [] []
  | blank {c tokens text} : isBlank c = true → Spaced tokens text → Spaced tokens (c :: text)
  | word {name tokens text} : isName name = true → boundary text.head? = true →
      Spaced tokens text → Spaced (.word name :: tokens) (name ++ text)
  | mark {c tokens text} : isMark c = true → Spaced tokens text →
      Spaced (.mark c :: tokens) (c :: text)

/-- A token that can be written: its word is a name, or its symbol a mark. -/
def Token.isValid : Token → Bool
  | .word name => isName name
  | .mark symbol => isMark symbol

/-- A token with a space behind it. -/
def Token.spell : Token → List Char
  | .word name => name ++ [' ']
  | .mark symbol => [symbol, ' ']

/-- The words among tokens. -/
def wordsOf (tokens : List Token) : List (List Char) :=
  tokens.filterMap fun
    | .word name => some name
    | .mark _ => none

/-- The words among tokens are the tokens that are words. -/
theorem mem_wordsOf_iff {name : List Char} {tokens : List Token} :
    name ∈ wordsOf tokens ↔ .word name ∈ tokens := by
  rw [wordsOf, List.mem_filterMap]
  constructor
  · rintro ⟨token, htoken, hname⟩
    cases token with
    | word other => cases hname; exact htoken
    | mark c => cases hname
  · intro h
    exact ⟨.word name, h, rfl⟩

section Characters

variable {c : Char}

/-- A mark belongs to no word. -/
theorem isIdentifierChar_of_isMark (h : isMark c = true) : isIdentifierChar c = false := by
  simp only [isMark, Bool.and_eq_true, Bool.not_eq_true'] at h
  exact h.1.1.1

/-- A mark is no blank. -/
theorem isBlank_of_isMark (h : isMark c = true) : isBlank c = false := by
  simp only [isMark, Bool.and_eq_true, Bool.not_eq_true'] at h
  exact h.1.1.2

/-- A word may end at a mark. -/
theorem boundary_of_isMark (h : isMark c = true) : boundary (some c) = true := by
  simp [boundary_some, isIdentifierChar_of_isMark h]

/-- A blank is no mark. -/
theorem ne_of_isBlank {d : Char} (h : isBlank c = true) (hd : isMark d = true) : c ≠ d := by
  rintro rfl
  rw [isBlank_of_isMark hd] at h
  cases h

/-- A character of a word is no mark. -/
theorem ne_of_isIdentifierChar {d : Char} (h : isIdentifierChar c = true) (hd : isMark d = true) :
    c ≠ d := by
  rintro rfl
  rw [isIdentifierChar_of_isMark hd] at h
  cases h

end Characters

section Code

variable {text : List Char}

/-- In code the leading blanks are skipped. -/
theorem skipBlanks_coded (text : List Char) : skipBlanks (coded text) = coded (trimStart text) := by
  induction text with
  | nil => rfl
  | cons c text ih =>
      cases hc : isBlank c with
      | true => simpa [skipBlanks, trimStart, hc] using ih
      | false => simp [skipBlanks, trimStart, hc]

/-- A word is read off code where the word stands and may end. -/
theorem word?_coded_iff {word : List Char} {rest : List Glyph} (hne : word ≠ []) :
    word? word (coded text) = some rest ↔
      ∃ behind, text = word ++ behind ∧ boundary behind.head? = true ∧ rest = coded behind := by
  rw [word?_eq_some_iff]
  constructor
  · rintro ⟨front, hglyphs, hfront, -, hend⟩
    obtain ⟨name, behind, rfl, rfl, rfl⟩ := List.map_eq_append_iff.1 hglyphs
    obtain rfl : name = word := (chars_coded name).symm.trans hfront
    exact ⟨behind, rfl, chars_coded behind ▸ hend, rfl⟩
  · rintro ⟨behind, rfl, hend, rfl⟩
    refine ⟨coded word, List.map_append, chars_coded word, ?_, by rwa [chars_coded]⟩
    cases word with
    | nil => exact absurd rfl hne
    | cons c word => rfl

end Code

namespace Spaced

variable {tokens : List Token} {text : List Char}

/-- Leading blanks do not matter. -/
theorem trimStart (h : Spaced tokens text) : Spaced tokens (trimStart text) := by
  induction h with
  | nil => exact .nil
  | @blank c tokens text hc h ih => simpa [Text.trimStart, hc] using ih
  | @word name tokens text hname hend h ih =>
      have hword := Spaced.word hname hend h
      obtain ⟨hne, hall⟩ := isName_iff.1 hname
      cases name with
      | nil => exact absurd rfl hne
      | cons c name =>
          simpa [Text.trimStart, isBlank_of_isIdentifierChar (hall c (by simp))] using hword
  | @mark c tokens text hc h ih =>
      simpa [Text.trimStart, isBlank_of_isMark hc] using Spaced.mark hc h

/-- Leading blanks may be put in front. -/
theorem append_blanks {gap : List Char} (hgap : ∀ c ∈ gap, isBlank c = true)
    (h : Spaced tokens text) : Spaced tokens (gap ++ text) := by
  induction gap with
  | nil => exact h
  | cons c gap ih => exact .blank (hgap c (by simp)) (ih fun d hd => hgap d (by simp [hd]))

/-- A blank in front belongs to no token. -/
theorem of_blank {c : Char} (hc : isBlank c = true) (h : Spaced tokens (c :: text)) :
    Spaced tokens text := by
  generalize hall : c :: text = all at h
  cases h with
  | nil => cases hall
  | blank _ h =>
      obtain ⟨-, rfl⟩ := List.cons.inj hall
      exact h
  | @word name tokens rest hname hend h =>
      have hhead := boundary_head?_append hname rest
      rw [← hall, List.head?_cons, boundary_of_isBlank hc] at hhead
      cases hhead
  | mark hd h =>
      obtain ⟨rfl, -⟩ := List.cons.inj hall
      rw [isBlank_of_isMark hd] at hc
      cases hc

/-- A word in front is the first token. -/
theorem of_name {name : List Char} (hname : isName name = true)
    (hend : boundary text.head? = true) (h : Spaced tokens (name ++ text)) :
    ∃ others, tokens = .word name :: others ∧ Spaced others text := by
  have hhead := boundary_head?_append hname text
  generalize hall : name ++ text = all at h hhead
  cases h with
  | nil => cases hhead
  | blank hc => rw [List.head?_cons, boundary_of_isBlank hc] at hhead; cases hhead
  | word hother hotherEnd h =>
      obtain ⟨rfl, rfl⟩ := name_append_inj hname hother hend hotherEnd hall
      exact ⟨_, rfl, h⟩
  | mark hc => rw [List.head?_cons, boundary_of_isMark hc] at hhead; cases hhead

/-- A mark in front is the first token. -/
theorem of_mark {c : Char} (hc : isMark c = true) (h : Spaced tokens (c :: text)) :
    ∃ others, tokens = .mark c :: others ∧ Spaced others text := by
  generalize hall : c :: text = all at h
  cases h with
  | nil => cases hall
  | blank hd =>
      obtain ⟨rfl, -⟩ := List.cons.inj hall
      rw [isBlank_of_isMark hc] at hd
      cases hd
  | @word name tokens rest hname hend h =>
      have hhead := boundary_head?_append hname rest
      rw [← hall, List.head?_cons, boundary_of_isMark hc] at hhead
      cases hhead
  | mark _ h =>
      obtain ⟨rfl, rfl⟩ := List.cons.inj hall
      exact ⟨_, rfl, h⟩

/-- A text without tokens is blank. -/
theorem isBlank_of_nil (h : Spaced [] text) : ∀ c ∈ text, isBlank c = true := by
  generalize hnil : ([] : List Token) = tokens at h
  induction h with
  | nil => simp
  | blank hc _ ih =>
      intro d hd
      rcases List.mem_cons.1 hd with rfl | hd
      · exact hc
      · exact ih hnil d hd
  | word | mark => cases hnil

/-- What stands behind the first word, and the blanks in front of it. -/
theorem exists_of_word {name : List Char} (h : Spaced (.word name :: tokens) text) :
    ∃ gap behind, text = gap ++ name ++ behind ∧ (∀ c ∈ gap, isBlank c = true) ∧
      isName name = true ∧ boundary behind.head? = true ∧ Spaced tokens behind := by
  generalize hword : Token.word name :: tokens = all at h
  induction h with
  | nil | mark => cases hword
  | @blank c all text hc h ih =>
      obtain ⟨gap, behind, rfl, hgap, hrest⟩ := ih hword
      exact ⟨c :: gap, behind, rfl, by simpa [hc] using hgap, hrest⟩
  | @word name' tokens' text hname hend h ih =>
      cases hword
      exact ⟨[], text, rfl, by simp, hname, hend, h⟩

/-- What stands behind the first mark, and the blanks in front of it. -/
theorem exists_of_mark {c : Char} (h : Spaced (.mark c :: tokens) text) :
    ∃ gap behind, text = gap ++ c :: behind ∧ (∀ d ∈ gap, isBlank d = true) ∧
      isMark c = true ∧ Spaced tokens behind := by
  generalize hmark : Token.mark c :: tokens = all at h
  induction h with
  | nil | word => cases hmark
  | @blank d all text hd h ih =>
      obtain ⟨gap, behind, rfl, hgap, hrest⟩ := ih hmark
      exact ⟨d :: gap, behind, rfl, by simpa [hd] using hgap, hrest⟩
  | @mark d tokens' text hd h ih =>
      cases hmark
      exact ⟨[], text, rfl, by simp, hd, h⟩

/-- No blank stands in a name. -/
theorem isBlank_of_mem_name {name : List Char} (hname : isName name = true) :
    ∀ c ∈ name, isBlank c = false :=
  fun c hc => isBlank_of_isIdentifierChar ((isName_iff.1 hname).2 c hc)

/-- A text that starts with a name has no leading blanks. -/
theorem trimStart_name {name : List Char} (hname : isName name = true) (text : List Char) :
    Text.trimStart (name ++ text) = name ++ text :=
  trimStart_append_eq_self (isName_iff.1 hname).1 (isBlank_of_mem_name hname) text

/-- A word that is read is the first token. -/
theorem of_word? {name : List Char} {rest : List Glyph} (h : Spaced tokens text)
    (hname : isName name = true) (hread : word? name (skipBlanks (coded text)) = some rest) :
    ∃ others behind, tokens = .word name :: others ∧ rest = coded behind ∧
      Spaced others behind := by
  rw [skipBlanks_coded, word?_coded_iff (isName_iff.1 hname).1] at hread
  obtain ⟨behind, htext, hend, rfl⟩ := hread
  have htrim := h.trimStart
  rw [htext] at htrim
  obtain ⟨others, rfl, hothers⟩ := htrim.of_name hname hend
  exact ⟨others, behind, rfl, rfl, hothers⟩

/-- The first word can be read. -/
theorem word?_eq_some {name : List Char} (h : Spaced (.word name :: tokens) text) :
    ∃ behind, word? name (skipBlanks (coded text)) = some (coded behind) ∧
      Spaced tokens behind := by
  obtain ⟨gap, behind, rfl, hgap, hname, hend, hrest⟩ := h.exists_of_word
  refine ⟨behind, ?_, hrest⟩
  rw [skipBlanks_coded, List.append_assoc, trimStart_blanks_append hgap, trimStart_name hname,
    word?_coded_iff (isName_iff.1 hname).1]
  exact ⟨behind, rfl, hend, rfl⟩

/-- A mark that is read is the first token. -/
theorem of_symbol? {c : Char} {rest : List Glyph} (h : Spaced tokens text) (hc : isMark c = true)
    (hread : symbol? c (skipBlanks (coded text)) = some rest) :
    ∃ others behind, tokens = .mark c :: others ∧ rest = coded behind ∧ Spaced others behind := by
  rw [skipBlanks_coded] at hread
  have htrim := h.trimStart
  cases hstart : Text.trimStart text with
  | nil =>
      rw [hstart] at hread
      cases hread
  | cons d behind =>
      rw [hstart] at hread htrim
      simp only [coded_cons, symbol?] at hread
      split at hread
      · next hsame =>
          obtain rfl : d = c := hsame
          cases hread
          obtain ⟨others, rfl, hothers⟩ := htrim.of_mark hc
          exact ⟨others, behind, rfl, rfl, hothers⟩
      · cases hread

/-- A text writes only one list of tokens. -/
theorem unique {others : List Token} (h : Spaced tokens text) (hother : Spaced others text) :
    tokens = others := by
  induction h generalizing others with
  | nil =>
      generalize htext : [] = text at hother
      cases hother with
      | nil => rfl
      | blank | mark => cases htext
      | word hname =>
          exact absurd (List.append_eq_nil_iff.1 htext.symm).1 (isName_iff.1 hname).1
  | blank hc h ih => exact ih (hother.of_blank hc)
  | word hname hend h ih =>
      obtain ⟨rest, rfl, hrest⟩ := hother.of_name hname hend
      rw [ih hrest]
  | mark hc h ih =>
      obtain ⟨rest, rfl, hrest⟩ := hother.of_mark hc
      rw [ih hrest]

/-- The runs of identifier characters of a text are its words. -/
theorem identifiers_eq (h : Spaced tokens text) : identifiers text = wordsOf tokens := by
  induction h with
  | nil => rfl
  | blank hc h ih => rw [identifiers_cons (isIdentifierChar_of_isBlank hc), ih]
  | word hname hend h ih => rw [identifiers_name_append hname hend, ih]; rfl
  | mark hc h ih => rw [identifiers_cons (isIdentifierChar_of_isMark hc), ih]; rfl

/-- Tokens hold no character that opens a string or a comment. -/
theorem isQuote_of_mem (h : Spaced tokens text) :
    ∀ c ∈ text, isQuote c = false ∧ c ≠ '/' := by
  induction h with
  | nil => simp
  | blank hc _ ih => exact List.forall_mem_cons.2 ⟨plain_of_isBlank hc, ih⟩
  | word hname _ _ ih =>
      intro c hc
      rcases List.mem_append.1 hc with hc | hc
      · exact plain_of_isIdentifierChar ((isName_iff.1 hname).2 c hc)
      · exact ih c hc
  | mark hc _ ih =>
      simp only [isMark, Bool.and_eq_true, Bool.not_eq_true', bne_iff_ne] at hc
      exact List.forall_mem_cons.2 ⟨⟨hc.1.2, hc.2⟩, ih⟩

/-- Two texts one behind the other write the tokens of both, unless a word would go on. -/
theorem append {others : List Token} {rest : List Char} (h : Spaced tokens text)
    (hother : Spaced others rest)
    (hend : boundary text.getLast? = true ∨ boundary rest.head? = true) :
    Spaced (tokens ++ others) (text ++ rest) := by
  have hbehind (front : List Char) {text : List Char}
      (h : boundary (front ++ text).getLast? = true ∨ boundary rest.head? = true) :
      boundary text.getLast? = true ∨ boundary rest.head? = true := by
    cases hlast : text.getLast? with
    | none => exact .inl rfl
    | some c => simpa [List.getLast?_append, hlast] using h
  induction h with
  | nil => exact hother
  | @blank c tokens text hc h ih => exact .blank hc (ih (hbehind [c] hend))
  | @word name tokens text hname hstop h ih =>
      rw [List.append_assoc]
      refine .word hname ?_ (ih (hbehind name hend))
      cases text with
      | cons c text => exact hstop
      | nil =>
          rw [List.append_nil, boundary_getLast? hname] at hend
          exact hend.resolve_left (by simp)
  | @mark c tokens text hc h ih => exact .mark hc (ih (hbehind [c] hend))

/-- Blanks may be put behind. -/
theorem append_blanks_end {gap : List Char} (h : Spaced tokens text)
    (hgap : ∀ c ∈ gap, isBlank c = true) : Spaced tokens (text ++ gap) := by
  have hend : boundary gap.head? = true := by
    cases gap with
    | nil => rfl
    | cons c gap => exact boundary_of_isBlank (hgap c (by simp))
  have hnil : Spaced [] gap := by simpa using append_blanks hgap .nil
  simpa using h.append hnil (.inr hend)

/-- Blanks at the end belong to no token. -/
theorem of_append_blanks {gap : List Char} (hgap : ∀ c ∈ gap, isBlank c = true)
    (h : Spaced tokens (text ++ gap)) : Spaced tokens text := by
  generalize hall : text ++ gap = all at h
  induction h generalizing text with
  | nil =>
      obtain rfl := (List.append_eq_nil_iff.1 hall).1
      exact .nil
  | @blank c tokens rest hc h ih =>
      cases text with
      | nil =>
          obtain rfl : gap = c :: rest := hall
          have hblanks : Spaced [] rest := by
            simpa using append_blanks (fun d hd => hgap d (by simp [hd])) Spaced.nil
          rw [h.unique hblanks]
          exact .nil
      | cons d text =>
          obtain ⟨rfl, hrest⟩ := List.cons.inj hall
          exact .blank hc (ih hrest)
  | @word name tokens rest hname hend h ih =>
      rcases List.append_eq_append_iff.1 hall with ⟨inner, rfl, rfl⟩ | ⟨inner, rfl, rfl⟩
      · cases inner with
        | nil =>
            rw [List.append_nil] at hname
            have hempty : Spaced tokens [] := ih rfl
            simpa using Spaced.word hname rfl hempty
        | cons c inner =>
            have hblank := isBlank_of_mem_name hname c (by simp)
            rw [hgap c (by simp)] at hblank
            cases hblank
      · refine .word hname ?_ (ih rfl)
        cases inner with
        | nil => rfl
        | cons c inner => exact hend
  | @mark c tokens rest hc h ih =>
      cases text with
      | nil =>
          obtain rfl : gap = c :: rest := hall
          have hblank := isBlank_of_isMark hc
          rw [hgap c (by simp)] at hblank
          cases hblank
      | cons d text =>
          obtain ⟨rfl, hrest⟩ := List.cons.inj hall
          exact .mark hc (ih hrest)

/-- Trailing blanks do not matter. -/
theorem trimEnd (h : Spaced tokens text) : Spaced tokens (trimEnd text) := by
  obtain ⟨gap, hgap, htext⟩ := exists_of_trimEnd text
  rw [htext] at h
  exact of_append_blanks hgap h

/-- Blanks at both ends do not matter. -/
theorem trim (h : Spaced tokens text) : Spaced tokens (trim text) :=
  h.trimStart.trimEnd

/-- The tokens of two lists are written one behind the other. -/
theorem exists_of_append {first second : List Token} (h : Spaced (first ++ second) text) :
    ∃ front behind, text = front ++ behind ∧ Spaced first front ∧ Spaced second behind := by
  generalize hall : first ++ second = all at h
  induction h generalizing first with
  | nil =>
      obtain ⟨rfl, rfl⟩ := List.append_eq_nil_iff.1 hall
      exact ⟨[], [], rfl, .nil, .nil⟩
  | @blank c all text hc h ih =>
      obtain ⟨front, behind, rfl, hfirst, hsecond⟩ := ih hall
      exact ⟨c :: front, behind, rfl, .blank hc hfirst, hsecond⟩
  | @word name tokens text hname hend h ih =>
      cases first with
      | nil =>
          obtain rfl : second = _ := hall
          exact ⟨[], name ++ text, rfl, .nil, .word hname hend h⟩
      | cons token first =>
          obtain ⟨rfl, htokens⟩ := List.cons.inj hall
          obtain ⟨front, behind, rfl, hfirst, hsecond⟩ := ih htokens
          refine ⟨name ++ front, behind, by simp, .word hname ?_ hfirst, hsecond⟩
          cases front with
          | nil => rfl
          | cons c front => exact hend
  | @mark c tokens text hc h ih =>
      cases first with
      | nil =>
          obtain rfl : second = _ := hall
          exact ⟨[], c :: text, rfl, .nil, .mark hc h⟩
      | cons token first =>
          obtain ⟨rfl, htokens⟩ := List.cons.inj hall
          obtain ⟨front, behind, rfl, hfirst, hsecond⟩ := ih htokens
          exact ⟨c :: front, behind, rfl, .mark hc hfirst, hsecond⟩

/-- A mark stands in a text exactly when it is one of the tokens. -/
theorem mem_iff_mark {c : Char} (hc : isMark c = true) (h : Spaced tokens text) :
    c ∈ text ↔ .mark c ∈ tokens := by
  induction h with
  | nil => simp
  | blank hd _ ih => simp [ih, (ne_of_isBlank hd hc).symm]
  | word hname _ _ ih =>
      have hmem : c ∉ _ := fun hmem =>
        ne_of_isIdentifierChar ((isName_iff.1 hname).2 c hmem) hc rfl
      simp [ih, hmem]
  | mark _ _ ih => simp [ih]

/-- A mark splits a text where it splits the tokens. -/
theorem exists_of_append_mark {first second : List Token} {c : Char}
    (h : Spaced (first ++ .mark c :: second) text) :
    ∃ front behind, text = front ++ c :: behind ∧ isMark c = true ∧ Spaced first front ∧
      Spaced second behind := by
  obtain ⟨front, rest, rfl, hfirst, hrest⟩ := h.exists_of_append
  obtain ⟨gap, behind, rfl, hgap, hc, hsecond⟩ := hrest.exists_of_mark
  exact ⟨front ++ gap, behind, by simp, hc, hfirst.append_blanks_end hgap, hsecond⟩

/-- Splitting a text at a mark splits its tokens. -/
theorem splitOn {parts : List (List Token)} {c : Char} (hc : isMark c = true) (hne : parts ≠ [])
    (hparts : ∀ part ∈ parts, .mark c ∉ part)
    (h : Spaced ([.mark c].intercalate parts) text) :
    List.Forall₂ Spaced parts (text.splitOn c) := by
  induction parts generalizing text with
  | nil => exact absurd rfl hne
  | cons part parts ih =>
      have hpart := hparts part (by simp)
      cases parts with
      | nil =>
          rw [List.intercalate_singleton] at h
          rw [List.splitOn_eq_singleton (mt (h.mem_iff_mark hc).1 hpart)]
          exact .cons h .nil
      | cons next parts =>
          rw [List.intercalate_cons_cons, List.append_assoc, List.singleton_append] at h
          obtain ⟨front, behind, rfl, -, hfront, hbehind⟩ := h.exists_of_append_mark
          rw [List.splitOn_append_cons_self_of_not_mem (mt (hfront.mem_iff_mark hc).1 hpart)]
          exact .cons hfront (ih (by simp) (fun other hother => hparts other (by simp_all)) hbehind)

/-- Words without marks are followed by blanks. -/
theorem isBlank_head {names : List (List Char)} (h : Spaced (names.map .word) text)
    (hend : boundary text.head? = true) : ∀ d ∈ text.head?, isBlank d = true := by
  generalize hall : names.map Token.word = all at h
  cases h with
  | nil => simp
  | blank hc => simpa using hc
  | word hname =>
      rw [boundary_head?_append hname] at hend
      cases hend
  | mark => cases names <;> cases hall

/-- The words of a text without marks. -/
theorem words_eq {names : List (List Char)} (h : Spaced (names.map .word) text) :
    words text = names := by
  induction names generalizing text with
  | nil => exact words_of_blanks h.isBlank_of_nil
  | cons name names ih =>
      obtain ⟨gap, behind, rfl, hgap, hname, hend, hbehind⟩ := h.exists_of_word
      have hne := (isName_iff.1 hname).1
      have hhead : ∀ d ∈ (name ++ behind).head?, isBlank d = false := by
        intro d hd
        rw [List.head?_append_of_ne_nil _ hne] at hd
        exact isBlank_of_mem_name hname d (List.mem_of_head? hd)
      rw [List.append_assoc, words_blanks_append hgap hhead,
        words_run_append hne (isBlank_of_mem_name hname) (hbehind.isBlank_head hend), ih hbehind]

/-- Valid tokens are written by their spellings. -/
theorem of_spell (h : ∀ token ∈ tokens, token.isValid = true) :
    Spaced tokens (tokens.flatMap Token.spell) := by
  induction tokens with
  | nil => exact .nil
  | cons token tokens ih =>
      obtain ⟨htoken, htokens⟩ := List.forall_mem_cons.1 h
      have hrest : Spaced tokens (' ' :: tokens.flatMap Token.spell) :=
        .blank (by decide) (ih htokens)
      cases token with
      | word name =>
          rw [List.flatMap_cons, Token.spell, List.append_assoc]
          have hend : boundary (some ' ') = true := by decide
          exact .word htoken hend hrest
      | mark c => exact .mark htoken hrest

/-- The words of a text are names. -/
theorem isName_of_mem {name : List Char} (h : Spaced tokens text) (hmem : .word name ∈ tokens) :
    isName name = true := by
  rw [← mem_wordsOf_iff, ← h.identifiers_eq] at hmem
  exact (mem_identifiers_iff.1 hmem).1

end Spaced

end MiniProgram.Source
