import MiniProgram.Proofs.Source.Idempotence
import MiniProgram.Proofs.Source.Lexeme
import MiniProgram.Proofs.Source.Removal

/-!
# What a rewriting step does to the rest of a text

Each step of elimination cuts pieces out of a text and keeps the other characters in their order.
The next step reads what is left anew. Read `eliminate_preserves` first: it says when every
character that is left stands in the same region as before.

Folding cuts between brackets that match, so what is left is nested. It may put an else branch right
behind a slash, and then the two may start a comment (`scan_folded_iff`). Stripping never makes a
comment, as a declaration stands at the start of a statement. But it cuts wherever the first string
ends, so it may take one bracket of a pair (`scan_stripped_iff`).
-/

namespace MiniProgram.Source

open Text

/-- `Glued glyphs` says that a slash of code stands right in front of a character that makes it the
start of a comment. -/
def Glued (glyphs : List Glyph) : Prop :=
  ∃ front g rest, glyphs = front ++ ⟨'/', .code⟩ :: g :: rest ∧ (g.char = '/' ∨ g.char = '*')

section Reading

variable {phase next : Phase} {glyphs rest : List Glyph}

/-- Behind a character of code other than a slash the reader is in code. -/
theorem eq_code_of_step_code {c : Char} (hc : c ≠ '/') (h : step phase ⟨c, .code⟩ = some next) :
    next = .code := by
  cases phase <;> grind [step, stepCode]

/-- Only behind a slash of code the reader is in the phase `slash`. -/
theorem eq_slash_of_step {g : Glyph} (h : step phase g = some .slash) : g = ⟨'/', .code⟩ := by
  obtain ⟨c, region⟩ := g
  cases phase <;> grind [step, stepCode]

/-- A slash of code leaves the reader in the phase `slash`. -/
theorem eq_slash_of_step_slash (h : step phase ⟨'/', .code⟩ = some next) : next = .slash := by
  have hquote : isQuote '/' = false := by decide
  cases phase <;> grind [step, stepCode]

/-- Text that can be read is not glued. -/
theorem Readable.not_glued (h : Readable phase glyphs) : ¬ Glued glyphs := by
  rintro ⟨front, g, rest, rfl, hg⟩
  obtain ⟨middle, -, hmiddle⟩ := Readable.append_iff.1 h
  obtain ⟨next, hslash, hnext⟩ := Readable.cons_iff.1 hmiddle
  obtain rfl := eq_slash_of_step_slash hslash
  obtain ⟨last, hstep, -⟩ := Readable.cons_iff.1 hnext
  rw [step, if_pos hg] at hstep
  cases hstep

/-- Behind a slash, code is read as in code unless it starts a comment. -/
theorem Readable.slash (h : Readable .code glyphs)
    (hhead : ∀ g ∈ glyphs.head?, ¬ (g.char = '/' ∨ g.char = '*')) : Readable .slash glyphs := by
  cases glyphs with
  | nil => exact Readable.nil_iff.2 rfl
  | cons g glyphs =>
      obtain ⟨next, hstep, hnext⟩ := Readable.cons_iff.1 h
      exact .cons ((if_neg (hhead g rfl)).trans hstep) hnext

/-- `Reads text glyphs rest` says that `glyphs` are the code `text` with `rest` behind it. -/
structure Reads (text : List Char) (glyphs rest : List Glyph) : Prop where
  eq_append : glyphs = coded text ++ rest
  readable : Readable .code rest

/-- Two pieces of code, one behind the other, are one. -/
theorem Reads.append {text other : List Char} {last : List Glyph} (h : Reads text glyphs rest)
    (hrest : Reads other rest last) : Reads (text ++ other) glyphs last :=
  ⟨by rw [h.eq_append, hrest.eq_append, coded_append, List.append_assoc], hrest.readable⟩

/-- Plain text in code is code. -/
theorem reads_of_plain (word : List Glyph)
    (hplain : ∀ c ∈ chars word, isQuote c = false ∧ c ≠ '/') (h : Readable .code (word ++ rest)) :
    Reads (chars word) (word ++ rest) rest := by
  obtain ⟨middle, hrun, hrest⟩ := Readable.append_iff.1 h
  obtain ⟨hcoded, rfl⟩ := eq_coded_of_run (fun g hg => hplain g.char (List.mem_map_of_mem hg)) hrun
  exact ⟨by rw [← hcoded], hrest⟩

/-- The brackets of a text of code are all of its brackets. -/
theorem brackets_coded (text : List Char) : brackets (coded text) = text.filter isBracket := by
  induction text with
  | nil => rfl
  | cons c text ih =>
      rw [coded_cons, brackets_cons, ih, List.filter_cons]
      simp

/-- No blank is a bracket. -/
theorem isBracket_of_isBlank {c : Char} (h : isBlank c = true) : isBracket c = false :=
  eq_false_of_isBlank (by decide +kernel) h

/-- Blanks hold no brackets. -/
theorem filter_isBracket_of_isBlank {gap : List Char} (h : ∀ c ∈ gap, isBlank c = true) :
    gap.filter isBracket = [] := by
  refine List.filter_eq_nil_iff.2 fun c hc => ?_
  rw [isBracket_of_isBlank (h c hc)]
  decide

/-- Blanks in code are code. -/
theorem reads_skipBlanks (h : Readable .code glyphs) :
    ∃ gap, Reads gap glyphs (skipBlanks glyphs) ∧ ∀ c ∈ gap, isBlank c = true := by
  have hsplit : glyphs = (glyphs.takeWhile fun g => isBlank g.char) ++ skipBlanks glyphs :=
    List.takeWhile_append_dropWhile.symm
  have hblank : ∀ c ∈ chars (glyphs.takeWhile fun g => isBlank g.char), isBlank c = true := by
    intro c hc
    obtain ⟨g, hg, rfl⟩ := List.mem_map.1 hc
    exact List.all_eq_true.1 List.all_takeWhile g hg
  rw [hsplit] at h
  refine ⟨chars (glyphs.takeWhile fun g => isBlank g.char), ?_, hblank⟩
  have hreads := reads_of_plain _ (fun c hc => plain_of_isBlank (hblank c hc)) h
  rwa [← hsplit] at hreads

/-- A symbol that is read in code is code. -/
theorem reads_symbol? {symbol : Char} (hplain : isQuote symbol = false ∧ symbol ≠ '/')
    (hsymbol : symbol? symbol glyphs = some rest) (h : Readable .code glyphs) :
    Reads [symbol] glyphs rest := by
  obtain ⟨region, rfl⟩ := eq_cons_of_symbol? hsymbol
  exact reads_of_plain [⟨symbol, region⟩] (by simpa using hplain) h

/-- A word that is read is code, and the reader may stand behind a slash in front of it. -/
theorem reads_word? {word : List Char} (hne : word ≠ []) (hname : word.all isIdentifierChar = true)
    (hword : word? word glyphs = some rest) (h : Readable phase glyphs) :
    Reads word glyphs rest := by
  have hplain : ∀ c ∈ word, isQuote c = false ∧ c ≠ '/' := fun c hc =>
    plain_of_isIdentifierChar (List.all_eq_true.1 hname c hc)
  obtain ⟨front, rfl⟩ := suffix_of_word? hword
  obtain rfl : chars front = word := by
    have htext := append_of_word? hword
    rwa [chars_append, List.append_left_inj] at htext
  cases front with
  | nil => exact absurd rfl hne
  | cons g front =>
      obtain ⟨⟨-, hslash⟩, hfront⟩ := List.forall_mem_cons.1 hplain
      obtain ⟨others, hothers⟩ := exists_of_word? hword
      obtain ⟨c, region⟩ := g
      obtain rfl : region = .code := congrArg Glyph.region (List.cons.inj hothers).1
      obtain ⟨next, hstep, hnext⟩ := Readable.cons_iff.1 h
      obtain rfl := eq_code_of_step_code hslash hstep
      have hreads := reads_of_plain front hfront hnext
      exact ⟨congrArg _ hreads.eq_append, hreads.readable⟩

/-- A constant that is read is code without brackets. -/
theorem reads_constant? {value : Bool} (hconstant : constant? glyphs = some (value, rest))
    (h : Readable .code glyphs) : ∃ word, Reads word glyphs rest ∧ word.filter isBracket = [] := by
  rcases word?_of_constant? hconstant with ⟨-, hword⟩ | ⟨-, hword⟩ <;>
    exact ⟨_, reads_word? (by decide) (by decide) hword h, by decide⟩

/-- A condition that is read is code with one pair of brackets. -/
theorem reads_condition? {value : Bool} (hcondition : condition? glyphs = some (value, rest))
    (h : Readable .code glyphs) :
    ∃ text, Reads text glyphs rest ∧ text.filter isBracket = ['(', ')'] := by
  obtain ⟨opened, behind, closed, hopened, hconstant, hclosed, rfl⟩ :=
    condition?_eq_some_iff.1 hcondition
  obtain ⟨front, hfront, hfrontBlank⟩ := reads_skipBlanks h
  have hopening := reads_symbol? (by decide) hopened hfront.readable
  obtain ⟨gap, hgap, hgapBlank⟩ := reads_skipBlanks hopening.readable
  obtain ⟨word, hword, hwordBrackets⟩ := reads_constant? hconstant hgap.readable
  obtain ⟨tail, htail, htailBlank⟩ := reads_skipBlanks hword.readable
  have hclosing := reads_symbol? (by decide) hclosed htail.readable
  obtain ⟨last, hlast, hlastBlank⟩ := reads_skipBlanks hclosing.readable
  refine ⟨_, (((((hfront.append hopening).append hgap).append hword).append htail).append
    hclosing).append hlast, ?_⟩
  simp only [List.filter_append, hwordBrackets, filter_isBracket_of_isBlank hfrontBlank,
    filter_isBracket_of_isBlank hgapBlank, filter_isBracket_of_isBlank htailBlank,
    filter_isBracket_of_isBlank hlastBlank]
  decide

/-- What stands in front of an else branch is code without brackets. -/
theorem reads_alternative? (halternative : alternative? glyphs = some rest)
    (h : Readable .code glyphs) : ∃ text, Reads text glyphs rest ∧ text.filter isBracket = [] := by
  obtain ⟨tail, htail, rfl⟩ := Option.map_eq_some_iff.1 halternative
  obtain ⟨front, hfront, hfrontBlank⟩ := reads_skipBlanks h
  have hword := reads_word? (by decide) (by decide) htail hfront.readable
  obtain ⟨gap, hgap, hgapBlank⟩ := reads_skipBlanks hword.readable
  refine ⟨_, (hfront.append hword).append hgap, ?_⟩
  simp only [List.filter_append, filter_isBracket_of_isBlank hfrontBlank,
    filter_isBracket_of_isBlank hgapBlank]
  decide

end Reading

section Blocks

variable {phase last : Phase} {glyphs block rest : List Glyph}

/-- A block that is cut off in code stands between two braces of code, and behind it the reader is
in code. -/
structure Block (block rest : List Glyph) : Prop where
  braces : ∃ inner, block = ⟨'{', .code⟩ :: (inner ++ [⟨'}', .code⟩])
  run_eq : run .code block = some .code
  readable : Readable .code rest

/-- What is cut off as a block in code is one. -/
theorem block_of_block? (hcut : block? glyphs = some (block, rest)) (h : Readable .code glyphs) :
    Block block rest := by
  obtain ⟨region, tail, closing, rfl, hclose, rfl⟩ := block?_eq_some_iff.1 hcut
  have hsymbol : symbol? '{' (⟨'{', region⟩ :: tail) = some tail := by simp [symbol?]
  have hopening := reads_symbol? (by decide) hsymbol h
  obtain rfl : region = .code := by simpa using hopening.eq_append
  obtain ⟨inner, rfl⟩ := exists_append_of_closeBlock hclose
  obtain rfl := append_of_closeBlock hclose
  obtain ⟨middle, hrun, hrest⟩ := Readable.append_iff.1 hopening.readable
  have hmiddle : middle = .code := by
    obtain ⟨inside, -, hlast⟩ := run_append_iff.1 hrun
    obtain ⟨next, hstep, hnext⟩ := run_cons_iff.1 hlast
    cases hnext
    exact eq_code_of_step_code (by decide) hstep
  subst hmiddle
  exact ⟨⟨inner, rfl⟩, hrun, hrest⟩

end Blocks

/-- `Keeps before after` says that `after` is text of `before` in its order, can be read with the
regions it had there, and leaves open the brackets that `before` leaves open. -/
structure Keeps (before after : List Glyph) : Prop where
  sublist : after.Sublist before
  readable : Readable .code after
  nest_eq : ∀ {stack last}, nest stack (brackets before) = some last →
    nest stack (brackets after) = some last

namespace Keeps

variable {glyphs other after block rest : List Glyph}

/-- A text that can be read keeps itself. -/
theorem refl (h : Readable .code glyphs) : Keeps glyphs glyphs :=
  ⟨List.Sublist.refl _, h, id⟩

/-- What a kept text keeps is kept. -/
theorem trans (h : Keeps glyphs other) (hother : Keeps other after) : Keeps glyphs after :=
  ⟨hother.sublist.trans h.sublist, hother.readable, fun hnest => hother.nest_eq (h.nest_eq hnest)⟩

/-- Code may go whose brackets are nested. -/
theorem of_reads {text : List Char} (h : Reads text glyphs rest)
    (hnested : Nested (text.filter isBracket)) : Keeps glyphs rest := by
  obtain ⟨rfl, hrest⟩ := h
  refine ⟨List.sublist_append_right _ _, hrest, fun hnest => ?_⟩
  rwa [brackets_append, brackets_coded, nest_append, hnested.nest_eq] at hnest

/-- Behind a block other text may stand. -/
theorem behind_block (hcut : block? glyphs = some (block, rest)) (h : Readable .code glyphs)
    (hkeeps : Keeps rest after) : Keeps glyphs (block ++ after) := by
  obtain rfl := append_of_block? hcut
  refine ⟨hkeeps.sublist.append_left _, ?_, fun hnest => ?_⟩
  · exact Readable.append_iff.2 ⟨.code, (block_of_block? hcut h).run_eq, hkeeps.readable⟩
  · rw [brackets_append, nest_append_iff] at hnest ⊢
    obtain ⟨middle, hblock, hrest⟩ := hnest
    exact ⟨middle, hblock, hkeeps.nest_eq hrest⟩

/-- A block may go. -/
theorem drop_block (hcut : block? glyphs = some (block, rest)) (h : Readable .code glyphs) :
    Keeps glyphs rest := by
  obtain ⟨⟨inner, hbraces⟩, -, hrest⟩ := block_of_block? hcut h
  refine ⟨append_of_block? hcut ▸ List.sublist_append_right _ _, hrest, fun hnest => ?_⟩
  have hcode : ∀ g ∈ glyphs.head?, g.region = .code := by
    rw [append_of_block? hcut, hbraces]
    rintro g ⟨⟩
    rfl
  obtain ⟨inside, hblock, hinside⟩ := exists_nested_of_block? hcode hcut hnest
  rwa [append_of_block? hcut, brackets_append, nest_append, hblock,
    (nested_block hinside).nest_eq] at hnest

/-- The text between the braces of a block may go. -/
theorem empty_block (hcut : block? glyphs = some (block, rest)) (h : Readable .code glyphs) :
    Keeps glyphs (emptyBlock ++ rest) := by
  obtain ⟨⟨inner, hbraces⟩, -, hrest⟩ := block_of_block? hcut h
  refine ⟨?_, ?_, fun hnest => ?_⟩
  · rw [append_of_block? hcut, hbraces]
    exact List.Sublist.append_right (.cons_cons _ (List.sublist_append_right _ _)) _
  · exact Readable.append_iff.2 ⟨.code, rfl, hrest⟩
  · have hempty : Nested (brackets emptyBlock) := nest_eq_some_nil_iff.1 (by decide)
    rw [brackets_append, nest_append, hempty.nest_eq]
    exact (drop_block hcut h).nest_eq hnest

/-- What a conditional leaves of its block and what follows. -/
theorem of_branch {value : Bool} (hcut : block? glyphs = some (block, rest))
    (h : Readable .code glyphs) (hbranch : branch value block rest = some after) :
    Keeps glyphs after := by
  have hrest := (block_of_block? hcut h).readable
  have halternative : ∀ {alternative}, alternative? rest = some alternative →
      Keeps rest alternative := by
    intro alternative hsome
    obtain ⟨text, hreads, hbrackets⟩ := reads_alternative? hsome hrest
    exact of_reads hreads (hbrackets ▸ .nil)
  cases branch_eq_some_iff.1 hbranch with
  | dropped => exact empty_block hcut h
  | other hsome => exact (drop_block hcut h).trans (halternative hsome)
  | kept => exact append_of_block? hcut ▸ refl h
  | chosen hsome hother =>
      have hkeeps := halternative hsome
      exact behind_block hcut h (hkeeps.trans (drop_block hother hkeeps.readable))

/-- What folding leaves of a conditional, which may stand right behind a slash. -/
theorem of_foldHere {phase : Phase} {previous : Option Char}
    (hfold : foldHere previous glyphs = some after) (h : Readable phase glyphs) :
    Keeps glyphs after := by
  obtain ⟨behind, value, inner, block, rest, hword, -, hcondition, hcut, hbranch⟩ :=
    foldHere_eq_some_iff.1 hfold
  have hif := reads_word? (by decide) (by decide) hword h
  obtain ⟨text, htext, hbrackets⟩ := reads_condition? hcondition hif.readable
  have hpair : Nested ['(', ')'] := nest_eq_some_nil_iff.1 (by decide)
  have hhead : Keeps glyphs inner :=
    (of_reads hif (.nil)).trans (of_reads htext (hbrackets ▸ hpair))
  exact hhead.trans (of_branch hcut htext.readable hbranch)

end Keeps

section Steps

variable {glyphs folded next before after : List Glyph}

/-- Folding goes past the text in front of a conditional. -/
theorem exists_of_foldFrom {previous : Option Char} (h : foldFrom previous glyphs = some folded) :
    ∃ front rest here tail, glyphs = front ++ rest ∧ folded = front ++ tail ∧
      foldHere here rest = some tail := by
  induction glyphs generalizing previous folded with
  | nil => cases h
  | cons g glyphs ih =>
      unfold foldFrom at h
      split at h
      · next hhere =>
          cases h
          exact ⟨[], g :: glyphs, previous, folded, rfl, rfl, hhere⟩
      · obtain ⟨last, hlast, rfl⟩ := Option.map_eq_some_iff.1 h
        obtain ⟨front, rest, here, tail, rfl, rfl, hhere⟩ := ih hlast
        exact ⟨g :: front, rest, here, tail, rfl, rfl, hhere⟩

/-- Behind a front text that ends with a slash of code. -/
theorem exists_of_run_slash {phase : Phase} {front : List Glyph} (hphase : phase ≠ .slash)
    (h : run phase front = some .slash) : ∃ before, front = before ++ [⟨'/', .code⟩] := by
  rcases List.eq_nil_or_concat front with rfl | ⟨before, g, rfl⟩
  · exact absurd (Option.some.inj h) hphase
  · rw [List.concat_eq_append] at h ⊢
    obtain ⟨inside, -, hlast⟩ := run_append_iff.1 h
    obtain ⟨last, hstep, hend⟩ := run_cons_iff.1 hlast
    cases hend
    exact ⟨before, by rw [eq_slash_of_step hstep]⟩

/-- A conditional starts in code, maybe right behind a slash. -/
theorem phase_of_foldHere {phase : Phase} {previous : Option Char}
    (hfold : foldHere previous glyphs = some folded) (h : Readable phase glyphs) :
    phase = .code ∨ phase = .slash := by
  obtain ⟨_, _, _, _, _, hword, -⟩ := foldHere_eq_some_iff.1 hfold
  have hif := reads_word? (by decide) (by decide) hword h
  rw [hif.eq_append] at h
  obtain ⟨next, hstep, -⟩ := Readable.cons_iff.1 h
  cases phase <;> simp [step] at hstep <;> simp

/-- Folding keeps characters in their order and their brackets nested, and the scanner finds them in
their regions unless a branch was put behind a slash that makes it a comment. -/
theorem scan_folded_iff (hscan : scan (chars glyphs) = some glyphs)
    (hfold : fold? glyphs = some folded) :
    folded.Sublist glyphs ∧ Nested (brackets folded) ∧
      (scan (chars folded) = some folded ↔ ¬ Glued folded) := by
  obtain ⟨hreadable, hnested⟩ := scan_chars_iff.1 hscan
  obtain ⟨front, rest, here, tail, rfl, rfl, hhere⟩ := exists_of_foldFrom hfold
  obtain ⟨phase, hfront, hrest⟩ := Readable.append_iff.1 hreadable
  have hkeeps := Keeps.of_foldHere hhere hrest
  have hbrackets : Nested (brackets (front ++ tail)) := by
    rw [← nest_eq_some_nil_iff, brackets_append, nest_append_iff] at hnested ⊢
    obtain ⟨middle, hopen, hclose⟩ := hnested
    exact ⟨middle, hopen, hkeeps.nest_eq hclose⟩
  refine ⟨hkeeps.sublist.append_left _, hbrackets, ?_⟩
  rw [scan_chars_iff]
  refine ⟨fun h => h.1.not_glued, fun hglued => ⟨?_, hbrackets⟩⟩
  refine Readable.append_iff.2 ⟨phase, hfront, ?_⟩
  rcases phase_of_foldHere hhere hrest with rfl | rfl
  · exact hkeeps.readable
  · -- right behind a slash the first character that is left must not start a comment
    obtain ⟨before, rfl⟩ := exists_of_run_slash (by decide) hfront
    refine hkeeps.readable.slash fun g hg hstart => hglued ?_
    obtain ⟨others, rfl⟩ := List.head?_eq_some_iff.1 hg
    exact ⟨before, g, others, by simp, hstart⟩

/-- Stripping keeps characters in their order and makes no comment, and the scanner finds them in
their regions if their brackets are nested. -/
theorem scan_stripped_iff (hscan : scan (chars glyphs) = some glyphs) :
    (strip glyphs).Sublist glyphs ∧ ¬ Glued (strip glyphs) ∧
      (scan (chars (strip glyphs)) = some (strip glyphs) ↔ Nested (brackets (strip glyphs))) := by
  have hreadable := (readable_strip (readable_of_scan hscan)).1
  exact ⟨strip_sublist glyphs, hreadable.not_glued, by simp [scan_chars_iff, hreadable]⟩

/-- What stripping leaves is either refused by the scanner or read as it was before. -/
theorem eq_strip_of_scan (hscan : scan (chars glyphs) = some glyphs)
    (hnext : scan (chars (strip glyphs)) = some next) : next = strip glyphs :=
  (readable_of_scan hnext).unique (readable_strip (readable_of_scan hscan)).1 (chars_of_scan hnext)

end Steps

/-- `Folds glyphs before folded` says that folding, on its way from `glyphs`, turns the text
`before` into `folded`. The regions of `folded` are those that its characters have in `before`. -/
inductive Folds : List Glyph → List Glyph → List Glyph → Prop where
  | here {glyphs folded next} : fold? glyphs = some folded → scan (chars folded) = some next →
      Folds glyphs glyphs folded
  | later {glyphs folded next before after} : fold? glyphs = some folded →
      scan (chars folded) = some next → Folds next before after → Folds glyphs before after

/-- `Strips glyphs before stripped` says that stripping, on its way from `glyphs`, turns the text
`before` into `stripped`. -/
inductive Strips : List Glyph → List Glyph → List Glyph → Prop where
  | here {glyphs} : strip glyphs ≠ glyphs → Strips glyphs glyphs (strip glyphs)
  | later {glyphs next before after} : strip glyphs ≠ glyphs →
      scan (chars (strip glyphs)) = some next → Strips next before after →
      Strips glyphs before after

section Runs

variable {glyphs before after : List Glyph} {text : List Char}

/-- Every text that folding turns into another one is balanced. -/
theorem Folds.scan_eq (h : Folds glyphs before after) (hscan : scan (chars glyphs) = some glyphs) :
    scan (chars before) = some before ∧ fold? before = some after := by
  induction h with
  | here hfold _ => exact ⟨hscan, hfold⟩
  | later _ hnext _ ih => exact ih (scan_chars hnext)

/-- Every text that stripping turns into another one is balanced. -/
theorem Strips.scan_eq (h : Strips glyphs before after)
    (hscan : scan (chars glyphs) = some glyphs) :
    scan (chars before) = some before ∧ after = strip before := by
  induction h with
  | here => exact ⟨hscan, rfl⟩
  | later _ hnext _ ih => exact ih (scan_chars hnext)

/-- Folding keeps characters in their regions if no step makes a comment. -/
theorem foldAll_sublist (hscan : scan (chars glyphs) = some glyphs)
    (hsteps : ∀ before folded, Folds glyphs before folded → ¬ Glued folded) :
    (foldAll glyphs).Sublist glyphs := by
  fun_induction foldAll glyphs with
  | case1 | case2 => exact List.Sublist.refl _
  | case3 glyphs folded hfold next hnext ih =>
      obtain ⟨hsublist, -, hiff⟩ := scan_folded_iff hscan hfold
      have hsame := hiff.2 (hsteps glyphs folded (.here hfold hnext))
      obtain rfl : folded = next := Option.some.inj (hsame.symm.trans hnext)
      have hlater := ih hsame fun before after h => hsteps before after (.later hfold hnext h)
      exact hlater.trans hsublist

/-- Stripping keeps characters in their regions, and the last text is balanced exactly when every
step leaves nested brackets. -/
theorem exists_stripAll (hscan : scan (chars glyphs) = some glyphs) :
    ∃ final, chars final = stripAll glyphs ∧ final.Sublist glyphs ∧
      (∀ last, scan (stripAll glyphs) = some last → last = final) ∧
      ((scan (stripAll glyphs)).isSome = true ↔
        ∀ before stripped, Strips glyphs before stripped → Nested (brackets stripped)) := by
  fun_induction stripAll glyphs with
  | case1 glyphs hsame =>
      refine ⟨glyphs, rfl, List.Sublist.refl _, ?_, ?_⟩
      · exact fun last hlast => Option.some.inj (hlast.symm.trans hscan)
      · refine iff_of_true (by rw [hscan]; rfl) fun before stripped h => ?_
        cases h with
        | here hchange | later hchange => exact absurd hsame hchange
  | case2 glyphs hchange hnone =>
      -- the step that breaks the nesting is the last one, and its text is the result
      obtain ⟨hsublist, -, hiff⟩ := scan_stripped_iff hscan
      refine ⟨strip glyphs, rfl, hsublist, ?_, ?_⟩
      · intro last hlast
        rw [hnone] at hlast
        cases hlast
      · refine iff_of_false (by simp [hnone]) fun h => ?_
        have hsome := hiff.2 (h glyphs _ (.here hchange))
        rw [hnone] at hsome
        cases hsome
  | case3 glyphs hchange next hnext ih =>
      obtain rfl := eq_strip_of_scan hscan hnext
      obtain ⟨hsublist, -, hiff⟩ := scan_stripped_iff hscan
      obtain ⟨final, hchars, hfinal, hunique, hsome⟩ := ih hnext
      refine ⟨final, hchars, hfinal.trans hsublist, hunique, hsome.trans ⟨?_, ?_⟩⟩
      · intro hlater before stripped h
        cases h with
        | here => exact hiff.1 hnext
        | later _ hread h =>
            rw [hnext] at hread
            cases hread
            exact hlater before stripped h
      · exact fun h before stripped hstep => h before stripped (.later hchange hnext hstep)

/-- What each step of elimination keeps of a balanced source.

A fold keeps characters in their order and leaves nested brackets, and the scanner finds the
characters in the regions that they had exactly when none of them became the start of a comment.
A strip makes no comment, and the scanner finds the characters in the regions that they had exactly
when their brackets are still nested.

So the result is balanced exactly when every strip leaves nested brackets, and all its characters
stand in the regions that they have in the source if no fold makes a comment. -/
theorem eliminate_preserves (hscan : scan text = some glyphs) :
    (∀ before folded, Folds glyphs before folded →
      folded.Sublist before ∧ Nested (brackets folded) ∧
        (scan (chars folded) = some folded ↔ ¬ Glued folded)) ∧
    (∀ before stripped, Strips (foldAll glyphs) before stripped →
      stripped.Sublist before ∧ ¬ Glued stripped ∧
        (scan (chars stripped) = some stripped ↔ Nested (brackets stripped))) ∧
    ((scan (eliminateChars text)).isSome = true ↔
      ∀ before stripped, Strips (foldAll glyphs) before stripped → Nested (brackets stripped)) ∧
    ((∀ before folded, Folds glyphs before folded → ¬ Glued folded) →
      ∃ final, chars final = eliminateChars text ∧ final.Sublist glyphs ∧
        ∀ last, scan (eliminateChars text) = some last → last = final) := by
  have hglyphs := scan_chars hscan
  have hfolded := scan_foldAll hglyphs
  obtain ⟨final, hchars, hfinal, hunique, hbalanced⟩ := exists_stripAll hfolded
  rw [eliminateChars_of_scan hscan]
  refine ⟨?_, ?_, hbalanced, ?_⟩
  · intro before folded h
    obtain ⟨hbefore, hfold⟩ := h.scan_eq hglyphs
    exact scan_folded_iff hbefore hfold
  · intro before stripped h
    obtain ⟨hbefore, rfl⟩ := h.scan_eq hfolded
    exact scan_stripped_iff hbefore
  · intro hsteps
    exact ⟨final, hchars, hfinal.trans (foldAll_sublist hglyphs hsteps), hunique⟩

/-- A block may be put behind a slash, although a string with a star stands in it. -/
theorem eliminate_preserves_slash :
    ∃ glyphs folded, scan "a /if (true) \x7b '*' \x7d\n".toList = some glyphs ∧
      Folds glyphs glyphs folded ∧ chars folded = "a /\x7b '*' \x7d\n".toList ∧ ¬ Glued folded := by
  have hscan : scan "a /if (true) \x7b '*' \x7d\n".toList =
      some (coded "a /if (true) \x7b ".toList ++ quoted ['*'] ++ coded " \x7d\n".toList) := by
    decide +kernel
  have hfold : fold? (coded "a /if (true) \x7b ".toList ++ quoted ['*'] ++ coded " \x7d\n".toList) =
      some (coded "a /\x7b ".toList ++ quoted ['*'] ++ coded " \x7d\n".toList) := by
    decide +kernel
  have hnext : scan (chars (coded "a /\x7b ".toList ++ quoted ['*'] ++ coded " \x7d\n".toList)) =
      some (coded "a /\x7b ".toList ++ quoted ['*'] ++ coded " \x7d\n".toList) := by
    decide +kernel
  obtain ⟨-, -, hiff⟩ := (eliminate_preserves hscan).1 _ _ (.here hfold hnext)
  exact ⟨_, _, hscan, .here hfold hnext, by decide, hiff.1 hnext⟩

/-- Markup that looks like an import loses a bracket with the text up to the next string, and an
else branch that starts with a slash turns the rest of its line into a comment. -/
theorem eliminate_disturbs :
    (scan "(\nimport { x } ) { a } from 'y';\n".toList).isSome = true ∧
      eliminateChars "(\nimport { x } ) { a } from 'y';\n".toList = "(\n".toList ∧
      scan "(\n".toList = none ∧
      scan "r = /if (false) {} else /g;\n".toList =
        some (coded "r = /if (false) {} else /g;\n".toList) ∧
      scan (eliminateChars "r = /if (false) {} else /g;\n".toList) =
        some (coded "r = ".toList ++ "//g;".toList.map (⟨·, .comment⟩) ++ coded ['\n']) := by
  decide +kernel

/-- Folding cuts text out of a balanced source. -/
theorem chars_foldAll_sublist (hscan : scan (chars glyphs) = some glyphs) :
    (chars (foldAll glyphs)).Sublist (chars glyphs) := by
  fun_induction foldAll glyphs with
  | case1 | case2 => exact List.Sublist.refl _
  | case3 glyphs folded hfold next hnext ih =>
      have hfolded : (chars folded).Sublist (chars glyphs) :=
        (scan_folded_iff hscan hfold).1.map Glyph.char
      rw [← chars_of_scan hnext] at hfolded
      exact (ih (scan_chars hnext)).trans hfolded

/-- Elimination only cuts text out of a source. -/
theorem eliminateChars_sublist (text : List Char) : (eliminateChars text).Sublist text := by
  cases hscan : scan text with
  | none =>
      rw [eliminateChars_of_scan_eq_none hscan]
  | some glyphs =>
      have hglyphs := scan_chars hscan
      obtain ⟨final, hchars, hfinal, -⟩ := exists_stripAll (scan_foldAll hglyphs)
      have hstripped : (chars final).Sublist (chars (foldAll glyphs)) := hfinal.map Glyph.char
      rw [eliminateChars_of_scan hscan, ← hchars, ← chars_of_scan hscan]
      exact hstripped.trans (chars_foldAll_sublist hglyphs)

end Runs

end MiniProgram.Source
