import MiniProgram.Proofs.Source.Scan

/-!
# Classified text, one character at a time

`scan` looks one character ahead to tell a comment from a slash, and it counts brackets. `run` reads
text that is already classified, one character after the other, and forgets the brackets. So a text
may be taken apart and put together anywhere (`run_append`).

Whatever `scan` accepts can be run through (`exists_run_of_scan`), and only one classification of a
text can (`run_unique`).
-/

namespace MiniProgram.Source

/-- Where a reader of classified text is. `slash` is in code, right behind a slash; `opening` is
behind the first character of a comment; `star` is in a block comment, right behind a star. -/
inductive Phase where
  | code
  | slash
  | opening
  | lineComment
  | blockComment
  | star
  | quoted (quote : Char)
  | escaped (quote : Char)
  deriving DecidableEq, Repr

/-- `stepCode g` reads a character in code. -/
def stepCode (g : Glyph) : Option Phase :=
  match g.region with
  | .code => if isQuote g.char then none else some (if g.char = '/' then .slash else .code)
  | .comment => if g.char = '/' then some .opening else none
  | .string => if isQuote g.char then some (.quoted g.char) else none

/-- `step phase g` reads one character. -/
def step : Phase → Glyph → Option Phase
  | .code, g => stepCode g
  | .slash, g => if g.char = '/' ∨ g.char = '*' then none else stepCode g
  | .opening, g =>
    if g = ⟨'/', .comment⟩ then some .lineComment
    else if g = ⟨'*', .comment⟩ then some .blockComment
    else none
  | .lineComment, g =>
    if g = ⟨'\n', .code⟩ then some .code
    else if g.region = .comment ∧ g.char ≠ '\n' then some .lineComment
    else none
  | .blockComment, g =>
    if g.region = .comment then some (if g.char = '*' then .star else .blockComment) else none
  | .star, g =>
    if g.region = .comment then
      some (if g.char = '/' then .code else if g.char = '*' then .star else .blockComment)
    else none
  | .quoted quote, g =>
    if g.region = .string then
      if g.char = '\\' then some (.escaped quote)
      else if g.char = quote then some .code
      else if g.char = '\n' ∧ quote ≠ '`' then none
      else some (.quoted quote)
    else none
  | .escaped quote, g => if g.region = .string then some (.quoted quote) else none

/-- `run phase glyphs` reads a classified text. -/
def run (phase : Phase) : List Glyph → Option Phase
  | [] => some phase
  | g :: rest => (step phase g).bind (run · rest)

/-- The phase in which the scanner is inside of a mode. -/
def Mode.phase : Mode → Phase
  | .code => .code
  | .lineComment => .lineComment
  | .blockComment => .blockComment
  | .quoted quote => .quoted quote
  | .escaped quote => .escaped quote

section Running

variable {phase last : Phase} {glyphs rest : List Glyph}

/-- Reading nothing changes no phase. -/
@[simp]
theorem run_nil (phase : Phase) : run phase [] = some phase := rfl

/-- A text is read character by character. -/
theorem run_cons (phase : Phase) (g : Glyph) (rest : List Glyph) :
    run phase (g :: rest) = (step phase g).bind (run · rest) := rfl

/-- A text is read piece by piece. -/
theorem run_append (phase : Phase) (glyphs rest : List Glyph) :
    run phase (glyphs ++ rest) = (run phase glyphs).bind (run · rest) := by
  induction glyphs generalizing phase with
  | nil => rfl
  | cons g glyphs ih =>
      rw [List.cons_append, run_cons, run_cons, Option.bind_assoc]
      exact congrArg _ (funext ih)

/-- A text of two parts is read with the second part behind the first. -/
theorem run_append_iff :
    run phase (glyphs ++ rest) = some last ↔
      ∃ middle, run phase glyphs = some middle ∧ run middle rest = some last := by
  rw [run_append, Option.bind_eq_some_iff]

/-- A text is read with the rest behind its first character. -/
theorem run_cons_iff {g : Glyph} :
    run phase (g :: rest) = some last ↔
      ∃ middle, step phase g = some middle ∧ run middle rest = some last := by
  rw [run_cons, Option.bind_eq_some_iff]

/-- Right behind a slash, what starts no comment is read as in code. -/
theorem run_slash (h : ∀ c ∈ (chars rest).head?, c ≠ '/' ∧ c ≠ '*') (hne : rest ≠ []) :
    run .slash rest = run .code rest := by
  cases rest with
  | nil => exact absurd rfl hne
  | cons g rest =>
      have hg := h g.char rfl
      rw [run_cons, run_cons, step, step, if_neg (by simp [hg])]

/-- Right behind a star, what does not end a block comment is read as inside of it. -/
theorem run_star (h : ∀ c ∈ (chars rest).head?, c ≠ '/') (hne : rest ≠ []) :
    run .star rest = run .blockComment rest := by
  cases rest with
  | nil => exact absurd rfl hne
  | cons g rest =>
      have hg := h g.char rfl
      rw [run_cons, run_cons, step, step, if_neg hg]

end Running

/-- The phases in which a text may end. -/
def Phase.isFinal : Phase → Bool
  | .code | .slash | .lineComment => true
  | _ => false

/-- A text that can be read up to its end, with no string and no block comment left open. -/
def Readable (phase : Phase) (glyphs : List Glyph) : Prop :=
  ∃ last, run phase glyphs = some last ∧ last.isFinal = true

section Scanning

variable {rest : List Glyph}

/-- A text can be read in front of which a character is read that leads there. -/
theorem Readable.cons {phase next : Phase} {g : Glyph} (hstep : step phase g = some next)
    (h : Readable next rest) : Readable phase (g :: rest) := by
  obtain ⟨last, hrun, hlast⟩ := h
  exact ⟨last, by rw [run_cons, hstep, Option.bind_some, hrun], hlast⟩

/-- A character of code that starts no comment. -/
theorem Readable.code {c : Char} (hquote : ¬ isQuote c = true)
    (hslash : c = '/' → ∀ d ∈ (chars rest).head?, d ≠ '/' ∧ d ≠ '*') (h : Readable .code rest) :
    Readable .code (⟨c, .code⟩ :: rest) := by
  by_cases hc : c = '/'
  · have hstep : step .code ⟨c, .code⟩ = some .slash := by
      rw [step, stepCode, if_neg hquote, if_pos hc]
    refine .cons hstep ?_
    by_cases hrest : rest = []
    · subst hrest
      exact ⟨.slash, rfl, rfl⟩
    · unfold Readable
      rw [run_slash (hslash hc) hrest]
      exact h
  · exact .cons (by simp [step, stepCode, hquote, hc]) h

/-- A character of a block comment that does not end it. -/
theorem Readable.blockComment {c : Char} (hstar : c = '*' → ∀ d ∈ (chars rest).head?, d ≠ '/')
    (h : Readable .blockComment rest) : Readable .blockComment (⟨c, .comment⟩ :: rest) := by
  by_cases hc : c = '*'
  · have hstep : step .blockComment ⟨c, .comment⟩ = some .star := by
      rw [step, if_pos rfl, if_pos hc]
    refine .cons hstep ?_
    unfold Readable
    rw [run_star (hstar hc)]
    · exact h
    · -- the comment is still open
      rintro rfl
      obtain ⟨last, hrun, hlast⟩ := h
      cases hrun
      cases hlast
  · exact .cons (by simp [step, hc]) h

/-- What the scanner classifies can be read. -/
theorem readable_of_scanFrom {mode : Mode} {brackets text : List Char} {glyphs : List Glyph}
    (h : scanFrom mode brackets text = some glyphs) : Readable mode.phase glyphs := by
  have hhead {mode : Mode} {brackets text : List Char} {d : Char} {tail : List Glyph}
      (htail : scanFrom mode brackets text = some tail) (hd : d ∈ (chars tail).head?) :
      ∃ rest, text = d :: rest := by
    rw [chars_of_scanFrom htail] at hd
    exact List.head?_eq_some_iff.1 hd
  -- one case for each branch of the scanner; those that refuse the text have nothing to show
  fun_induction scanFrom mode brackets text generalizing glyphs with
  | case1 => cases h; exact ⟨.code, rfl, rfl⟩
  | case3 => cases h; exact ⟨.lineComment, rfl, rfl⟩
  | case2 | case4 | case5 | case11 | case13 | case20 => cases h
  | case6 brackets rest ih =>
      obtain ⟨front, hfront, rfl⟩ := glyph_eq_some_iff.1 h
      obtain ⟨tail, htail, rfl⟩ := glyph_eq_some_iff.1 hfront
      exact .cons rfl (.cons rfl (ih htail))
  | case7 brackets rest ih =>
      obtain ⟨front, hfront, rfl⟩ := glyph_eq_some_iff.1 h
      obtain ⟨tail, htail, rfl⟩ := glyph_eq_some_iff.1 hfront
      exact .cons rfl (.cons rfl (ih htail))
  | case8 brackets c rest _ _ hquote ih =>
      obtain ⟨tail, htail, rfl⟩ := glyph_eq_some_iff.1 h
      exact .cons (by simp [Mode.phase, step, stepCode, hquote]) (ih htail)
  | case9 brackets c rest hline hblock hquote _ ih
  | case10 brackets c rest hline hblock hquote _ _ ih
  | case12 c rest hline hblock hquote _ _ _ _ ih =>
      obtain ⟨tail, htail, rfl⟩ := glyph_eq_some_iff.1 h
      refine .code hquote (fun hc d hd => ?_) (ih htail)
      obtain ⟨others, hrest⟩ := hhead htail hd
      exact ⟨fun hd => hline others hc (by rw [hrest, hd]),
        fun hd => hblock others hc (by rw [hrest, hd])⟩
  | case14 brackets rest ih =>
      obtain ⟨tail, htail, rfl⟩ := glyph_eq_some_iff.1 h
      exact .cons rfl (ih htail)
  | case15 brackets c rest hc ih =>
      obtain ⟨tail, htail, rfl⟩ := glyph_eq_some_iff.1 h
      exact .cons (by simp [Mode.phase, step, hc]) (ih htail)
  | case16 brackets rest ih =>
      obtain ⟨front, hfront, rfl⟩ := glyph_eq_some_iff.1 h
      obtain ⟨tail, htail, rfl⟩ := glyph_eq_some_iff.1 hfront
      exact .cons rfl (.cons rfl (ih htail))
  | case17 brackets c rest hclosing ih =>
      obtain ⟨tail, htail, rfl⟩ := glyph_eq_some_iff.1 h
      refine .blockComment (fun hc d hd hslash => ?_) (ih htail)
      obtain ⟨others, hrest⟩ := hhead htail hd
      exact hclosing others hc (by rw [hrest, hslash])
  | case18 quote brackets rest ih =>
      obtain ⟨tail, htail, rfl⟩ := glyph_eq_some_iff.1 h
      exact .cons rfl (ih htail)
  | case19 brackets c rest hc ih =>
      obtain ⟨tail, htail, rfl⟩ := glyph_eq_some_iff.1 h
      exact .cons (by simp [Mode.phase, step, hc]) (ih htail)
  | case21 quote brackets c rest hescape hquote hline ih =>
      obtain ⟨tail, htail, rfl⟩ := glyph_eq_some_iff.1 h
      refine .cons ?_ (ih htail)
      show step (.quoted quote) ⟨c, .string⟩ = some (.quoted quote)
      rw [step, if_pos rfl, if_neg hescape, if_neg hquote, if_neg hline]
  | case22 quote brackets c rest ih =>
      obtain ⟨tail, htail, rfl⟩ := glyph_eq_some_iff.1 h
      exact .cons rfl (ih htail)

/-- A balanced text can be read. -/
theorem readable_of_scan {text : List Char} {glyphs : List Glyph} (h : scan text = some glyphs) :
    Readable .code glyphs :=
  readable_of_scanFrom h

end Scanning

section Unique

variable {phase next other : Phase} {g d : Glyph} {glyphs others : List Glyph}

/-- In code a character has one region, unless it is a slash that may start a comment. -/
theorem stepCode_unique (h : stepCode g = some next) (hother : stepCode d = some other)
    (hchar : g.char = d.char) :
    g = d ∨ (next = .slash ∧ other = .opening) ∨ (next = .opening ∧ other = .slash) := by
  obtain ⟨c, region⟩ := g
  obtain ⟨c', region'⟩ := d
  obtain rfl : c = c' := hchar
  have hslash : isQuote '/' = false := by decide
  cases region <;> cases region' <;> simp only [stepCode] at h hother <;> grind

/-- A character has one region, unless it is a slash that may start a comment. -/
theorem step_unique (h : step phase g = some next) (hother : step phase d = some other)
    (hchar : g.char = d.char) :
    g = d ∨ (next = .slash ∧ other = .opening) ∨ (next = .opening ∧ other = .slash) := by
  cases phase with
  | code => exact stepCode_unique h hother hchar
  | slash =>
      rw [step] at h hother
      split at h
      · cases h
      · rw [if_neg (hchar ▸ ‹_›)] at hother
        exact stepCode_unique h hother hchar
  | opening | lineComment | blockComment | star | quoted | escaped =>
      obtain ⟨c, region⟩ := g
      obtain ⟨c', region'⟩ := d
      obtain rfl : c = c' := hchar
      simp only [step] at h hother
      grind

/-- A slash in code is not followed by what follows the opening slash of a comment. -/
theorem not_readable_slash (h : Readable .slash glyphs) (hother : Readable .opening others) :
    chars glyphs ≠ chars others := by
  obtain ⟨last, hrun, -⟩ := h
  obtain ⟨otherLast, hotherRun, hfinal⟩ := hother
  intro hchars
  cases others with
  | nil =>
      cases hotherRun
      cases hfinal
  | cons d others =>
      cases glyphs with
      | nil => cases hchars
      | cons g glyphs =>
          obtain ⟨hsame, -⟩ := List.cons.inj hchars
          obtain ⟨middle, hstep, -⟩ := run_cons_iff.1 hrun
          obtain ⟨otherMiddle, hotherStep, -⟩ := run_cons_iff.1 hotherRun
          simp only [step] at hstep hotherStep
          grind

/-- A text can be classified in one way only. -/
theorem Readable.unique (h : Readable phase glyphs) (hother : Readable phase others)
    (hchars : chars glyphs = chars others) : glyphs = others := by
  -- both readers stay in one phase, unless they part at a slash, which `not_readable_slash`
  -- excludes
  induction glyphs generalizing phase others with
  | nil =>
      cases others with
      | nil => rfl
      | cons d others => cases hchars
  | cons g glyphs ih =>
      cases others with
      | nil => cases hchars
      | cons d others =>
          obtain ⟨hchar, hrest⟩ := List.cons.inj hchars
          obtain ⟨last, hrun, hlast⟩ := h
          obtain ⟨otherLast, hotherRun, hotherLast⟩ := hother
          obtain ⟨next, hstep, hnext⟩ := run_cons_iff.1 hrun
          obtain ⟨otherNext, hotherStep, hotherNext⟩ := run_cons_iff.1 hotherRun
          have htail : Readable next glyphs := ⟨last, hnext, hlast⟩
          have hotherTail : Readable otherNext others := ⟨otherLast, hotherNext, hotherLast⟩
          rcases step_unique hstep hotherStep hchar with rfl | ⟨rfl, rfl⟩ | ⟨rfl, rfl⟩
          · obtain rfl : next = otherNext := Option.some.inj (hstep.symm.trans hotherStep)
            rw [ih htail hotherTail hrest]
          · exact absurd hrest (not_readable_slash htail hotherTail)
          · exact absurd hrest.symm (not_readable_slash hotherTail htail)

end Unique

/-- `phase.Fits before` says that a reader may be in the phase behind the characters `before`, the
last one first: a slash stands right behind a slash, and a string was opened by a quote. -/
def Phase.Fits (before : List Char) : Phase → Prop
  | .slash => before.head? = some '/'
  | .quoted quote | .escaped quote => isQuote quote = true
  | _ => True

section Places

variable {phase next last : Phase} {before : List Char} {g : Glyph} {glyphs rest : List Glyph}

/-- A text of two parts can be read if the second part can be read where the first one ends. -/
theorem Readable.append_iff :
    Readable phase (glyphs ++ rest) ↔
      ∃ middle, run phase glyphs = some middle ∧ Readable middle rest := by
  constructor
  · rintro ⟨last, hrun, hlast⟩
    obtain ⟨middle, hglyphs, hrest⟩ := run_append_iff.1 hrun
    exact ⟨middle, hglyphs, last, hrest, hlast⟩
  · rintro ⟨middle, hglyphs, last, hrest, hlast⟩
    exact ⟨last, run_append_iff.2 ⟨middle, hglyphs, hrest⟩, hlast⟩

/-- Reading a character keeps the phase in step with the characters in front. -/
theorem Phase.Fits.step (h : phase.Fits before) (hstep : step phase g = some next) :
    next.Fits (g.char :: before) := by
  obtain ⟨c, region⟩ := g
  cases phase <;> simp only [Source.step, stepCode, Phase.Fits] at h hstep <;>
    grind [Phase.Fits]

/-- Reading a text keeps the phase in step with the characters in front. -/
theorem Phase.Fits.run (h : phase.Fits before) (hrun : run phase glyphs = some last) :
    last.Fits ((chars glyphs).reverse ++ before) := by
  induction glyphs generalizing phase before with
  | nil =>
      cases hrun
      exact h
  | cons g glyphs ih =>
      obtain ⟨next, hstep, hnext⟩ := run_cons_iff.1 hrun
      rw [chars_cons, List.reverse_cons, List.append_assoc]
      exact ih (h.step hstep) hnext

/-- Text without quotes and slashes is read as code. -/
theorem eq_coded_of_run (hplain : ∀ g ∈ glyphs, isQuote g.char = false ∧ g.char ≠ '/')
    (h : run .code glyphs = some last) : glyphs = coded (chars glyphs) ∧ last = .code := by
  induction glyphs with
  | nil =>
      cases h
      exact ⟨rfl, rfl⟩
  | cons g glyphs ih =>
      obtain ⟨⟨hquote, hslash⟩, hglyphs⟩ := List.forall_mem_cons.1 hplain
      obtain ⟨next, hstep, hnext⟩ := run_cons_iff.1 h
      obtain ⟨c, region⟩ := g
      cases region <;> simp [step, stepCode, hquote, hslash] at hstep
      subst hstep
      obtain ⟨hsame, hlast⟩ := ih hglyphs hnext
      exact ⟨by rw [chars_cons, coded_cons, ← hsame], hlast⟩

/-- Behind a string stands its quote, and the reader is back in code. -/
theorem run_literal (hfits : phase.Fits before) (hne : glyphs ≠ [])
    (hstring : ∀ g ∈ glyphs, g.region = .string) (hend : ∀ g ∈ rest.head?, g.region ≠ .string)
    (hrest : rest ≠ []) (h : Readable phase (glyphs ++ rest)) :
    run phase glyphs = some .code ∧ ∃ quote ∈ (chars glyphs).getLast?, isQuote quote = true := by
  obtain ⟨middle, hglyphs, hmiddle⟩ := Readable.append_iff.1 h
  rcases List.eq_nil_or_concat glyphs with rfl | ⟨front, g, rfl⟩
  · exact absurd rfl hne
  rw [List.concat_eq_append] at hglyphs hstring ⊢
  obtain ⟨inside, hfront, hlast⟩ := run_append_iff.1 hglyphs
  obtain ⟨after, hstep, hafter⟩ := run_cons_iff.1 hlast
  cases hafter
  have hg : g.region = .string := hstring g (by simp)
  -- the phase behind the last character of the string reads something else
  have hmiddle : ∀ quote, middle ≠ .quoted quote ∧ middle ≠ .escaped quote := by
    obtain ⟨last, hrun, -⟩ := hmiddle
    cases rest with
    | nil => exact absurd rfl hrest
    | cons d rest =>
        have hd := hend d rfl
        obtain ⟨next, hnext, -⟩ := run_cons_iff.1 hrun
        intro quote
        refine ⟨?_, ?_⟩ <;> rintro rfl <;> simp [step, hd] at hnext
  have hinside := hfits.run hfront
  obtain ⟨c, region⟩ := g
  obtain rfl : region = .string := hg
  have hquote : middle = .code ∧ isQuote c = true := by
    cases inside <;> simp only [step, stepCode, Phase.Fits] at hinside hstep <;> grind
  obtain ⟨rfl, hquote⟩ := hquote
  exact ⟨hglyphs, c, by simp, hquote⟩

/-- A reader that reads an identifier character of code is in code. -/
theorem eq_code_of_step {c : Char} (hfits : phase.Fits before) (hbefore : before.head? ≠ some '/')
    (hc : c ≠ '\n') (h : step phase ⟨c, .code⟩ = some next) : phase = .code := by
  cases phase <;> simp only [step, Phase.Fits] at h hfits <;> grind

end Places

end MiniProgram.Source
