import MiniProgram.Proofs.Bytes.Slice
import MiniProgram.Proofs.Source.Declaration
import MiniProgram.Proofs.Source.Nesting
import MiniProgram.Proofs.Text.Mark

/-!
# Lexemes of a source

A source is cut from the left into lexemes: comments, strings and single characters of code. `Cut`
says what the lexemes of a text are, without a machine, and a text has only one cut (`Cut.unique`).

Read `scan_iff_balanced` first: `scan` accepts exactly the texts that can be cut up to their end and
whose brackets of code are nested, and it gives every byte the region of its lexeme.
-/

namespace MiniProgram.Source

/-- A lexeme of a source. Comments and strings are given by their text between the delimiters. -/
inductive Lexeme where
  | code (c : Char)
  | lineComment (body : List Char)
  | blockComment (body : List Char)
  | string (quote : Char) (body : List Char)
  deriving DecidableEq, Repr

namespace Lexeme

/-- The characters of a lexeme. -/
def text : Lexeme → List Char
  | .code c => [c]
  | .lineComment body => '/' :: '/' :: body
  | .blockComment body => '/' :: '*' :: (body ++ ['*', '/'])
  | .string quote body => quote :: (body ++ [quote])

/-- The region of a lexeme. -/
def region : Lexeme → Region
  | .code _ => .code
  | .lineComment _ | .blockComment _ => .comment
  | .string _ _ => .string

/-- The classified characters of a lexeme. -/
def glyphs (lexeme : Lexeme) : List Glyph :=
  lexeme.text.map (⟨·, lexeme.region⟩)

/-- The region of each byte of a lexeme in UTF-8. -/
def bytes (lexeme : Lexeme) : List Region :=
  List.replicate (String.ofList lexeme.text).utf8ByteSize lexeme.region

/-- The characters of a lexeme are its text. -/
theorem chars_glyphs (lexeme : Lexeme) : chars lexeme.glyphs = lexeme.text := by
  simp [chars, glyphs, Function.comp_def]

/-- No lexeme is empty. -/
theorem text_ne_nil (lexeme : Lexeme) : lexeme.text ≠ [] := by
  cases lexeme <;> simp [text]

end Lexeme

/-- `IsBody quote body` says that `body` may stand in a string: a backslash protects the character
behind it, and neither the quote nor, unless it is a backquote, a line feed stands unprotected. -/
inductive IsBody (quote : Char) : List Char → Prop where
  | nil : IsBody quote []
  | escape {c body} : IsBody quote body → IsBody quote ('\\' :: c :: body)
  | plain {c body} : c ≠ '\\' → c ≠ quote → (c = '\n' → quote = '`') → IsBody quote body →
      IsBody quote (c :: body)

/-- `lexeme.Fits rest` says that a lexeme is complete and ends in front of `rest`. A line comment
ends in front of the first line feed or with the text, a block comment with the first closing mark
behind its opening mark. What starts a comment or a string is no single character of code. -/
def Lexeme.Fits : Lexeme → List Char → Prop
  | .code c, rest => isQuote c = false ∧ (c = '/' → ∀ d ∈ rest.head?, d ≠ '/' ∧ d ≠ '*')
  | .lineComment body, rest => (∀ c ∈ body, c ≠ '\n') ∧ ∀ d ∈ rest.head?, d = '\n'
  | .blockComment body, _ => ¬ ['*', '/'] <:+: body ++ ['*']
  | .string quote body, _ => isQuote quote = true ∧ IsBody quote body

/-- `Cut text lexemes` says that `lexemes` are the lexemes of a text, from the left to the right,
and that the last one is complete. -/
inductive Cut : List Char → List Lexeme → Prop where
  | nil : Cut [] []
  | cons {lexeme rest lexemes} : lexeme.Fits rest → Cut rest lexemes →
      Cut (lexeme.text ++ rest) (lexeme :: lexemes)

section Scanning

variable {brackets text body rest : List Char} {lexemes : List Lexeme}

/-- A single character of code is read as a bracket, or it leaves the brackets as they are. -/
theorem scanFrom_code {c : Char} (h : (Lexeme.code c).Fits rest) (stack : List Char) :
    scanFrom .code stack (c :: rest) =
      (nest stack (Source.brackets [⟨c, .code⟩])).bind fun next =>
        glyph .code c (scanFrom .code next rest) := by
  obtain ⟨hquote, hslash⟩ := h
  have hline : ∀ others, c = '/' → rest = '/' :: others → False := by
    rintro others hc rfl
    exact (hslash hc '/' rfl).1 rfl
  have hblock : ∀ others, c = '/' → rest = '*' :: others → False := by
    rintro others hc rfl
    exact (hslash hc '*' rfl).2 rfl
  rw [scanFrom.eq_6 stack c rest hline hblock, if_neg (by simp [hquote]), brackets_cons]
  by_cases hopening : isOpening c = true
  · have hbracket : isBracket c = true := by rw [isBracket, hopening, Bool.true_or]
    rw [if_pos hopening, if_pos ⟨rfl, hbracket⟩, nest_cons,
      turn_opening (opening?_eq_none_of_isOpening hopening)]
    rfl
  · rw [if_neg hopening]
    cases hclosing : opening? c with
    | none =>
        have hbracket : ¬ isBracket c = true := by simp [isBracket, hopening, hclosing]
        rw [if_neg fun h => hbracket h.2]
        rfl
    | some opener =>
        have hbracket : isBracket c = true := by simp [isBracket, hclosing]
        rw [if_pos ⟨rfl, hbracket⟩, nest_cons, turn, hclosing]
        cases stack with
        | nil => rfl
        | cons innermost outer =>
            dsimp only
            split <;> rfl

/-- A line comment is read to its end, and in front of the line feed the scanner is back in code. -/
theorem scanFrom_lineComment (h : (Lexeme.lineComment body).Fits rest) (stack : List Char) :
    scanFrom .lineComment stack (body ++ rest) =
      (scanFrom .code stack rest).map (body.map (⟨·, .comment⟩) ++ ·) := by
  obtain ⟨hbody, hrest⟩ := h
  induction body with
  | nil =>
      cases rest with
      | nil => simp [scanFrom]
      | cons d rest =>
          obtain rfl : d = '\n' := hrest d rfl
          simp [scanFrom, isQuote, isOpening, opening?]
  | cons c body ih =>
      obtain ⟨hc, hbody⟩ := List.forall_mem_cons.1 hbody
      rw [List.cons_append, scanFrom, if_neg hc, ih hbody]
      simp [glyph, Function.comp_def]

/-- A block comment is read up to its closing mark, and behind it the scanner is back in code. -/
theorem scanFrom_blockComment (h : (Lexeme.blockComment body).Fits rest) (stack : List Char) :
    scanFrom .blockComment stack (body ++ '*' :: '/' :: rest) =
      (scanFrom .code stack rest).map ((body ++ ['*', '/']).map (⟨·, .comment⟩) ++ ·) := by
  have hbody : ¬ ['*', '/'] <:+: body ++ ['*'] := h
  induction body with
  | nil => simp [scanFrom, glyph, Function.comp_def]
  | cons c body ih =>
      rw [List.cons_append, Text.pair_infix_cons_iff, not_or] at hbody
      obtain ⟨hc, hbody⟩ := hbody
      have hopen : ∀ others, c = '*' → body ++ '*' :: '/' :: rest = '/' :: others → False := by
        intro others hstar hothers
        refine hc ⟨hstar, ?_⟩
        cases body with
        | nil => cases hothers
        | cons d body =>
            obtain rfl : d = '/' := (List.cons.inj hothers).1
            rfl
      rw [List.cons_append, scanFrom.eq_9 stack c _ hopen, ih hbody hbody]
      simp [glyph, Function.comp_def]

/-- A string is read up to its quote, and behind it the scanner is back in code. -/
theorem scanFrom_string {quote : Char} (hescape : quote ≠ '\\') (h : IsBody quote body)
    (stack : List Char) :
    scanFrom (.quoted quote) stack (body ++ quote :: rest) =
      (scanFrom .code stack rest).map ((body ++ [quote]).map (⟨·, .string⟩) ++ ·) := by
  induction h with
  | nil =>
      rw [List.nil_append, scanFrom, if_neg hescape, if_pos rfl]
      rfl
  | escape _ ih =>
      rw [List.cons_append, scanFrom, if_pos rfl, List.cons_append, scanFrom, ih]
      simp [glyph, Function.comp_def]
  | plain hslash hquote hline _ ih =>
      rw [List.cons_append, scanFrom, if_neg hslash, if_neg hquote,
        if_neg fun h => h.2 (hline h.1), ih]
      simp [glyph, Function.comp_def]

/-- Comments and strings hold no brackets of code. -/
theorem brackets_glyphs_of_ne {lexeme : Lexeme} (h : lexeme.region ≠ .code) :
    Source.brackets lexeme.glyphs = [] := by
  refine brackets_eq_nil fun g hg hcode => ?_
  obtain ⟨c, -, rfl⟩ := List.mem_map.1 hg
  exact absurd hcode h

/-- No quote is a backslash. -/
theorem ne_backslash_of_isQuote {quote : Char} (h : isQuote quote = true) : quote ≠ '\\' := by
  rintro rfl
  revert h
  decide

/-- The scanner reads one lexeme after the other. -/
theorem scanFrom_lexeme {lexeme : Lexeme} (h : lexeme.Fits rest) (stack : List Char) :
    scanFrom .code stack (lexeme.text ++ rest) =
      (nest stack (Source.brackets lexeme.glyphs)).bind fun next =>
        (scanFrom .code next rest).map (lexeme.glyphs ++ ·) := by
  cases lexeme with
  | code c => exact scanFrom_code h stack
  | lineComment body =>
      have hstart : scanFrom .code stack ('/' :: '/' :: (body ++ rest)) =
          glyph .comment '/' (glyph .comment '/' (scanFrom .lineComment stack (body ++ rest))) := by
        rw [scanFrom]
      rw [brackets_glyphs_of_ne (by simp [Lexeme.region]), nest_nil, Option.bind_some]
      exact hstart.trans (by
        rw [scanFrom_lineComment h]
        simp [glyph, Lexeme.glyphs, Lexeme.text, Lexeme.region, Function.comp_def])
  | blockComment body =>
      have hstart : scanFrom .code stack ('/' :: '*' :: (body ++ '*' :: '/' :: rest)) =
          glyph .comment '/' (glyph .comment '*'
            (scanFrom .blockComment stack (body ++ '*' :: '/' :: rest))) := by
        rw [scanFrom]
      rw [brackets_glyphs_of_ne (by simp [Lexeme.region]), nest_nil, Option.bind_some]
      have htext : Lexeme.text (.blockComment body) ++ rest =
          '/' :: '*' :: (body ++ '*' :: '/' :: rest) := by simp [Lexeme.text]
      rw [htext, hstart, scanFrom_blockComment h]
      simp [glyph, Lexeme.glyphs, Lexeme.text, Lexeme.region, Function.comp_def]
  | string quote body =>
      obtain ⟨hquote, hbody⟩ := h
      have htext : Lexeme.text (.string quote body) ++ rest = quote :: (body ++ quote :: rest) := by
        simp [Lexeme.text]
      have hstart : scanFrom .code stack (quote :: (body ++ quote :: rest)) =
          glyph .string quote (scanFrom (.quoted quote) stack (body ++ quote :: rest)) := by
        have hslash : quote ≠ '/' := by
          rintro rfl
          revert hquote
          decide
        rw [scanFrom.eq_6 stack quote _ (fun _ h => absurd h hslash) (fun _ h => absurd h hslash),
          if_pos hquote]
      rw [brackets_glyphs_of_ne (by simp [Lexeme.region]), nest_nil, Option.bind_some, htext,
        hstart, scanFrom_string (ne_backslash_of_isQuote hquote) hbody]
      simp [glyph, Lexeme.glyphs, Lexeme.text, Lexeme.region, Function.comp_def]

/-- A text that is cut is accepted if its brackets close those that are open. -/
theorem Cut.scanFrom_eq (h : Cut text lexemes) (stack : List Char) :
    scanFrom .code stack text =
      if nest stack (Source.brackets (lexemes.flatMap Lexeme.glyphs)) = some [] then
        some (lexemes.flatMap Lexeme.glyphs)
      else none := by
  induction h generalizing stack with
  | nil => cases stack <;> simp [scanFrom]
  | cons hfits _ ih =>
      rw [scanFrom_lexeme hfits, List.flatMap_cons, brackets_append, nest_append]
      cases nest stack (Source.brackets (Lexeme.glyphs _)) with
      | none => simp
      | some next =>
          rw [Option.bind_some, Option.bind_some, ih]
          split <;> rfl

end Scanning

section Reading

variable {phase next : Phase} {quote : Char} {g : Glyph} {glyphs : List Glyph}

/-- An empty text can be read where a text may end. -/
theorem Readable.nil_iff : Readable phase [] ↔ phase.isFinal = true := by
  constructor
  · rintro ⟨last, hrun, hlast⟩
    cases hrun
    exact hlast
  · exact fun h => ⟨phase, rfl, h⟩

/-- A text can be read if its first character can, and the rest behind it. -/
theorem Readable.cons_iff :
    Readable phase (g :: glyphs) ↔ ∃ next, step phase g = some next ∧ Readable next glyphs := by
  constructor
  · rintro ⟨last, hrun, hlast⟩
    obtain ⟨next, hstep, hnext⟩ := run_cons_iff.1 hrun
    exact ⟨next, hstep, last, hnext, hlast⟩
  · rintro ⟨next, hstep, h⟩
    exact h.cons hstep

/-- What stands in code. -/
theorem step_code_cases (h : step .code g = some next) :
    (∃ c, g = ⟨c, .code⟩ ∧ isQuote c = false ∧ next = if c = '/' then .slash else .code) ∨
      (g = ⟨'/', .comment⟩ ∧ next = .opening) ∨
      ∃ quote, g = ⟨quote, .string⟩ ∧ isQuote quote = true ∧ next = .quoted quote := by
  obtain ⟨c, region⟩ := g
  cases region <;> simp only [step, stepCode] at h <;> grind

/-- The second character of a comment tells which comment it is. -/
theorem step_opening_cases (h : step .opening g = some next) :
    g = ⟨'/', .comment⟩ ∧ next = .lineComment ∨ g = ⟨'*', .comment⟩ ∧ next = .blockComment := by
  simp only [step] at h
  grind

/-- A line feed ends a line comment and is code; any other character belongs to the comment. -/
theorem step_lineComment_cases (h : step .lineComment g = some next) :
    g = ⟨'\n', .code⟩ ∧ next = .code ∨
      ∃ c, g = ⟨c, .comment⟩ ∧ c ≠ '\n' ∧ next = .lineComment := by
  obtain ⟨c, region⟩ := g
  simp only [step] at h
  grind

/-- Every character in a block comment belongs to it, and only a star may lead to its end. -/
theorem step_blockComment_cases (h : step .blockComment g = some next) :
    ∃ c, g = ⟨c, .comment⟩ ∧ next = if c = '*' then .star else .blockComment := by
  obtain ⟨c, region⟩ := g
  rw [step] at h
  split at h
  · next hregion =>
      cases h
      exact ⟨c, congrArg (Glyph.mk c) hregion, rfl⟩
  · cases h

/-- A slash right behind a star closes a block comment. -/
theorem step_star_slash (h : step .star g = some next) (hg : g.char = '/') :
    g = ⟨'/', .comment⟩ ∧ next = .code := by
  obtain ⟨c, region⟩ := g
  simp only [step] at h
  grind

/-- In a string a backslash protects what follows, the quote closes, and no line feed stands unless
the quote is a backquote. -/
theorem step_quoted_cases (h : step (.quoted quote) g = some next) :
    ∃ c, g = ⟨c, .string⟩ ∧ (c = '\\' ∧ next = .escaped quote ∨
      c ≠ '\\' ∧ (c = quote ∧ next = .code ∨
        c ≠ quote ∧ (c = '\n' → quote = '`') ∧ next = .quoted quote)) := by
  obtain ⟨c, region⟩ := g
  simp only [step] at h
  grind

/-- Behind a backslash any character belongs to the string, and the string goes on. -/
theorem step_escaped_cases (h : step (.escaped quote) g = some next) :
    ∃ c, g = ⟨c, .string⟩ ∧ next = .quoted quote := by
  obtain ⟨c, region⟩ := g
  rw [step] at h
  split at h
  · next hregion =>
      cases h
      exact ⟨c, congrArg (Glyph.mk c) hregion, rfl⟩
  · cases h

/-- Right behind a slash of code stands what starts no comment. -/
theorem Readable.of_slash (h : Readable .slash glyphs) :
    Readable .code glyphs ∧ ∀ d ∈ (chars glyphs).head?, d ≠ '/' ∧ d ≠ '*' := by
  cases glyphs with
  | nil => exact ⟨Readable.nil_iff.2 rfl, by simp⟩
  | cons g glyphs =>
      obtain ⟨next, hstep, hnext⟩ := Readable.cons_iff.1 h
      rw [step] at hstep
      split at hstep
      · cases hstep
      · next hg =>
          refine ⟨hnext.cons hstep, ?_⟩
          rintro d hd
          obtain rfl : g.char = d := Option.some.inj hd
          exact not_or.1 hg

/-- A line comment that can be read ends in front of a line feed or with the text. -/
theorem exists_of_readable_lineComment (h : Readable .lineComment glyphs) :
    ∃ body rest, glyphs = body.map (⟨·, .comment⟩) ++ rest ∧
      (Lexeme.lineComment body).Fits (chars rest) ∧ Readable .code rest := by
  induction glyphs with
  | nil => exact ⟨[], [], rfl, ⟨by simp, by simp⟩, Readable.nil_iff.2 rfl⟩
  | cons g glyphs ih =>
      obtain ⟨next, hstep, hnext⟩ := Readable.cons_iff.1 h
      rcases step_lineComment_cases hstep with ⟨rfl, rfl⟩ | ⟨c, rfl, hc, rfl⟩
      · exact ⟨[], _, rfl, ⟨by simp, by simp⟩, .cons rfl hnext⟩
      · obtain ⟨body, rest, rfl, ⟨hbody, hend⟩, hrest⟩ := ih hnext
        exact ⟨c :: body, rest, rfl, ⟨List.forall_mem_cons.2 ⟨hc, hbody⟩, hend⟩, hrest⟩

/-- A block comment that can be read ends with the first closing mark. -/
theorem exists_of_readable_blockComment (h : Readable .blockComment glyphs) :
    ∃ body rest, glyphs = (body ++ ['*', '/']).map (⟨·, .comment⟩) ++ rest ∧
      (Lexeme.blockComment body).Fits (chars rest) ∧ Readable .code rest := by
  induction glyphs with
  | nil => cases Readable.nil_iff.1 h
  | cons g glyphs ih =>
      obtain ⟨next, hstep, hnext⟩ := Readable.cons_iff.1 h
      obtain ⟨c, rfl, rfl⟩ := step_blockComment_cases hstep
      -- a star that no slash follows is a character of the body like any other
      by_cases hclosed : c = '*' ∧ (chars glyphs).head? = some '/'
      · obtain ⟨rfl, hhead⟩ := hclosed
        cases glyphs with
        | nil => cases hhead
        | cons d glyphs =>
            obtain ⟨after, hd, hafter⟩ := Readable.cons_iff.1 hnext
            obtain ⟨rfl, rfl⟩ := step_star_slash hd (Option.some.inj hhead)
            exact ⟨[], glyphs, rfl, fun hin => absurd hin.length_le (by simp), hafter⟩
      · have hinside : Readable .blockComment glyphs := by
          by_cases hstar : c = '*'
          · rw [if_pos hstar] at hnext
            unfold Readable at hnext ⊢
            rwa [← run_star]
            · rintro d hd rfl
              exact hclosed ⟨hstar, hd⟩
            · -- the comment is still open
              rintro rfl
              cases Readable.nil_iff.1 hnext
          · rwa [if_neg hstar] at hnext
        obtain ⟨body, rest, rfl, hfits, hrest⟩ := ih hinside
        refine ⟨c :: body, rest, rfl, ?_, hrest⟩
        show ¬ ['*', '/'] <:+: c :: (body ++ ['*'])
        rw [Text.pair_infix_cons_iff, not_or]
        refine ⟨fun ⟨hc, hhead⟩ => hclosed ⟨hc, ?_⟩, hfits⟩
        cases body with
        | nil => exact absurd hhead (by decide)
        | cons d body => exact hhead

/-- A string that can be read ends with its first unprotected quote. -/
theorem exists_of_readable_quoted (h : Readable (.quoted quote) glyphs) :
    ∃ body rest, glyphs = (body ++ [quote]).map (⟨·, .string⟩) ++ rest ∧
      IsBody quote body ∧ Readable .code rest := by
  -- two characters are read at once behind a backslash
  induction hlength : glyphs.length using Nat.strongRecOn generalizing glyphs with
  | _ length ih =>
      cases glyphs with
      | nil => cases Readable.nil_iff.1 h
      | cons g glyphs =>
          obtain ⟨next, hstep, hnext⟩ := Readable.cons_iff.1 h
          obtain ⟨c, rfl, ⟨rfl, rfl⟩ | ⟨hc, ⟨rfl, rfl⟩ | ⟨hquote, hline, rfl⟩⟩⟩ :=
            step_quoted_cases hstep
          · cases glyphs with
            | nil => cases Readable.nil_iff.1 hnext
            | cons d glyphs =>
                obtain ⟨after, hd, hafter⟩ := Readable.cons_iff.1 hnext
                obtain ⟨d, rfl, rfl⟩ := step_escaped_cases hd
                obtain ⟨body, rest, rfl, hbody, hrest⟩ :=
                  ih glyphs.length (by simp at hlength; omega) hafter rfl
                exact ⟨'\\' :: d :: body, rest, rfl, .escape hbody, hrest⟩
          · exact ⟨[], glyphs, rfl, .nil, hnext⟩
          · obtain ⟨body, rest, rfl, hbody, hrest⟩ :=
              ih glyphs.length (by simp at hlength; omega) hnext rfl
            exact ⟨c :: body, rest, rfl, .plain hc hquote hline hbody, hrest⟩

/-- A text that can be read starts with a lexeme, and what follows can be read. -/
theorem exists_lexeme (h : Readable .code (g :: glyphs)) :
    ∃ (lexeme : Lexeme) (rest : List Glyph), g :: glyphs = lexeme.glyphs ++ rest ∧
      lexeme.Fits (chars rest) ∧ Readable .code rest := by
  obtain ⟨next, hstep, hnext⟩ := Readable.cons_iff.1 h
  rcases step_code_cases hstep with ⟨c, rfl, hquote, rfl⟩ | ⟨rfl, rfl⟩ | ⟨quote, rfl, hquote, rfl⟩
  · by_cases hc : c = '/'
    · rw [if_pos hc] at hnext
      obtain ⟨hrest, hhead⟩ := hnext.of_slash
      exact ⟨.code c, glyphs, rfl, ⟨hquote, fun _ => hhead⟩, hrest⟩
    · rw [if_neg hc] at hnext
      exact ⟨.code c, glyphs, rfl, ⟨hquote, fun h => absurd h hc⟩, hnext⟩
  · cases glyphs with
    | nil => cases Readable.nil_iff.1 hnext
    | cons d glyphs =>
        obtain ⟨after, hd, hafter⟩ := Readable.cons_iff.1 hnext
        rcases step_opening_cases hd with ⟨rfl, rfl⟩ | ⟨rfl, rfl⟩
        · obtain ⟨body, rest, rfl, hfits, hrest⟩ := exists_of_readable_lineComment hafter
          exact ⟨.lineComment body, rest, rfl, hfits, hrest⟩
        · obtain ⟨body, rest, rfl, hfits, hrest⟩ := exists_of_readable_blockComment hafter
          exact ⟨.blockComment body, rest, rfl, hfits, hrest⟩
  · obtain ⟨body, rest, rfl, hbody, hrest⟩ := exists_of_readable_quoted hnext
    exact ⟨.string quote body, rest, rfl, ⟨hquote, hbody⟩, hrest⟩

/-- A text that can be read is cut into lexemes. -/
theorem exists_cut (h : Readable .code glyphs) :
    ∃ lexemes, Cut (chars glyphs) lexemes ∧ glyphs = lexemes.flatMap Lexeme.glyphs := by
  induction hlength : glyphs.length using Nat.strongRecOn generalizing glyphs with
  | _ length ih =>
      cases glyphs with
      | nil => exact ⟨[], .nil, rfl⟩
      | cons g glyphs =>
          obtain ⟨lexeme, rest, hsplit, hfits, hrest⟩ := exists_lexeme h
          have hshorter : rest.length < length := by
            have hpos : 0 < lexeme.glyphs.length := by
              simpa [Lexeme.glyphs, List.length_pos_iff] using lexeme.text_ne_nil
            rw [← hlength, hsplit, List.length_append]
            omega
          obtain ⟨lexemes, hcut, rfl⟩ := ih rest.length hshorter hrest rfl
          refine ⟨lexeme :: lexemes, ?_, ?_⟩
          · rw [hsplit, chars_append, lexeme.chars_glyphs]
            exact .cons hfits hcut
          · rw [hsplit, List.flatMap_cons]

end Reading

section Unique

variable {lexeme other : Lexeme} {text rest otherRest : List Char} {lexemes others : List Lexeme}

/-- A closing mark in front of a text is not preceded by a part of a comment. -/
theorem cons_append_ne_closing {c : Char} {body : List Char}
    (h : ¬ ['*', '/'] <:+: c :: body ++ ['*']) :
    c :: body ++ '*' :: '/' :: rest ≠ '*' :: '/' :: otherRest := by
  intro hsame
  obtain ⟨hc, hbody⟩ := List.cons.inj hsame
  refine h (Text.pair_infix_cons_iff.2 (.inl ⟨hc, ?_⟩))
  cases body with
  | nil => exact absurd (List.cons.inj hbody).1 (by decide)
  | cons d body => exact congrArg some (List.cons.inj hbody).1

/-- There is only one first closing mark. -/
theorem append_inj_of_closing {body otherBody : List Char}
    (h : ¬ ['*', '/'] <:+: body ++ ['*']) (hother : ¬ ['*', '/'] <:+: otherBody ++ ['*'])
    (hsame : body ++ '*' :: '/' :: rest = otherBody ++ '*' :: '/' :: otherRest) :
    body = otherBody ∧ rest = otherRest := by
  induction body generalizing otherBody with
  | nil =>
      cases otherBody with
      | nil => exact ⟨rfl, (List.cons.inj (List.cons.inj hsame).2).2⟩
      | cons d otherBody => exact absurd hsame.symm (cons_append_ne_closing hother)
  | cons c body ih =>
      cases otherBody with
      | nil => exact absurd hsame (cons_append_ne_closing h)
      | cons d otherBody =>
          obtain ⟨rfl, hrest⟩ := List.cons.inj hsame
          rw [List.cons_append, Text.pair_infix_cons_iff, not_or] at h hother
          obtain ⟨rfl, rfl⟩ := ih h.2 hother.2 hrest
          exact ⟨rfl, rfl⟩

/-- There is only one first unprotected quote. -/
theorem append_inj_of_quote {quote : Char} {body otherBody : List Char} (hescape : quote ≠ '\\')
    (h : IsBody quote body) (hother : IsBody quote otherBody)
    (hsame : body ++ quote :: rest = otherBody ++ quote :: otherRest) :
    body = otherBody ∧ rest = otherRest := by
  induction h generalizing otherBody with
  | nil =>
      cases hother with
      | nil => exact ⟨rfl, (List.cons.inj hsame).2⟩
      | escape => exact absurd (List.cons.inj hsame).1 hescape
      | plain _ hquote => exact absurd (List.cons.inj hsame).1.symm hquote
  | escape _ ih =>
      cases hother with
      | nil => exact absurd (List.cons.inj hsame).1.symm hescape
      | escape hother =>
          simp only [List.cons_append, List.cons.injEq, true_and] at hsame
          obtain ⟨rfl, hsame⟩ := hsame
          obtain ⟨rfl, rfl⟩ := ih hother hsame
          exact ⟨rfl, rfl⟩
      | plain hslash => exact absurd (List.cons.inj hsame).1.symm hslash
  | plain hslash hquote _ _ ih =>
      cases hother with
      | nil => exact absurd (List.cons.inj hsame).1 hquote
      | escape => exact absurd (List.cons.inj hsame).1 hslash
      | plain _ _ _ hother =>
          simp only [List.cons_append, List.cons.injEq] at hsame
          obtain ⟨rfl, hsame⟩ := hsame
          obtain ⟨rfl, rfl⟩ := ih hother hsame
          exact ⟨rfl, rfl⟩

/-- The kinds of lexemes. -/
inductive Kind where
  | code
  | lineComment
  | blockComment
  | string

/-- The kind of the lexeme that a text starts with. -/
def start : List Char → Kind
  | '/' :: '/' :: _ => .lineComment
  | '/' :: '*' :: _ => .blockComment
  | c :: _ => if isQuote c then .string else .code
  | [] => .code

/-- The kind of a lexeme. -/
def Lexeme.kind : Lexeme → Kind
  | .code _ => .code
  | .lineComment _ => .lineComment
  | .blockComment _ => .blockComment
  | .string _ _ => .string

/-- The first two characters of a text tell the kind of its first lexeme. -/
theorem start_eq_kind (h : lexeme.Fits rest) : start (lexeme.text ++ rest) = lexeme.kind := by
  cases lexeme with
  | code c =>
      obtain ⟨hquote, hslash⟩ := h
      rw [Lexeme.text, List.singleton_append]
      unfold start
      split <;> grind [Lexeme.kind]
  | lineComment | blockComment => rfl
  | string quote body =>
      obtain ⟨hquote, -⟩ := h
      rw [Lexeme.text, List.cons_append]
      have hslash : quote ≠ '/' := by
        rintro rfl
        revert hquote
        decide
      unfold start
      split <;> grind [Lexeme.kind]

/-- A text starts with only one lexeme. -/
theorem Lexeme.Fits.unique (h : lexeme.Fits rest) (hother : other.Fits otherRest)
    (hsame : lexeme.text ++ rest = other.text ++ otherRest) :
    lexeme = other ∧ rest = otherRest := by
  -- the first two characters decide on the kind of a lexeme, and it ends where its kind first can
  have hkind : lexeme.kind = other.kind := by
    rw [← start_eq_kind h, ← start_eq_kind hother, hsame]
  cases lexeme <;> cases other <;> cases hkind
  case code.code c d =>
    obtain ⟨rfl, rfl⟩ := List.cons.inj hsame
    exact ⟨rfl, rfl⟩
  case lineComment.lineComment body otherBody =>
    obtain ⟨-, hsame⟩ := List.cons.inj hsame
    obtain ⟨-, hsame⟩ := List.cons.inj hsame
    obtain ⟨rfl, rfl⟩ := append_inj_of_span (fun c => decide (c ≠ '\n'))
      (fun c hc => decide_eq_true (h.1 c hc)) (fun c hc => by simp [h.2 c hc])
      (fun c hc => decide_eq_true (hother.1 c hc)) (fun c hc => by simp [hother.2 c hc]) hsame
    exact ⟨rfl, rfl⟩
  case blockComment.blockComment body otherBody =>
    simp only [Lexeme.text, List.cons_append, List.append_assoc, List.nil_append] at hsame
    obtain ⟨-, hsame⟩ := List.cons.inj hsame
    obtain ⟨-, hsame⟩ := List.cons.inj hsame
    obtain ⟨rfl, rfl⟩ := append_inj_of_closing h hother hsame
    exact ⟨rfl, rfl⟩
  case string.string quote body otherQuote otherBody =>
    simp only [Lexeme.text, List.cons_append, List.append_assoc, List.nil_append] at hsame
    obtain ⟨rfl, hsame⟩ := List.cons.inj hsame
    obtain ⟨rfl, rfl⟩ :=
      append_inj_of_quote (ne_backslash_of_isQuote h.1) h.2 hother.2 hsame
    exact ⟨rfl, rfl⟩

/-- A text has only one cut. -/
theorem Cut.unique (h : Cut text lexemes) (hother : Cut text others) : lexemes = others := by
  induction h generalizing others with
  | nil =>
      generalize hempty : ([] : List Char) = text at hother
      cases hother with
      | nil => rfl
      | @cons lexeme rest => exact absurd hempty.symm (by simp [lexeme.text_ne_nil])
  | @cons lexeme rest lexemes hfits _ ih =>
      generalize hall : lexeme.text ++ rest = text at hother
      cases hother with
      | nil => exact absurd hall (by simp [lexeme.text_ne_nil])
      | cons hotherFits hotherRest =>
          obtain ⟨rfl, rfl⟩ := hfits.unique hotherFits hall
          rw [ih hotherRest]

end Unique

/-- The region of each byte of a classified text in UTF-8. -/
def bytes (glyphs : List Glyph) : List Region :=
  glyphs.flatMap fun g => List.replicate g.char.utf8Size g.region

section Bytes

/-- There is one region for each byte. -/
theorem length_bytes (glyphs : List Glyph) :
    (bytes glyphs).length = (String.ofList (chars glyphs)).utf8ByteSize := by
  induction glyphs with
  | nil => rfl
  | cons g glyphs ih =>
      rw [← Bytes.size] at ih
      rw [chars_cons, ← Bytes.size, Bytes.size_cons, ← ih, bytes, List.flatMap_cons,
        List.length_append, List.length_replicate]
      rfl

/-- The bytes of two texts have their regions one after the other. -/
theorem bytes_append (glyphs rest : List Glyph) :
    bytes (glyphs ++ rest) = bytes glyphs ++ bytes rest :=
  List.flatMap_append

/-- All bytes of a text of one region have that region. -/
theorem bytes_map (region : Region) (text : List Char) :
    bytes (text.map (⟨·, region⟩)) =
      List.replicate (String.ofList text).utf8ByteSize region := by
  induction text with
  | nil => rfl
  | cons c text ih =>
      rw [List.map_cons, ← List.singleton_append, bytes_append, ih, ← Bytes.size, ← Bytes.size,
        Bytes.size_cons, List.replicate_add]
      exact congrArg (· ++ _) (List.append_nil _)

/-- The bytes of a text have the regions of its lexemes. -/
theorem bytes_flatMap_glyphs (lexemes : List Lexeme) :
    bytes (lexemes.flatMap Lexeme.glyphs) = lexemes.flatMap Lexeme.bytes := by
  induction lexemes with
  | nil => rfl
  | cons lexeme lexemes ih =>
      have hlexeme : bytes lexeme.glyphs = lexeme.bytes := bytes_map lexeme.region lexeme.text
      rw [List.flatMap_cons, List.flatMap_cons, bytes_append, hlexeme, ih]

end Bytes

/-- A text that can be cut up to its end, and whose brackets of code are nested. -/
def Balanced (text : List Char) : Prop :=
  ∃ lexemes, Cut text lexemes ∧ Nested (brackets (lexemes.flatMap Lexeme.glyphs))

section Balance

variable {text : List Char} {glyphs : List Glyph} {lexemes : List Lexeme}

/-- A text that is cut is accepted if its brackets are nested. -/
theorem Cut.scan_eq_some_iff (h : Cut text lexemes) :
    scan text = some glyphs ↔
      Nested (brackets (lexemes.flatMap Lexeme.glyphs)) ∧
        glyphs = lexemes.flatMap Lexeme.glyphs := by
  rw [scan, h.scanFrom_eq, ← nest_eq_some_nil_iff]
  split
  · next hnested => simp [hnested, eq_comm]
  · next hnested => simp [hnested]

/-- What is accepted has been cut. -/
theorem exists_cut_of_scan (h : scan text = some glyphs) :
    ∃ lexemes, Cut text lexemes ∧ glyphs = lexemes.flatMap Lexeme.glyphs := by
  obtain ⟨lexemes, hcut, hglyphs⟩ := exists_cut (readable_of_scan h)
  rw [chars_of_scan h] at hcut
  exact ⟨lexemes, hcut, hglyphs⟩

/-- A classified text is the one that the scanner makes if it can be read and its brackets of code
are nested. -/
theorem scan_chars_iff :
    scan (chars glyphs) = some glyphs ↔ Readable .code glyphs ∧ Nested (brackets glyphs) := by
  constructor
  · intro h
    obtain ⟨lexemes, hcut, hglyphs⟩ := exists_cut_of_scan h
    rw [hglyphs]
    exact ⟨hglyphs ▸ readable_of_scan h, (hcut.scan_eq_some_iff.1 h).1⟩
  · rintro ⟨hreadable, hnested⟩
    obtain ⟨lexemes, hcut, hglyphs⟩ := exists_cut hreadable
    exact hcut.scan_eq_some_iff.2 ⟨hglyphs ▸ hnested, hglyphs⟩

/-- The scanner accepts exactly the balanced texts, and it gives every byte the region of the lexeme
that it belongs to, where the text has only one cut into lexemes. -/
theorem scan_iff_balanced (text : List Char) :
    ((scan text).isSome = true ↔ Balanced text) ∧
      ∀ glyphs, scan text = some glyphs →
        ∃ lexemes, Cut text lexemes ∧ (∀ others, Cut text others → others = lexemes) ∧
          glyphs = lexemes.flatMap Lexeme.glyphs ∧ bytes glyphs = lexemes.flatMap Lexeme.bytes ∧
          (bytes glyphs).length = (String.ofList text).utf8ByteSize := by
  constructor
  · rw [Option.isSome_iff_exists]
    constructor
    · rintro ⟨glyphs, h⟩
      obtain ⟨lexemes, hcut, -⟩ := exists_cut_of_scan h
      exact ⟨lexemes, hcut, (hcut.scan_eq_some_iff.1 h).1⟩
    · rintro ⟨lexemes, hcut, hnested⟩
      exact ⟨_, hcut.scan_eq_some_iff.2 ⟨hnested, rfl⟩⟩
  · intro glyphs h
    obtain ⟨lexemes, hcut, hglyphs⟩ := exists_cut_of_scan h
    refine ⟨lexemes, hcut, fun others hothers => hothers.unique hcut, hglyphs, ?_, ?_⟩
    · rw [hglyphs, bytes_flatMap_glyphs]
    · rw [length_bytes, chars_of_scan h]

/-- A comment that starts with a slash holds a bracket and a character of two bytes, and a string
holds a protected quote. -/
theorem scan_iff_balanced_protected :
    ∃ lexemes, Cut "/*/(é*/f('\\'')//".toList lexemes ∧
      lexemes.flatMap Lexeme.bytes =
        List.replicate 8 .comment ++ List.replicate 2 .code ++ List.replicate 4 .string ++
          [.code] ++ List.replicate 2 .comment := by
  have hscan : scan "/*/(é*/f('\\'')//".toList =
      some ("/*/(é*/".toList.map (⟨·, .comment⟩) ++ coded ['f', '('] ++
        "'\\''".toList.map (⟨·, .string⟩) ++ coded [')'] ++ "//".toList.map (⟨·, .comment⟩)) := by
    decide +kernel
  obtain ⟨lexemes, hcut, -, -, hbytes, -⟩ := (scan_iff_balanced _).2 _ hscan
  exact ⟨lexemes, hcut, hbytes ▸ by decide +kernel⟩

end Balance

end MiniProgram.Source
