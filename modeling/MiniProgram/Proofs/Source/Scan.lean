import MiniProgram.Proofs.Text.Words
import MiniProgram.Source.Region

/-!
# Scanning plain code

Text without the characters that open a string or a comment is all code: if `scan` accepts it, it
gives every character the region of code (`eq_coded_of_scanFrom`).
-/

namespace MiniProgram.Source

/-- An empty text has no characters. -/
@[simp]
theorem chars_nil : chars [] = [] := rfl

/-- The first character of a text is that of its first glyph. -/
@[simp]
theorem chars_cons (g : Glyph) (glyphs : List Glyph) :
    chars (g :: glyphs) = g.char :: chars glyphs :=
  rfl

/-- The characters of two texts stand one after the other. -/
@[simp]
theorem chars_append (glyphs rest : List Glyph) :
    chars (glyphs ++ rest) = chars glyphs ++ chars rest :=
  List.map_append

/-- Text that is all code. -/
def coded (text : List Char) : List Glyph :=
  text.map fun c => ⟨c, .code⟩

/-- No characters are an empty text. -/
@[simp]
theorem coded_nil : coded [] = [] := rfl

/-- A character of code stands in front of the others. -/
@[simp]
theorem coded_cons (c : Char) (text : List Char) : coded (c :: text) = ⟨c, .code⟩ :: coded text :=
  rfl

/-- Code is classified part by part. -/
@[simp]
theorem coded_append (text rest : List Char) : coded (text ++ rest) = coded text ++ coded rest :=
  List.map_append

/-- The characters of a text of code are the text. -/
@[simp]
theorem chars_coded (text : List Char) : chars (coded text) = text := by
  simp [chars, coded, Function.comp_def]

/-- Every character of a text of code is code. -/
theorem region_of_mem_coded {text : List Char} {g : Glyph} (h : g ∈ coded text) :
    g.region = .code := by
  obtain ⟨c, -, rfl⟩ := List.mem_map.1 h
  rfl

/-- Text that is all code. -/
theorem eq_coded_chars (h : ∀ g ∈ glyphs, g.region = .code) : glyphs = coded (chars glyphs) := by
  induction glyphs with
  | nil => rfl
  | cons g glyphs ih =>
      obtain ⟨hg, hglyphs⟩ := List.forall_mem_cons.1 h
      rw [chars_cons, coded_cons, ← ih hglyphs, ← hg]

section Characters

open Text

variable {c : Char}

/-- A blank opens neither a string nor a comment. -/
theorem plain_of_isBlank (h : isBlank c = true) : isQuote c = false ∧ c ≠ '/' := by
  refine ⟨eq_false_of_isBlank (by decide) h, ?_⟩
  rintro rfl
  cases h

/-- A character of a word opens neither a string nor a comment. -/
theorem plain_of_isIdentifierChar (h : isIdentifierChar c = true) :
    isQuote c = false ∧ c ≠ '/' := by
  constructor
  · refine Bool.eq_false_iff.2 fun hquote => ?_
    simp only [isQuote, Bool.or_eq_true, beq_iff_eq] at hquote
    rcases hquote with (rfl | rfl) | rfl <;> revert h <;> decide
  · rintro rfl
    revert h
    decide

end Characters

/-- A character that opens neither a string nor a comment is code, and may open or close a
bracket. -/
theorem scanFrom_code_cons {c : Char} (hquote : isQuote c = false) (hslash : c ≠ '/')
    (brackets rest : List Char) :
    scanFrom .code brackets (c :: rest) =
      if isOpening c then glyph .code c (scanFrom .code (c :: brackets) rest)
      else
        match opening? c with
        | none => glyph .code c (scanFrom .code brackets rest)
        | some opener =>
          match brackets with
          | [] => none
          | innermost :: outer =>
            if innermost = opener then glyph .code c (scanFrom .code outer rest) else none := by
  have hline : ∀ others, c = '/' → rest = '/' :: others → False := fun _ hc => absurd hc hslash
  have hblock : ∀ others, c = '/' → rest = '*' :: others → False := fun _ hc => absurd hc hslash
  exact (scanFrom.eq_6 brackets c rest hline hblock).trans (if_neg (by simp [hquote]))

/-- What is read off a character of plain code is code, in front of what is read off the rest. -/
theorem exists_of_scanFrom_code_cons {c : Char} {brackets rest : List Char} {glyphs : List Glyph}
    (hquote : isQuote c = false) (hslash : c ≠ '/')
    (h : scanFrom .code brackets (c :: rest) = some glyphs) :
    ∃ others tail, scanFrom .code others rest = some tail ∧ glyphs = ⟨c, .code⟩ :: tail := by
  rw [scanFrom_code_cons hquote hslash] at h
  split at h
  · exact ⟨_, glyph_eq_some_iff.1 h⟩
  · split at h
    · exact ⟨_, glyph_eq_some_iff.1 h⟩
    · split at h
      · cases h
      · split at h
        · exact ⟨_, glyph_eq_some_iff.1 h⟩
        · cases h

/-- Plain code is all code. -/
theorem eq_coded_of_scanFrom {brackets text : List Char} {glyphs : List Glyph}
    (hplain : ∀ c ∈ text, isQuote c = false ∧ c ≠ '/')
    (h : scanFrom .code brackets text = some glyphs) : glyphs = coded text := by
  induction text generalizing brackets glyphs with
  | nil =>
      simp only [scanFrom] at h
      split at h
      · cases h; rfl
      · cases h
  | cons c text ih =>
      obtain ⟨hquote, hslash⟩ := hplain c (by simp)
      obtain ⟨others, tail, htail, rfl⟩ := exists_of_scanFrom_code_cons hquote hslash h
      rw [ih (fun d hd => hplain d (by simp [hd])) htail, coded_cons]

/-- `Passes front` says that the characters of `front`, read in code, are classified as `front` and
leave the scanner in code with the same brackets open. -/
def Passes (front : List Glyph) : Prop :=
  ∀ brackets rest, scanFrom .code brackets (chars front ++ rest) =
    (scanFrom .code brackets rest).map (front ++ ·)

section Passing

/-- The scanner passes an empty text. -/
theorem Passes.nil : Passes [] := by
  intro brackets rest
  simp

/-- The scanner passes two texts one after the other. -/
theorem Passes.append {front other : List Glyph} (h : Passes front) (hother : Passes other) :
    Passes (front ++ other) := by
  intro brackets rest
  rw [chars_append, List.append_assoc, h, hother, Option.map_map]
  simp [Function.comp_def]

/-- A balanced text is classified behind a front text as it is alone. -/
theorem Passes.scan_append {front : List Glyph} (h : Passes front) (rest : List Char) :
    scan (chars front ++ rest) = (scan rest).map (front ++ ·) :=
  h [] rest

/-- Code without strings, comments and brackets. -/
theorem passes_coded {text : List Char}
    (h : ∀ c ∈ text, isQuote c = false ∧ c ≠ '/' ∧ isOpening c = false ∧ opening? c = none) :
    Passes (coded text) := by
  induction text with
  | nil => exact .nil
  | cons c text ih =>
      obtain ⟨⟨hquote, hslash, hopening, hclosing⟩, htext⟩ := List.forall_mem_cons.1 h
      intro brackets rest
      have hrest := ih htext brackets rest
      rw [chars_coded] at hrest ⊢
      rw [List.cons_append, scanFrom_code_cons hquote hslash, hopening, hclosing, hrest]
      simp [glyph, Function.comp_def]

/-- A text between braces. -/
theorem Passes.braces {inner : List Glyph} (h : Passes inner) :
    Passes (⟨'{', .code⟩ :: (inner ++ [⟨'}', .code⟩])) := by
  intro brackets rest
  have hinner := h ('{' :: brackets) ('}' :: rest)
  have hclosing : scanFrom .code ('{' :: brackets) ('}' :: rest) =
      glyph .code '}' (scanFrom .code brackets rest) := by
    rw [scanFrom_code_cons (by decide) (by decide)]
    rfl
  rw [chars_cons, chars_append, List.cons_append, List.append_assoc,
    scanFrom_code_cons (by decide) (by decide), if_pos (by decide)]
  change glyph .code '{' (scanFrom .code ('{' :: brackets) (chars inner ++ '}' :: rest)) = _
  rw [hinner, hclosing]
  simp [glyph, Function.comp_def]

/-- A string between single quotes. -/
def quoted (text : List Char) : List Glyph :=
  ('\'' :: (text ++ ['\''])).map fun c => ⟨c, .string⟩

/-- Every character of a quoted text belongs to a string. -/
theorem region_of_mem_quoted {text : List Char} {g : Glyph} (h : g ∈ quoted text) :
    g.region = .string := by
  obtain ⟨c, -, rfl⟩ := List.mem_map.1 h
  rfl

/-- The characters of a quoted text are the text between two quotes. -/
@[simp]
theorem chars_quoted (text : List Char) : chars (quoted text) = '\'' :: (text ++ ['\'']) := by
  simp [quoted, chars, Function.comp_def]

/-- Plain text in a string reaches up to its quote. -/
theorem scanFrom_quoted {text : List Char} (h : ∀ c ∈ text, c ≠ '\'' ∧ c ≠ '\\' ∧ c ≠ '\n')
    (brackets rest : List Char) :
    scanFrom (.quoted '\'') brackets (text ++ '\'' :: rest) =
      (scanFrom .code brackets rest).map ((text ++ ['\'']).map (⟨·, .string⟩) ++ ·) := by
  induction text with
  | nil => simp [scanFrom, glyph]
  | cons c text ih =>
      obtain ⟨⟨hquote, hslash, hline⟩, htext⟩ := List.forall_mem_cons.1 h
      rw [List.cons_append, scanFrom, if_neg hslash, if_neg hquote, if_neg (by simp [hline]),
        ih htext]
      simp [glyph, Function.comp_def]

/-- A string without quotes, backslashes and line feeds inside. -/
theorem passes_quoted {text : List Char} (h : ∀ c ∈ text, c ≠ '\'' ∧ c ≠ '\\' ∧ c ≠ '\n') :
    Passes (quoted text) := by
  intro brackets rest
  have hchars : chars (quoted text) ++ rest = '\'' :: (text ++ '\'' :: rest) := by simp
  have hopening : scanFrom .code brackets ('\'' :: (text ++ '\'' :: rest)) =
      glyph .string '\'' (scanFrom (.quoted '\'') brackets (text ++ '\'' :: rest)) := by
    simp [scanFrom, isQuote]
  rw [hchars, hopening, scanFrom_quoted h]
  simp [quoted, glyph, Function.comp_def]

end Passing

end MiniProgram.Source
