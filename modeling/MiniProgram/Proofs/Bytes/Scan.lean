import MiniProgram.Proofs.Bytes.Slice
import MiniProgram.Proofs.Source.Lexeme

/-!
# Scanning a source into a vector of regions

`regions? source` reads a source once from the left and writes the region of every byte into a
vector of the size of the source. It reads one character at a time and looks at the next one, and it
may only write inside of the vector.

Read `regions?_eq` first: nothing is written outside, and the vector holds the region that
`Source.scan` gives to each character, for each of its bytes.
-/

namespace MiniProgram.Bytes

open Source

/-- Changes an entry of a vector. -/
def write (regions : List Region) (index : ℕ) (region : Region) : Except Fault (List Region) :=
  if index < regions.length then .ok (regions.set index region) else .error (.index index)

/-- Changes the entries of a vector between two indices. -/
def fill (regions : List Region) (start stop : ℕ) (region : Region) :
    Except Fault (List Region) :=
  if stop < start then .error (.order start stop)
  else if regions.length < stop then .error (.index stop)
  else .ok (regions.take start ++ (List.replicate (stop - start) region ++ regions.drop stop))

/-- What the scanner does with a character: the character gets a region, and what follows is read in
a mode and with brackets open. A mark of two characters starts or ends a block comment. -/
structure Move where
  region : Region
  mode : Mode
  brackets : List Char
  isMark : Bool

/-- What the scanner does with a character that `next` stands behind, if it does not refuse it. -/
def move? (mode : Mode) (brackets : List Char) (c : Char) (next : Option Char) : Option Move :=
  match mode with
  | .code =>
    if c = '/' ∧ next = some '/' then some ⟨.comment, .lineComment, brackets, false⟩
    else if c = '/' ∧ next = some '*' then some ⟨.comment, .blockComment, brackets, true⟩
    else if isQuote c then some ⟨.string, .quoted c, brackets, false⟩
    else if isBracket c then (turn brackets c).map (⟨.code, .code, ·, false⟩)
    else some ⟨.code, .code, brackets, false⟩
  | .lineComment =>
    if c = '\n' then some ⟨.code, .code, brackets, false⟩
    else some ⟨.comment, .lineComment, brackets, false⟩
  | .blockComment =>
    if c = '*' ∧ next = some '/' then some ⟨.comment, .code, brackets, true⟩
    else some ⟨.comment, .blockComment, brackets, false⟩
  | .quoted quote =>
    if c = '\\' then some ⟨.string, .escaped quote, brackets, false⟩
    else if c = quote then some ⟨.string, .code, brackets, false⟩
    else if c = '\n' ∧ quote ≠ '`' then none
    else some ⟨.string, .quoted quote, brackets, false⟩
  | .escaped quote => some ⟨.string, .quoted quote, brackets, false⟩

/-- `regionsFrom mode brackets index regions text` scans a text that starts at an index, inside of a
mode and with brackets open. -/
def regionsFrom (mode : Mode) (brackets : List Char) (index : ℕ) (regions : List Region)
    (text : List Char) : Except Fault (Option (List Region)) :=
  match text with
  | [] => .ok (if (mode = .code ∨ mode = .lineComment) ∧ brackets = [] then some regions else none)
  | c :: rest =>
    match move? mode brackets c rest.head? with
    | none => .ok none
    | some move =>
      if move.isMark then do
        let regions ← write regions (index + 1) .comment
        let regions ← fill regions index (index + c.utf8Size) move.region
        regionsFrom move.mode move.brackets (index + c.utf8Size + rest.head?.elim 0 Char.utf8Size)
          regions rest.tail
      else do
        let regions ← fill regions index (index + c.utf8Size) move.region
        regionsFrom move.mode move.brackets (index + c.utf8Size) regions rest
termination_by text.length
decreasing_by
  · simp only [List.length_tail, List.length_cons]; omega
  · simp only [List.length_cons]; omega

/-- The region of every byte of a source that is balanced. -/
def regions? (source : List Char) : Except Fault (Option (List Region)) :=
  regionsFrom .code [] 0 (List.replicate (size source) .code) source

section Writing

/-- Filling changes the entries between two indices and no others. -/
theorem fill_append (front old rest : List Region) (region : Region) :
    fill (front ++ (old ++ rest)) front.length (front.length + old.length) region =
      .ok (front ++ (List.replicate old.length region ++ rest)) := by
  rw [fill, if_neg (by omega), if_neg (by simp only [List.length_append]; omega), List.take_left,
    Nat.add_sub_cancel_left, ← List.append_assoc front old, ← List.length_append, List.drop_left]

/-- Writing changes one entry and no other. -/
theorem write_append (front rest : List Region) (old region : Region) :
    write (front ++ old :: rest) front.length region = .ok (front ++ region :: rest) := by
  rw [write, if_pos (by simp), List.set_append_right _ _ (Nat.le_refl _), Nat.sub_self]
  rfl

end Writing

section Scanning

/-- What follows a character when the scanner has dealt with it. -/
def Move.scan (move : Move) (c : Char) (rest : List Char) : Option (List Glyph) :=
  if move.isMark then
    rest.head?.bind fun d =>
      glyph move.region c (glyph .comment d (scanFrom move.mode move.brackets rest.tail))
  else glyph move.region c (scanFrom move.mode move.brackets rest)

/-- In code where no comment starts, the scanner makes the move of the character. -/
theorem scanFrom_code_of_not_comment {brackets : List Char} {c : Char} {rest : List Char}
    (hcomment : ¬ (c = '/' ∧ (rest.head? = some '/' ∨ rest.head? = some '*'))) :
    scanFrom .code brackets (c :: rest) =
      (move? .code brackets c rest.head?).bind (·.scan c rest) := by
  have hfits : c = '/' → ∀ d ∈ rest.head?, d ≠ '/' ∧ d ≠ '*' := by
    rintro rfl d hd
    rw [Option.mem_def] at hd
    constructor <;> (rintro rfl; exact hcomment ⟨rfl, by simp [hd]⟩)
  have hline : ¬ (c = '/' ∧ rest.head? = some '/') := fun h => hcomment ⟨h.1, .inl h.2⟩
  have hblock : ¬ (c = '/' ∧ rest.head? = some '*') := fun h => hcomment ⟨h.1, .inr h.2⟩
  rw [move?, if_neg hline, if_neg hblock]
  by_cases hquote : isQuote c = true
  · rw [scanFrom, if_pos hquote, if_pos hquote]
    · simp [Move.scan]
    · rintro tail rfl rfl
      exact hline ⟨rfl, rfl⟩
    · rintro tail rfl rfl
      exact hblock ⟨rfl, rfl⟩
  · rw [scanFrom_code ⟨by simpa using hquote, hfits⟩, if_neg hquote]
    by_cases hbracket : isBracket c = true
    · rw [brackets_cons_of_bracket hbracket, if_pos hbracket, nest_cons]
      cases turn brackets c <;> simp [Move.scan, nest_nil, brackets_nil]
    · rw [brackets_cons_of_not (fun _ => by simpa using hbracket), if_neg hbracket]
      simp [Move.scan, nest_nil, brackets_nil]

/-- A text is scanned character by character. -/
theorem scanFrom_cons (mode : Mode) (brackets : List Char) (c : Char) (rest : List Char) :
    scanFrom mode brackets (c :: rest) =
      (move? mode brackets c rest.head?).bind (·.scan c rest) := by
  cases mode with
  | code =>
      by_cases hcomment : c = '/' ∧ (rest.head? = some '/' ∨ rest.head? = some '*')
      · obtain ⟨rfl, hnext⟩ := hcomment
        obtain hnext | hnext := hnext
        all_goals
          obtain ⟨tail, rfl⟩ := List.head?_eq_some_iff.1 hnext
          simp [scanFrom, move?, Move.scan]
      · exact scanFrom_code_of_not_comment hcomment
  | lineComment =>
      rw [scanFrom, move?]
      split <;> simp [Move.scan]
  | blockComment =>
      by_cases hmark : c = '*' ∧ rest.head? = some '/'
      · obtain ⟨rfl, hnext⟩ := hmark
        obtain ⟨tail, rfl⟩ := List.head?_eq_some_iff.1 hnext
        simp [scanFrom, move?, Move.scan]
      · rw [move?, if_neg hmark, scanFrom]
        · simp [Move.scan]
        · rintro tail rfl rfl
          exact hmark ⟨rfl, rfl⟩
  | quoted quote =>
      rw [scanFrom, move?]
      split
      · simp [Move.scan]
      · split
        · simp [Move.scan]
        · split <;> simp [Move.scan]
  | escaped quote =>
      rw [scanFrom, move?]
      simp [Move.scan]

/-- A mark has two characters of one byte. -/
theorem exists_of_isMark {mode : Mode} {brackets : List Char} {c : Char} {next : Option Char}
    {move : Move} (h : move? mode brackets c next = some move) (hmark : move.isMark = true) :
    c.utf8Size = 1 ∧ ∃ d, next = some d ∧ d.utf8Size = 1 := by
  cases mode with
  | code =>
      rw [move?] at h
      split at h
      · cases h
        cases hmark
      · split at h
        · next hblock => exact ⟨hblock.1 ▸ rfl, _, hblock.2, rfl⟩
        · split at h
          · cases h
            cases hmark
          · split at h
            · obtain ⟨_, -, rfl⟩ := Option.map_eq_some_iff.1 h
              cases hmark
            · cases h
              cases hmark
  | lineComment =>
      rw [move?] at h
      split at h <;> (cases h; cases hmark)
  | blockComment =>
      rw [move?] at h
      split at h
      · next hblock => exact ⟨hblock.1 ▸ rfl, _, hblock.2, rfl⟩
      · cases h
        cases hmark
  | quoted quote =>
      rw [move?] at h
      split at h
      · cases h
        cases hmark
      · split at h
        · cases h
          cases hmark
        · split at h <;> cases h
          cases hmark
  | escaped quote =>
      cases h
      cases hmark

/-- The regions of a text are those of its first character, one for each byte, and of the others. -/
theorem bytes_cons (g : Glyph) (glyphs : List Glyph) :
    bytes (g :: glyphs) = List.replicate g.char.utf8Size g.region ++ bytes glyphs :=
  List.flatMap_cons

section Steps

variable {mode : Mode} {brackets text : List Char} {c d : Char} {move : Move}
  {front old later : List Region}

/-- One character is scanned: the entries of its bytes are written. -/
theorem regionsFrom_cons (hmove : move? mode brackets c text.head? = some move)
    (hmark : move.isMark = false) (hold : old.length = c.utf8Size) :
    regionsFrom mode brackets front.length (front ++ (old ++ later)) (c :: text) =
      regionsFrom move.mode move.brackets (front ++ List.replicate c.utf8Size move.region).length
        (front ++ List.replicate c.utf8Size move.region ++ later) text := by
  have hfill := fill_append front old later move.region
  rw [hold] at hfill
  rw [regionsFrom, hmove]
  simp only [hmark, Bool.false_eq_true, if_false, hfill, bind, Except.bind]
  rw [List.length_append, List.length_replicate, List.append_assoc]

/-- A mark is scanned: the entries of both characters are written. -/
theorem regionsFrom_mark (hmove : move? mode brackets c (d :: text).head? = some move)
    (hmark : move.isMark = true) (hc : c.utf8Size = 1) (hd : d.utf8Size = 1)
    (first second : Region) :
    regionsFrom mode brackets front.length (front ++ first :: second :: later) (c :: d :: text) =
      regionsFrom move.mode move.brackets (front ++ [move.region, .comment]).length
        (front ++ [move.region, .comment] ++ later) text := by
  have hwrite : write (front ++ first :: second :: later) (front.length + 1) .comment =
      .ok (front ++ first :: .comment :: later) := by
    have h := write_append (front ++ [first]) later second .comment
    rwa [List.append_assoc, List.append_assoc, List.length_append] at h
  have hfill : fill (front ++ first :: .comment :: later) front.length (front.length + 1)
      move.region = .ok (front ++ move.region :: .comment :: later) :=
    fill_append front [first] (.comment :: later) move.region
  rw [regionsFrom, hmove]
  simp only [hmark, if_true, hc, hwrite, hfill, bind, Except.bind]
  rw [List.length_append, List.append_assoc, List.head?_cons, Option.elim_some, hd, Nat.add_assoc]
  rfl

end Steps

/-- Scanning writes into the part of the vector that belongs to the text, and fills all of it. -/
theorem regionsFrom_eq (mode : Mode) (brackets text : List Char) (front rest : List Region)
    (hrest : rest.length = size text) :
    regionsFrom mode brackets front.length (front ++ rest) text =
      .ok ((scanFrom mode brackets text).map (front ++ bytes ·)) := by
  induction hlength : text.length using Nat.strongRecOn generalizing mode brackets text front rest
    with
  | _ length ih =>
    cases text with
    | nil =>
        obtain rfl := List.eq_nil_of_length_eq_zero hrest
        rw [regionsFrom]
        cases mode <;> cases brackets <;> simp [scanFrom, bytes]
    | cons c text =>
        subst hlength
        rw [size_cons] at hrest
        rw [scanFrom_cons]
        cases hmove : move? mode brackets c text.head? with
        | none =>
            rw [regionsFrom, hmove]
            rfl
        | some move =>
            cases hmark : move.isMark with
            | true =>
                obtain ⟨hc, d, hd, hsize⟩ := exists_of_isMark hmove hmark
                obtain ⟨text, rfl⟩ := List.head?_eq_some_iff.1 hd
                rw [size_cons, hc, hsize] at hrest
                obtain ⟨first, rest, rfl⟩ := List.exists_cons_of_length_pos (l := rest) (by omega)
                rw [List.length_cons] at hrest
                obtain ⟨second, rest, rfl⟩ := List.exists_cons_of_length_pos (l := rest) (by omega)
                rw [List.length_cons] at hrest
                have hshorter : text.length < (c :: d :: text).length := by
                  simp only [List.length_cons]
                  omega
                rw [regionsFrom_mark hmove hmark hc hsize,
                  ih text.length hshorter _ _ _ _ _ (by omega) rfl, Option.bind_some, Move.scan,
                  if_pos hmark, List.head?_cons, Option.bind_some, List.tail_cons]
                cases scanFrom move.mode move.brackets text with
                | none => rfl
                | some glyphs => simp [glyph, bytes_cons, hc, hsize]
            | false =>
                obtain ⟨old, later, rfl, hold⟩ :
                    ∃ old later, rest = old ++ later ∧ old.length = c.utf8Size :=
                  ⟨_, _, (List.take_append_drop c.utf8Size rest).symm, by
                    rw [List.length_take]; omega⟩
                rw [List.length_append, hold] at hrest
                rw [regionsFrom_cons hmove hmark hold, ih text.length (Nat.lt_succ_self _) _ _ _ _ _
                  (by omega) rfl, Option.bind_some, Move.scan, hmark, if_neg Bool.false_ne_true]
                cases scanFrom move.mode move.brackets text with
                | none => rfl
                | some glyphs => simp [glyph, bytes_cons]

/-- Scanning never writes outside of the vector, which holds the regions of all bytes at the end. -/
theorem regions?_eq (source : List Char) : regions? source = .ok ((scan source).map bytes) := by
  have h := regionsFrom_eq .code [] source [] (List.replicate (size source) .code)
    (List.length_replicate ..)
  simpa [regions?, scan] using h

end Scanning

end MiniProgram.Bytes
