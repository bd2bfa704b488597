import MiniProgram.Proofs.Source.Scan
import MiniProgram.Source.Phrase

/-!
# Nested brackets

`nest` reads brackets from the left and keeps a stack of those that are open. A word of brackets is
nested if it is empty, or a pair of matching brackets around a nested word with a nested word
behind it; `nest_eq_some_nil_iff` says that the stack ends up empty exactly on nested words.

The block that a brace opens is nested, although only braces are counted to find its end
(`exists_nested_of_block?`).
-/

namespace MiniProgram.Source

/-- A bracket, of any kind. -/
def isBracket (c : Char) : Bool :=
  isOpening c || (opening? c).isSome

/-- The brackets of the code in a classified text. -/
def brackets (glyphs : List Glyph) : List Char :=
  chars (glyphs.filter fun g => g.region = .code ∧ isBracket g.char)

/-- A properly nested word of brackets. -/
inductive Nested : List Char → Prop where
  | nil : Nested []
  | pair {opener closer inner rest} : opening? closer = some opener → Nested inner → Nested rest →
      Nested (opener :: (inner ++ closer :: rest))

/-- `turn stack c` reads a bracket behind brackets that are open, the innermost first. -/
def turn (stack : List Char) (c : Char) : Option (List Char) :=
  match opening? c with
  | none => some (c :: stack)
  | some opener =>
    match stack with
    | [] => none
    | innermost :: outer => if innermost = opener then some outer else none

/-- `nest stack word` reads a word of brackets. -/
def nest (stack : List Char) : List Char → Option (List Char)
  | [] => some stack
  | c :: rest => (turn stack c).bind (nest · rest)

/-- `Closes stack word` says that a word closes the brackets of a stack one after the other, with
nested words in front of, between and behind the closing brackets. -/
inductive Closes : List Char → List Char → Prop where
  | nil {word} : Nested word → Closes [] word
  | cons {opener closer outer inner rest} : opening? closer = some opener → Nested inner →
      Closes outer rest → Closes (opener :: outer) (inner ++ closer :: rest)

section Words

variable {stack outer last word inner rest : List Char} {opener closer : Char}

/-- An opening bracket closes nothing. -/
theorem opening?_eq_none_of_isOpening {c : Char} (h : isOpening c = true) : opening? c = none := by
  simp only [isOpening, Bool.or_eq_true, beq_iff_eq] at h
  rcases h with (rfl | rfl) | rfl <;> rfl

/-- What a bracket closes is an opening bracket. -/
theorem isOpening_of_opening? (h : opening? closer = some opener) : isOpening opener = true := by
  unfold opening? at h
  split at h <;> cases h <;> rfl

/-- No brackets leave the open ones as they are. -/
@[simp]
theorem nest_nil (stack : List Char) : nest stack [] = some stack := rfl

/-- Brackets are read one by one. -/
theorem nest_cons (stack : List Char) (c : Char) (rest : List Char) :
    nest stack (c :: rest) = (turn stack c).bind (nest · rest) := rfl

/-- A bracket that closes none is opened. -/
theorem turn_opening {c : Char} (h : opening? c = none) (stack : List Char) :
    turn stack c = some (c :: stack) := by
  rw [turn, h]

/-- A closing bracket closes the innermost one, if that is its opener. -/
theorem turn_closing (h : opening? closer = some opener) (outer : List Char) :
    turn (opener :: outer) closer = some outer := by
  rw [turn, h]
  exact if_pos rfl

/-- A closing bracket is read only behind the bracket that it closes. -/
theorem eq_cons_of_turn (h : opening? closer = some opener)
    (hturn : turn stack closer = some last) :
    stack = opener :: last := by
  rw [turn, h] at hturn
  cases stack with
  | nil => cases hturn
  | cons innermost outer =>
      dsimp only at hturn
      split at hturn
      · next hsame =>
          cases hturn
          rw [hsame]
      · cases hturn

/-- A word is read piece by piece. -/
theorem nest_append (stack word rest : List Char) :
    nest stack (word ++ rest) = (nest stack word).bind (nest · rest) := by
  induction word generalizing stack with
  | nil => rfl
  | cons c word ih =>
      rw [List.cons_append, nest_cons, nest_cons, Option.bind_assoc]
      exact congrArg _ (funext ih)

/-- A word of two parts is read with the second part behind the first. -/
theorem nest_append_iff :
    nest stack (word ++ rest) = some last ↔
      ∃ middle, nest stack word = some middle ∧ nest middle rest = some last := by
  rw [nest_append, Option.bind_eq_some_iff]

/-- A word is read with the rest behind its first bracket. -/
theorem nest_cons_iff {c : Char} :
    nest stack (c :: rest) = some last ↔
      ∃ middle, turn stack c = some middle ∧ nest middle rest = some last := by
  rw [nest_cons, Option.bind_eq_some_iff]

/-- A nested word leaves the stack as it was. -/
theorem Nested.nest_eq (h : Nested word) (stack : List Char) : nest stack word = some stack := by
  induction h generalizing stack with
  | nil => rfl
  | @pair opener closer inner rest hcloser _ _ ihinner ihrest =>
      have hopener := opening?_eq_none_of_isOpening (isOpening_of_opening? hcloser)
      rw [nest_cons, turn_opening hopener, Option.bind_some, nest_append, ihinner,
        Option.bind_some, nest_cons, turn_closing hcloser, Option.bind_some, ihrest]

/-- A pair in front of a word that closes a stack makes another one. -/
theorem Closes.pair (hcloser : opening? closer = some opener) (hinner : Nested inner)
    (h : Closes stack rest) : Closes stack (opener :: (inner ++ closer :: rest)) := by
  cases h with
  | nil hrest => exact .nil (.pair hcloser hinner hrest)
  | @cons other otherCloser outer front behind hother hfront hbehind =>
      have hpair : Nested (opener :: (inner ++ closer :: front)) := .pair hcloser hinner hfront
      have hsplit : opener :: (inner ++ closer :: (front ++ otherCloser :: behind)) =
          (opener :: (inner ++ closer :: front)) ++ otherCloser :: behind := by simp
      rw [hsplit]
      exact .cons hother hpair hbehind

/-- A word that empties a stack closes its brackets. -/
theorem closes_of_nest (h : nest stack word = some []) : Closes stack word := by
  induction word generalizing stack with
  | nil =>
      cases h
      exact .nil .nil
  | cons c word ih =>
      obtain ⟨middle, hturn, hword⟩ := nest_cons_iff.1 h
      cases hc : opening? c with
      | some opener =>
          rw [eq_cons_of_turn hc hturn]
          exact .cons hc .nil (ih hword)
      | none =>
          obtain rfl : c :: stack = middle :=
            Option.some.inj ((turn_opening hc stack).symm.trans hturn)
          -- the bracket is closed by the first one that the rest closes
          cases ih hword with
          | cons hcloser hinner hrest => exact hrest.pair hcloser hinner

/-- The stack ends up empty exactly on nested words. -/
theorem nest_eq_some_nil_iff : nest [] word = some [] ↔ Nested word := by
  constructor
  · intro h
    cases closes_of_nest h with
    | nil hnested => exact hnested
  · exact fun h => h.nest_eq []

end Words

section Texts

variable {glyphs rest block : List Glyph} {stack last : List Char}

/-- An empty text has no brackets. -/
@[simp]
theorem brackets_nil : brackets [] = [] := rfl

/-- A character gives a bracket if it is one and stands in code. -/
theorem brackets_cons (g : Glyph) (rest : List Glyph) :
    brackets (g :: rest) =
      if g.region = .code ∧ isBracket g.char then g.char :: brackets rest else brackets rest := by
  simp only [brackets, List.filter_cons, decide_eq_true_eq]
  split <;> rfl

/-- The brackets of two texts stand one after the other. -/
@[simp]
theorem brackets_append (glyphs rest : List Glyph) :
    brackets (glyphs ++ rest) = brackets glyphs ++ brackets rest := by
  rw [brackets, List.filter_append, chars_append]
  rfl

/-- A bracket in code is one of the brackets. -/
theorem brackets_cons_of_bracket {c : Char} (h : isBracket c = true) (rest : List Glyph) :
    brackets (⟨c, .code⟩ :: rest) = c :: brackets rest := by
  rw [brackets_cons, if_pos ⟨rfl, h⟩]

/-- Any other character adds no bracket. -/
theorem brackets_cons_of_not {g : Glyph} (h : g.region = .code → isBracket g.char = false)
    (rest : List Glyph) : brackets (g :: rest) = brackets rest := by
  rw [brackets_cons, if_neg (by simpa using h)]

/-- A text without a bracket in code has no brackets. -/
theorem brackets_eq_nil (h : ∀ g ∈ glyphs, g.region = .code → isBracket g.char = false) :
    brackets glyphs = [] := by
  induction glyphs with
  | nil => rfl
  | cons g glyphs ih =>
      obtain ⟨hg, hglyphs⟩ := List.forall_mem_cons.1 h
      rw [brackets_cons_of_not hg, ih hglyphs]

/-- A brace is the only bracket that a closing brace closes. -/
theorem eq_brace_of_opening? {c : Char} (h : opening? c = some '{') : c = '}' := by
  unfold opening? at h
  split at h <;> first | rfl | exact absurd h (by decide)

/-- What is cut off up to a closing brace ends with it, and what stands in front of it closes all
brackets `inside` that are open behind the brace of the block. -/
theorem exists_of_closeBlock_of_nest {depth : Nat} {inside outer : List Char}
    (hcut : closeBlock depth glyphs = some (block, rest)) (hdepth : inside.count '{' = depth)
    (h : nest (inside ++ '{' :: outer) (brackets glyphs) = some last) :
    ∃ inner, block = inner ++ [⟨'}', .code⟩] ∧ nest inside (brackets inner) = some [] := by
  have hopening : isBracket '{' = true := by decide
  have hclosing : isBracket '}' = true := by decide
  -- along the cut: its depth is the number of braces that are open inside, and the other brackets
  -- between them are what it does not see
  fun_induction closeBlock depth glyphs generalizing block inside with
  | case1 => cases hcut
  | case2 depth glyphs ih =>
      obtain ⟨block, hblock, rfl⟩ := prepend_eq_some_iff.1 hcut
      rw [brackets_cons_of_bracket hopening, nest_cons, turn_opening rfl, Option.bind_some] at h
      obtain ⟨inner, rfl, hinner⟩ :=
        @ih block ('{' :: inside) hblock (by rw [List.count_cons_self, hdepth]) h
      refine ⟨⟨'{', .code⟩ :: inner, rfl, ?_⟩
      rw [brackets_cons_of_bracket hopening, nest_cons, turn_opening rfl]
      exact hinner
  | case3 glyphs =>
      cases hcut
      rw [brackets_cons_of_bracket hclosing] at h
      obtain ⟨middle, hturn, -⟩ := nest_cons_iff.1 h
      have hstack := eq_cons_of_turn rfl hturn
      -- no other brace is open, so the innermost bracket is the brace of the block
      obtain rfl : inside = [] := by
        cases inside with
        | nil => rfl
        | cons c inside =>
            rw [(List.cons.inj hstack).1, List.count_cons_self] at hdepth
            exact absurd hdepth (Nat.succ_ne_zero _)
      exact ⟨[], rfl, rfl⟩
  | case4 glyphs depth _ ih =>
      obtain ⟨block, hblock, rfl⟩ := prepend_eq_some_iff.1 hcut
      rw [brackets_cons_of_bracket hclosing] at h
      obtain ⟨middle, hturn, hrest⟩ := nest_cons_iff.1 h
      have hstack := eq_cons_of_turn rfl hturn
      cases inside with
      | nil => cases hdepth
      | cons c inside =>
          obtain ⟨rfl, rfl⟩ := List.cons.inj hstack
          rw [List.count_cons_self] at hdepth
          obtain ⟨inner, rfl, hinner⟩ := ih hblock (Nat.succ.inj hdepth) hrest
          refine ⟨⟨'}', .code⟩ :: inner, rfl, ?_⟩
          rw [brackets_cons_of_bracket hclosing, nest_cons, turn_closing rfl]
          exact hinner
  | case5 depth g glyphs hbrace hclose ih =>
      obtain ⟨block, hblock, rfl⟩ := prepend_eq_some_iff.1 hcut
      obtain ⟨c, region⟩ := g
      by_cases hbracket : region = .code ∧ isBracket c = true
      · obtain ⟨rfl, hc⟩ := hbracket
        rw [brackets_cons_of_bracket hc] at h
        obtain ⟨middle, hturn, hrest⟩ := nest_cons_iff.1 h
        cases hkind : opening? c with
        | none =>
            obtain rfl := Option.some.inj ((turn_opening hkind _).symm.trans hturn)
            have hother : c ≠ '{' := fun hc => hbrace (by rw [hc])
            have hcount : (c :: inside).count '{' = depth := by
              rw [List.count_cons_of_ne hother, hdepth]
            obtain ⟨inner, rfl, hinner⟩ := @ih block (c :: inside) hblock hcount hrest
            refine ⟨⟨c, .code⟩ :: inner, rfl, ?_⟩
            rw [brackets_cons_of_bracket hc, nest_cons, turn_opening hkind]
            exact hinner
        | some opener =>
            have hstack := eq_cons_of_turn hkind hturn
            have hother : opener ≠ '{' := by
              rintro rfl
              exact hclose (by rw [eq_brace_of_opening? hkind])
            cases inside with
            | nil => exact absurd (List.cons.inj hstack).1.symm hother
            | cons d inside =>
                obtain ⟨rfl, rfl⟩ := List.cons.inj hstack
                rw [List.count_cons_of_ne hother] at hdepth
                obtain ⟨inner, rfl, hinner⟩ := ih hblock hdepth hrest
                refine ⟨⟨c, .code⟩ :: inner, rfl, ?_⟩
                rw [brackets_cons_of_bracket hc, nest_cons, turn_closing hkind]
                exact hinner
      · have hplain : (⟨c, region⟩ : Glyph).region = .code → isBracket c = false := by
          simpa using hbracket
        rw [brackets_cons_of_not hplain] at h
        obtain ⟨inner, rfl, hinner⟩ := ih hblock hdepth h
        refine ⟨⟨c, region⟩ :: inner, rfl, ?_⟩
        rw [brackets_cons_of_not hplain]
        exact hinner

/-- The brackets between the braces of a block are nested. -/
theorem exists_nested_of_block? (hcode : ∀ g ∈ glyphs.head?, g.region = .code)
    (hcut : block? glyphs = some (block, rest)) (h : nest stack (brackets glyphs) = some last) :
    ∃ inner, block = ⟨'{', .code⟩ :: (inner ++ [⟨'}', .code⟩]) ∧ Nested (brackets inner) := by
  obtain ⟨region, tail, closing, rfl, hclose, rfl⟩ := block?_eq_some_iff.1 hcut
  obtain rfl : region = .code := hcode _ rfl
  rw [brackets_cons_of_bracket (by decide), nest_cons, turn_opening rfl, Option.bind_some] at h
  obtain ⟨inner, rfl, hinner⟩ := @exists_of_closeBlock_of_nest _ _ _ _ _ [] stack hclose rfl h
  exact ⟨inner, rfl, nest_eq_some_nil_iff.1 hinner⟩

/-- The brackets of a block are its braces and what stands between them. -/
theorem brackets_block (inner : List Glyph) :
    brackets (⟨'{', .code⟩ :: (inner ++ [⟨'}', .code⟩])) = '{' :: (brackets inner ++ ['}']) := by
  rw [brackets_cons_of_bracket (by decide), brackets_append]
  rfl

/-- The brackets of a block are nested, both braces included. -/
theorem nested_block {inner : List Glyph} (h : Nested (brackets inner)) :
    Nested (brackets (⟨'{', .code⟩ :: (inner ++ [⟨'}', .code⟩]))) := by
  rw [brackets_block]
  exact .pair rfl h .nil

end Texts

end MiniProgram.Source
