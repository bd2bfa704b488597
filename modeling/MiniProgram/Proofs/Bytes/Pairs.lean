import MiniProgram.Proofs.Bytes.Branch
import MiniProgram.Proofs.Bytes.Scan
import Mathlib.Order.Interval.Set.Defs

/-!
# Pairs of brackets

The brackets in the code of a source close each other in pairs. `pairs` finds the pairs with the
stack of open brackets that scanning keeps (`nest_map_snd`), where each bracket on the stack stands
together with its offset.

The end of a block is found in another way, by counting braces and nothing else. Read
`blockEndAt_pairs` first: what is found is the bracket that the stack pairs with the brace of the
block, so the block is a balanced text of its own, and no other pair reaches across its ends.
-/

namespace MiniProgram.Bytes

open Source

/-- The brackets of code in a text that starts at an offset, each with its own offset. -/
def codeBrackets (regions : List Region) (start : ℕ) (text : List Char) : List (ℕ × Char) :=
  (charIndices start text).filter fun entry =>
    regions[entry.1]? = some .code ∧ isBracket entry.2

/-- `turnAt stack bracket` reads a bracket behind brackets that are open, the innermost first, and
gives the pair that it closes. -/
def turnAt (stack : List (ℕ × Char)) (bracket : ℕ × Char) :
    Option (List (ℕ × Char) × List (ℕ × ℕ)) :=
  match opening? bracket.2 with
  | none => some (bracket :: stack, [])
  | some opener =>
    match stack with
    | [] => none
    | innermost :: outer =>
      if innermost.2 = opener then some (outer, [(innermost.1, bracket.1)]) else none

/-- `pairs stack word` reads a word of brackets, and gives the offsets of the pairs that it
closes. -/
def pairs (stack : List (ℕ × Char)) : List (ℕ × Char) → Option (List (ℕ × Char) × List (ℕ × ℕ))
  | [] => some (stack, [])
  | bracket :: rest =>
    (turnAt stack bracket).bind fun (middle, closed) =>
      (pairs middle rest).map fun (last, later) => (last, closed ++ later)

section Words

variable {stack last middle outer word front inner rest : List (ℕ × Char)}
  {found closed : List (ℕ × ℕ)} {bracket : ℕ × Char} {opened close : ℕ}

/-- Without the offsets, a bracket is read as before. -/
theorem turn_map_snd (stack : List (ℕ × Char)) (bracket : ℕ × Char) :
    turn (stack.map Prod.snd) bracket.2 =
      (turnAt stack bracket).map fun result => result.1.map Prod.snd := by
  rw [turn, turnAt]
  cases opening? bracket.2 with
  | none => rfl
  | some opener =>
      cases stack with
      | nil => rfl
      | cons innermost outer => by_cases h : innermost.2 = opener <;> simp [h]

/-- Without the offsets, the stack is the one that scanning keeps. -/
theorem nest_map_snd (stack word : List (ℕ × Char)) :
    nest (stack.map Prod.snd) (word.map Prod.snd) =
      (pairs stack word).map fun result => result.1.map Prod.snd := by
  induction word generalizing stack with
  | nil => rfl
  | cons bracket word ih =>
      rw [List.map_cons, nest_cons, turn_map_snd, pairs]
      cases turnAt stack bracket with
      | none => rfl
      | some result =>
          rw [Option.map_some, Option.bind_some, Option.bind_some, ih, Option.map_map]
          rfl

/-- Reading a word of brackets takes a turn with the first of them. -/
theorem pairs_cons_iff :
    pairs stack (bracket :: word) = some (last, found) ↔
      ∃ middle closed later, turnAt stack bracket = some (middle, closed) ∧
        pairs middle word = some (last, later) ∧ found = closed ++ later := by
  simp only [pairs, Option.bind_eq_some_iff, Option.map_eq_some_iff, Prod.exists, Prod.mk.injEq]
  constructor
  · rintro ⟨middle, closed, hturn, last, later, hword, rfl, rfl⟩
    exact ⟨middle, closed, later, hturn, hword, rfl⟩
  · rintro ⟨middle, closed, later, hturn, hword, rfl⟩
    exact ⟨middle, closed, hturn, last, later, hword, rfl, rfl⟩

/-- Reading two words of brackets is reading one after the other. -/
theorem pairs_append_iff :
    pairs stack (word ++ rest) = some (last, found) ↔
      ∃ middle first later, pairs stack word = some (middle, first) ∧
        pairs middle rest = some (last, later) ∧ found = first ++ later := by
  induction word generalizing stack found with
  | nil => simp [pairs]
  | cons bracket word ih =>
      simp only [List.cons_append, pairs_cons_iff, ih]
      constructor
      · rintro ⟨next, closed, _, hturn, ⟨middle, first, later, hword, hrest, rfl⟩, rfl⟩
        exact ⟨middle, closed ++ first, later, ⟨next, closed, first, hturn, hword, rfl⟩, hrest,
          (List.append_assoc ..).symm⟩
      · rintro ⟨middle, _, later, ⟨next, closed, first, hturn, hword, rfl⟩, hrest, rfl⟩
        exact ⟨next, closed, first ++ later, hturn, ⟨middle, first, later, hword, hrest, rfl⟩,
          List.append_assoc ..⟩

/-- What reading a bracket can do. -/
theorem turnAt_cases (h : turnAt stack bracket = some (last, closed)) :
    last = bracket :: stack ∧ closed = [] ∨
      ∃ innermost, stack = innermost :: last ∧ opening? bracket.2 = some innermost.2 ∧
        closed = [(innermost.1, bracket.1)] := by
  unfold turnAt at h
  split at h
  · cases h
    exact .inl ⟨rfl, rfl⟩
  · next opener hkind =>
      split at h
      · cases h
      · next innermost outer =>
          split at h
          · next hsame =>
              cases h
              exact .inr ⟨innermost, rfl, hsame ▸ hkind, rfl⟩
          · cases h

/-- A closing bracket closes the innermost open one, if they match. -/
theorem turnAt_closing {opener : Char} (h : opening? bracket.2 = some opener) (index : ℕ)
    (outer : List (ℕ × Char)) :
    turnAt ((index, opener) :: outer) bracket = some (outer, [(index, bracket.1)]) := by
  rw [turnAt, h]
  exact if_pos rfl

/-- Brackets further out do not matter. -/
theorem turnAt_frame (h : turnAt stack bracket = some (last, closed))
    (outer : List (ℕ × Char)) :
    turnAt (stack ++ outer) bracket = some (last ++ outer, closed) := by
  unfold turnAt at h ⊢
  split at h
  · cases h
    rfl
  · split at h
    · cases h
    · split at h
      · next hsame =>
          cases h
          exact if_pos hsame
      · cases h

/-- What is open further out does not matter to a word that is read without it. -/
theorem pairs_frame (h : pairs stack word = some (last, found)) (outer : List (ℕ × Char)) :
    pairs (stack ++ outer) word = some (last ++ outer, found) := by
  induction word generalizing stack found with
  | nil =>
      cases h
      rfl
  | cons bracket word ih =>
      obtain ⟨middle, closed, later, hturn, hword, rfl⟩ := pairs_cons_iff.1 h
      exact pairs_cons_iff.2 ⟨_, closed, later, turnAt_frame hturn outer, ih hword, rfl⟩

/-- The brackets of a nested word close each other. -/
theorem exists_pairs_of_nested (h : Nested (word.map Prod.snd)) :
    ∃ found, pairs [] word = some ([], found) := by
  have hnest := nest_map_snd [] word
  rw [List.map_nil, h.nest_eq] at hnest
  obtain ⟨⟨last, found⟩, hpairs, hlast⟩ := Option.map_eq_some_iff.1 hnest.symm
  obtain rfl := List.map_eq_nil_iff.1 hlast
  exact ⟨found, hpairs⟩

/-- What is left open or paired was open or stands in the word. -/
theorem ends_of_pairs (P : ℕ → Prop) (hstack : ∀ bracket ∈ stack, P bracket.1)
    (hword : ∀ bracket ∈ word, P bracket.1) (h : pairs stack word = some (last, found)) :
    (∀ bracket ∈ last, P bracket.1) ∧ ∀ pair ∈ found, P pair.1 ∧ P pair.2 := by
  induction word generalizing stack found with
  | nil =>
      cases h
      exact ⟨hstack, by simp⟩
  | cons bracket word ih =>
      obtain ⟨middle, closed, later, hturn, hrest, rfl⟩ := pairs_cons_iff.1 h
      obtain ⟨hbracket, hword⟩ := List.forall_mem_cons.1 hword
      obtain ⟨rfl, rfl⟩ | ⟨innermost, rfl, -, rfl⟩ := turnAt_cases hturn
      · exact ih (List.forall_mem_cons.2 ⟨hbracket, hstack⟩) hword hrest
      · obtain ⟨hinnermost, houter⟩ := List.forall_mem_cons.1 hstack
        obtain ⟨hlast, hlater⟩ := ih houter hword hrest
        exact ⟨hlast, List.forall_mem_cons.2 ⟨⟨hinnermost, hbracket⟩, hlater⟩⟩

/-- `Apart opened close pair` says that both ends of a pair stand between two offsets, or that
neither of them does. -/
def Apart (opened close : ℕ) (pair : ℕ × ℕ) : Prop :=
  pair.1 ∈ Set.Ioo opened close ∧ pair.2 ∈ Set.Ioo opened close ∨
    pair.1 ∉ Set.Icc opened close ∧ pair.2 ∉ Set.Icc opened close

/-- Braces around a nested word are a pair, and all others are apart from it. -/
theorem exists_pairs_of_block
    (hword : Nested ((front ++ (opened, '{') :: (inner ++ (close, '}') :: rest)).map Prod.snd))
    (hinner : Nested (inner.map Prod.snd))
    (hfront : ∀ bracket ∈ front, bracket.1 ∉ Set.Icc opened close)
    (hinside : ∀ bracket ∈ inner, bracket.1 ∈ Set.Ioo opened close)
    (hrest : ∀ bracket ∈ rest, bracket.1 ∉ Set.Icc opened close) :
    ∃ found, pairs [] (front ++ (opened, '{') :: (inner ++ (close, '}') :: rest)) =
        some ([], found) ∧ (opened, close) ∈ found ∧
      ∀ pair ∈ found, pair = (opened, close) ∨ Apart opened close pair := by
  obtain ⟨found, hfound⟩ := exists_pairs_of_nested hword
  obtain ⟨inside, hpairs⟩ := exists_pairs_of_nested hinner
  refine ⟨found, hfound, ?_⟩
  obtain ⟨stack, first, _, hfirst, hblock, rfl⟩ := pairs_append_iff.1 hfound
  obtain ⟨_, _, _, hopen, hopened, rfl⟩ := pairs_cons_iff.1 hblock
  cases hopen
  -- the word between the braces leaves the stack as it was, so the brace is on top of it again
  obtain ⟨_, _, _, hmiddle, hbehind, rfl⟩ := pairs_append_iff.1 hopened
  have hsame := pairs_frame hpairs ((opened, '{') :: stack)
  rw [List.nil_append, hmiddle] at hsame
  cases hsame
  obtain ⟨_, _, last, hclose, hlast, rfl⟩ := pairs_cons_iff.1 hbehind
  rw [turnAt_closing rfl] at hclose
  cases hclose
  obtain ⟨hopen, hfirst⟩ := ends_of_pairs (· ∉ Set.Icc opened close) (by simp) hfront hfirst
  obtain ⟨-, hinside⟩ := ends_of_pairs (· ∈ Set.Ioo opened close) (by simp) hinside hpairs
  obtain ⟨-, hlast⟩ := ends_of_pairs (· ∉ Set.Icc opened close) hopen hrest hlast
  refine ⟨by simp, fun pair hpair => ?_⟩
  simp only [List.nil_append, List.mem_append, List.mem_singleton] at hpair
  rcases hpair with hpair | hpair | rfl | hpair
  · exact .inr (.inr (hfirst pair hpair))
  · exact .inr (.inl (hinside pair hpair))
  · exact .inl rfl
  · exact .inr (.inr (hlast pair hpair))

end Words

section Texts

variable {glyphs front middle inner rest behind : List Glyph} {regions : List Region}
  {text : List Char} {start index opened : ℕ} {bracket : ℕ × Char} {c : Char}

/-- The brackets of a text are those of its parts, with the offsets moved on. -/
theorem codeBrackets_append (regions : List Region) (start : ℕ) (text rest : List Char) :
    codeBrackets regions start (text ++ rest) =
      codeBrackets regions start text ++ codeBrackets regions (start + size text) rest := by
  rw [codeBrackets, charIndices_append, List.filter_append]
  rfl

/-- The first character of a text is one of its brackets if it is one of code. -/
theorem codeBrackets_cons (regions : List Region) (start : ℕ) (c : Char) (rest : List Char) :
    codeBrackets regions start (c :: rest) =
      if regions[start]? = some .code ∧ isBracket c = true then
        (start, c) :: codeBrackets regions (start + c.utf8Size) rest
      else codeBrackets regions (start + c.utf8Size) rest := by
  simp only [codeBrackets, charIndices, List.filter_cons, decide_eq_true_eq]

/-- A bracket stands in its text. -/
theorem bounds_of_mem_codeBrackets (h : bracket ∈ codeBrackets regions start text) :
    start ≤ bracket.1 ∧ bracket.1 < start + size text := by
  obtain ⟨before, after, rfl, hoffset⟩ := mem_charIndices_iff.1 (List.mem_filter.1 h).1
  have hpos := bracket.2.utf8Size_pos
  rw [hoffset, size_append, size_cons]
  omega

/-- The brackets with offsets are the brackets of the code. -/
theorem codeBrackets_map_snd (h : Stands glyphs index front (middle ++ rest)) :
    (codeBrackets (bytes glyphs) index (chars middle)).map Prod.snd = brackets middle := by
  induction middle generalizing index front with
  | nil => rfl
  | cons g middle ih =>
      have hregion : (bytes glyphs)[index]? = some g.region := h.region_eq
      rw [brackets_cons, ← ih h.step, chars_cons, codeBrackets_cons, hregion]
      simp only [Option.some.injEq]
      split <;> rfl

/-- The brackets in front of a block, in it and behind it. -/
theorem codeBrackets_block
    (h : Stands glyphs opened front (⟨'{', .code⟩ :: (inner ++ ⟨'}', .code⟩ :: behind))) :
    codeBrackets (bytes glyphs) 0 (chars glyphs) =
      codeBrackets (bytes glyphs) 0 (chars front) ++
        (opened, '{') :: (codeBrackets (bytes glyphs) (opened + 1) (chars inner) ++
          (opened + 1 + size (chars inner), '}') ::
            codeBrackets (bytes glyphs) (opened + 1 + size (chars inner) + 1) (chars behind)) := by
  have hbrace (c : Char) (hc : isBracket c = true) {index : ℕ} {front rest : List Glyph}
      (hstands : Stands glyphs index front (⟨c, .code⟩ :: rest)) :
      codeBrackets (bytes glyphs) index (chars (⟨c, .code⟩ :: rest)) =
        (index, c) :: codeBrackets (bytes glyphs) (index + c.utf8Size) (chars rest) := by
    rw [chars_cons, codeBrackets_cons, if_pos ⟨hstands.region_eq, hc⟩]
  have hinner : Stands glyphs (opened + 1) (front ++ [⟨'{', .code⟩])
      (inner ++ ⟨'}', .code⟩ :: behind) := h.step
  have htext := congrArg chars h.text
  rw [chars_append] at htext
  rw [htext, codeBrackets_append, Nat.zero_add, ← h.offset, hbrace '{' (by decide) h]
  congr 2
  rw [chars_append, codeBrackets_append]
  congr 1
  exact hbrace '}' (by decide) hinner.move

/-- Where a brace of the code stands, the source is read as code. -/
theorem exists_place_of_mem_codeBrackets (hscan : scan (chars glyphs) = some glyphs)
    (h : (index, '{') ∈ codeBrackets (bytes glyphs) 0 (chars glyphs)) :
    ∃ front rest, Place glyphs index front (⟨'{', .code⟩ :: rest) := by
  obtain ⟨hmem, hcode⟩ := List.mem_filter.1 h
  obtain ⟨before, after, htext, hoffset⟩ := mem_charIndices_iff.1 hmem
  obtain ⟨front, tail, rfl, rfl, htail⟩ := List.map_eq_append_iff.1 htext
  obtain ⟨⟨c, region⟩, rest, rfl, hbrace, rfl⟩ := List.map_eq_cons_iff.1 htail
  obtain rfl : c = '{' := hbrace
  have hstands : Stands (front ++ ⟨'{', region⟩ :: rest) index front (⟨'{', region⟩ :: rest) :=
    ⟨rfl, by simpa [chars] using hoffset⟩
  obtain rfl : region = .code := by
    rw [decide_eq_true_eq, hstands.region_eq] at hcode
    exact Option.some.inj hcode.1
  obtain ⟨hreadable, hnested⟩ := scan_chars_iff.1 hscan
  obtain ⟨phase, -, hphase⟩ := Readable.append_iff.1 hreadable
  obtain ⟨next, hstep, hrest⟩ := Readable.cons_iff.1 hphase
  obtain rfl := eq_code_of_step_code (by decide) hstep
  exact ⟨front, rest, hstands, .cons rfl hrest, Place.closes_append ⟨[], hnested.nest_eq []⟩⟩

/-- The braces of a block are a pair, and all others are apart from it. -/
theorem exists_pairs_of_stands
    (h : Stands glyphs opened front (⟨'{', .code⟩ :: (inner ++ ⟨'}', .code⟩ :: behind)))
    (hglyphs : Nested (brackets glyphs)) (hinner : Nested (brackets inner)) :
    ∃ found, pairs [] (codeBrackets (bytes glyphs) 0 (chars glyphs)) = some ([], found) ∧
      (opened, opened + 1 + size (chars inner)) ∈ found ∧
      ∀ pair ∈ found, pair = (opened, opened + 1 + size (chars inner)) ∨
        Apart opened (opened + 1 + size (chars inner)) pair := by
  have hstart : Stands glyphs 0 [] (glyphs ++ []) := by
    rw [List.append_nil]
    exact .start glyphs
  have hword := codeBrackets_map_snd hstart
  have hinside := codeBrackets_map_snd h.step
  rw [codeBrackets_block h] at hword ⊢
  refine exists_pairs_of_block (hword ▸ hglyphs) (hinside ▸ hinner) ?_ ?_ ?_
  all_goals
    intro bracket hbracket
    have hbounds := bounds_of_mem_codeBrackets hbracket
    have hopened := h.offset
    simp only [Set.mem_Icc, Set.mem_Ioo]
    omega

/-- The end of a block is the bracket that closes its brace: of all pairs of brackets in the code of
a balanced source, the block begins and ends with one, and each other one stands in the block or
apart from it with both its brackets. The block is a balanced text of its own, with the regions that
its bytes have in the source. -/
theorem blockEndAt_pairs {source : List Char}
    (hregions : regions? source = .ok (some regions))
    (hopened : (opened, '{') ∈ codeBrackets regions 0 source) :
    ∃ close block found,
      blockEndAt source regions opened = .ok close ∧
      pairs [] (codeBrackets regions 0 source) = some ([], found) ∧ (opened, close) ∈ found ∧
      (∀ pair ∈ found, pair = (opened, close) ∨ Apart opened close pair) ∧
      slice source opened (close + 1) = .ok block ∧
      regions? block = .ok (some ((regions.drop opened).take (close + 1 - opened))) := by
  obtain ⟨glyphs, hscan, rfl⟩ : ∃ glyphs, scan source = some glyphs ∧ bytes glyphs = regions := by
    rw [regions?_eq] at hregions
    exact Option.map_eq_some_iff.1 (Except.ok.inj hregions)
  obtain rfl := chars_of_scan hscan
  obtain ⟨front, rest, hplace⟩ := exists_place_of_mem_codeBrackets (scan_chars hscan) hopened
  obtain ⟨block, behind, hcut⟩ := hplace.exists_block rfl
  obtain ⟨close, hclose, hsize⟩ := hplace.blockEndAt_eq hcut
  have hrun := (block_of_block? hcut hplace.readable).run_eq
  obtain ⟨stack, hcloses⟩ := hplace.closes
  obtain ⟨inner, hblock, hinner⟩ := exists_nested_of_block? (by simp) hcut hcloses
  have hstands : Stands glyphs opened front (block ++ behind) :=
    append_of_block? hcut ▸ hplace.toStands
  have hbraces : Stands glyphs opened front
      (⟨'{', .code⟩ :: (inner ++ ⟨'}', .code⟩ :: behind)) := by
    simpa [hblock] using hstands
  obtain ⟨found, hfound, hmem, hapart⟩ :=
    exists_pairs_of_stands hbraces (scan_chars_iff.1 (scan_chars hscan)).2 hinner
  obtain rfl : close = opened + 1 + size (chars inner) := by
    have hends : '{'.utf8Size = 1 ∧ '}'.utf8Size = 1 := ⟨rfl, rfl⟩
    rw [hblock, chars_cons, size_cons, chars_append, size_append, chars_cons, size_cons] at hsize
    simp only [chars_nil, size_nil] at hsize
    omega
  refine ⟨_, chars block, found, hclose, hfound, hmem, hapart, ?_, ?_⟩
  · rw [hsize]
    exact hstands.slice_eq
  · have hreadable : Readable .code block := ⟨.code, hrun, rfl⟩
    have hnested : Nested (brackets block) := hblock ▸ nested_block hinner
    rw [regions?_eq, scan_chars_iff.2 ⟨hreadable, hnested⟩, hsize, Nat.add_sub_cancel_left,
      hstands.take_drop_bytes]
    rfl

/-- A block with brackets of all kinds, and with a brace in a string and one in a comment. -/
theorem blockEndAt_pairs_mixed :
    ∃ regions block found,
      regions? "f(\x7b é: '\x7d' /* \x7d */, g: [\x7b\x7d] \x7d);".toList = .ok (some regions) ∧
      pairs [] (codeBrackets regions 0
        "f(\x7b é: '\x7d' /* \x7d */, g: [\x7b\x7d] \x7d);".toList) = some ([], found) ∧
      (2, 29) ∈ found ∧ (∀ pair ∈ found, pair = (2, 29) ∨ Apart 2 29 pair) ∧
      regions? block = .ok (some ((regions.drop 2).take (29 + 1 - 2))) := by
  have hregions : regions? "f(\x7b é: '\x7d' /* \x7d */, g: [\x7b\x7d] \x7d);".toList =
      .ok (some (bytes (coded "f(\x7b é: ".toList ++ quoted ['\x7d'] ++ coded [' '] ++
        "/* \x7d */".toList.map (⟨·, .comment⟩) ++ coded ", g: [\x7b\x7d] \x7d);".toList))) := by
    rw [regions?_eq]
    exact congrArg Except.ok (by decide +kernel)
  obtain ⟨close, block, found, hclose, hpairs, hmem, hapart, -, hblock⟩ :=
    blockEndAt_pairs hregions (show (2, '{') ∈ _ by decide +kernel)
  obtain rfl : close = 29 := Except.ok.inj (hclose.symm.trans (by decide +kernel))
  exact ⟨_, block, found, hregions, hpairs, hmem, hapart, hblock⟩

end Texts

end MiniProgram.Bytes
