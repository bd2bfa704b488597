import MiniProgram.Proofs.Bytes.Clause
import MiniProgram.Proofs.Bytes.Reading
import MiniProgram.Proofs.Bytes.Search
import MiniProgram.Proofs.Source.Declaration

/-!
# Finding import declarations at byte offsets

`imports? source regions` lists the import declarations of a source with the offsets between which
they stand. It tries every offset at which `import` occurs and that no earlier declaration covers,
and looks through the vector of regions for the first string behind it and for the end of that
string.

Read `imports?_eq` first: no step fails, and the declarations are those that `segments` cuts off.
-/

namespace MiniProgram.Bytes

open Source Text

/-- An import declaration: the offsets between which it stands and the names it binds. -/
structure Import where
  start : ℕ
  stop : ℕ
  names : List (List Char)
  deriving DecidableEq, Repr

/-- Whether a statement may start at an offset. -/
def startsStatementAt (source : List Char) (start : ℕ) : Except Fault Bool := do
  let gap ← sliceTo source start
  match (trimEnd gap).getLast? with
  | none => return true
  | some c =>
    if c = ';' ∨ c = '}' then return true
    else return (← sliceFrom gap (size (trimEnd gap))).contains '\n'

/-- The first of `count` indices from `start` on whose region passes a test. -/
def findRegion? (regions : List Region) (test : Region → Bool) (start : ℕ) :
    ℕ → Except Fault (Option ℕ)
  | 0 => .ok none
  | count + 1 =>
    match regions[start]? with
    | none => .error (.index start)
    | some region =>
      if test region then .ok (some start) else findRegion? regions test (start + 1) count

/-- The offset behind a semicolon, which spaces and tabs may precede. -/
def semicolonAt (source : List Char) (close : ℕ) : Except Fault ℕ := do
  let tail ← sliceFrom source close
  let spaces ← minus (size tail) (size (tail.dropWhile fun c => c == ' ' || c == '\t'))
  if (← sliceFrom tail spaces).head? = some ';' then return close + (spaces + 1)
  else return close

/-- The offset behind the end of the line, if only blanks precede it. -/
def blankLineAt (source : List Char) (stop : ℕ) : Except Fault ℕ := do
  let rest ← sliceFrom source stop
  let line := (firstIndex? '\n' rest).elim (size rest) (· + 1)
  if trim (← sliceTo rest line) = [] then return stop + line else return stop

/-- The declaration whose word `import` starts at an offset. -/
def declarationAt (source : List Char) (regions : List Region) (start : ℕ) :
    Except Fault (Option Import) := do
  match ← findRegion? regions (· = .string) start (size source - start) with
  | none => return none
  | some quote =>
    let clause := trim (← slice source (start + 6) quote)
    if clause.head? = some '(' ∨ clause.head? = some '.' then return none
    else
      match ← findRegion? regions (· ≠ .string) (quote + 1) (size source - (quote + 1)) with
      | none => return none
      | some close =>
        let stop ← blankLineAt source (← semicolonAt source close)
        return some ⟨start, stop, ← localNamesAt (dropFrom clause)⟩

/-- The import declaration at an offset. -/
def importAt (source : List Char) (regions : List Region) (start : ℕ) :
    Except Fault (Option Import) := do
  if ← keywordAt source regions start importWord then
    if ← startsStatementAt source start then declarationAt source regions start
    else return none
  else return none

/-- The declarations at some offsets, none of them in front of the offset `free`. -/
def importsAmong (source : List Char) (regions : List Region) (free : ℕ) :
    List ℕ → Except Fault (List Import)
  | [] => .ok []
  | start :: later =>
    if start < free then importsAmong source regions free later
    else do
      match ← importAt source regions start with
      | none => importsAmong source regions free later
      | some found => return found :: (← importsAmong source regions found.stop later)

/-- The import declarations of a source. -/
def imports? (source : List Char) (regions : List Region) : Except Fault (List Import) :=
  importsAmong source regions 0 (occurrences importWord source)

/-- The declarations among the pieces of a text that starts at an offset. -/
def placed (start : ℕ) : List Segment → List Import
  | [] => []
  | .other g :: later => placed (start + g.char.utf8Size) later
  | .imports declaration :: later =>
    ⟨start, start + size (chars declaration.text), declaration.names⟩ ::
      placed (start + size (chars declaration.text)) later

section Reading

variable {glyphs front middle rest : List Glyph} {index : ℕ}

/-- Whether a statement may start at an offset is seen from the text in front of it. -/
theorem startsStatementAt_eq (h : Stands glyphs index front rest) :
    startsStatementAt (chars glyphs) index = .ok (startsStatement (chars front).reverse) := by
  simp only [startsStatementAt, h.sliceTo_eq, bind, Except.bind, pure, Except.pure]
  generalize chars front = gap
  have hslice : sliceFrom gap (size (trimEnd gap)) =
      .ok (gap.reverse.takeWhile isBlank).reverse := by
    have hgap : gap = trimEnd gap ++ (gap.reverse.takeWhile isBlank).reverse := by
      rw [trimEnd, ← List.reverse_append, List.takeWhile_append_dropWhile, List.reverse_reverse]
    have hcut := sliceFrom_append (trimEnd gap) (gap.reverse.takeWhile isBlank).reverse
    rwa [← hgap] at hcut
  rw [hslice, startsStatement, trimEnd, List.getLast?_reverse]
  cases gap.reverse.dropWhile isBlank with
  | nil => rfl
  | cons c others =>
      by_cases hend : c = ';' ∨ c = '}'
      · obtain rfl | rfl := hend <;> rfl
      · have hother : (c == ';' || c == '}') = false := by simpa using hend
        simp only [List.head?_cons, if_neg hend, hother, Bool.false_or, List.contains_reverse]

/-- The first byte that passes a test is found behind those that do not. -/
theorem findRegion?_append (front : List Region) {middle rest : List Region}
    {test : Region → Bool} (hmiddle : ∀ region ∈ middle, test region = false)
    (hrest : ∀ region ∈ rest.head?, test region = true) :
    findRegion? (front ++ (middle ++ rest)) test front.length (middle.length + rest.length) =
      .ok (if rest = [] then none else some (front.length + middle.length)) := by
  induction middle generalizing front with
  | nil =>
      cases rest with
      | nil => rfl
      | cons region rest => simp [findRegion?, hrest region rfl]
  | cons region middle ih =>
      obtain ⟨hregion, hmiddle⟩ := List.forall_mem_cons.1 hmiddle
      have hnext := ih (front ++ [region]) hmiddle
      have hget : (front ++ (region :: middle ++ rest))[front.length]? = some region := by simp
      rw [List.length_cons, Nat.add_right_comm, findRegion?, hget]
      simp only [hregion, Bool.false_eq_true, if_false]
      rw [List.length_append, List.append_assoc] at hnext
      refine hnext.trans ?_
      rw [List.length_singleton, Nat.add_assoc, Nat.add_comm 1]

/-- Skipping a semicolon at an offset leads to where skipping it in the text does. -/
theorem exists_semicolonAt (h : Stands glyphs index front rest) :
    ∃ stop front', semicolonAt (chars glyphs) index = .ok stop ∧
      Stands glyphs stop front' (skipSemicolon rest) := by
  let isSpace : Glyph → Bool := fun g => g.char == ' ' || g.char == '\t'
  have hsplit : rest = rest.takeWhile isSpace ++ rest.dropWhile isSpace :=
    List.takeWhile_append_dropWhile.symm
  have hdrop : (chars rest).dropWhile (fun c => c == ' ' || c == '\t') =
      chars (rest.dropWhile isSpace) := List.dropWhile_map ..
  have hchars := congrArg chars hsplit
  rw [chars_append] at hchars
  have hspaces : minus (size (chars rest)) (size (chars (rest.dropWhile isSpace))) =
      .ok (size (chars (rest.takeWhile isSpace))) := by
    rw [hchars, size_append, minus, if_pos (by omega), Nat.add_sub_cancel]
  have hbehind : sliceFrom (chars rest) (size (chars (rest.takeWhile isSpace))) =
      .ok (chars (rest.dropWhile isSpace)) := by
    conv => lhs; rw [hchars]
    exact sliceFrom_append _ _
  simp only [semicolonAt, h.sliceFrom_eq, hdrop, hspaces, hbehind, bind, Except.bind, pure,
    Except.pure]
  rw [skipSemicolon]
  cases hrest : rest.dropWhile isSpace with
  | nil => exact ⟨index, front, rfl, h⟩
  | cons g behind =>
      by_cases hsemicolon : g.char = ';'
      · have hmoved : Stands glyphs index front ((rest.takeWhile isSpace ++ [g]) ++ behind) := by
          rwa [List.append_assoc, List.singleton_append, ← hrest, ← hsplit]
        have hstop := hmoved.move
        rw [chars_append, size_append, chars_cons, hsemicolon] at hstop
        refine ⟨_, _, ?_, by simpa only [if_pos hsemicolon] using hstop⟩
        rw [chars_cons, List.head?_cons, hsemicolon, if_pos rfl]
        rfl
      · refine ⟨index, front, ?_, by simpa only [if_neg hsemicolon] using h⟩
        rw [chars_cons, List.head?_cons, if_neg (by simpa using hsemicolon)]

/-- The first line of a text, with its line feed if there is one. -/
theorem exists_line (rest : List Glyph) :
    ∃ line, rest = line ++ (rest.dropWhile (·.char ≠ '\n')).drop 1 ∧
      (firstIndex? '\n' (chars rest)).elim (size (chars rest)) (· + 1) = size (chars line) ∧
      (trim (chars line) = [] ↔ (rest.takeWhile (·.char ≠ '\n')).all (isBlank ·.char) = true) := by
  have hsplit : rest = rest.takeWhile (·.char ≠ '\n') ++ rest.dropWhile (·.char ≠ '\n') :=
    List.takeWhile_append_dropWhile.symm
  have hinside : '\n' ∉ chars (rest.takeWhile (·.char ≠ '\n')) := by
    intro hmem
    obtain ⟨g, hg, hchar⟩ := List.mem_map.1 hmem
    simpa [hchar] using List.all_eq_true.1 List.all_takeWhile g hg
  generalize rest.takeWhile (·.char ≠ '\n') = front at hsplit hinside
  cases hbehind : rest.dropWhile (·.char ≠ '\n') with
  | nil =>
      obtain rfl : rest = front := by rw [hsplit, hbehind, List.append_nil]
      refine ⟨rest, (List.append_nil rest).symm, ?_, ?_⟩
      · rw [firstIndex?_eq_none hinside]
        rfl
      · rw [trim_eq_nil_iff, chars, List.forall_mem_map, List.all_eq_true]
  | cons g behind =>
      have hfeed : g.char = '\n' := by
        obtain ⟨_, _, _, hhead⟩ := exists_of_dropWhile (fun g : Glyph => g.char ≠ '\n') rest
        simpa using hhead g (by rw [hbehind]; rfl)
      rw [hbehind] at hsplit
      refine ⟨front ++ [g], by rw [hsplit]; simp, ?_, ?_⟩
      · rw [hsplit, chars_append, chars_append, chars_cons, hfeed, firstIndex?_append hinside,
          Option.elim_some, size_append, chars_cons, hfeed]
        rfl
      · rw [trim_eq_nil_iff, chars, List.forall_mem_map, List.forall_mem_append, List.all_eq_true]
        refine and_iff_left (List.forall_mem_singleton.2 ?_)
        rw [hfeed]
        decide

/-- Skipping the end of a line at an offset leads to where skipping it in the text does. -/
theorem exists_blankLineAt (h : Stands glyphs index front rest) :
    ∃ stop front', blankLineAt (chars glyphs) index = .ok stop ∧
      Stands glyphs stop front' (skipBlankLine rest) := by
  obtain ⟨line, hrest, hfirst, hblank⟩ := exists_line rest
  have hline : sliceTo (chars rest) (size (chars line)) = .ok (chars line) := by
    conv => lhs; rw [hrest]
    rw [chars_append, sliceTo_append]
  simp only [blankLineAt, h.sliceFrom_eq, hfirst, hline, bind, Except.bind, pure, Except.pure]
  rw [skipBlankLine]
  by_cases hall : (rest.takeWhile (·.char ≠ '\n')).all (isBlank ·.char) = true
  · rw [if_pos (hblank.2 hall), if_pos hall]
    rw [hrest] at h
    exact ⟨_, _, rfl, h.move⟩
  · rw [if_neg (mt hblank.1 hall), if_neg hall]
    exact ⟨index, front, rfl, h⟩

/-- The search for a region ends where the region starts. -/
theorem findRegion?_eq {test : Region → Bool} (h : Stands glyphs index front (middle ++ rest))
    (hmiddle : ∀ g ∈ middle, test g.region = false)
    (hrest : ∀ g ∈ rest.head?, test g.region = true) :
    findRegion? (bytes glyphs) test index (size (chars glyphs) - index) =
      .ok (if rest = [] then none else some (index + size (chars middle))) := by
  have hsize (part : List Glyph) : (bytes part).length = size (chars part) := length_bytes part
  have hinside : ∀ region ∈ bytes middle, test region = false := by
    intro region hregion
    obtain ⟨g, hg, hmem⟩ := List.mem_flatMap.1 hregion
    rw [List.eq_of_mem_replicate hmem]
    exact hmiddle g hg
  have hbehind : ∀ region ∈ (bytes rest).head?, test region = true := by
    intro region hregion
    rw [List.head?_eq_getElem?, (Stands.start rest).region_eq] at hregion
    obtain ⟨g, hg, rfl⟩ := Option.map_eq_some_iff.1 hregion
    exact hrest g hg
  have hcount : size (chars glyphs) - index = (bytes middle).length + (bytes rest).length := by
    rw [h.text, h.offset, hsize, hsize, chars_append, chars_append, size_append, size_append]
    omega
  have hempty : bytes rest = [] ↔ rest = [] := by
    rw [← List.length_eq_zero_iff, hsize, size_eq_zero_iff, chars, List.map_eq_nil_iff]
  have hfind := findRegion?_append (bytes front) hinside hbehind
  rwa [← bytes_append, ← bytes_append, ← h.text, ← hcount, hsize, hsize, ← h.offset,
    if_congr hempty rfl rfl] at hfind

/-- The search may start inside of the first character. -/
theorem findRegion?_succ (test : Region → Bool) (h : Stands glyphs index front (middle ++ rest))
    (hne : middle ≠ []) (hmiddle : ∀ g ∈ middle, test g.region = false)
    (hrest : ∀ g ∈ rest.head?, test g.region = true) :
    findRegion? (bytes glyphs) test (index + 1) (size (chars glyphs) - (index + 1)) =
      .ok (if rest = [] then none else some (index + size (chars middle))) := by
  rw [← findRegion?_eq h hmiddle hrest]
  obtain ⟨g, middle, rfl⟩ := List.exists_cons_of_ne_nil hne
  have hcount : size (chars glyphs) - index = (size (chars glyphs) - (index + 1)) + 1 := by
    have := g.char.utf8Size_pos
    rw [h.text, h.offset, chars_append, size_append, List.cons_append, chars_cons, size_cons]
    omega
  rw [hcount, findRegion?, h.region_eq]
  simp [hmiddle g List.mem_cons_self]

/-- What is read behind the word `import`: nothing by both readers, or the same clause with the same
text behind the declaration. -/
inductive Cuts (glyphs : List Glyph) (start : ℕ) :
    Option (List Char × List Glyph) → Option Import → Prop where
  | nothing : Cuts glyphs start none none
  | clause {clause front rest stop} : Stands glyphs stop front rest →
      Cuts glyphs start (some (clause, rest)) (some ⟨start, stop, localNames (dropFrom clause)⟩)

/-- `clauseBehind? behind` is what `clause?` reads behind the word `import`. -/
def clauseBehind? (behind : List Glyph) : Option (List Char × List Glyph) :=
  let clause := trim (chars (behind.takeWhile (·.region ≠ .string)))
  let rest := (behind.dropWhile (·.region ≠ .string)).dropWhile (·.region = .string)
  if rest = [] ∨ clause.head? = some '(' ∨ clause.head? = some '.' then none
  else some (clause, skipBlankLine (skipSemicolon rest))

/-- Reading a clause behind the word `import` at an offset cuts what reading it off the text cuts.
-/
theorem exists_declarationAt {behind : List Glyph}
    (h : Stands glyphs index front (coded importWord ++ behind)) :
    ∃ answer, declarationAt (chars glyphs) (bytes glyphs) index = .ok answer ∧
      Cuts glyphs index (clauseBehind? behind) answer := by
  obtain ⟨clause, literal, rest, rfl, htake, hdrop, hclause, hliteral, hend, hopened⟩ :=
    exists_clause_literal behind
  have hfind : findRegion? (bytes glyphs) (· = .string) index (size (chars glyphs) - index) =
      .ok (if literal ++ rest = [] then none else some (index + 6 + size (chars clause))) := by
    rw [← List.append_assoc] at h
    rw [findRegion?_eq h, chars_append, chars_coded, size_append, ← Nat.add_assoc]
    · rfl
    · refine List.forall_mem_append.2 ⟨fun g hg => ?_, fun g hg => ?_⟩
      · rw [region_of_mem_coded hg]
        rfl
      · exact decide_eq_false (hclause g hg)
    · intro g hg
      cases hnil : literal with
      | nil =>
          rw [hnil, hopened hnil] at hg
          cases hg
      | cons d others =>
          rw [hnil, List.cons_append, List.head?_cons, Option.mem_some] at hg
          exact decide_eq_true (hliteral g (by rw [hnil, hg]; exact List.mem_cons_self))
  have hword : Stands glyphs (index + 6) (front ++ coded importWord)
      (clause ++ (literal ++ rest)) := h.move
  simp only [declarationAt, hfind, bind, Except.bind, pure, Except.pure]
  rw [clauseBehind?, htake, hdrop]
  by_cases hnone : literal ++ rest = []
  · rw [if_pos hnone, if_pos (.inl (List.append_eq_nil_iff.1 hnone).2)]
    exact ⟨none, rfl, .nothing⟩
  · have hstring := hword.move
    have hne : literal ≠ [] := fun hnil => hnone (by rw [hnil, hopened hnil]; rfl)
    have hclose := findRegion?_succ (fun region => region ≠ .string) hstring hne
      (fun g hg => by simpa using hliteral g hg) (fun g hg => by simpa using hend g hg)
    simp only [if_neg hnone, hword.slice_eq, hclose]
    by_cases hopens : (trim (chars clause)).head? = some '(' ∨
        (trim (chars clause)).head? = some '.'
    · rw [if_pos hopens, if_pos (.inr hopens)]
      exact ⟨none, rfl, .nothing⟩
    · rw [if_neg hopens]
      by_cases hrest : rest = []
      · rw [if_pos hrest, if_pos (.inl hrest)]
        exact ⟨none, rfl, .nothing⟩
      · obtain ⟨close, _, hsemicolon, hclosed⟩ := exists_semicolonAt hstring.move
        obtain ⟨stop, _, hblank, hstop⟩ := exists_blankLineAt hclosed
        rw [if_neg hrest, if_neg (by simp only [hrest, hopens, or_self, not_false_eq_true])]
        simp only [hsemicolon, hblank, localNamesAt_eq]
        exact ⟨_, rfl, .clause hstop⟩

/-- Behind the word `import` at the start of a statement a declaration is read as its clause is. -/
theorem declaration?_eq_map {before : List Char} {behind : List Glyph}
    (hword : word? importWord rest = some behind) (hboundary : boundary before.head? = true)
    (hstarts : startsStatement before = true) :
    declaration? before rest = (clauseBehind? behind).map fun read =>
      (⟨rest.take (rest.length - read.2.length), localNames (dropFrom read.1)⟩, read.2) := by
  rw [importWord] at hword
  simp only [declaration?, clause?, hword, hboundary, hstarts, Bool.and_self, Option.filter_some,
    if_true, Option.bind_eq_bind, Option.bind_some]
  rfl

/-- A declaration starts a statement. -/
theorem startsStatement_of_declaration? {before : List Char} {found : Declaration × List Glyph}
    (h : declaration? before rest = some found) : startsStatement before = true := by
  obtain ⟨read, hread, -⟩ := Option.map_eq_some_iff.1 h
  obtain ⟨_, _, -, -, hstarts, -⟩ := clause?_eq_some_iff.1 hread
  exact hstarts

/-- The declaration that starts at an offset is the one that is cut off there. -/
theorem importAt_eq {phase : Phase} (h : Stands glyphs index front rest)
    (hreadable : Readable phase rest) :
    importAt (chars glyphs) (bytes glyphs) index =
      .ok ((declaration? (chars front).reverse rest).map fun found =>
        ⟨index, index + size (chars found.1.text), found.1.names⟩) := by
  have hnone (hno : ¬ (boundary (chars front).getLast? = true ∧
      (word? importWord rest).isSome = true ∧ startsStatement (chars front).reverse = true)) :
      declaration? (chars front).reverse rest = none := by
    refine Option.eq_none_iff_forall_ne_some.2 fun found hfound => hno ?_
    obtain ⟨hboundary, behind, hword⟩ := word?_of_declaration? hfound
    rw [List.head?_reverse] at hboundary
    exact ⟨hboundary, by rw [hword]; rfl, startsStatement_of_declaration? hfound⟩
  simp only [importAt, keywordAt_eq h, startsStatementAt_eq h, bind, Except.bind, pure, Except.pure]
  split
  · next hkeyword =>
      rw [Bool.and_eq_true] at hkeyword
      obtain ⟨hboundary, hword⟩ := hkeyword
      split
      · next hstarts =>
          obtain ⟨behind, hword⟩ := Option.isSome_iff_exists.1 hword
          obtain ⟨hrest, -⟩ := reads_word? (by decide) (by decide) hword hreadable
          obtain ⟨answer, hanswer, hcuts⟩ := exists_declarationAt (hrest ▸ h)
          have hfound := declaration?_eq_map hword (by rwa [List.head?_reverse]) hstarts
          rw [hanswer, hfound]
          generalize clauseBehind? behind = read at hcuts hfound
          cases hcuts with
          | nothing => rfl
          | clause hstop =>
              have hmove := (append_of_declaration? hfound ▸ h : Stands glyphs index front _).move
              rw [hstop.unique hmove]
              rfl
      · next hstarts =>
          rw [hnone fun hall => hstarts hall.2.2]
          rfl
  · next hkeyword =>
      rw [hnone fun hall => hkeyword (by rw [hall.1, hall.2.1]; rfl)]
      rfl

/-- No declaration is looked for in front of the offset that is free, so what stands there may be
skipped. -/
theorem importsAmong_skip {source : List Char} {regions : List Region} {p : Char}
    {pattern middle : List Char} {start free : ℕ} (hp : p ∉ pattern)
    (hfree : start + size middle ≤ free) (rest : List Char) :
    importsAmong source regions free (occurrencesFrom (p :: pattern) start (middle ++ rest)) =
      importsAmong source regions free
        (occurrencesFrom (p :: pattern) (start + size middle) rest) := by
  induction middle generalizing start with
  | nil => rfl
  | cons c middle ih =>
      have := c.utf8Size_pos
      rw [size_cons] at hfree
      have hlater := @ih (start + c.utf8Size) (by omega)
      rw [List.cons_append, occurrencesFrom_cons hp, size_cons, ← Nat.add_assoc, ← hlater]
      split
      · rw [List.singleton_append, importsAmong, if_pos (by omega)]
      · rw [List.nil_append]

/-- A declaration takes up the first character and more. -/
theorem exists_text_of_declaration? {before : List Char} {g : Glyph} {tail : List Glyph}
    {declaration : Declaration} (h : declaration? before (g :: tail) = some (declaration, rest)) :
    ∃ middle, declaration.text = g :: middle ∧ tail = middle ++ rest := by
  have htext := append_of_declaration? h
  have hlength := length_lt_of_declaration? h
  cases hdeclaration : declaration.text with
  | nil =>
      rw [hdeclaration, List.nil_append] at htext
      exact absurd hlength (by rw [htext]; exact Nat.lt_irrefl _)
  | cons d middle =>
      rw [hdeclaration] at htext
      obtain ⟨rfl, rfl⟩ := List.cons.inj htext
      exact ⟨middle, rfl, rfl⟩

/-- A declaration that is found comes first, and the offsets in it are skipped. -/
theorem importsAmong_of_declaration? {phase : Phase} {free : ℕ} {g : Glyph} {tail : List Glyph}
    {declaration : Declaration} {imports : List Import} (h : Stands glyphs index front (g :: tail))
    (hreadable : Readable phase (g :: tail)) (hfree : free ≤ index)
    (found : declaration? (chars front).reverse (g :: tail) = some (declaration, rest))
    (hlater : importsAmong (chars glyphs) (bytes glyphs) (index + size (chars declaration.text))
      (occurrencesFrom importWord (index + size (chars declaration.text)) (chars rest)) =
        .ok imports) :
    importsAmong (chars glyphs) (bytes glyphs) free
      (occurrencesFrom importWord index (chars (g :: tail))) =
        .ok (⟨index, index + size (chars declaration.text), declaration.names⟩ :: imports) := by
  have himport := importAt_eq h hreadable
  rw [found, Option.map_some] at himport
  obtain ⟨middle, hmiddle, rfl⟩ := exists_text_of_declaration? found
  have hleads : importWord.isPrefixOf (g.char :: chars (middle ++ rest)) = true := by
    obtain ⟨-, behind, hword⟩ := word?_of_declaration? found
    exact List.isPrefixOf_iff_prefix.2 ⟨chars behind, (append_of_word? hword).symm⟩
  have hsize : size (chars declaration.text) = g.char.utf8Size + size (chars middle) := by
    rw [hmiddle, chars_cons, size_cons]
  have hskip : importsAmong (chars glyphs) (bytes glyphs) (index + size (chars declaration.text))
      (occurrencesFrom importWord (index + g.char.utf8Size) (chars (middle ++ rest))) =
        .ok imports := by
    rw [chars_append, importWord, importsAmong_skip (by decide) (by omega), Nat.add_assoc, ← hsize]
    exact hlater
  rw [chars_cons, importWord, occurrencesFrom_cons (by decide), ← importWord, if_pos hleads,
    List.singleton_append, importsAmong, if_neg (by omega), himport]
  simp only [hskip, bind, Except.bind, pure, Except.pure]

/-- The declarations at the offsets of `import` are those that cutting the text into pieces finds.
By induction along the pieces, as the search goes on behind each declaration. -/
theorem importsAmong_eq {phase : Phase} {free : ℕ} (h : Stands glyphs index front rest)
    (hreadable : Readable phase rest) (hfree : free ≤ index) :
    importsAmong (chars glyphs) (bytes glyphs) free
      (occurrencesFrom importWord index (chars rest)) =
        .ok (placed index (segmentsFrom (chars front).reverse rest)) := by
  generalize hbefore : (chars front).reverse = before
  fun_induction segmentsFrom before rest generalizing phase front index free with
  | case1 =>
      rw [chars_nil, occurrencesFrom]
      rfl
  | case2 before g tail declaration rest found ih =>
      subst hbefore
      have htext := append_of_declaration? found
      have hrest : Stands glyphs (index + size (chars declaration.text)) _ rest :=
        (htext ▸ h : Stands glyphs index front (declaration.text ++ rest)).move
      obtain ⟨next, -, hnext⟩ := Readable.append_iff.1 (htext ▸ hreadable)
      exact importsAmong_of_declaration? h hreadable hfree found
        (ih hrest hnext (Nat.le_refl _) (by simp))
  | case3 before g tail found ih =>
      obtain ⟨next, -, hnext⟩ := Readable.cons_iff.1 hreadable
      have hlater := ih h.step hnext (Nat.le_add_right_of_le hfree) (by simp [← hbefore])
      rw [chars_cons, importWord, occurrencesFrom_cons (by decide), placed]
      split
      · subst hbefore
        have hnone := importAt_eq h hreadable
        rw [found, Option.map_none] at hnone
        rw [List.singleton_append, importsAmong, if_neg (by omega), hnone]
        exact hlater
      · exact hlater

/-- No step fails, and the declarations are those that are cut off the source. -/
theorem imports?_eq (hscan : scan (chars glyphs) = some glyphs) :
    imports? (chars glyphs) (bytes glyphs) = .ok (placed 0 (segments glyphs)) :=
  importsAmong_eq (.start glyphs) (scan_chars_iff.1 hscan).1 (Nat.le_refl 0)

end Reading

end MiniProgram.Bytes
