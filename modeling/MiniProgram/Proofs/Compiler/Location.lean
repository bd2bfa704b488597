import MiniProgram.Compiler.Snippet
import MiniProgram.Proofs.Bytes.Search
import Mathlib.Data.List.TakeWhile

/-!
# Places of errors in a source

A place is given as a line and a column, the excerpt of the source is cut at byte offsets. Both
describe a cut of the source in two: `Position.Between` relates a position to the text in front of
it and the text behind it.

Every position on a line of the source stands between two such parts (`exists_between`), the offset
of a position is the size of the part in front (`byteOffset?_of_between`), and the position is found
again from that part (`behind_of_between`). Rendering an error therefore only cuts the source where
it may be cut, and shows what `CompileError.snippet?` shows (`render?_eq_snippet?`).
-/

namespace MiniProgram

open Bytes

/-- The text up to the first line feed. -/
def firstLine (text : List Char) : List Char :=
  text.takeWhile (· ≠ '\n')

/-- The text behind the last line feed. -/
def lastLine (text : List Char) : List Char :=
  (text.reverse.takeWhile (· ≠ '\n')).reverse

section Lines

variable {text front part rest : List Char} {n : ℕ}

/-- A line feed ends a line. -/
theorem lines_append_feed (front rest : List Char) :
    lines (front ++ '\n' :: rest) = lines front ++ lines rest :=
  List.splitOn_append_cons_self ..

/-- A text without a line feed is one line. -/
theorem lines_of_line (h : '\n' ∉ text) : lines text = [text] :=
  List.splitOn_eq_singleton h

/-- There is no line feed in the first line. -/
theorem feed_not_mem_firstLine (text : List Char) : '\n' ∉ firstLine text := fun h => by
  simpa using List.mem_takeWhile_imp h

/-- There is no line feed in the last line. -/
theorem feed_not_mem_lastLine (text : List Char) : '\n' ∉ lastLine text := fun h => by
  simpa using List.mem_takeWhile_imp (List.mem_reverse.1 h)

/-- What has no line feed belongs to the first line that goes on behind it. -/
theorem firstLine_append (h : '\n' ∉ part) (rest : List Char) :
    firstLine (part ++ rest) = part ++ firstLine rest := by
  refine List.takeWhile_append_of_pos fun c hc => ?_
  simpa using fun hfeed : c = '\n' => h (hfeed ▸ hc)

/-- What has no line feed belongs to the last line in front of it. -/
theorem lastLine_append (front : List Char) (h : '\n' ∉ part) :
    lastLine (front ++ part) = lastLine front ++ part := by
  rw [lastLine, List.reverse_append, List.takeWhile_append_of_pos, List.reverse_append,
    List.reverse_reverse, lastLine]
  intro c hc
  simpa using fun hfeed : c = '\n' => h (hfeed ▸ List.mem_reverse.1 hc)

/-- Behind a line feed the last line is empty. -/
theorem lastLine_append_feed (front : List Char) : lastLine (front ++ ['\n']) = [] := by
  simp [lastLine]

/-- A text is cut in front of its first line feed. -/
theorem exists_firstLine (text : List Char) :
    text = firstLine text ∨ ∃ rest, text = firstLine text ++ '\n' :: rest := by
  by_cases h : '\n' ∈ text
  · obtain ⟨line, rest, rfl, hline⟩ := List.eq_append_cons_of_mem h
    rw [firstLine_append hline]
    exact .inr ⟨rest, by simp [firstLine]⟩
  · have hline := firstLine_append h []
    rw [List.append_nil] at hline
    exact .inl (by rw [hline]; simp [firstLine])

/-- A text is cut in front of its last line, which starts the text or stands behind a line feed. -/
theorem exists_lastLine (text : List Char) :
    text = lastLine text ∨ ∃ front, text = front ++ '\n' :: lastLine text := by
  by_cases h : '\n' ∈ text
  · obtain ⟨line, front, htext, hline⟩ := List.eq_append_cons_of_mem (List.mem_reverse.2 h)
    have htext : text = (front.reverse ++ ['\n']) ++ line.reverse := by
      rw [← List.reverse_reverse text, htext]
      simp
    have hlast : lastLine text = line.reverse := by
      rw [htext, lastLine_append _ (by simpa using hline), lastLine_append_feed, List.nil_append]
    exact .inr ⟨front.reverse, by rw [hlast]; simpa using htext⟩
  · have hline := lastLine_append [] h
    rw [List.nil_append] at hline
    exact .inl (by rw [hline]; simp [lastLine])

/-- A text is its whole lines and its last one, and its line feeds are in the whole lines. -/
theorem exists_before_lastLine (text : List Char) :
    ∃ front, text = front ++ lastLine text ∧ lastLine front = [] ∧
      front.count '\n' = text.count '\n' := by
  have hcount := List.count_eq_zero_of_not_mem (feed_not_mem_lastLine text)
  obtain h | ⟨before, h⟩ := exists_lastLine text
  · exact ⟨[], h, rfl, by rw [h, hcount]; rfl⟩
  · have htext : text = before ++ ['\n'] ++ lastLine text := by simpa using h
    refine ⟨before ++ ['\n'], htext, lastLine_append_feed before, ?_⟩
    have := congrArg (List.count '\n') htext
    rwa [List.count_append, hcount, Nat.add_zero, eq_comm] at this

/-- There is one line more than there are line feeds. -/
theorem length_lines (text : List Char) : (lines text).length = text.count '\n' + 1 := by
  induction text with
  | nil => rfl
  | cons c text ih =>
      rw [lines, List.splitOn_cons_eq_if_modifyHead]
      by_cases h : c = '\n'
      · rw [h, if_pos (by simp), List.length_cons, ← lines, ih, List.count_cons_self]
      · rw [if_neg (by simpa using h), List.length_modifyHead, ← lines, ih,
          List.count_cons_of_ne h]

/-- The first of the lines is the text up to the first line feed. -/
theorem headD_lines (text : List Char) : (lines text).headD [] = firstLine text := by
  have hline := lines_of_line (feed_not_mem_firstLine text)
  obtain h | ⟨rest, h⟩ := exists_firstLine text
  · rw [← h] at hline
    rw [hline]
    exact h
  · have hlines := lines_append_feed (firstLine text) rest
    rw [← h, hline] at hlines
    rw [hlines]
    rfl

/-- Lines with a line feed behind each make up the text with a line feed behind it. -/
theorem flatMap_lines (text : List Char) :
    ((lines text).flatMap fun line => line ++ ['\n']) = text ++ ['\n'] := by
  induction text with
  | nil => rfl
  | cons c text ih =>
      rw [lines, List.splitOn_cons_eq_if_modifyHead, ← lines]
      by_cases h : c = '\n'
      · rw [h, if_pos (by simp), List.flatMap_cons, ih]
        rfl
      · rw [if_neg (by simpa using h), List.cons_append, ← ih]
        cases hlines : lines text with
        | nil => exact absurd hlines (List.splitOn_ne_nil _ _)
        | cons line others => rfl

/-- The line that a text is cut in is numbered by the line feeds in front. -/
theorem getElem?_lines_append (front rest : List Char) :
    (lines (front ++ rest))[front.count '\n']? = some (lastLine front ++ firstLine rest) := by
  have hfirst : ∀ text, (lines text)[0]? = some (firstLine text) := fun text => by
    rw [← headD_lines, ← List.head?_eq_getElem?]
    cases hlines : lines text with
    | nil => exact absurd hlines (List.splitOn_ne_nil _ _)
    | cons line others => rfl
  have hlast := firstLine_append (feed_not_mem_lastLine front) rest
  have hcount := List.count_eq_zero_of_not_mem (feed_not_mem_lastLine front)
  obtain h | ⟨before, h⟩ := exists_lastLine front
  · rw [← h] at hlast hcount ⊢
    rw [hcount, hfirst, hlast]
  · have hnumber : front.count '\n' = (lines before).length := by
      rw [length_lines, h, List.count_append, List.count_cons_self]
      omega
    have htext : front ++ rest = before ++ '\n' :: (lastLine front ++ rest) := by
      have := congrArg (· ++ rest) h
      rwa [List.append_assoc] at this
    rw [htext, lines_append_feed, hnumber, List.getElem?_append_right (Nat.le_refl _),
      Nat.sub_self, hfirst, hlast]

/-- Whole lines in front of a text are its first lines. -/
theorem flatMap_take_lines (h : lastLine front = []) (rest : List Char) :
    (((lines (front ++ rest)).take (front.count '\n')).flatMap fun line => line ++ ['\n']) =
      front := by
  obtain hfront | ⟨before, hfront⟩ := exists_lastLine front
  · rw [hfront, h]
    rfl
  · rw [h] at hfront
    have hnumber : front.count '\n' = (lines before).length := by
      rw [length_lines, hfront, List.count_append]
      rfl
    rw [hnumber, hfront, List.append_assoc, List.singleton_append, lines_append_feed,
      List.take_left, flatMap_lines]

/-- A text has a start for each of its lines. -/
theorem exists_lineStart (h : n ≤ text.count '\n') :
    ∃ front rest, text = front ++ rest ∧ lastLine front = [] ∧ front.count '\n' = n := by
  induction n with
  | zero => exact ⟨[], text, rfl, rfl, rfl⟩
  | succ n ih =>
      obtain ⟨front, rest, rfl, -, hcount⟩ := ih (by omega)
      rw [List.count_append, hcount] at h
      have hmem : '\n' ∈ rest := List.count_pos_iff.1 (by omega)
      obtain ⟨line, rest, rfl, hline⟩ := List.eq_append_cons_of_mem hmem
      refine ⟨front ++ line ++ ['\n'], rest, by simp, lastLine_append_feed _, ?_⟩
      rw [List.count_append, List.count_append, hcount, List.count_eq_zero_of_not_mem hline]
      rfl

end Lines

namespace Position

/-- The position behind a text. -/
def behind (front : List Char) : Position where
  line := front.count '\n' + 1
  column := (lastLine front).length

/-- `position.Between front rest` says that a position in a source stands between two parts of it:
the lines in front are counted by line feeds, and a column beyond the end of its line counts as the
end. -/
structure Between (position : Position) (front rest : List Char) : Prop where
  line : front.count '\n' = position.lineIndex
  column : (lastLine front).length = min position.column (lastLine front ++ firstLine rest).length

/-- The offset of the start of a line. -/
def lineStart? (position : Position) (source : List Char) : Option ℕ :=
  if position.line ≤ 1 then some 0
  else (occurrences ['\n'] source)[position.line - 2]?.map (· + 1)

/-- The offset of the column in a line, or of the end of the line. -/
def columnOffset (position : Position) (line : List Char) : ℕ :=
  ((charIndices 0 line)[position.column]?.map Prod.fst).getD (size line)

/-- The offset of a position in a source. -/
def byteOffset? (position : Position) (source : List Char) : Except Fault (Option ℕ) :=
  match position.lineStart? source with
  | none => .ok none
  | some start => do
    let line := (lines (← sliceFrom source start)).headD []
    return some (start + position.columnOffset line)

section Offsets

variable {position : Position} {source front rest : List Char}

/-- The position behind a text stands between it and what follows. -/
theorem between_behind (front rest : List Char) : (behind front).Between front rest where
  line := rfl
  column := by simp [behind]

/-- The line of a position between two parts goes from the last line feed in front of it to the next
one behind it. -/
theorem Between.getElem?_lines (h : position.Between front rest) :
    (lines (front ++ rest))[position.lineIndex]? = some (lastLine front ++ firstLine rest) := by
  rw [← h.line, getElem?_lines_append]

/-- The position is found again behind the part in front of it. -/
theorem behind_of_between (h : position.Between front rest) :
    behind front =
      ⟨max 1 position.line, min position.column (lastLine front ++ firstLine rest).length⟩ := by
  rw [behind, h.line, ← h.column, lineIndex, mk.injEq]
  exact ⟨by omega, rfl⟩

/-- A position stands somewhere in a source if the source has its line. -/
theorem exists_between (position : Position) (source : List Char) :
    (lines source).length < max 1 position.line ∨
      ∃ front rest, source = front ++ rest ∧ position.Between front rest := by
  rw [length_lines]
  by_cases hline : position.lineIndex ≤ source.count '\n'
  · obtain ⟨front, rest, rfl, hlast, hcount⟩ := exists_lineStart hline
    let part := (firstLine rest).take position.column
    have hpart : '\n' ∉ part := fun h => feed_not_mem_firstLine rest (List.mem_of_mem_take h)
    have hprefix : part <+: rest := (List.take_prefix ..).trans (List.takeWhile_prefix _)
    obtain ⟨behind, hrest⟩ := hprefix
    have hfirst := firstLine_append hpart behind
    rw [hrest] at hfirst
    refine .inr ⟨front ++ part, behind, by rw [List.append_assoc, hrest], ?_, ?_⟩
    · rw [List.count_append, hcount, List.count_eq_zero_of_not_mem hpart, Nat.add_zero]
    · rw [lastLine_append front hpart, hlast, List.nil_append, ← hfirst, List.length_take]
  · rw [lineIndex] at hline
    omega

/-- Behind the last line there is no start of a line. -/
theorem lineStart?_eq_none (h : (lines source).length < max 1 position.line) :
    position.lineStart? source = none := by
  rw [length_lines] at h
  rw [lineStart?, if_neg (by omega), List.getElem?_eq_none, Option.map_none]
  rw [length_occurrences]
  omega

/-- A line starts behind the whole lines in front of it. -/
theorem lineStart?_append (hlast : lastLine front = [])
    (hcount : front.count '\n' = position.lineIndex) (rest : List Char) :
    position.lineStart? (front ++ rest) = some (size front) := by
  rw [lineIndex] at hcount
  obtain h | ⟨before, h⟩ := exists_lastLine front
  · rw [hlast] at h
    rw [h] at hcount ⊢
    exact if_pos (by simp at hcount; omega)
  · rw [hlast] at h
    rw [h] at hcount ⊢
    have hbefore : before.count '\n' = position.line - 2 := by simp at hcount; omega
    rw [lineStart?, if_neg (by simp at hcount; omega), List.append_assoc, ← hbefore,
      List.singleton_append, getElem?_occurrences_append, size_append]
    rfl

/-- The offset of a column in its line is the size of the characters in front of it. -/
theorem columnOffset_eq (position : Position) (line : List Char) :
    position.columnOffset line = size (line.take position.column) := by
  rw [columnOffset, getElem?_charIndices]
  by_cases h : position.column < line.length
  · rw [List.getElem?_eq_getElem h]
    simp
  · rw [List.getElem?_eq_none (by omega), List.take_of_length_le (by omega)]
    rfl

/-- The offset of a position is the size of what stands in front of it. -/
theorem byteOffset?_of_between (h : position.Between front rest) :
    position.byteOffset? (front ++ rest) = .ok (some (size front)) := by
  obtain ⟨earlier, hfront, hlast, hcount⟩ := exists_before_lastLine front
  have hline := firstLine_append (feed_not_mem_lastLine front) rest
  have htext : front ++ rest = earlier ++ (lastLine front ++ rest) := by
    rw [← List.append_assoc, ← hfront]
  have hcolumn : (firstLine (lastLine front ++ rest)).take position.column = lastLine front := by
    rw [hline, List.take_eq_take_min, ← h.column, List.take_left]
  have hsize : size front = size earlier + size (lastLine front) := by
    rw [← size_append, ← hfront]
  rw [htext, byteOffset?, lineStart?_append hlast (hcount.trans h.line)]
  simp only [sliceFrom_append, headD_lines, columnOffset_eq, hcolumn, hsize, bind, Except.bind,
    pure, Except.pure]

/-- A line that is not there has no offset, and asking for one is no fault. -/
theorem byteOffset?_eq_none (h : (lines source).length < max 1 position.line) :
    position.byteOffset? source = .ok none := by
  rw [byteOffset?, lineStart?_eq_none h]

/-- The number of characters in front of a position counts the part in front of it. -/
theorem offset?_of_between (h : position.Between front rest) :
    position.offset? (front ++ rest) = some front.length := by
  obtain ⟨earlier, hfront, hlast, hcount⟩ := exists_before_lastLine front
  have htext : front ++ rest = earlier ++ (lastLine front ++ rest) := by
    rw [← List.append_assoc, ← hfront]
  have hearlier := flatMap_take_lines hlast (lastLine front ++ rest)
  rw [← htext, hcount, h.line] at hearlier
  rw [offset?, h.getElem?_lines, Option.map_some, hearlier, ← h.column, ← List.length_append,
    ← hfront]

/-- A line that is not there has no index either. -/
theorem offset?_eq_none (h : (lines source).length < max 1 position.line) :
    position.offset? source = none := by
  rw [offset?, List.getElem?_eq_none, Option.map_none]
  rw [lineIndex]
  omega

end Offsets

end Position

namespace Snippet

/-- The excerpt that shows the place between two parts of a source. -/
def excerpt (message origin : String) (front rest : List Char) : String :=
  let line := lastLine front ++ firstLine rest
  let isLast := '\n' ∉ rest
  let rows :=
    if isLast ∧ line = [] then rowsAtEnd message origin
    else
      let visible := visible line isLast
      rows message origin (front.count '\n' + 1) visible (min (lastLine front).length visible.length)
  "\n".intercalate rows

/-- What a snippet shows of a line is a part of it. -/
theorem length_visible_le (line : List Char) (isLast : Bool) :
    (visible line isLast).length ≤ line.length := by
  unfold visible
  split
  · simp
  · exact Nat.le_refl _

end Snippet

namespace CompileError

/-- Renders an error into a source that is cut at byte offsets: in front of the character that the
error is marked at, and behind it. -/
def render? (error : CompileError) (source : String) (origin : Path) :
    Except Fault (Option String) := do
  let text := source.toList
  match error.position with
  | none => return none
  | some position =>
    match ← position.byteOffset? text with
    | none => return none
    | some start =>
      let stop := start + ((← sliceFrom text start).head?.elim 0 Char.utf8Size)
      let front ← sliceTo text start
      let marked ← slice text start stop
      let rest ← sliceFrom text stop
      return some (Snippet.excerpt error.message origin.text front (marked ++ rest))

section Excerpts

variable {position : Position} {error : CompileError} {source : String} {origin : Path}
  {front rest : List Char}

/-- The excerpt at a position is made of the two parts that it stands between. -/
theorem snippet?_of_between (herror : error.position = some position)
    (hsource : source.toList = front ++ rest) (h : position.Between front rest) :
    error.snippet? source origin =
      some (Snippet.excerpt error.message origin.text front rest) := by
  have hlast : (position.lineIndex + 1 = (lines (front ++ rest)).length) = ('\n' ∉ rest) := by
    rw [length_lines, List.count_append, ← h.line, ← List.count_eq_zero]
    exact propext (by omega)
  have hcolumn : min position.column (Snippet.visible (lastLine front ++ firstLine rest)
      (decide ('\n' ∉ rest))).length = min (lastLine front).length (Snippet.visible
        (lastLine front ++ firstLine rest) (decide ('\n' ∉ rest))).length := by
    have := Snippet.length_visible_le (lastLine front ++ firstLine rest) (decide ('\n' ∉ rest))
    rw [h.column]
    omega
  rw [snippet?, herror, hsource]
  simp only [Option.bind_eq_bind, Option.bind_some, h.getElem?_lines, hlast, hcolumn]
  rw [← h.line]
  rfl

/-- Rendering an error at a position does not fault, and makes the same excerpt. -/
theorem render?_of_between (herror : error.position = some position)
    (hsource : source.toList = front ++ rest) (h : position.Between front rest) :
    error.render? source origin =
      .ok (some (Snippet.excerpt error.message origin.text front rest)) := by
  have hstop : rest.head?.elim 0 Char.utf8Size = size (rest.take 1) := by
    cases rest with
    | nil => rfl
    | cons c rest => simp
  have hmarked := slice_append front (rest.take 1) (rest.drop 1)
  have hbehind := sliceFrom_append (front ++ rest.take 1) (rest.drop 1)
  rw [List.append_assoc, size_append] at hbehind
  rw [List.take_append_drop] at hmarked hbehind
  rw [render?, herror]
  simp only [hsource, Position.byteOffset?_of_between h, sliceFrom_append, sliceTo_append, hstop,
    hmarked, hbehind, bind, Except.bind, pure, Except.pure, List.take_append_drop]

/-- Rendering never cuts a source where it may not be cut, and shows the snippet of the error. -/
theorem render?_eq_snippet? (error : CompileError) (source : String) (origin : Path) :
    error.render? source origin = .ok (error.snippet? source origin) := by
  cases herror : error.position with
  | none =>
      rw [render?, snippet?, herror]
      rfl
  | some position =>
      obtain hline | ⟨front, rest, hsource, hbetween⟩ := position.exists_between source.toList
      · have hsnippet : (lines source.toList)[position.lineIndex]? = none := by
          rw [List.getElem?_eq_none]
          rw [Position.lineIndex]
          omega
        rw [render?, snippet?, herror]
        simp only [Position.byteOffset?_eq_none hline, hsnippet,
          Option.bind_some, Option.bind_none, bind, Except.bind, pure, Except.pure]
      · rw [render?_of_between herror hsource hbetween, snippet?_of_between herror hsource hbetween]

end Excerpts

end CompileError

/-- Positions and offsets in a source are inverse to each other. The position behind a leading part
has the size of that part as its offset. A position without an offset is on a line that the source
does not have; the offset of any other position cuts the source on its line, at its column or at the
end of the line. Rendering an error cuts the source at these offsets and never fails. -/
theorem offsets_invert_positions :
    (∀ front rest : List Char,
      (Position.behind front).byteOffset? (front ++ rest) = .ok (some (size front))) ∧
    (∀ (position : Position) (source : List Char),
      position.byteOffset? source =
        .ok ((position.offset? source).map fun count => size (source.take count)) ∧
      ((lines source).length < max 1 position.line ∧ position.byteOffset? source = .ok none ∨
        max 1 position.line ≤ (lines source).length ∧ ∃ front rest line,
          source = front ++ rest ∧ position.byteOffset? source = .ok (some (size front)) ∧
          (lines source)[position.lineIndex]? = some line ∧
          Position.behind front = ⟨max 1 position.line, min position.column line.length⟩)) ∧
    ∀ (error : CompileError) (source : String) (origin : Path),
      error.render? source origin = .ok (error.snippet? source origin) := by
  refine ⟨fun front rest => ?_, fun position source => ?_, CompileError.render?_eq_snippet?⟩
  · exact Position.byteOffset?_of_between (Position.between_behind front rest)
  · obtain hline | ⟨front, rest, rfl, hbetween⟩ := position.exists_between source
    · have hnone := Position.byteOffset?_eq_none hline
      exact ⟨by rw [hnone, Position.offset?_eq_none hline]; rfl, .inl ⟨hline, hnone⟩⟩
    · have hoffset := Position.byteOffset?_of_between hbetween
      have hfound := hbetween.getElem?_lines
      refine ⟨?_, .inr ⟨?_, front, rest, _, rfl, hoffset, hfound, ?_⟩⟩
      · rw [hoffset, Position.offset?_of_between hbetween, Option.map_some, List.take_left]
      · have := (List.getElem?_eq_some_iff.1 hfound).1
        rw [Position.lineIndex] at this
        omega
      · exact Position.behind_of_between hbetween

end MiniProgram
