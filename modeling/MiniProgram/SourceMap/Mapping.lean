import MiniProgram.SourceMap.Quantity

/-!
# Mappings of source maps

A mapping says which place of a source a place of the generated text comes from. The text of a list
of mappings has one part for each generated line, ended by a semicolon, and in each line one segment
for each mapping, with commas between them. A segment holds the differences to the numbers of the
segment before it; columns of the generated text start anew in every line.

All numbers are 32-bit words and wrap around. Mappings are kept in the order of their generated
places.

A mapping can be marked as a range. The marks have a text of their own, with one bit for each
segment of a line.
-/

namespace MiniProgram.SourceMap

/-- A place in a source, given by the index of the source, and possibly the index of a name. -/
structure Place where
  source : Nat
  line : Nat
  column : Nat
  name : Option Nat
  deriving DecidableEq, Repr

/-- A place in the generated text, with the place that it comes from. -/
structure Mapping where
  line : Nat
  column : Nat
  place : Option Place
  isRange : Bool
  deriving DecidableEq, Repr

namespace Mapping

/-- How many sources and names a mapping may refer to. -/
structure Counts where
  sources : Nat
  names : Nat

/-- The numbers of the segments so far, to which the next segment adds. -/
structure Cursor where
  source : Nat
  line : Nat
  column : Nat
  name : Nat

/-- `add value difference` is a sum of 32-bit words. -/
def add (value : Nat) (difference : Int) : Nat :=
  ((value + difference) % wordLimit 32).toNat

/-- `origin counts cursor name? numbers` is the place that the numbers behind the first one of a
segment lead to. -/
def origin (counts : Counts) (cursor : Cursor) (source line column : Int) (name : Option Int) :
    Except MapFault (Place × Cursor) :=
  let source := add cursor.source source
  let line := add cursor.line line
  let column := add cursor.column column
  if counts.sources ≤ source then .error (.sourceReference source)
  else
    match name with
    | none => .ok (⟨source, line, column, none⟩, ⟨source, line, column, cursor.name⟩)
    | some name =>
      let name := add cursor.name name
      if counts.names ≤ name then .error (.nameReference name)
      else .ok (⟨source, line, column, some name⟩, ⟨source, line, column, name⟩)

/-- The place that a segment leads to, if it has one, and the numbers for the next segment. -/
def originOf (counts : Counts) (cursor : Cursor) :
    List Int → Except MapFault (Option Place × Cursor)
  | [_] => .ok (none, cursor)
  | [_, source, line, column] =>
    (origin counts cursor source line column none).map fun found => (some found.1, found.2)
  | [_, source, line, column, name] =>
    (origin counts cursor source line column (some name)).map fun found => (some found.1, found.2)
  | numbers => .error (.segmentSize numbers.length)

/-- `readSegments counts line column cursor marks segments` reads the segments of a line, of which
those in front end at `column`. `marks` says which ones are ranges. -/
def readSegments (counts : Counts) (line column : Nat) (cursor : Cursor) (marks : List Bool) :
    List (List Char) → Except MapFault (List Mapping × Cursor)
  | [] => .ok ([], cursor)
  | [] :: rest => readSegments counts line column cursor marks.tail rest
  | segment :: rest => do
    let numbers ← Quantity.read segment
    let (place, next) ← originOf counts cursor numbers
    let column := add column (numbers.headD 0)
    let (mappings, last) ← readSegments counts line column next marks.tail rest
    return (⟨line, column, place, marks.headD false⟩ :: mappings, last)

/-- The six marks of a digit, the lowest bit first. A character that is no digit is named by its
first byte in UTF-8. -/
def marksOf (c : Char) : Except MapFault (List Bool) :=
  match Base64.value? c with
  | some n => .ok ((List.range 6).map n.testBit)
  | none =>
    .error (.notBase64 (Char.ofNat ((String.utf8EncodeChar c).headD 0).toNat))

/-- `readLines counts line cursor lines ranges` reads lines from number `line` on. Lines that have
no text of marks have no marks. -/
def readLines (counts : Counts) (line : Nat) (cursor : Cursor) :
    List (List Char) → List (List Char) → Except MapFault (List Mapping)
  | [], _ => .ok []
  | [] :: rest, ranges => readLines counts (line + 1) cursor rest ranges.tail
  | text :: rest, ranges => do
    let marks ← (ranges.headD []).mapM marksOf
    let (mappings, next) ← readSegments counts line 0 cursor marks.flatten (text.splitOn ',')
    let more ← readLines counts (line + 1) next rest ranges.tail
    return mappings ++ more

/-- `a.precedes b` says that `a` need not stand behind `b`. -/
def precedes (a b : Mapping) : Bool :=
  a.line < b.line || (a.line == b.line && a.column ≤ b.column)

/-- The mappings that a text and a text of marks hold. -/
def read (counts : Counts) (text ranges : List Char) : Except MapFault (List Mapping) :=
  (readLines counts 0 ⟨0, 0, 0, 0⟩ (text.splitOn ';') (ranges.splitOn ';')).map
    (·.mergeSort precedes)

/-- The difference of two numbers as a text. -/
def difference (value before : Nat) : List Char :=
  Quantity.write (value - before)

/-- The segment of a mapping behind generated column `column`. -/
def segment (mapping : Mapping) (column : Nat) (cursor : Cursor) : List Char :=
  difference mapping.column column ++
    match mapping.place with
    | none => []
    | some place =>
      difference place.source cursor.source ++ difference place.line cursor.line ++
        difference place.column cursor.column ++
        match place.name with
        | none => []
        | some name => difference name cursor.name

/-- The numbers that the segment behind a mapping is written against. -/
def advance (mapping : Mapping) (cursor : Cursor) : Cursor :=
  match mapping.place with
  | none => cursor
  | some place =>
    ⟨place.source, place.line, place.column, place.name.getD cursor.name⟩

/-- `writeFrom previous cursor mappings` writes the mappings behind `previous`. A mapping that
equals the one in front of it is left out. -/
def writeFrom (previous : Option Mapping) (cursor : Cursor) : List Mapping → List Char
  | [] => []
  | mapping :: rest =>
    let line := (previous.map Mapping.line).getD 0
    let tail := writeFrom (some mapping) (mapping.advance cursor) rest
    if mapping.line ≠ line then
      List.replicate (mapping.line - line) ';' ++ mapping.segment 0 cursor ++ tail
    else
      match previous with
      | none => mapping.segment 0 cursor ++ tail
      | some last =>
        if mapping = last then writeFrom (some mapping) cursor rest
        else ',' :: mapping.segment last.column cursor ++ tail

/-- The text of mappings. -/
def write (mappings : List Mapping) : List Char :=
  writeFrom none ⟨0, 0, 0, 0⟩ mappings

/-- The digit of six marks, of which the first one has number `start`. -/
def markDigit (set : List Nat) (start : Nat) : Char :=
  let marked := (List.range 6).filter fun bit => set.contains (start + bit)
  Base64.digit (marked.foldl (fun value bit => value + Nat.pow 2 bit) 0)

/-- The text of the marks of a line whose numbers are in `set`. -/
def writeMarks (set : List Nat) : List Char :=
  match set.max? with
  | none => []
  | some last => (List.range (last / 6 + 1)).map fun group => markDigit set (6 * group)

/-- `writeRangesFrom line first index set mappings` writes the marks of the mappings from number
`index` on. Line `line` starts at mapping `first` and has the marks of `set` so far. The mark of the
first mapping of a line belongs to the line before it. -/
def writeRangesFrom (line first index : Nat) (set : List Nat) : List Mapping → List Char
  | [] => writeMarks set
  | mapping :: rest =>
    let set := if mapping.isRange then (index - first) :: set else set
    if mapping.line = line then writeRangesFrom line first (index + 1) set rest
    else
      writeMarks set ++ List.replicate (mapping.line - line) ';' ++
        writeRangesFrom mapping.line index (index + 1) [] rest

/-- The text of the marks of mappings, if there is a mark. -/
def writeRanges? (mappings : List Mapping) : Option (List Char) :=
  if mappings.any Mapping.isRange then some (writeRangesFrom 0 0 0 [] mappings) else none

end Mapping

end MiniProgram.SourceMap
