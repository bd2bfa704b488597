import MiniProgram.Compiler.Error
import MiniProgram.Path
import MiniProgram.Text.Width

/-!
# Source excerpts of compile errors

`CompileError.snippet?` shows an error below the source line it points at, in terminal colours: the
message as a title, the place, the line with its number, and a mark under the character at the
position. The mark is as wide as the character and at least one cell.

A position behind the last line break, where no line starts, is shown without a line.
-/

namespace MiniProgram

open Text

namespace Snippet

/-- Switches to bold text. -/
def bold : String := "\x1b[1m"

/-- Switches to red text. -/
def red : String := "\x1b[91m"

/-- Switches to blue text. -/
def blue : String := "\x1b[94m"

/-- Switches back to plain text. -/
def plain : String := "\x1b[0m"

/-- A row of `count` blanks. -/
def blanks (count : Nat) : String :=
  String.ofList (List.replicate count ' ')

/-- How a character of the source is shown. Controls of the text direction and joiners are left
out. -/
def shown (c : Char) : List Char :=
  if c = '\t' then [' ', ' ', ' ', ' ']
  else if c.toNat = 0x200D ∨ (0x202A ≤ c.toNat ∧ c.toNat ≤ 0x202E) ∨
      (0x2066 ≤ c.toNat ∧ c.toNat ≤ 0x2069) then []
  else [c]

/-- The number of cells of a part of a line. -/
def cells (part : List Char) : Nat :=
  (part.flatMap shown).foldl (fun count c => count + width c) 0

/-- The part of a line that a snippet shows: all of it, without a carriage return in front of the
line feed that ends it. -/
def visible (line : List Char) (isLast : Bool) : List Char :=
  if !isLast && line.getLast? == some '\r' then line.dropLast else line

/-- The title of a snippet. -/
def title (message : String) : String :=
  bold ++ red ++ "error" ++ plain ++
    (if message = "" then "" else ": " ++ bold ++ message ++ plain)

/-- The row that names the place. -/
def place (indent : Nat) (origin : String) (line column : Nat) : String :=
  blanks indent ++ bold ++ blue ++ "-->" ++ plain ++ (if origin = "" then "" else " ") ++ origin ++
    ":" ++ toString line ++ ":" ++ toString column

/-- The bar in front of a row without a line number. -/
def bar (indent : Nat) : String :=
  blanks indent ++ bold ++ blue ++ "|" ++ plain

/-- The rows of a position on line `number`, whose visible part is `line`, in front of which
character `column` stands. -/
def rows (message origin : String) (number : Nat) (line : List Char) (column : Nat) :
    List String :=
  let indent := (toString number).length
  let before := cells (line.take column)
  let mark := max 1 (cells ((line.drop column).take 1))
  let text := String.ofList (line.flatMap shown)
  [title message,
    place indent origin number (column + 1),
    bar (indent + 1),
    bold ++ blue ++ toString number ++ " |" ++ plain ++ (if text = "" then "" else " " ++ text),
    bar (indent + 1) ++ " " ++ blanks before ++ bold ++ red ++
      String.ofList (List.replicate mark '^') ++ plain ++
      (if message = "" then "" else " " ++ bold ++ red ++ message ++ plain),
    bar (indent + 1)]

/-- The rows of a position behind the last line break. -/
def rowsAtEnd (message origin : String) : List String :=
  [title message, place 0 origin 1 1, bar 1, bar 1]

end Snippet

/-- `error.snippet? source origin` shows the error in `source`, which comes from `origin`. Without a
position in the source there is nothing to show. -/
def CompileError.snippet? (error : CompileError) (source : String) (origin : Path) :
    Option String := do
  let position ← error.position
  let all := lines source.toList
  let line ← all[position.lineIndex]?
  let isLast := position.lineIndex + 1 = all.length
  let rows :=
    if isLast ∧ line = [] then Snippet.rowsAtEnd error.message origin.text
    else
      let visible := Snippet.visible line isLast
      Snippet.rows error.message origin.text (position.lineIndex + 1) visible
        (min position.column visible.length)
  return "\n".intercalate rows

end MiniProgram
