import MiniProgram.Text.Blank
import MiniProgram.Text.Identifier

/-!
# Names bound by an import clause

The clause of an import declaration binds a default name, a namespace `* as name` and the names of
a list in braces, in any combination. `localNames` lists the bound names in the order in which
they stand, the names outside of the braces first. A renamed binding counts under its new name,
which is the last word of its entry.
-/

namespace MiniProgram.Source

open Text

/-- `splitBraces clause` separates the text between the first opening and the last closing brace
from the text around them. -/
def splitBraces (clause : List Char) : List Char × Option (List Char) :=
  match clause.dropWhile (· ≠ '{') with
  | [] => (clause, none)
  | _ :: behind =>
    match behind.reverse.dropWhile (· ≠ '}') with
    | [] => (clause, none)
    | _ :: inside =>
      (clause.takeWhile (· ≠ '{') ++ (behind.reverse.takeWhile (· ≠ '}')).reverse,
        some inside.reverse)

/-- `dropAs text` drops every leading `as`. -/
def dropAs : List Char → List Char
  | 'a' :: 's' :: rest => dropAs rest
  | text => text

/-- The name bound by a part of a clause outside of braces. -/
def outerName (part : List Char) : List Char :=
  match part with
  | '*' :: behind => trim (dropAs (trim behind))
  | name => name

/-- `dropTypeWord clause` drops the word `type` and a space in front of a clause. -/
def dropTypeWord (clause : List Char) : List Char :=
  (['t', 'y', 'p', 'e', ' '].isPrefixOf? clause).getD clause

/-- `localNames clause` lists the names that an import clause binds. -/
def localNames (clause : List Char) : List (List Char) :=
  let (outside, inside) := splitBraces (trim (dropTypeWord clause))
  let outer := ((outside.splitOn ',').map trim).filter (· ≠ [])
  let entries := inside.elim [] (·.splitOn ',')
  outer.map outerName ++ entries.filterMap fun entry => (words entry).getLast?

/-- A name that can be looked for as a whole word. -/
def isName (name : List Char) : Bool :=
  name ≠ [] && name.all isIdentifierChar

end MiniProgram.Source
