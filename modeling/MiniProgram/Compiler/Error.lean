import MiniProgram.Json.Decode

/-!
# Compile errors

A compiler reports an error as a message and, if it can, a position in the source it was given.
Lines count from one and columns from zero, in characters. Line zero counts as the first line, and
a column beyond the end of its line counts as the end of the line, so `Position.offset?` fails only
for a line that the source does not have.
-/

namespace MiniProgram

open Json

/-- A place in a source. -/
structure Position where
  line : Nat
  column : Nat
  deriving DecidableEq, Repr

/-- An error that a compiler reports. -/
structure CompileError where
  message : String
  position : Option Position
  deriving DecidableEq, Repr

/-- The lines of a text, without the line feeds between them. -/
def lines (text : List Char) : List (List Char) :=
  text.splitOn '\n'

namespace Position

/-- The line of a source that a position is on, counted from zero. -/
def lineIndex (position : Position) : Nat :=
  position.line - 1

/-- `position.offset? text` is the number of characters in front of a position. -/
def offset? (position : Position) (text : List Char) : Option Nat :=
  (lines text)[position.lineIndex]?.map fun line =>
    (((lines text).take position.lineIndex).flatMap fun earlier => earlier ++ ['\n']).length +
      min position.column line.length

/-- Decodes a place, whose numbers fit in 64 bits. -/
def decode : Decoder Position := fun node => do
  let number := Decode.natural (wordLimit 64)
  let fields ← Decode.fields
    [("line", Decode.check number), ("column", Decode.check number)] node
  let line ← fields.required "line" number
  let column ← fields.required "column" number
  return ⟨line, column⟩

/-- The record of a place. -/
def toJson (position : Position) : Value :=
  .object [("line", .nat position.line), ("column", .nat position.column)]

end Position

namespace CompileError

/-- An error without a position. -/
def ofMessage (message : String) : CompileError :=
  ⟨message, none⟩

/-- Decodes the record of an error, whose position may be missing. -/
def decode : Decoder CompileError := fun node => do
  let fields ← Decode.fields
    [("message", Decode.check Decode.string),
      ("loc", Decode.check (Decode.nullable Position.decode))] node
  let message ← fields.required "message" Decode.string
  let position ← fields.optional "loc" (Decode.nullable Position.decode) none
  return ⟨message, position⟩

/-- The record of an error. -/
def toJson (error : CompileError) : Value :=
  .object [
    ("message", .string error.message),
    ("loc", error.position.elim .null Position.toJson)]

end CompileError

end MiniProgram
