import MiniProgram.Json.Token

/-!
# Debug identifiers

A debug identifier is a UUID with an appendix. It is written in lower case with hyphens, and an
appendix of zero is left out. It is also read without any hyphens.
-/

namespace MiniProgram.SourceMap

/-- A debug identifier: the 32 digits of a UUID, and an appendix. -/
structure DebugId where
  digits : List Char
  appendix : Nat
  deriving DecidableEq, Repr

namespace DebugId

/-- The lengths of the parts of a UUID between its hyphens. -/
def lengths : List Nat := [8, 4, 4, 4, 12]

/-- The number that hexadecimal digits stand for. -/
def hexNumber? (text : List Char) : Option Nat :=
  text.foldlM (fun value c => (Json.hexValue? c).map (16 * value + ·)) 0

/-- `cut lengths digits` puts hyphens between parts of given lengths. -/
def cut : List Nat → List Char → List Char
  | [], rest => rest
  | [_], rest => rest
  | length :: lengths, digits => digits.take length ++ '-' :: cut lengths (digits.drop length)

/-- `join? lengths text` takes the hyphens between parts of given lengths away. -/
def join? : List Nat → List Char → Option (List Char)
  | [], rest => some rest
  | [_], rest => some rest
  | length :: lengths, text =>
    match text.drop length with
    | '-' :: rest => (join? lengths rest).map (text.take length ++ ·)
    | _ => none

/-- The number of an appendix, which fits in 32 bits. A plus sign may stand in front of it. -/
def appendix? (text : List Char) : Option Nat :=
  let digits := if text.head? = some '+' then text.drop 1 else text
  if digits = [] then none else (hexNumber? digits).filter (· < wordLimit 32)

/-- `ofParts? uuid rest` is the identifier with the digits `uuid` and the text `rest` of an
appendix. -/
def ofParts? (uuid : List Char) (appendix : Option (List Char)) : Option DebugId :=
  if uuid.length = 32 ∧ uuid.all (fun c => (Json.hexValue? c).isSome) then
    match appendix with
    | none => some ⟨uuid.map Char.toLower, 0⟩
    | some text => (appendix? text).map fun number => ⟨uuid.map Char.toLower, number⟩
  else none

/-- The identifier that a text denotes. -/
def ofText? (text : List Char) : Option DebugId :=
  if text[8]? = some '-' then
    (join? lengths (text.take 36)).bind fun uuid =>
      match text.drop 36 with
      | [] => ofParts? uuid none
      | '-' :: rest => ofParts? uuid (some rest)
      | _ => none
  else
    match text.drop 32 with
    | [] => ofParts? text none
    | rest => ofParts? (text.take 32) (some rest)

/-- The text of an identifier. -/
def text (id : DebugId) : List Char :=
  cut lengths id.digits ++
    if id.appendix = 0 then [] else '-' :: Nat.toDigits 16 id.appendix

end DebugId

end MiniProgram.SourceMap
