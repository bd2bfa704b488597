import MiniProgram.Json.Node

/-!
# Decoding JSON text

A decoder turns a syntax tree into a value of some type or names the first fault, in the order in
which the text is read. A record is given as an object, in which unknown keys are skipped, or as
an array of its fields in their order. A missing field is noticed when the record ends.

A fault of the text itself counts where it stands: a decoder that expects another kind of value
still reports it, unless it can tell from the first character that the kind is wrong.
-/

namespace MiniProgram.Json

/-- Why a text does not decode. -/
inductive Fault where
  | malformed
  | missingField (name : String)
  | duplicateField (name : String)
  | unknownVariant (found : String) (expected : List String)
  | invalidType
  | invalidValue
  | invalidLength
  | noMatch
  deriving DecidableEq, Repr

/-- The names of the expected variants, in quotes. -/
def expectedList : List String → String
  | [] => ""
  | [name] => "`" ++ name ++ "`"
  | [first, last] => "`" ++ first ++ "` or `" ++ last ++ "`"
  | name :: rest => "`" ++ name ++ "`, " ++ expectedList rest

/-- The text of a fault. -/
def Fault.message : Fault → String
  | .malformed => "<syntax>"
  | .missingField name => "missing field `" ++ name ++ "`"
  | .duplicateField name => "duplicate field `" ++ name ++ "`"
  | .unknownVariant found expected =>
    "unknown variant `" ++ found ++ "`, expected " ++ expectedList expected
  | .invalidType => "invalid type"
  | .invalidValue => "invalid value"
  | .invalidLength => "invalid length"
  | .noMatch => "data did not match"

/-- A reader of syntax trees. -/
abbrev Decoder (α : Type) := Node → Except Fault α

/-- The number of arrays and objects that may be open at once in a decoded value, plus one. -/
def depthLimit : Nat := 128

/-- The fault of a node of a kind that was not expected. -/
def Node.mismatch : Node → Fault
  | .broken => .malformed
  | .string none => .malformed
  | .number numeral => if numeral.number?.isSome then .invalidType else .malformed
  | _ => .invalidType

namespace Decode

/-- Decodes a string. -/
def string : Decoder String
  | .string (some content) => .ok (String.ofList content)
  | node => .error node.mismatch

/-- Decodes a truth value. -/
def boolean : Decoder Bool
  | .bool value => .ok value
  | node => .error node.mismatch

/-- Decodes a natural number below `limit`. -/
def natural (limit : Nat) : Decoder Nat
  | .number numeral =>
    match numeral.number? with
    | none => .error .malformed
    | some (.natural value) => if value < limit then .ok value else .error .invalidValue
    | some (.minus _) => .error .invalidValue
    | some (.float _) => .error .invalidType
  | node => .error node.mismatch

/-- Decodes what `decoder` does, or null. -/
def nullable {α : Type} (decoder : Decoder α) : Decoder (Option α)
  | .null => .ok none
  | node => (decoder node).map some

/-- Decodes an array of what `decoder` does. -/
def list {α : Type} (decoder : Decoder α) : Decoder (List α)
  | .array items => items.mapM decoder
  | node => .error node.mismatch

/-- Decodes any value. Its objects become sorted tables. -/
def any (depth : Nat) : Decoder Value := fun node =>
  match node.value? depth with
  | some value => .ok value.sorted
  | none => .error .malformed

/-- Decodes an object with free keys into a sorted table. -/
def table (depth : Nat) : Decoder (Table Value)
  | .object entries =>
    match (Node.object entries).value? depth with
    | some (.object entries) => .ok (Table.ofEntries (Value.sortedEntries entries))
    | _ => .error .malformed
  | node => .error node.mismatch

/-- Decodes an object with free keys whose values `decoder` decodes. -/
def entries {α : Type} (decoder : Decoder α) : Decoder (List (String × α))
  | .object entries => entries.mapM fun entry => do
    let key ← string entry.1
    let value ← decoder entry.2
    pure (key, value)
  | node => .error node.mismatch

/-- The entry of a variant list that has a name. -/
def variant {α : Type} (variants : List (String × α)) : Decoder α := fun node => do
  let name ← string node
  match variants.lookup name with
  | some value => .ok value
  | none => .error (.unknownVariant name (variants.map Prod.fst))

/-- Decodes one of the named variants: its name, or an object with the name as its only key and
null as the value. -/
def variants {α : Type} (variants : List (String × α)) : Decoder α
  | .string content => variant variants (.string content)
  | .object ((key, node) :: rest) => do
    let value ← variant variants key
    match node with
    | .null => if rest.isEmpty then .ok value else .error .malformed
    | node => .error node.mismatch
  | _ => .error .malformed

/-- A check of the node of a field, which names the first fault. -/
abbrev Check := Node → Except Fault Unit

/-- The check that a decoder makes. -/
def check {α : Type} (decoder : Decoder α) : Check := fun node =>
  (decoder node).map fun _ => ()

/-- The names of the fields of a record and the checks of their nodes, in order. -/
abbrev Shape := List (String × Check)

/-- The fields of a record. `missing` is the fault of a field that is not there. The entries with
unknown keys are in `others`. -/
structure Fields where
  known : List (String × Node)
  others : List (String × Node)
  missing : String → Fault

/-- `objectFields shape other known others entries` goes through the entries of an object, behind
those in `known` and `others`, which are in reverse order. `other` checks a node with an unknown
key. -/
def objectFields (shape : Shape) (other : Check) (known others : List (String × Node)) :
    List (Node × Node) → Except Fault Fields
  | [] => .ok ⟨known.reverse, others.reverse, .missingField⟩
  | (key, node) :: rest => do
    let name ← string key
    match shape.lookup name with
    | none =>
      other node
      objectFields shape other known ((name, node) :: others) rest
    | some accepts =>
      if known.any fun entry => entry.1 == name then .error (.duplicateField name)
      else
        accepts node
        objectFields shape other ((name, node) :: known) others rest

/-- `arrayFields shape known items` goes through the items of an array, behind those in `known`,
which are in reverse order. -/
def arrayFields (known : List (String × Node)) : Shape → List Node → Except Fault Fields
  | _, [] => .ok ⟨known.reverse, [], fun _ => .invalidLength⟩
  | [], _ :: _ => .error .malformed
  | (name, accepts) :: shape, item :: rest => do
    accepts item
    arrayFields ((name, item) :: known) shape rest

/-- The check of a node that is skipped: only its text matters. -/
def skipped : Check := fun node =>
  if node.isWhole then .ok () else .error .malformed

/-- The fields of a record that is given as an object or as an array. -/
def fields (shape : Shape) : Decoder Fields
  | .object entries => objectFields shape skipped [] [] entries
  | .array items => arrayFields [] shape items
  | node => .error node.mismatch

/-- The fields of a record that is given as an object, whose unknown keys `other` checks. -/
def openFields (shape : Shape) (other : Check) : Decoder Fields
  | .object entries => objectFields shape other [] [] entries
  | node => .error node.mismatch

namespace Fields

/-- The value of a field that has to be there. -/
def required {α : Type} (fields : Fields) (name : String) (decoder : Decoder α) :
    Except Fault α :=
  match fields.known.lookup name with
  | some node => decoder node
  | none => .error (fields.missing name)

/-- The value of a field, or a default when the field is not there. -/
def optional {α : Type} (fields : Fields) (name : String) (decoder : Decoder α) (default : α) :
    Except Fault α :=
  match fields.known.lookup name with
  | some node => decoder node
  | none => .ok default

/-- The value of a field that may be null. An object may lack it, an array may not. -/
def nullable {α : Type} (fields : Fields) (name : String) (decoder : Decoder (Option α)) :
    Except Fault (Option α) :=
  match fields.known.lookup name with
  | some node => decoder node
  | none =>
    match fields.missing name with
    | .missingField _ => .ok none
    | fault => .error fault

end Fields

end Decode

/-- `decode decoder text` decodes a text that holds one value and nothing behind it. -/
def decode {α : Type} (decoder : Decoder α) (text : String) : Except Fault α := do
  let (node, rest) := Node.ofTokens (tokens text.toList)
  let value ← decoder node
  if rest.isEmpty then .ok value else .error .malformed

end MiniProgram.Json
