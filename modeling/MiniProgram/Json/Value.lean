import MiniProgram.Json.Token
import MiniProgram.Table

/-!
# JSON values

A value keeps the entries of its objects in their order. `Value.write` writes a value compactly,
which is the text of its tokens.

`Value.sorted` turns every object of a value into a table, which is how objects with free keys are
kept.
-/

namespace MiniProgram.Json

/-- A JSON value. The entries of an object keep their order. -/
inductive Value where
  | null
  | bool (value : Bool)
  | number (value : Number)
  | string (value : String)
  | array (items : List Value)
  | object (entries : List (String × Value))
  deriving Repr, Inhabited

namespace Value

mutual
/-- `value.sorted` sorts the entries of every object in `value` and drops overwritten ones. -/
def sorted : Value → Value
  | .array items => .array (sortedItems items)
  | .object entries => .object (Table.ofEntries (sortedEntries entries))
  | value => value

/-- Sorts the objects in every item. -/
def sortedItems : List Value → List Value
  | [] => []
  | item :: rest => sorted item :: sortedItems rest

/-- Sorts the objects in the value of every entry. -/
def sortedEntries : List (String × Value) → List (String × Value)
  | [] => []
  | (key, value) :: rest => (key, sorted value) :: sortedEntries rest
end

mutual
/-- The tokens of a value. -/
def tokens : Value → List Token
  | .null => [.null]
  | .bool value => [.bool value]
  | .number value => [.number value.numeral]
  | .string value => [.string value.toList]
  | .array items => .openBracket :: itemTokens items ++ [.closeBracket]
  | .object entries => .openBrace :: entryTokens entries ++ [.closeBrace]

/-- The tokens of items with commas between them. -/
def itemTokens : List Value → List Token
  | [] => []
  | [item] => tokens item
  | item :: rest => tokens item ++ .comma :: itemTokens rest

/-- The tokens of entries with commas between them. -/
def entryTokens : List (String × Value) → List Token
  | [] => []
  | [(key, value)] => .string key.toList :: .colon :: tokens value
  | (key, value) :: rest =>
    .string key.toList :: .colon :: tokens value ++ .comma :: entryTokens rest
end

/-- `value.write` is the compact text of a value. -/
def write (value : Value) : String :=
  String.ofList (value.tokens.flatMap Token.text)

/-- The value of a natural number. -/
def nat (n : Nat) : Value :=
  .number (.natural n)

end Value

end MiniProgram.Json
