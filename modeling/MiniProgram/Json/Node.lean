import MiniProgram.Json.Value

/-!
# Syntax trees of JSON text

A node is what a text holds, also when the text is malformed: where it stops making sense the tree
has a broken leaf, which is the last one in the order of the text. So a reader that goes through a
tree in order meets the faults of a text in the order in which they stand.

`Node.ofTokens` builds a tree in one pass over the tokens, with the open arrays and objects on a
stack. It returns the tokens that follow the first value.
-/

namespace MiniProgram.Json

/-- A syntax tree. The key of an entry is a string, unless the text breaks off at it. -/
inductive Node where
  | null
  | bool (value : Bool)
  | number (numeral : Numeral)
  | string (content : Option (List Char))
  | array (items : List Node)
  | object (entries : List (Node × Node))
  | broken
  deriving Repr, Inhabited

namespace Node

/-- An array or object that is still open. What it holds so far is in reverse order. A field is an
object with a key that still waits for its value. -/
inductive Frame where
  | array (items : List Node)
  | object (entries : List (Node × Node))
  | field (entries : List (Node × Node)) (key : Node)

/-- What the next token should be: a value, a key, a colon, or the comma or closing bracket behind
a value. -/
inductive Expected where
  | value
  | key
  | colon
  | next
  deriving DecidableEq

/-- `enclose node stack` closes all open frames behind `node`. -/
def enclose (node : Node) : List Frame → Node
  | [] => node
  | .array items :: outer => enclose (.array (items.reverse ++ [node])) outer
  | .object entries :: outer => enclose (.object (entries.reverse ++ [(.broken, node)])) outer
  | .field entries key :: outer => enclose (.object (entries.reverse ++ [(key, node)])) outer

/-- What a token does to the reader: it completes the tree, leads on, or breaks it. -/
inductive Step where
  | done (node : Node)
  | more (expected : Expected) (stack : List Frame)
  | fault (node : Node)

/-- `complete node stack` hands a complete value to the innermost open frame. -/
def complete (node : Node) : List Frame → Step
  | [] => .done node
  | .array items :: outer => .more .next (.array (node :: items) :: outer)
  | .field entries key :: outer => .more .next (.object ((key, node) :: entries) :: outer)
  | .object entries :: outer => .fault (enclose .broken (.object entries :: outer))

/-- The value that a single token is, or starts. -/
def ofToken : Token → Node
  | .null => .null
  | .bool value => .bool value
  | .number numeral => .number numeral
  | .string content => .string content
  | .openBracket => .array [.broken]
  | .openBrace => .object [(.broken, .broken)]
  | _ => .broken

/-- `fault found expected stack` is the tree of a text that breaks off at `found`. -/
def fault (found : Node) : Expected → List Frame → Node
  | .key, .object entries :: outer => enclose .broken (.field entries found :: outer)
  | _, stack => enclose .broken stack

/-- `step expected stack token` reads one token. -/
def step : Expected → List Frame → Token → Step
  | .value, stack, .null => complete .null stack
  | .value, stack, .bool value => complete (.bool value) stack
  | .value, stack, .number numeral => complete (.number numeral) stack
  | .value, stack, .string content => complete (.string content) stack
  | .value, stack, .openBracket => .more .value (.array [] :: stack)
  | .value, stack, .openBrace => .more .key (.object [] :: stack)
  | .value, .array [] :: outer, .closeBracket => complete (.array []) outer
  | .key, .object entries :: outer, .string content =>
    .more .colon (.field entries (.string content) :: outer)
  | .key, .object [] :: outer, .closeBrace => complete (.object []) outer
  | .colon, stack, .colon => .more .value stack
  | .next, .array items :: outer, .comma => .more .value (.array items :: outer)
  | .next, .array items :: outer, .closeBracket => complete (.array items.reverse) outer
  | .next, .object entries :: outer, .comma => .more .key (.object entries :: outer)
  | .next, .object entries :: outer, .closeBrace => complete (.object entries.reverse) outer
  | expected, stack, token => .fault (fault (ofToken token) expected stack)

/-- `build expected stack tokens` reads tokens until the tree is complete. -/
def build (expected : Expected) (stack : List Frame) : List Token → Node × List Token
  | [] => (fault .broken expected stack, [])
  | token :: rest =>
    match step expected stack token with
    | .done node => (node, rest)
    | .more expected stack => build expected stack rest
    | .fault node => (node, rest)

/-- `ofTokens tokens` is the tree of the first value, and the tokens behind it. -/
def ofTokens (tokens : List Token) : Node × List Token :=
  build .value [] tokens

mutual
/-- A node without a broken leaf, however its strings and numbers read. -/
def isWhole : Node → Bool
  | .array items => areWhole items
  | .object entries => haveWholeEntries entries
  | .broken => false
  | _ => true

/-- Items without a broken leaf. -/
def areWhole : List Node → Bool
  | [] => true
  | item :: rest => isWhole item && areWhole rest

/-- Entries without a broken leaf. -/
def haveWholeEntries : List (Node × Node) → Bool
  | [] => true
  | (key, value) :: rest => isWhole key && isWhole value && haveWholeEntries rest
end

/-- The text that a node denotes, if it is a string that denotes one. -/
def text? : Node → Option String
  | .string (some content) => some (String.ofList content)
  | _ => none

mutual
/-- `value? depth node` is the value that a node denotes, if the node nests less than `depth`
arrays and objects, has no broken leaf, and all its strings and numbers denote something. -/
def value? (depth : Nat) : Node → Option Value
  | .null => some .null
  | .bool value => some (.bool value)
  | .number numeral => numeral.number?.map .number
  | .string content => content.map fun chars => .string (String.ofList chars)
  | .array items => if depth ≤ 1 then none else (items? (depth - 1) items).map .array
  | .object entries => if depth ≤ 1 then none else (entries? (depth - 1) entries).map .object
  | .broken => none

/-- The values that items denote. -/
def items? (depth : Nat) : List Node → Option (List Value)
  | [] => some []
  | item :: rest => do
    let value ← value? depth item
    let values ← items? depth rest
    some (value :: values)

/-- The entries that nodes denote. -/
def entries? (depth : Nat) : List (Node × Node) → Option (List (String × Value))
  | [] => some []
  | (key, node) :: rest => do
    let name ← key.text?
    let value ← value? depth node
    let values ← entries? depth rest
    some ((name, value) :: values)
end

mutual
/-- The tree of a value. -/
def ofValue : Value → Node
  | .null => .null
  | .bool value => .bool value
  | .number value => .number value.numeral
  | .string value => .string (some value.toList)
  | .array items => .array (ofItems items)
  | .object entries => .object (ofEntries entries)

/-- The trees of items. -/
def ofItems : List Value → List Node
  | [] => []
  | item :: rest => ofValue item :: ofItems rest

/-- The trees of entries. -/
def ofEntries : List (String × Value) → List (Node × Node)
  | [] => []
  | (key, value) :: rest => (.string (some key.toList), ofValue value) :: ofEntries rest
end

end Node

end MiniProgram.Json
