import MiniProgram.SourceMap.Basic

/-!
# Records of source maps

`SourceMap.read` reads a source map from the text of a record, in which every field may be missing
or null, and `SourceMap.write` writes it back compactly. A text may start with a line of brackets
and quotes, which keeps it from being run as a script.

A record with sections or with function names for its sources is of another format. Its contents
are checked before it is refused.
-/

namespace MiniProgram.SourceMap

open Json

/-- What a record that decodes means: a source map, or why it is none. -/
abbrev Meaning := Except MapFault SourceMap

namespace Record

/-- Decodes a number of 32 bits. -/
def number : Decoder Nat :=
  Decode.natural (wordLimit 32)

/-- Decodes a list of numbers, or null. -/
def numbers : Decoder (Option (List Nat)) :=
  Decode.nullable (Decode.list number)

/-- Decodes a text, or null. -/
def text : Decoder (Option String) :=
  Decode.nullable Decode.string

/-- Decodes a list of texts and nulls, or null. -/
def texts : Decoder (Option (List (Option String))) :=
  Decode.nullable (Decode.list text)

/-- Decodes a debug identifier, or null. -/
def debugId : Decoder (Option DebugId) :=
  Decode.nullable fun node => do
    match DebugId.ofText? (← Decode.string node).toList with
    | some id => .ok id
    | none => .error .invalidValue

/-- Decodes the name of the generated file, or null. A value that is no text stands for an invalid
name. -/
def file (depth : Nat) : Decoder (Option String) :=
  Decode.nullable fun node => (Decode.any depth node).map fun
    | .string name => name
    | _ => "<invalid>"

/-- Decodes a list of names, or null. Numbers are written out, and anything else is an empty
name. -/
def names (depth : Nat) : Decoder (Option (List String)) :=
  Decode.nullable <| Decode.list fun node => (Decode.any depth node).map fun
    | .string name => name
    | .number value => (Value.number value).write
    | _ => ""

/-- Decodes a field of which only the form matters. -/
def form {α : Type} (decoder : Decoder α) : Decoder (Option Unit) :=
  Decode.nullable fun node => (decoder node).map fun _ => ()

/-- Decodes the function names of a source. -/
def functions : Decoder Unit := fun node => do
  let fields ← Decode.fields
    [("names", Decode.check (Decode.list Decode.string)),
      ("mappings", Decode.check Decode.string)] node
  let _ ← fields.required "names" (Decode.list Decode.string)
  let _ ← fields.required "mappings" Decode.string
  return ()

/-- Decodes the generated place at which a section starts. -/
def offset : Decoder Unit := fun node => do
  let fields ← Decode.fields [("line", Decode.check number), ("column", Decode.check number)] node
  let _ ← fields.required "line" number
  let _ ← fields.required "column" number
  return ()

/-- Decodes a section, in which `map` decodes the map. -/
def part (map : Decoder (Option Meaning)) : Decoder (Option Meaning) := fun node => do
  let fields ← Decode.fields
    [("offset", Decode.check offset), ("url", Decode.check text), ("map", Decode.check map)] node
  let _ ← fields.required "offset" offset
  let _ ← fields.nullable "url" text
  fields.nullable "map" map

/-- Decodes the function names of all sources. -/
def allFunctions : Decoder (Option Unit) :=
  form (Decode.list (Decode.nullable (Decode.list functions)))

/-- Decodes the sections, or null. -/
def sections (map : Decoder (Option Meaning)) : Decoder (Option (List (Option Meaning))) :=
  Decode.nullable (Decode.list (part map))

/-- The fields of a record in which values of any kind nest less than `depth` arrays and objects,
and in which `map` decodes the map of a section. -/
def shape (depth : Nat) (map : Decoder (Option Meaning)) : Decode.Shape := [
  ("version", Decode.check (Decode.nullable number)),
  ("file", Decode.check (file depth)),
  ("sources", Decode.check texts),
  ("sourceRoot", Decode.check text),
  ("sourcesContent", Decode.check texts),
  ("sections", Decode.check (sections map)),
  ("names", Decode.check (names (depth - 1))),
  ("rangeMappings", Decode.check text),
  ("mappings", Decode.check text),
  ("ignoreList", Decode.check numbers),
  ("x_facebook_offsets", Decode.check (form (Decode.list (Decode.nullable number)))),
  ("x_metro_module_paths", Decode.check (form (Decode.list Decode.string))),
  ("x_facebook_sources", Decode.check allFunctions),
  ("debug_id", Decode.check debugId),
  ("debugId", Decode.check debugId)]

/-- `withContents sources contents` joins sources with their contents. A source whose content is
missing has none. -/
def withContents : List (Option String) → List (Option String) → List Source
  | [], _ => []
  | source :: rest, contents =>
    ⟨source.getD "", contents.head?.join⟩ :: withContents rest contents.tail

/-- `insert index indices` puts an index into an increasing list. -/
def insert (index : Nat) : List Nat → List Nat
  | [] => [index]
  | first :: rest =>
    if index < first then index :: first :: rest
    else if index = first then first :: rest
    else first :: insert index rest

/-- The fault of the first section whose map is no map of any format. -/
def firstFault? (parts : List (Option Meaning)) : Option MapFault :=
  parts.findSome? fun
    | some (.error .incompatible) => none
    | some (.error fault) => some fault
    | _ => none

/-- The fields of a record that has no sections as a source map. -/
def plain (depth : Nat) (fields : Decode.Fields) : Except Fault Meaning := do
  let file ← fields.optional "file" (file depth) none
  let sources ← fields.optional "sources" texts none
  let sourceRoot ← fields.optional "sourceRoot" text none
  let contents ← fields.optional "sourcesContent" texts none
  let names ← fields.optional "names" (names (depth - 1)) none
  let ranges ← fields.optional "rangeMappings" text none
  let mappings ← fields.optional "mappings" text none
  let ignored ← fields.optional "ignoreList" numbers none
  let oldId ← fields.optional "debug_id" debugId none
  let newId ← fields.optional "debugId" debugId none
  let sources := withContents (sources.getD []) (contents.getD [])
  let names := names.getD []
  return (Mapping.read ⟨sources.length, names.length⟩ (mappings.getD "").toList
    (ranges.getD "").toList).map fun mappings => {
      file, sourceRoot, sources, names, mappings
      ignored := (ignored.getD []).foldr insert []
      debugId := oldId.orElse fun _ => newId }

/-- The fields of a record, with the maps of its sections decoded by `map`. -/
def meaning (depth : Nat) (map : Decoder (Option Meaning)) (fields : Decode.Fields) :
    Except Fault Meaning := do
  match ← fields.optional "sections" (sections map) none with
  | some parts => return .error ((firstFault? parts).getD .incompatible)
  | none =>
    let meaning ← plain depth fields
    match ← fields.optional "x_facebook_sources" allFunctions none with
    | some () => return meaning.bind fun _ => .error .incompatible
    | none => return meaning

/-- Decodes a record that nests less than `depth` arrays and objects. -/
def decode (depth : Nat) : Decoder Meaning := fun node =>
  if _h : depth ≤ 1 then .error .malformed
  else
    let map : Decoder (Option Meaning) := Decode.nullable (decode (depth - 3))
    do meaning (depth - 1) map (← Decode.openFields (shape (depth - 1) map) Decode.skipped node)
termination_by depth

end Record

/-- A character of a line that keeps a text from being run as a script. -/
def isGuard (c : Char) : Bool :=
  c = ')' || c = ']' || c = '}' || c = '\''

/-- `skipGuard text` is what follows the first line of a text. A carriage return in it has to be
followed by the line feed. -/
def skipGuard : List Char → Except MapFault (List Char)
  | [] => .ok []
  | '\n' :: rest => .ok ('\n' :: rest)
  | ['\r'] => .ok []
  | '\r' :: c :: rest => if c = '\n' then .ok (c :: rest) else .error .expectedNewline
  | _ :: rest => skipGuard rest

/-- The text of the record in a text, which may start with a guarding line. -/
def recordText (text : List Char) : Except MapFault (List Char) :=
  if text.head?.any isGuard then skipGuard text else .ok text

/-- The source map that a text holds. -/
def read (text : String) : Except MapFault SourceMap := do
  let source ← recordText text.toList
  match decode (Record.decode depthLimit) (String.ofList source) with
  | .error fault => .error (.record fault)
  | .ok meaning => meaning

/-- The entry of a field that is left out when there is nothing to write. -/
def entry (name : String) (value : Option Value) : List (String × Value) :=
  value.toList.map (name, ·)

/-- Characters as a value. -/
def ofChars (text : List Char) : Value :=
  .string (String.ofList text)

/-- The contents of sources as a value, if there is one. -/
def contents? (sources : List Source) : Option Value :=
  if sources.any (·.content.isSome) then
    some (.array (sources.map fun source => source.content.elim .null .string))
  else none

/-- The record of a source map. -/
def toJson (map : SourceMap) : Value :=
  .object <|
    [("version", .nat 3)] ++
    entry "file" (map.file.map .string) ++
    [("sources", .array (map.sources.map fun source => .string source.name))] ++
    entry "sourceRoot" (map.sourceRoot.map .string) ++
    entry "sourcesContent" (contents? map.sources) ++
    [("names", .array (map.names.map .string))] ++
    entry "rangeMappings" ((Mapping.writeRanges? map.mappings).map ofChars) ++
    [("mappings", ofChars (Mapping.write map.mappings))] ++
    entry "ignoreList" (if map.ignored = [] then none else some (.array (map.ignored.map .nat))) ++
    entry "debugId" (map.debugId.map fun id => ofChars id.text)

/-- The text of a source map. -/
def write (map : SourceMap) : String :=
  map.toJson.write

end MiniProgram.SourceMap
