import MiniProgram.Compiler.Basic
import MiniProgram.SourceMap.Record

/-!
# Requests and responses of compiler programs

A compiler program is given a request, the source and the options, and answers with a response. A
response with a valid error is a failure, whatever else it holds. Any other response has to hold
code to be a success.
-/

namespace MiniProgram

open Json

/-- The text of a request. -/
def request (source : String) (options : CompilerOptions) : String :=
  (Value.object [("source", .string source), ("options", options.toJson)]).write

/-- The fields of a response that is a success. -/
structure Success where
  code : String
  map : Option Value
  styleFiles : List Path
  dependencies : Dependencies
  deriving Repr

/-- What a compiler program answers. -/
inductive Response where
  | failure (error : CompileError)
  | success (fields : Success)
  deriving Repr

namespace Response

/-- Decodes the record of a failure, which has to be an object. -/
def decodeFailure : Decoder CompileError := fun node => do
  let fields ← Decode.openFields [("error", Decode.check CompileError.decode)] Decode.skipped node
  fields.required "error" CompileError.decode

/-- Decodes a source map of any form, or null. -/
def decodeMap : Decoder (Option Value) :=
  Decode.nullable (Decode.any depthLimit)

/-- Decodes the record of a success. All fields but the code may be missing. -/
def decodeSuccess : Decoder Success := fun node => do
  let fields ← Decode.fields
    [("code", Decode.check Decode.string),
      ("map", Decode.check decodeMap),
      ("cssFiles", Decode.check (Decode.list Path.decode)),
      ("imported", Decode.check (Decode.entries Decode.boolean))] node
  let code ← fields.required "code" Decode.string
  let map ← fields.optional "map" decodeMap none
  let styleFiles ← fields.optional "cssFiles" (Decode.list Path.decode) []
  let dependencies ← fields.optional "imported" (Decode.entries Decode.boolean) []
  return ⟨code, map, styleFiles, Table.ofEntries dependencies⟩

/-- Decodes a response: a failure if it is one, and else a success. All of it has to denote a
value. -/
def decode : Decoder Response := fun node =>
  if (node.value? depthLimit).isNone then .error .malformed
  else
    match decodeFailure node with
    | .ok error => .ok (.failure error)
    | .error _ =>
      match decodeSuccess node with
      | .ok fields => .ok (.success fields)
      | .error _ => .error .noMatch

/-- The response that the output of a program holds. -/
def ofOutput? (output : ByteArray) : Option Response :=
  (String.fromUTF8? output).bind fun text => (Json.decode decode text).toOption

end Response

/-- The error that reports a fault of a source map. -/
def CompileError.ofMapFault (fault : MapFault) : CompileError :=
  .ofMessage ("invalid source map: " ++ fault.message)

/-- The compilation that a success stands for, unless its source map is none. -/
def Success.compilation (fields : Success) : Except CompileError Compilation :=
  match fields.map with
  | none => .ok ⟨fields.code, none, fields.styleFiles, fields.dependencies⟩
  | some value =>
    match SourceMap.read value.write with
    | .error fault => .error (.ofMapFault fault)
    | .ok map => .ok ⟨fields.code, some map, fields.styleFiles, fields.dependencies⟩

end MiniProgram
