import MiniProgram.Options
import MiniProgram.Package.Version

/-!
# Package manifests

A package describes itself in a manifest: its name and version, the executables it declares, and
the base options it ships if it is a compiler.
-/

namespace MiniProgram

open Json

/-- The executables that a package declares: one, or one for each name. -/
inductive Executables where
  | single (file : String)
  | named (files : Table String)
  deriving DecidableEq, Repr

/-- A package manifest. -/
structure Manifest where
  name : String
  version : String
  executables : Option Executables
  baseOptions : BaseOptions
  deriving Repr

namespace Executables

/-- Decodes executables that are given by a text or a table. All of it has to denote a value. -/
def decode : Decoder Executables := fun node =>
  if (node.value? (depthLimit - 1)).isNone then .error .malformed
  else
    match node with
    | .string (some file) => .ok (.single (String.ofList file))
    | node =>
      match Decode.entries Decode.string node with
      | .ok files => .ok (.named (Table.ofEntries files))
      | .error _ => .error .noMatch

end Executables

namespace Manifest

/-- The name of the file that holds a manifest. -/
def fileName : String := "package.json"

/-- Decodes executables, or null. -/
def decodeExecutables : Decoder (Option Executables) :=
  Decode.nullable Executables.decode

/-- Decodes base options. -/
def decodeBaseOptions : Decoder BaseOptions :=
  Decode.table (depthLimit - 1)

/-- Decodes a manifest. All fields but the name may be missing. -/
def decode : Decoder Manifest := fun node => do
  let fields ← Decode.fields
    [("name", Decode.check Decode.string),
      ("version", Decode.check Decode.string),
      ("bin", Decode.check decodeExecutables),
      ("baseOptions", Decode.check decodeBaseOptions)] node
  let name ← fields.required "name" Decode.string
  let version ← fields.optional "version" Decode.string ""
  let executables ← fields.optional "bin" decodeExecutables none
  let baseOptions ← fields.optional "baseOptions" decodeBaseOptions []
  return ⟨name, version, executables, baseOptions⟩

/-- The executable of a package: the only one, the one of the package's name, or the first one. -/
def executable? (manifest : Manifest) : Option String :=
  match manifest.executables with
  | none => none
  | some (.single file) => some file
  | some (.named files) => (files.get? manifest.name).orElse fun _ => files.head?.map Prod.snd

/-- The version of a package, if it has one. -/
def version? (manifest : Manifest) : Option Version :=
  Version.ofText? manifest.version.toList

end Manifest

end MiniProgram
