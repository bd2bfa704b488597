import MiniProgram.Path
import MiniProgram.Platform

/-!
# Options

`LoaderOptions` is the record that a host build tool supplies for one app. A compiler ships base
options, an open table that is passed on to it. `CompilerOptions.merge` joins both into what the
compiler is given: the fields of the run always win, and base options under other keys are passed
on untouched.
-/

namespace MiniProgram

open Json

/-- The kind of a build: a production build, or a development build that is repeated. -/
inductive Mode where
  | build
  | watch
  deriving DecidableEq, Repr

namespace Mode

/-- The name of a mode. -/
def name : Mode → String
  | .build => "build"
  | .watch => "watch"

/-- The modes by name. -/
def named : List (String × Mode) :=
  [("build", .build), ("watch", .watch)]

end Mode

/-- What a host build tool asks for: the entry of the app, relative to its root, the directory for
the output, and how to build. -/
structure LoaderOptions where
  entryPath : Path
  outputPath : Path
  platform : Platform
  mode : Mode
  disableCopyNpm : Bool
  turnOffSourceMap : Bool
  deriving DecidableEq, Repr

/-- Decodes a path. -/
def Path.decode : Decoder Path := fun node =>
  (Decode.string node).map Path.mk

/-- The text of a path as a value. -/
def Path.toJson (path : Path) : Value :=
  .string path.text

namespace LoaderOptions

/-- The fields of the record. -/
def shape : Decode.Shape := [
  ("entryPath", Decode.check Path.decode),
  ("outputPath", Decode.check Path.decode),
  ("platform", Decode.check Platform.decode),
  ("mode", Decode.check (Decode.variants Mode.named)),
  ("disableCopyNpm", Decode.check Decode.boolean),
  ("turnOffSourceMap", Decode.check Decode.boolean)]

/-- Decodes the record. The mode and the two flags may be missing. -/
def decode : Decoder LoaderOptions := fun node => do
  let fields ← Decode.fields shape node
  let entryPath ← fields.required "entryPath" Path.decode
  let outputPath ← fields.required "outputPath" Path.decode
  let platform ← fields.required "platform" Platform.decode
  let mode ← fields.optional "mode" (Decode.variants Mode.named) .watch
  let disableCopyNpm ← fields.optional "disableCopyNpm" Decode.boolean false
  let turnOffSourceMap ← fields.optional "turnOffSourceMap" Decode.boolean false
  return ⟨entryPath, outputPath, platform, mode, disableCopyNpm, turnOffSourceMap⟩

/-- The record as a value. -/
def toJson (options : LoaderOptions) : Value :=
  .object [
    ("entryPath", options.entryPath.toJson),
    ("outputPath", options.outputPath.toJson),
    ("platform", options.platform.toJson),
    ("mode", .string options.mode.name),
    ("disableCopyNpm", .bool options.disableCopyNpm),
    ("turnOffSourceMap", .bool options.turnOffSourceMap)]

end LoaderOptions

/-- The options that a compiler ships. -/
abbrev BaseOptions := Table Value

/-- The fields that a run imposes on a compiler. -/
structure RunOptions where
  resourcePath : Path
  outputPath : Path
  sourcePath : Path
  platform : Platform
  disableCopyNpm : Bool
  turnOffSourceMap : Bool
  deriving DecidableEq, Repr

/-- What a compiler is asked to produce. -/
inductive Artifact where
  | app
  deriving DecidableEq, Repr

namespace Artifact

/-- The artifacts by name. -/
def named : List (String × Artifact) :=
  [("app", .app)]

/-- The name of an artifact. -/
def name : Artifact → String
  | .app => "app"

end Artifact

/-- The options that a compiler is given. `extra` holds the base options that no field of the run
overrides. -/
structure CompilerOptions where
  resourcePath : Path
  outputPath : Path
  sourcePath : Path
  platform : Platform
  artifact : Artifact
  sourceFileName : Path
  disableCopyNpm : Bool
  turnOffSourceMap : Bool
  extra : Table Value
  deriving Repr

namespace CompilerOptions

/-- The fields of the record that a run sets. -/
def shape : Decode.Shape := [
  ("resourcePath", Decode.check Path.decode),
  ("outputPath", Decode.check Path.decode),
  ("sourcePath", Decode.check Path.decode),
  ("platform", Decode.check Platform.decode),
  ("type", Decode.check (Decode.variants Artifact.named)),
  ("sourceFileName", Decode.check Path.decode),
  ("disableCopyNpm", Decode.check Decode.boolean),
  ("turnOffSourceMap", Decode.check Decode.boolean)]

/-- The keys of the fields that a run sets. A base option with one of these keys is overridden. -/
def runKeys : List String := [
  "resourcePath", "outputPath", "sourcePath", "platform", "type", "sourceFileName",
  "disableCopyNpm", "turnOffSourceMap"]

/-- `merge base run` joins the options that a compiler ships with the fields of a run. -/
def merge (base : BaseOptions) (run : RunOptions) : CompilerOptions where
  resourcePath := run.resourcePath
  outputPath := run.outputPath
  sourcePath := run.sourcePath
  platform := run.platform
  artifact := .app
  sourceFileName := run.resourcePath
  disableCopyNpm := run.disableCopyNpm
  turnOffSourceMap := run.turnOffSourceMap
  extra := base.filter fun entry => !runKeys.contains entry.1

/-- The record as a value: the fields of the run, then the other options by key. -/
def toJson (options : CompilerOptions) : Value :=
  .object <| [
    ("resourcePath", options.resourcePath.toJson),
    ("outputPath", options.outputPath.toJson),
    ("sourcePath", options.sourcePath.toJson),
    ("platform", options.platform.toJson),
    ("type", .string options.artifact.name),
    ("sourceFileName", options.sourceFileName.toJson),
    ("disableCopyNpm", .bool options.disableCopyNpm),
    ("turnOffSourceMap", .bool options.turnOffSourceMap)] ++ options.extra

/-- Decodes an option that is passed on. It stands one level below the record. -/
def decodeExtra : Decoder Value :=
  Decode.any (depthLimit - 1)

/-- The record that fields make up, with no option passed on. -/
def ofFields (fields : Decode.Fields) : Except Fault CompilerOptions := do
  let resourcePath ← fields.required "resourcePath" Path.decode
  let outputPath ← fields.required "outputPath" Path.decode
  let sourcePath ← fields.required "sourcePath" Path.decode
  let platform ← fields.required "platform" Platform.decode
  let artifact ← fields.required "type" (Decode.variants Artifact.named)
  let sourceFileName ← fields.required "sourceFileName" Path.decode
  let disableCopyNpm ← fields.required "disableCopyNpm" Decode.boolean
  let turnOffSourceMap ← fields.required "turnOffSourceMap" Decode.boolean
  return {
    resourcePath, outputPath, sourcePath, platform, artifact, sourceFileName, disableCopyNpm,
    turnOffSourceMap, extra := [] }

/-- Decodes the record, which has to be an object. Unknown keys are options to be passed on, of
which the last one of a key counts. -/
def decode : Decoder CompilerOptions := fun node => do
  let fields ← Decode.openFields shape (Decode.check decodeExtra) node
  let options ← ofFields fields
  let extra ← fields.others.mapM fun entry => (decodeExtra entry.2).map ((entry.1, ·))
  return { options with extra := Table.ofEntries extra }

/-- Decodes the record from an object in memory, where unknown keys are passed on as they are. -/
def ofObject (object : Table Value) : Except Fault CompilerOptions := do
  let fields ← Decode.openFields shape (fun _ => .ok ()) (Node.ofValue (.object object))
  let options ← ofFields fields
  return { options with extra := object.filter fun entry => !runKeys.contains entry.1 }

end CompilerOptions

end MiniProgram
