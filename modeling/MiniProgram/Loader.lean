import MiniProgram.Compiler.Basic
import MiniProgram.Compiler.Snippet
import MiniProgram.Dependency
import MiniProgram.Output
import MiniProgram.Source.Elimination
import MiniProgram.Style.Processor

/-!
# Loading an app

A run takes the source of an app through all stages: it makes the output directory, finds the
compiler, removes dead code, compiles, processes the stylesheets and leaves the code and the style
in two files. Its result is the text of a module that imports what the app depends on.

The stages are collaborators of the loader, so that each of them can be replaced. What a compiler
reports is shown to the user as it is only in debug mode.
-/

namespace MiniProgram

/-- The name of the compiler package that is used unless another one is asked for. -/
def compilerPackage : String := "jsx-compiler"

/-- The stem of the files that a run leaves. -/
def appStem : String := "app"

/-- What a run is about: the module of the app, the root of its project, and the options. -/
structure LoaderContext where
  resource : Path
  root : Path
  options : LoaderOptions
  deriving DecidableEq, Repr

/-- The entry of the app. -/
def LoaderContext.entry (context : LoaderContext) : Path :=
  context.root.join context.options.entryPath

/-- How a loader works: whether it shows what a compiler reports, and where its compiler comes
from. -/
structure LoaderConfig where
  debug : Bool
  package : String
  deriving DecidableEq, Repr

/-- Why a run fails. -/
inductive LoaderFault where
  | resolve (fault : ResolveFault)
  | compile (error : CompileError)
  | compileFailed (message : String)
  | style (fault : StyleFault)
  | output (fault : OutputFault)
  | outputDirectory (path : Path) (fault : FileFault)
  | source (path : Path) (fault : FileFault)
  deriving DecidableEq, Repr

/-- The text of a fault. -/
def LoaderFault.message : LoaderFault → String
  | .resolve fault => fault.message
  | .compile error => error.message
  | .compileFailed message => message
  | .style fault => fault.message
  | .output fault => fault.message
  | .outputDirectory path fault =>
    "failed to create output directory `" ++ path.text ++ "`: " ++ fault.message
  | .source path fault => "failed to read `" ++ path.text ++ "`: " ++ fault.message

/-- A loader with the collaborators for its stages. -/
structure Loader (m : Type → Type) where
  host : Host m
  resolver : Resolver m
  eliminate : String → String
  styles : StyleProcessor m
  writer : OutputWriter m
  config : LoaderConfig

/-- A module that is written in TypeScript. -/
def Path.isTypeScript (path : Path) : Bool :=
  path.extension? == some "ts" || path.extension? == some "tsx"

namespace Loader

variable {m : Type → Type} [Monad m]

/-- The loader that works on the files of a host. -/
def onFiles (host : Host m) (resolver : Resolver m) (config : LoaderConfig) : Loader m where
  host := host
  resolver := resolver
  eliminate := Source.eliminate
  styles := Style.process host
  writer := Output.write host
  config := config

/-- What is reported when an app does not compile. -/
def banner (platform : Platform) (resource : Path) : String :=
  "[" ++ platform.name ++ "] Error occured when handling App " ++ resource.text

/-- The fields that a run imposes on its compiler. -/
def runOptions (context : LoaderContext) : RunOptions where
  resourcePath := context.resource
  outputPath := context.options.outputPath
  sourcePath := context.entry
  platform := context.options.platform
  disableCopyNpm := context.options.disableCopyNpm
  turnOffSourceMap := context.options.turnOffSourceMap

/-- Where and how a run leaves what it produces. -/
def outputOptions (context : LoaderContext) : OutputOptions where
  codePath := context.options.outputPath / (appStem ++ ".js")
  stylePath := context.options.outputPath / context.options.platform.stylesheetName appStem
  mode := context.options.mode
  isTypeScript := context.resource.isTypeScript

/-- What a run produces. -/
def artifacts (compilation : Compilation) (style : StyleOutput) : Artifacts where
  code := compilation.code
  map := compilation.map
  style := mergeStyle (if style.style = "" then none else some style.style)

/-- The fault that a run fails with when its compiler reports an error. Outside of debug mode a
message without a position is not shown. -/
def compileFault (debug : Bool) (resource : Path) (error : CompileError) : LoaderFault :=
  if debug then .compile error
  else if error.position.isSome then
    .compileFailed (error.message ++ "\nat " ++ resource.text)
  else
    .compileFailed ("Unknown compile error! please check your code at " ++ resource.text)

/-- What is reported for an error in a source. -/
def reports (debug : Bool) (context : LoaderContext) (source : String) (error : CompileError) :
    List String :=
  banner context.options.platform context.resource ::
    if debug then (error.snippet? source context.resource).toList else []

/-- Runs one stage, whose faults become faults of the run. -/
def stage {ε α : Type} (fault : ε → LoaderFault) (action : ExceptT ε m α) :
    ExceptT LoaderFault m α := do
  match ← action.run with
  | .error cause => throw (fault cause)
  | .ok result => return result

/-- Makes the output directory. -/
def makeOutput (loader : Loader m) (context : LoaderContext) : ExceptT LoaderFault m Unit := do
  match ← loader.host.createDirectories context.options.outputPath with
  | .error fault => throw (.outputDirectory context.options.outputPath fault)
  | .ok () => return ()

/-- Compiles a source and reports an error. -/
def compile (loader : Loader m) (context : LoaderContext) (implementation : Implementation m)
    (source : String) : ExceptT LoaderFault m Compilation := do
  let options := CompilerOptions.merge implementation.baseOptions (runOptions context)
  match ← (implementation.compiler source options).run with
  | .ok compilation => return compilation
  | .error error =>
    (reports loader.config.debug context source error).forM fun message =>
      loader.host.report message
    throw (compileFault loader.config.debug context.resource error)

/-- Runs the loader on the raw source of an app. -/
def run (loader : Loader m) (context : LoaderContext) (raw : String) :
    ExceptT LoaderFault m String := do
  loader.makeOutput context
  let implementation ← stage .resolve (loader.resolver loader.config.package context.root)
  let compilation ← loader.compile context implementation (loader.eliminate raw)
  let style ← stage .style (loader.styles compilation.styleFiles context.entry)
  stage .output (loader.writer (artifacts compilation style) raw (outputOptions context))
  return Dependency.moduleText context.resource compilation.dependencies

/-- Runs the loader on the source that is read from the module of the app. -/
def runFile (loader : Loader m) (context : LoaderContext) : ExceptT LoaderFault m String := do
  match ← loader.host.readText context.resource with
  | .error fault => throw (.source context.resource fault)
  | .ok raw => loader.run context raw

end Loader

end MiniProgram
