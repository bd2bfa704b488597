import MiniProgram.Compiler.Error
import MiniProgram.Dependency
import MiniProgram.Options
import MiniProgram.SourceMap.Basic

/-!
# Compilers

A compiler turns the source of an app into code, with the options of a run. It also says which
stylesheets belong to the app and which modules it depends on.
-/

namespace MiniProgram

/-- What a compiler makes of a source. -/
structure Compilation where
  code : String
  map : Option SourceMap
  styleFiles : List Path
  dependencies : Dependencies
  deriving DecidableEq, Repr

/-- A compiler, which may have effects in `m`. -/
abbrev Compiler (m : Type → Type) :=
  String → CompilerOptions → ExceptT CompileError m Compilation

/-- A compiler with the options that it ships and its version. -/
structure Implementation (m : Type → Type) where
  compiler : Compiler m
  baseOptions : BaseOptions
  version : Option String

/-- Why there is no compiler of some name. -/
inductive ResolveFault where
  | packageNotFound (name : String) (root : Path)
  | invalidManifest (path : Path) (reason : String)
  | noExecutable (name : String)
  deriving DecidableEq, Repr

/-- The text of a fault. -/
def ResolveFault.message : ResolveFault → String
  | .packageNotFound name root =>
    "cannot find package `" ++ name ++ "` from `" ++ root.text ++ "`"
  | .invalidManifest path reason =>
    "invalid package manifest `" ++ path.text ++ "`: " ++ reason
  | .noExecutable name => "package `" ++ name ++ "` does not declare an executable"

/-- Finds the compiler of a name for a project with a given root. -/
abbrev Resolver (m : Type → Type) := String → Path → ExceptT ResolveFault m (Implementation m)

end MiniProgram
