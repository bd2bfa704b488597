import MiniProgram.Compiler.Program
import MiniProgram.Package.Manifest

/-!
# Resolving installed packages

A package can be installed several times below a project: directly, and below each package that
brings its own copy along. The highest version is chosen, and among equal versions the first one in
the order of the candidates, in which the direct installation comes first and the others are sorted
by path. A text that is no version is lower than every version.
-/

namespace MiniProgram

open Json

/-- An installed package. -/
structure Installation where
  directory : Path
  manifest : Manifest
  deriving Repr

namespace Package

/-- The name of the directory that packages are installed in. -/
def folder : String := "node_modules"

/-- A name that packages are grouped under. -/
def isScope (name : String) : Bool :=
  name.toList.head? = some '@'

/-- `a.notBehind b` orders paths by their components. -/
def notBehind (a b : Path) : Bool :=
  !Path.precedes b.components a.components

/-- `installed name owners` lists where packages could have a copy of `name` of their own, sorted by
path. -/
def installed (name : String) (owners : List Path) : List Path :=
  (owners.map fun owner => owner / folder / name).mergeSort notBehind

/-- `candidates name root owners` lists where `name` could be installed below a project. -/
def candidates (name : String) (root : Path) (owners : List Path) : List Path :=
  (root / folder / name) :: installed name owners

/-- `better best found` is the installation with the higher version, or else the earlier one. -/
def better (best : Option Installation) (found : Installation) : Option Installation :=
  match best with
  | none => some found
  | some old =>
    if Version.beforeOption old.manifest.version? found.manifest.version? then some found
    else some old

/-- The best one of the installations that were found. -/
def best (found : List Installation) : Option Installation :=
  found.foldl better none

variable {m : Type → Type} [Monad m]

/-- The packages that an entry of the folder stands for: itself, or those grouped under it. -/
def ownersOf (host : Host m) (modules : Path) (name : String) : m (List Path) := do
  if isScope name then
    return (← host.names (modules / name)).map fun child => modules / name / child
  else return [modules / name]

/-- The packages in the folder of a project. -/
def owners (host : Host m) (root : Path) : m (List Path) := do
  let modules := root / folder
  let names ← host.names modules
  return (← names.mapM (ownersOf host modules)).flatten

/-- Reads the manifest in a directory, if there is one. -/
def readManifest (host : Host m) (directory : Path) :
    ExceptT ResolveFault m (Option Installation) := do
  let path := directory / Manifest.fileName
  if ← host.isFile path then
    match ← host.readText path with
    | .error fault => throw (.invalidManifest path fault.message)
    | .ok text =>
      match decode Manifest.decode text with
      | .error fault => throw (.invalidManifest path fault.message)
      | .ok manifest => return some ⟨directory, manifest⟩
  else return none

/-- The compiler that an installation declares. -/
def implementation (host : Host m) (installation : Installation) :
    Except ResolveFault (Implementation m) :=
  match installation.manifest.executable? with
  | none => .error (.noExecutable installation.manifest.name)
  | some file => .ok {
      compiler := CompilerProgram.compiler host ⟨installation.directory / file, []⟩
      baseOptions := installation.manifest.baseOptions
      version := some installation.manifest.version }

/-- Finds the compiler package of a name among the installed packages of a project. -/
def resolve (host : Host m) : Resolver m := fun name root => do
  let owners ← (owners host root : m (List Path))
  let found ← (candidates name root owners).mapM (readManifest host)
  match best (found.filterMap id) with
  | none => throw (.packageNotFound name root)
  | some installation => ofExcept (implementation host installation)

end Package

end MiniProgram
