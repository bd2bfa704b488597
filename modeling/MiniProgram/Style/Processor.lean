import MiniProgram.Host
import MiniProgram.Style.Sheet

/-!
# Style processing

The stylesheets that a compiled app refers to are read and joined, and the files that they refer to
are listed. A stylesheet is looked up from the entry of the app if that is a directory, and else
from the directory that the entry is in. The file that a stylesheet refers to is looked up from the
stylesheet.
-/

namespace MiniProgram

/-- A stylesheet that could not be read, and why. -/
structure StyleFault where
  path : Path
  reason : String
  deriving DecidableEq, Repr

/-- The text of a fault. -/
def StyleFault.message (fault : StyleFault) : String :=
  "failed to read stylesheet `" ++ fault.path.text ++ "`: " ++ fault.reason

/-- The style of an app and the files that it refers to. -/
structure StyleOutput where
  style : String
  assets : List Path
  deriving DecidableEq, Repr

/-- Turns the stylesheets of an app with a given entry into its style. -/
abbrev StyleProcessor (m : Type → Type) := List Path → Path → ExceptT StyleFault m StyleOutput

/-- `distinct paths` drops every path that is the same as an earlier one. -/
def Path.distinct : List Path → List Path
  | [] => []
  | path :: rest => path :: (distinct rest).filter fun other => !path.same other

namespace Style

variable {m : Type → Type} [Monad m]

/-- A stylesheet: where it is and what it says. -/
structure Sheet where
  path : Path
  text : String
  deriving DecidableEq, Repr

/-- The directory of a stylesheet, or `base` if it has none. -/
def Sheet.directory (sheet : Sheet) (base : Path) : Path :=
  sheet.path.parent?.getD base

/-- The files that a stylesheet refers to. -/
def Sheet.assets (sheet : Sheet) (base : Path) : List Path :=
  (localUrls sheet.text.toList).map fun url => sheet.directory base / String.ofList url

/-- The directory that stylesheets are looked up from. -/
def base (host : Host m) (entry : Path) : m Path := do
  if ← host.isDirectory entry then return entry
  else return entry.parent?.getD ⟨""⟩

/-- Reads a stylesheet. -/
def readSheet (host : Host m) (base file : Path) : ExceptT StyleFault m Sheet := do
  let path := base.join file
  match ← host.readText path with
  | .error fault => throw ⟨path, fault.message⟩
  | .ok text => return ⟨path, text⟩

/-- The style that stylesheets make up. -/
def join (base : Path) (sheets : List Sheet) : StyleOutput where
  style := "\n".intercalate (sheets.map Sheet.text)
  assets := Path.distinct (sheets.flatMap fun sheet => sheet.assets base)

/-- Processes stylesheets that are files of a host. -/
def process (host : Host m) : StyleProcessor m := fun files entry => do
  let start ← (base host entry : m Path)
  let sheets ← files.mapM (readSheet host start)
  return join start sheets

end Style

end MiniProgram
