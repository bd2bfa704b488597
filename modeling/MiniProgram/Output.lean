import MiniProgram.Base64
import MiniProgram.Host
import MiniProgram.Options
import MiniProgram.SourceMap.Record
import MiniProgram.Style.Sheet

/-!
# Output

A run leaves two files: the code and the stylesheet. A development build ends the code with a
comment that holds the source map, in which every source has a content. A production build leaves
the map out and compacts the stylesheet, except for the base rules in front.
-/

namespace MiniProgram

/-- What a run produces. -/
structure Artifacts where
  code : String
  map : Option SourceMap
  style : String
  deriving DecidableEq, Repr

/-- Where and how a run leaves what it produces. -/
structure OutputOptions where
  codePath : Path
  stylePath : Path
  mode : Mode
  isTypeScript : Bool
  deriving DecidableEq, Repr

/-- A file that could not be written, and why. -/
structure OutputFault where
  path : Path
  fault : FileFault
  deriving DecidableEq, Repr

/-- The text of a fault. -/
def OutputFault.message (fault : OutputFault) : String :=
  "failed to write `" ++ fault.path.text ++ "`: " ++ fault.fault.message

/-- Leaves what a run produces from a source text. -/
abbrev OutputWriter (m : Type → Type) :=
  Artifacts → String → OutputOptions → ExceptT OutputFault m Unit

namespace Output

variable {m : Type → Type} [Monad m]

/-- What stands in front of a source map in code. -/
def mapComment : String :=
  "\n//# sourceMappingURL=data:application/json;charset=utf-8;base64,"

/-- The comment that holds a source map. -/
def inlineMap (map : SourceMap) : String :=
  mapComment ++ String.ofList (Base64.encode map.write.toUTF8.toList)

/-- The text of the code file. The raw source becomes the content of sources without one, and of
all sources when the compiler has seen another text. -/
def codeText (artifacts : Artifacts) (raw : String) (options : OutputOptions) : String :=
  match options.mode, artifacts.map with
  | .watch, some map => artifacts.code ++ inlineMap (map.embed raw options.isTypeScript)
  | _, _ => artifacts.code

/-- A compacted stylesheet, in which the base rules in front are kept as they are. -/
def compactStyle (style : String) : String :=
  match baseStyle.toList.isPrefixOf? style.toList with
  | some rest => baseStyle ++ String.ofList (Style.compact rest)
  | none => String.ofList (Style.compact style.toList)

/-- The text of the stylesheet file. -/
def styleText (artifacts : Artifacts) (options : OutputOptions) : String :=
  match options.mode with
  | .build => compactStyle artifacts.style
  | .watch => artifacts.style

/-- Makes the directory of a file. -/
def makeParent (host : Host m) (path : Path) : m (Except FileFault Unit) :=
  match path.parent? with
  | some parent => host.createDirectories parent
  | none => pure (.ok ())

/-- Writes a file in a directory that is made if it is missing. -/
def writeFile (host : Host m) (path : Path) (text : String) : ExceptT OutputFault m Unit := do
  match ← (makeParent host path : m (Except FileFault Unit)) with
  | .error fault => throw ⟨path, fault⟩
  | .ok () =>
    match ← host.writeText path text with
    | .error fault => throw ⟨path, fault⟩
    | .ok () => return ()

/-- Leaves what a run produces in files of a host, the code first. -/
def write (host : Host m) : OutputWriter m := fun artifacts raw options => do
  writeFile host options.codePath (codeText artifacts raw options)
  writeFile host options.stylePath (styleText artifacts options)

end Output

end MiniProgram
