import MiniProgram.CommandLine.Run

/-!
# The command-line program

The program carries out the command that its arguments name on the files of the computer. Output
goes to the standard output and errors go to the standard error.

The host of the program neither lists directories nor launches programs. So it finds only compiler
packages that are installed directly in a project, and every compiler program counts as one that
cannot be run.
-/

namespace MiniProgram.Terminal

/-- The fault that an error of the operating system stands for. -/
def fault (error : IO.Error) : FileFault :=
  let numbered (code : UInt32) : FileFault :=
    (FileFault.ofNumber? code.toNat).getD (.other (toString error))
  match error with
  | .alreadyExists _ code _ => numbered code
  | .noFileOrDirectory _ code _ => numbered code
  | .permissionDenied _ code _ => numbered code
  | .inappropriateType _ code _ => numbered code
  | .invalidArgument _ code _ => numbered code
  | .resourceExhausted _ code _ => numbered code
  | .noSuchThing _ code _ => numbered code
  | .otherError code _ => numbered code
  | _ => .other (toString error)

/-- Runs an action and turns an error into a fault. -/
def attempt {α : Type} (action : IO α) : IO (Except FileFault α) := do
  try return .ok (← action)
  catch error => return .error (fault error)

/-- Reads a text file. -/
def readText (path : Path) : IO (Except FileFault String) := do
  match ← attempt (IO.FS.readBinFile path.text) with
  | .error fault => return .error fault
  | .ok content =>
    match String.fromUTF8? content with
    | none => return .error .invalidText
    | some text => return .ok text

/-- A path that leads to something. -/
def leads (path : Path) : IO Bool := do
  match ← attempt (IO.FS.realPath path.text) with
  | .ok _ => return true
  | .error _ => return false

/-- A path that leads to a directory, in which a single dot leads back to it. -/
def isDirectory (path : Path) : IO Bool :=
  if path.text = "" then return false else leads (path / ".")

/-- The host that works on the files of the computer. -/
def host : Host IO where
  isDirectory := isDirectory
  isFile path := do return (← leads path) && !(← isDirectory path)
  readText := readText
  names _ := return []
  createDirectories path :=
    if path.text = "" then return .ok () else attempt (IO.FS.createDirAll path.text)
  writeText path text := attempt (IO.FS.writeFile path.text text)
  launch _ _ _ := return .error .notSupported
  report message := do (← IO.getStderr).putStrLn ("ERROR " ++ message)

end MiniProgram.Terminal

/-- Carries out the command that the arguments name. -/
def main (arguments : List String) : IO UInt32 := do
  let current := ⟨toString (← IO.currentDir)⟩
  let debug ← IO.getEnv "DEBUG"
  let ending ← MiniProgram.CommandLine.run MiniProgram.Terminal.host ⟨current, debug⟩ arguments
  IO.print ending.output
  return ending.code.toUInt32
