import MiniProgram.CommandLine.Arguments
import MiniProgram.Package.Resolver
import MiniProgram.Text.Terminal

/-!
# Running commands

A command is carried out on a host. Its output is text for the standard output, and a command that
fails reports why. The loader options of an app come from a configuration file if there is one, and
else from the settings. Whatever is reported meets the user on a terminal.
-/

namespace MiniProgram

open Json

/-- What a program finds around it: the current directory, and the value of the variable that
switches debug mode on. -/
structure Surroundings where
  current : Path
  debug : Option String
  deriving DecidableEq, Repr

/-- How a call ends: with an exit code and a text for the standard output. -/
structure Ending where
  code : Nat
  output : String
  deriving DecidableEq, Repr

/-- Why a command fails. -/
inductive CommandFault where
  | loader (fault : LoaderFault)
  | config (path : Path) (fault : Fault)
  | unknownPlatform (name : String)
  | read (path : Path) (fault : FileFault)
  deriving DecidableEq, Repr

/-- The text of a fault. -/
def CommandFault.message : CommandFault → String
  | .loader fault => fault.message
  | .config path fault => "invalid loader config `" ++ path.text ++ "`: " ++ fault.message
  | .unknownPlatform name => "unknown platform `" ++ name ++ "`"
  | .read path fault => "failed to read `" ++ path.text ++ "`: " ++ fault.message

namespace CommandLine

variable {m : Type → Type} [Monad m]

/-- Reads a text file. -/
def readFile (host : Host m) (path : Path) : ExceptT CommandFault m String := do
  match ← host.readText path with
  | .error fault => throw (.read path fault)
  | .ok text => return text

/-- The loader options that the text of a configuration file holds. -/
def configured (path : Path) (text : String) : Except CommandFault LoaderOptions :=
  match decode LoaderOptions.decode text with
  | .error fault => .error (.config path fault)
  | .ok options => .ok options

/-- The loader options that settings make up. -/
def chosen (arguments : AppArguments) : Except CommandFault LoaderOptions :=
  match Platform.ofKind? arguments.platform with
  | none => .error (.unknownPlatform arguments.platform)
  | some platform => .ok {
      entryPath := arguments.entry
      outputPath := arguments.output
      platform
      mode := arguments.mode
      disableCopyNpm := false
      turnOffSourceMap := false }

/-- The loader options of an app, whose output directory is seen from the root of its project. -/
def loaderOptions (host : Host m) (arguments : AppArguments) (root : Path) :
    ExceptT CommandFault m LoaderOptions := do
  let options ← match arguments.config with
    | some path => do ofExcept (configured path (← readFile host path))
    | none => ofExcept (chosen arguments)
  return { options with outputPath := root.join options.outputPath }

/-- Debug mode is on if the switch is given or the variable has the value `true`. -/
def isDebug (switch : Bool) (setting : Option String) : Bool :=
  switch || setting == some "true"

/-- Carries the `app` command out. -/
def runApp (host : Host m) (surroundings : Surroundings) (arguments : AppArguments) :
    ExceptT CommandFault m String := do
  let root := Path.absolute surroundings.current arguments.root
  let resource := Path.absolute surroundings.current arguments.input
  let options ← loaderOptions host arguments root
  let config := ⟨isDebug arguments.debug surroundings.debug, arguments.package⟩
  let loader := Loader.onFiles host (Package.resolve host) config
  match ← (loader.runFile ⟨resource, root, options⟩).run with
  | .error fault => throw (.loader fault)
  | .ok text => return text

/-- Carries a command out. -/
def runCommand (host : Host m) (surroundings : Surroundings) :
    Command → ExceptT CommandFault m String
  | .app arguments => runApp host surroundings arguments
  | .eliminate input => do return Source.eliminate (← readFile host input)

/-- The host whose messages are shown on a terminal. -/
def onTerminal (host : Host m) : Host m :=
  { host with report := fun message => host.report (Text.spellOut message) }

/-- Carries out what a call asks for. -/
def run (host : Host m) (surroundings : Surroundings) (arguments : List String) : m Ending := do
  let host := onTerminal host
  match Command.ofArguments arguments with
  | .error .usage => return ⟨2, ""⟩
  | .error .information => return ⟨0, ""⟩
  | .ok command =>
    match ← (runCommand host surroundings command).run with
    | .ok output => return ⟨0, output ++ "\n"⟩
    | .error fault =>
      host.report fault.message
      return ⟨1, ""⟩

end CommandLine

end MiniProgram
