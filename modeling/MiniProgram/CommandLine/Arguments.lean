import MiniProgram.Loader

/-!
# Command-line arguments

There are two commands: `app` runs the loader on an app, and `dce` removes the dead code of a source
file. `Command.ofArguments` reads the arguments of a call. They are first taken apart into switches,
settings and operands, and then put together: an option may be given once, and a command has one
operand.

A setting is given as `--name value` or `--name=value`. Everything behind `--` is an operand.
-/

namespace MiniProgram

/-- What the `app` command is asked to do. -/
structure AppArguments where
  input : Path
  root : Path
  config : Option Path
  entry : Path
  output : Path
  platform : String
  mode : Mode
  package : String
  debug : Bool
  deriving DecidableEq, Repr

/-- What the program is asked to do. -/
inductive Command where
  | app (arguments : AppArguments)
  | eliminate (input : Path)
  deriving DecidableEq, Repr

/-- Why arguments name no command: they are wrong, or they ask for information only. -/
inductive Refusal where
  | usage
  | information
  deriving DecidableEq, Repr

namespace CommandLine

/-- A part of the arguments. -/
inductive Argument where
  | switch (name : String)
  | setting (name value : String)
  | operand (text : String)
  deriving DecidableEq, Repr

/-- The switches and settings that a command knows, by their long names. -/
structure OptionNames where
  switches : List String
  settings : List String

/-- The switches that ask for information. -/
def informative : List String := ["help", "version"]

/-- The long name of a one-letter switch. -/
def longName? : Char → Option String
  | 'v' => some "verbose"
  | 'h' => some "help"
  | 'V' => some "version"
  | _ => none

/-- An argument that is read as an option. A hyphen that stands alone is not. -/
def isOption (argument : List Char) : Bool :=
  argument.head? = some '-' && argument ≠ ['-']

/-- `switch known name` is a switch of a command. -/
def switch (known : OptionNames) (name : String) : Except Refusal Argument :=
  if informative.contains name then .error .information
  else if known.switches.contains name then .ok (.switch name)
  else .error .usage

/-- The switch that a letter stands for. -/
def letter (known : OptionNames) (c : Char) : Except Refusal Argument :=
  match longName? c with
  | some name => switch known name
  | none => .error .usage

/-- `scan known pending arguments` takes the arguments of a command apart. The first one is the
value of the setting `pending` if there is one. -/
def scan (known : OptionNames) : Option String → List String → Except Refusal (List Argument)
  | none, [] => .ok []
  | some _, [] => .error .usage
  | some name, value :: rest =>
    if isOption value.toList then .error .usage
    else (scan known none rest).map (.setting name value :: ·)
  | none, argument :: rest =>
    match argument.toList with
    | ['-', '-'] => .ok (rest.map .operand)
    | '-' :: '-' :: text =>
      let name := String.ofList (text.takeWhile (· ≠ '='))
      if known.settings.contains name then
        match text.dropWhile (· ≠ '=') with
        | [] => scan known (some name) rest
        | _ :: value => (scan known none rest).map (.setting name (String.ofList value) :: ·)
      else if text.contains '=' then .error .usage
      else do
        let first ← switch known name
        return first :: (← scan known none rest)
    | '-' :: c :: letters => do
      let first ← (c :: letters).mapM (letter known)
      return first ++ (← scan known none rest)
    | _ => (scan known none rest).map (.operand argument :: ·)

/-- The operands among arguments. -/
def operands (arguments : List Argument) : List String :=
  arguments.filterMap fun
    | .operand text => some text
    | _ => none

/-- The values that are given for a setting. -/
def values (name : String) (arguments : List Argument) : List String :=
  arguments.filterMap fun
    | .setting given value => if given = name then some value else none
    | _ => none

/-- How often a switch is given. -/
def occurrences (name : String) (arguments : List Argument) : Nat :=
  arguments.count (.switch name)

/-- The value of a setting, which may be given once. -/
def value? (name : String) (arguments : List Argument) : Except Refusal (Option String) :=
  match values name arguments with
  | [] => .ok none
  | [value] => .ok (some value)
  | _ => .error .usage

/-- The value of a switch, which may be given once. -/
def isGiven (name : String) (arguments : List Argument) : Except Refusal Bool :=
  match occurrences name arguments with
  | 0 => .ok false
  | 1 => .ok true
  | _ => .error .usage

/-- A path must not be empty. -/
def path (text : String) : Except Refusal Path :=
  if text = "" then .error .usage else .ok ⟨text⟩

/-- The only operand, a path. -/
def input (arguments : List Argument) : Except Refusal Path :=
  match operands arguments with
  | [text] => path text
  | _ => .error .usage

/-- The value of a setting that is a path. -/
def path? (name : String) (arguments : List Argument) : Except Refusal (Option Path) := do
  match ← value? name arguments with
  | none => return none
  | some text => return some (← path text)

/-- The mode of a name. -/
def mode (name : String) : Except Refusal Mode :=
  match Mode.named.lookup name with
  | some mode => .ok mode
  | none => .error .usage

/-- The value of a setting that is a mode. -/
def mode? (name : String) (arguments : List Argument) : Except Refusal (Option Mode) := do
  match ← value? name arguments with
  | none => return none
  | some text => return some (← mode text)

/-- The options of the `app` command. -/
def appOptions : OptionNames where
  switches := ["verbose", "debug"]
  settings := ["root", "config", "entry", "output", "platform", "mode", "compiler"]

/-- The settings that a configuration file replaces. -/
def replaced : List String := ["entry", "output", "platform", "mode"]

/-- The options of the `dce` command. -/
def eliminateOptions : OptionNames where
  switches := ["verbose"]
  settings := []

/-- Puts the arguments of the `app` command together. -/
def app (arguments : List Argument) : Except Refusal AppArguments := do
  let _ ← isGiven "verbose" arguments
  let debug ← isGiven "debug" arguments
  let root ← path? "root" arguments
  let config ← path? "config" arguments
  let entry ← path? "entry" arguments
  let output ← path? "output" arguments
  let platform ← value? "platform" arguments
  let mode ← mode? "mode" arguments
  let package ← value? "compiler" arguments
  let input ← input arguments
  if config.isSome ∧ replaced.any fun name => values name arguments ≠ [] then .error .usage
  else
    return {
      input, config, debug
      root := root.getD ⟨"."⟩
      entry := entry.getD ⟨"src/app"⟩
      output := output.getD ⟨"dist"⟩
      platform := platform.getD "ali"
      mode := mode.getD .watch
      package := package.getD compilerPackage }

/-- Puts the arguments of the `dce` command together. -/
def eliminate (arguments : List Argument) : Except Refusal Path := do
  let _ ← isGiven "verbose" arguments
  input arguments

/-- The names that information can be asked for. -/
def names : List String := ["app", "dce", "help"]

/-- What follows from asking for help about `arguments`: nothing, or the name of a command. -/
def help : List String → Refusal
  | [] => .information
  | [name] => if names.contains name then .information else .usage
  | _ => .usage

/-- The command of a name with its arguments. -/
def command (name : String) (arguments : List String) : Except Refusal Command :=
  match name with
  | "app" => do return .app (← app (← scan appOptions none arguments))
  | "dce" => do return .eliminate (← eliminate (← scan eliminateOptions none arguments))
  | "help" => .error (help arguments)
  | _ => .error .usage

/-- `commandFrom verbose arguments` reads arguments whose first operand names the command. The
switch in front of it may be given once. -/
def commandFrom (verbose : Nat) : List String → Except Refusal Command
  | [] => .error .usage
  | argument :: rest =>
    match argument.toList with
    | ['-', '-'] => .error .usage
    | '-' :: '-' :: name => do
      let _ ← switch eliminateOptions (String.ofList name)
      if verbose = 0 then commandFrom 1 rest else .error .usage
    | '-' :: c :: letters => do
      let given ← (c :: letters).mapM (letter eliminateOptions)
      if verbose + given.length = 1 then commandFrom 1 rest else .error .usage
    | _ => command argument rest

end CommandLine

/-- The command that arguments name. -/
def Command.ofArguments (arguments : List String) : Except Refusal Command :=
  CommandLine.commandFrom 0 arguments

end MiniProgram
