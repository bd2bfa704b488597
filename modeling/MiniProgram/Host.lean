import MiniProgram.Files.Fault
import MiniProgram.Path

/-!
# Hosts

A host is the machine that a run works on, given by the questions and orders that a run has for it.
Everything that depends on a host is written for any host and any monad, so the same definitions
work on the file system of a computer and on a file tree that is a value.
-/

namespace MiniProgram

/-- How a program ended: with an exit code, or by a signal. -/
inductive Status where
  | exited (code : Nat)
  | signalled (signal : Nat)
  deriving DecidableEq, Repr

namespace Status

/-- The names of the signals, from signal 1 on. -/
def signalNames : List String := [
  "SIGHUP", "SIGINT", "SIGQUIT", "SIGILL", "SIGTRAP", "SIGABRT", "SIGBUS", "SIGFPE", "SIGKILL",
  "SIGUSR1", "SIGSEGV", "SIGUSR2", "SIGPIPE", "SIGALRM", "SIGTERM", "SIGSTKFLT", "SIGCHLD",
  "SIGCONT", "SIGSTOP", "SIGTSTP", "SIGTTIN", "SIGTTOU", "SIGURG", "SIGXCPU", "SIGXFSZ",
  "SIGVTALRM", "SIGPROF", "SIGWINCH", "SIGIO", "SIGPWR", "SIGSYS"]

/-- The name of a signal. -/
def signalName? (signal : Nat) : Option String :=
  if signal = 0 then none else signalNames[signal - 1]?

/-- The text of a status. -/
def message : Status → String
  | .exited code => "exit status: " ++ toString code
  | .signalled signal =>
    "signal: " ++ toString signal ++
      (match signalName? signal with
        | some name => " (" ++ name ++ ")"
        | none => "")

/-- A program that ended with exit code zero. -/
def isSuccess : Status → Bool
  | .exited code => code = 0
  | .signalled _ => false

end Status

/-- What became of a program: what it wrote, how it ended, and whether it took all of its input. -/
structure Outcome where
  output : ByteArray
  status : Status
  delivered : Bool

/-- The questions and orders that a run has for the machine it works on. A program is launched with
its arguments and its input. `report` shows an error message to the user. -/
structure Host (m : Type → Type) where
  isDirectory : Path → m Bool
  isFile : Path → m Bool
  readText : Path → m (Except FileFault String)
  names : Path → m (List String)
  createDirectories : Path → m (Except FileFault Unit)
  writeText : Path → String → m (Except FileFault Unit)
  launch : Path → List String → String → m (Except FileFault Outcome)
  report : String → m Unit

/-- `host.lift run` is `host` for a larger monad, in which `run` runs the actions of the host. -/
def Host.lift {m n : Type → Type} (host : Host m) (run : {α : Type} → m α → n α) : Host n where
  isDirectory path := run (host.isDirectory path)
  isFile path := run (host.isFile path)
  readText path := run (host.readText path)
  names path := run (host.names path)
  createDirectories path := run (host.createDirectories path)
  writeText path text := run (host.writeText path text)
  launch program arguments input := run (host.launch program arguments input)
  report message := run (host.report message)

end MiniProgram
