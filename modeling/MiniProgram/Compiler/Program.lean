import MiniProgram.Compiler.Response
import MiniProgram.Host

/-!
# Compiler programs

A compiler can be a program that reads a request from its input and writes a response to its
output. A failure that it reports counts whatever becomes of it. A success counts only if the
program also ends with success.
-/

namespace MiniProgram

/-- A program that compiles, with the arguments it is launched with. -/
structure CompilerProgram where
  path : Path
  arguments : List String
  deriving DecidableEq, Repr

namespace CompilerProgram

/-- The error of a program that could not be launched. -/
def launchError (program : CompilerProgram) (fault : FileFault) : CompileError :=
  .ofMessage ("failed to run `" ++ program.path.text ++ "`: " ++ fault.message)

/-- The error of a program that did not take its request. -/
def sendError (program : CompilerProgram) : CompileError :=
  .ofMessage ("failed to send source to `" ++ program.path.text ++ "`: " ++
    FileFault.brokenPipe.message)

/-- The error of a program that ended without a valid response. -/
def statusError (program : CompilerProgram) (status : Status) : CompileError :=
  .ofMessage ("`" ++ program.path.text ++ "` exited with " ++ status.message ++
    " without a valid result")

/-- The error of a program whose response does not count. -/
def noResult (program : CompilerProgram) (outcome : Outcome) : CompileError :=
  if outcome.delivered then program.statusError outcome.status else program.sendError

/-- What a program compiled, given what became of it. -/
def result (program : CompilerProgram) (outcome : Outcome) : Except CompileError Compilation :=
  match Response.ofOutput? outcome.output with
  | some (.failure error) => .error error
  | some (.success fields) =>
    if outcome.status.isSuccess then fields.compilation else .error (program.noResult outcome)
  | none => .error (program.noResult outcome)

/-- The compiler that launches a program on a host. -/
def compiler {m : Type → Type} [Monad m] (host : Host m) (program : CompilerProgram) :
    Compiler m := fun source options => do
  match ← host.launch program.path program.arguments (request source options) with
  | .error fault => throw (program.launchError fault)
  | .ok outcome => ofExcept (program.result outcome)

end CompilerProgram

end MiniProgram
