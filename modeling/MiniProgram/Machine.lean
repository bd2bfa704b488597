import MiniProgram.Files.Tree
import MiniProgram.Host

/-!
# Machines

A machine is a host that is a value: a file tree, and a journal of the errors it was told to report
and the programs it launched. What an executable file does when it is launched is a parameter.
-/

namespace MiniProgram

/-- What a machine was told to do besides changing files. -/
inductive Event where
  | reported (message : String)
  | launched (program : Location) (arguments : List String) (input : String)
  deriving DecidableEq, Repr

/-- A file tree with a journal, the latest event last. -/
structure Machine where
  files : FileTree
  journal : List Event

/-- What becomes of an executable file with some content that is launched with arguments and an
input, or why it is no program. -/
abbrev Behaviour := ByteArray → List String → String → Except FileFault Outcome

namespace Machine

/-- A question that the files answer. -/
def ask {α : Type} (question : FileTree → α) : StateM Machine α := fun machine =>
  (question machine.files, machine)

/-- An order that changes the files. -/
def order {α : Type} (change : FileTree → α × FileTree) : StateM Machine α := fun machine =>
  let (answer, files) := change machine.files
  (answer, { machine with files })

/-- Notes an event. -/
def note (event : Event) : StateM Machine Unit := fun machine =>
  ((), { machine with journal := machine.journal ++ [event] })

/-- Why a program that is called by a name without a separator is not found. Such a name is searched
for in directories without programs, where dots lead to directories. -/
def searchFault (name : String) : FileFault :=
  if name = "." ∨ name = ".." then .permissionDenied
  else if FileTree.nameLimit < name.utf8ByteSize then .nameTooLong
  else .notFound

/-- The file that a program is called by: its location and its content. -/
def executable (files : FileTree) (program : Path) (arguments : List String) :
    Except FileFault (Location × ByteArray) :=
  if (program.text :: arguments).any fun text => text.toList.contains '\x00' then
    .error .nulInArgument
  else if !program.text.toList.contains '/' then .error (searchFault program.text)
  else
    match files.locate program with
    | .error fault => .error fault
    | .ok location =>
      match files.get? location with
      | none => .error .notFound
      | some (.file content true) => .ok (location, content)
      | some _ => .error .permissionDenied

/-- Launches a program. -/
def launch (behaviour : Behaviour) (program : Path) (arguments : List String) (input : String) :
    StateM Machine (Except FileFault Outcome) := fun machine =>
  match executable machine.files program arguments with
  | .error fault => (.error fault, machine)
  | .ok (location, content) =>
    match behaviour content arguments input with
    | .error fault => (.error fault, machine)
    | .ok outcome =>
      (.ok outcome,
        { machine with journal := machine.journal ++ [.launched location arguments input] })

/-- Sets the text of a file. -/
def writeText (path : Path) (text : String) (files : FileTree) :
    Except FileFault Unit × FileTree :=
  match files.write path text.toUTF8 with
  | .error fault => (.error fault, files)
  | .ok next => (.ok (), next)

/-- The host that works on a machine. -/
def host (behaviour : Behaviour) : Host (StateM Machine) where
  isDirectory path := ask fun files => files.isDirectory path
  isFile path := ask fun files => files.isFile path
  readText path := ask fun files => files.readText path
  names path := ask fun files => files.names path
  createDirectories path := order fun files => files.createDirectories path
  writeText path text := order (writeText path text)
  launch := launch behaviour
  report message := note (.reported message)

end Machine

end MiniProgram
