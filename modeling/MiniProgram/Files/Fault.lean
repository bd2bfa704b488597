/-!
# Faults of file operations

Why an operation on files or programs fails, and how the operating system words it.
-/

namespace MiniProgram

/-- Why an operation on files or programs fails. -/
inductive FileFault where
  | notFound
  | permissionDenied
  | alreadyExists
  | notDirectory
  | isDirectory
  | nameTooLong
  | brokenPipe
  | noProgramFormat
  | notSupported
  | invalidText
  | nulInPath
  | nulInArgument
  | other (message : String)
  deriving DecidableEq, Repr

namespace FileFault

/-- The number of a fault that the operating system numbers. -/
def number? : FileFault → Option Nat
  | .notFound => some 2
  | .noProgramFormat => some 8
  | .permissionDenied => some 13
  | .alreadyExists => some 17
  | .notDirectory => some 20
  | .isDirectory => some 21
  | .brokenPipe => some 32
  | .nameTooLong => some 36
  | .notSupported => some 38
  | _ => none

/-- The faults that the operating system numbers. -/
def numbered : List FileFault := [
  .notFound, .noProgramFormat, .permissionDenied, .alreadyExists, .notDirectory, .isDirectory,
  .brokenPipe, .nameTooLong, .notSupported]

/-- The fault with a number of the operating system. -/
def ofNumber? (number : Nat) : Option FileFault :=
  numbered.find? fun fault => fault.number? == some number

/-- What a fault is called. -/
def description : FileFault → String
  | .notFound => "No such file or directory"
  | .noProgramFormat => "Exec format error"
  | .permissionDenied => "Permission denied"
  | .alreadyExists => "File exists"
  | .notDirectory => "Not a directory"
  | .isDirectory => "Is a directory"
  | .brokenPipe => "Broken pipe"
  | .nameTooLong => "File name too long"
  | .notSupported => "Function not implemented"
  | .invalidText => "stream did not contain valid UTF-8"
  | .nulInPath => "file name contained an unexpected NUL byte"
  | .nulInArgument => "nul byte found in provided data"
  | .other message => message

/-- The text of a fault. -/
def message (fault : FileFault) : String :=
  match fault.number? with
  | some number => fault.description ++ " (os error " ++ toString number ++ ")"
  | none => fault.description

end FileFault

end MiniProgram
