import LinkAsm.Command.Run

/-!
# The command

Runs the command on the files of the machine.
-/

namespace LinkAsm

/-- The number of an error of the machine, which may come with its sign changed. -/
def errorNumber (code : UInt32) : Nat :=
  if code < 0x80000000 then code.toNat else 0x100000000 - code.toNat

/-- The error of a file operation. -/
def FileError.ofMachine (e : IO.Error) : FileError :=
  match e with
  | .noFileOrDirectory .. => .notFound
  | .inappropriateType _ code _ | .invalidArgument _ code _ | .permissionDenied _ code _ =>
    match errorNumber code with
    | 13 => .accessDenied
    | 20 => .notADirectory
    | 21 => .isADirectory
    | 36 => .nameTooLong
    | _ => .other (toString e)
  | _ => .other (toString e)

/-- The outcome of an operation on the file at a path. -/
def fileResult {α : Type} (path : String) (act : IO α) : IO (Except FileError α) := do
  if path.toList.contains '\x00' then return .error .badPath
  match ← act.toBaseIO with
  | .ok x => return .ok x
  | .error e => return .error (.ofMachine e)

/-- The files of the machine. -/
def machineFiles : FileSystem IO where
  read path := fileResult path (IO.FS.readBinFile path)
  write path text := fileResult path (IO.FS.writeFile path text)

end LinkAsm

/-- Runs the command and exits with its code. -/
def main (args : List String) : IO UInt32 := do
  let report ← LinkAsm.Command.run LinkAsm.machineFiles args
  IO.print report.output
  IO.eprint report.errors
  return report.exitCode.toUInt32
