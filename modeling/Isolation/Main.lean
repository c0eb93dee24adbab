import Isolation.CommandLine.Run
import Std.Time.DateTime.Timestamp

/-!
# The Program

The commands, run on the machine. Reading, printing and the exit code are all that is done here.

## Main definitions

* `main`: Runs the command that the words of the command line give.
-/

namespace Isolation.CommandLine

def faultOf : IO.Error → FileFault
  | .noFileOrDirectory .. => .notFound
  | .alreadyExists _ code details => numbered code details
  | .inappropriateType _ code details => numbered code details
  | .permissionDenied _ code details => numbered code details
  | .resourceExhausted _ code details => numbered code details
  | .invalidArgument _ code details => numbered code details
  | error => .other (toString error) 0
where
  /-- Some of the numbers that the machine gives have a meaning here. A number may also come negated. -/
  numbered (code : UInt32) (details : String) : FileFault :=
    match (min code (0 - code)).toNat with
    | 17 => .alreadyExists
    | 20 => .notDirectory
    | 21 => .isDirectory
    | 28 => .noSpace
    | 36 => .nameTooLong
    | number => .other details number

/-- An action of the machine, with its fault as a value. -/
def attempt {α : Type} (action : IO α) : IO (Except FileFault α) := do
  return (← action.toBaseIO).mapError faultOf

instance : Host IO where
  read path := do
    return (← attempt (IO.FS.readBinFile path)).map ByteArray.toList
  create path := attempt (IO.FS.writeBinFile path .empty)
  append path bytes := attempt do
    let file ← IO.FS.Handle.mk path .append
    file.write ⟨bytes.toArray⟩
  createDirectories path := attempt (IO.FS.createDirAll path)
  now := do
    let time ← Std.Time.Timestamp.now
    return Timestamp.ofNanoseconds time.toNanosecondsSinceUnixEpoch.val.toNat
  seed := do
    return UInt64.ofNat (← IO.rand 0 (UInt64.size - 1))

def usage : String :=
  "Usage: audit <PATH> | convert <INPUT> <OUTPUT> | stat <PATH> | dump <PATH> | generate | schema\n"

end Isolation.CommandLine

open Isolation.CommandLine in
/-- Runs the command that the words of the command line give. -/
def main (words : List String) : IO UInt32 := do
  match Command.parse (← IO.getEnv roundsVariable) words with
  | .error .helpWanted =>
    IO.print usage
    return 0
  | .error _ =>
    IO.eprint usage
    return UInt32.ofNat failureCode
  | .ok command =>
    match ← command.run.run with
    | .ok report =>
      IO.print report.output
      return UInt32.ofNat report.code
    | .error error =>
      IO.eprintln ("error: " ++ error.message)
      return UInt32.ofNat failureCode
