import Isolation.Audit.Basic
import Isolation.CommandLine.Command
import Isolation.CommandLine.Host
import Isolation.CommandLine.Schema
import Isolation.Generator.Seeded
import Isolation.Recorded.Reading
import Isolation.Recorded.Statistics
import Isolation.Recorded.Writing
import Isolation.Reduction.Flatten

/-!
# Running Commands

What the program does for each command, on any host. A command ends with something to print and an exit
code, or with an error. A recording that violates the level is no error: the audit did its work. Neither
is a recording that forms no history, since no execution can have led to it.

## Main definitions

* `Command.run`: Runs a command.
-/

namespace Isolation.CommandLine

/-- Why a command cannot do its work. -/
inductive CommandError where
  | file (fault : FileFault)
  /-- A JSON text could not be written to the end. -/
  | unwritten (fault : FileFault)
  | load (error : LoadError String)
  | flatten (error : FlattenError)
  /-- Recordings without variables cannot be generated. -/
  | noVariables
  | undecided (message : String)

def CommandError.message : CommandError → String
  | .file fault => fault.message
  | .unwritten fault => "invalid JSON history: " ++ fault.message
  | .load error => error.message
  | .flatten error => error.message
  | .noVariables => "--n-var must be at least 1"
  | .undecided message => message

/-- What a command has to say. -/
structure Report where
  /-- Zero for success, one for a rejected recording. -/
  code : Nat
  output : String
deriving DecidableEq, Repr

/-- The exit code of a command that cannot do its work. -/
def failureCode : Nat := 2

def Report.success (output : String) : Report := ⟨0, output⟩

section Verdict

/-- The verdict on a recording, and the history it is about. -/
def verdict (sessions : List (Recorded.Session String UInt64)) (options : AuditOptions) :
    History String UInt64 × Except (AuditError String UInt64) Witness :=
  match History.load sessions with
  | .ok h => (h, h.audit options)
  | .error error => (.empty, .error (.history error))

def verdictJson (path : String) (level : IsolationLevel)
    (result : Except (AuditError String UInt64) Witness) : Json :=
  let outcome := match result with
    | .ok witness => [("accept", .bool true), ("witness", JsonCodec.encode witness)]
    | .error error => [("accept", .bool false), ("error", JsonCodec.encode error)]
  .object ([("file", .string path), ("level", JsonCodec.encode level)] ++ outcome)

def verdictText (h : History String UInt64)
    (result : Except (AuditError String UInt64) Witness) : String :=
  match result with
  | .ok _ => "[[[[ ACCEPT ]]]]\n"
  | .error error => "[[[[ REJECT ]]]]\n" ++ error.describe h

/-- The report on a recording that has been read. -/
def auditReport (request : AuditRequest) (sessions : List (Recorded.Session String UInt64)) :
    Except CommandError Report :=
  let (h, result) := verdict sessions request.options
  let output :=
    if request.json then (verdictJson request.input.path request.level result).compact ++ "\n"
    else verdictText h result
  match result with
  | .ok _ => .ok ⟨0, output⟩
  | .error error =>
    if error.isViolation then .ok ⟨1, output⟩ else .error (.undecided error.message)

end Verdict

def converted (request : ConvertRequest) (sessions : List (Recorded.Session String UInt64)) :
    Except CommandError (List UInt8) := do
  let sessions ← match request.transform with
    | .identity => pure sessions
    | .reduce => (Recorded.serializableForm sessions).mapError .flatten
  return Recorded.write request.output.formatUsed ("converted from " ++ request.input.path) sessions

def pathIn (directory name : String) : String :=
  if directory.toList.getLast? = some '/' then directory ++ name else directory ++ "/" ++ name

section Run

variable {m : Type → Type} [Monad m] [Host m]

/-- An operation of the host, whose faults end the command. -/
def onHost {α : Type} (operation : m (Except FileFault α)) : ExceptT CommandError m α :=
  ExceptT.mk do return (← operation).mapError .file

def recordingIn (input : Input) : ExceptT CommandError m (List (Recorded.Session String UInt64)) :=
  do
    let bytes ← onHost (Host.read input.path)
    ExceptT.mk (pure ((Recorded.read input.formatUsed bytes).mapError .load))

/-- Writes a file. If the file can be created, what goes wrong later is put down to the JSON text, when it
    is one. -/
def writeFile (path : String) (format : Format) (bytes : List UInt8) :
    ExceptT CommandError m Unit := do
  onHost (Host.create path)
  ExceptT.mk do
    return (← Host.append path bytes).mapError (if format = .json then .unwritten else .file)

/-- Writes generated recordings to files named after their identifiers. -/
def generateFiles (request : GenerateRequest) : ExceptT CommandError m Report := do
  -- Nothing is created for a request that cannot be met.
  if request.parameters.variableCount = 0 then throw .noVariables
  onHost (Host.createDirectories request.directory)
  let start ← (Host.now : m Timestamp)
  let seed ← (Host.seed : m UInt64)
  let some recordings := Generator.recordings? request.parameters request.count.toNat seed
    | throw .noVariables
  let stop ← (Host.now : m Timestamp)
  for (parameters, data) in recordings do
    let envelope := Envelope.ofGenerated parameters start stop data
    writeFile (pathIn request.directory (Nat.repr parameters.id.toNat ++ ".json")) .json
      (Recorded.textBytes envelope.toJson.pretty)
  return .success ("Generated " ++ Nat.repr recordings.length ++ " histories to " ++
    request.directory ++ "\n")

def Command.run : Command → ExceptT CommandError m Report
  | .audit request => do
    let sessions ← recordingIn request.input
    ExceptT.mk (pure (auditReport request sessions))
  | .convert request => do
    let sessions ← recordingIn request.input
    let bytes ← ExceptT.mk (pure (converted request sessions))
    writeFile request.output.path request.output.formatUsed bytes
    return .success ""
  | .stat input => do
    return .success (Recorded.statistics (← recordingIn input)).text
  | .dump input => do
    return .success (Recorded.transcript (← recordingIn input))
  | .generate request => generateFiles request
  | .schema => return .success (recordingSchema.pretty ++ "\n")

end Run

end Isolation.CommandLine
