import Isolation.Audit.Options
import Isolation.CommandLine.Grammar
import Isolation.Generator.Parameters
import Isolation.Recorded.Format

/-!
# Commands

The commands of the program with what they need to know, and how a list of words becomes one of them.

The round budget of an audit can also come from outside the words. It then counts as if it had been given
with the option, and is ignored if the option was given.

## Main definitions

* `Command`, `Command.parse`: What the program can be asked to do, and how.
-/

namespace Isolation.CommandLine

/-- A recording in a file; the path decides the format if nobody says it. -/
structure Input where
  path : String
  format : Option Format
deriving DecidableEq, Repr

def Input.formatUsed (input : Input) : Format :=
  input.format.getD (Format.detect input.path)

/-- A recording to be audited, and how. -/
structure AuditRequest where
  input : Input
  level : IsolationLevel
  pruning : PruningMode
  strategy : Strategy
  maxRounds : Option UInt64
  json : Bool
deriving DecidableEq, Repr

def AuditRequest.options (request : AuditRequest) : AuditOptions :=
  let options : AuditOptions :=
    { level := request.level, pruning := request.pruning, strategy := request.strategy }
  match request.maxRounds with
  | none => options
  | some rounds => { options with rounds := rounds.toNat }

/-- What happens to a recording on its way to another file. -/
inductive Transform where
  | identity
  /-- From snapshot isolation to serializability. -/
  | reduce
deriving DecidableEq, Repr

/-- A recording to be written to another file. -/
structure ConvertRequest where
  input : Input
  output : Input
  transform : Transform
deriving DecidableEq, Repr

/-- Recordings to be generated. -/
structure GenerateRequest where
  count : UInt64
  parameters : Generator.Parameters
  directory : String
deriving DecidableEq

/-- What the program can be asked to do. -/
inductive Command where
  | audit (request : AuditRequest)
  | convert (request : ConvertRequest)
  | stat (input : Input)
  | dump (input : Input)
  | generate (request : GenerateRequest)
  | schema
deriving DecidableEq

def formats : List (String × Format) :=
  [("text", .text), ("dbcop", .binary), ("json", .json)]

def levels : List (String × IsolationLevel) :=
  [("si", .snapshotIsolation), ("ser", .serializable)]

def prunings : List (String × PruningMode) :=
  [("iterative", .iterative), ("preprocess-only", .preprocessOnly)]

def strategies : List (String × Strategy) :=
  [("dense", .dense), ("sparse", .sparse)]

def transforms : List (String × Transform) :=
  [("identity", .identity), ("si2ser", .reduce)]

/-- An option whose value is one of some names. -/
def choiceRule {α : Type} (name : String) (table : List (String × α)) : OptionRule :=
  ⟨name, some (.choice (table.map Prod.fst)), false⟩

def numberRule (name : String) : OptionRule :=
  ⟨name, some .number, true⟩

/-- What may follow a command that reads one file. -/
def inputGrammar : Grammar :=
  ⟨["path"], [choiceRule "format" formats]⟩

def auditGrammar : Grammar :=
  ⟨["path"], [choiceRule "format" formats, choiceRule "level" levels,
    choiceRule "pruning" prunings, choiceRule "reachability" strategies,
    ⟨"max-rounds", some .number, false⟩, ⟨"json", none, false⟩]⟩

def convertGrammar : Grammar :=
  ⟨["input", "output"], [choiceRule "from" formats, choiceRule "to" formats,
    choiceRule "transform" transforms]⟩

def generateGrammar : Grammar :=
  ⟨[], [numberRule "n-hist", numberRule "n-node", numberRule "n-var", numberRule "n-txn",
    numberRule "n-evt", ⟨"staleness", some .number, false⟩, ⟨"output-dir", some .path, true⟩]⟩

namespace Arguments

def value (arguments : Arguments) (name : String) : String :=
  (List.lookup name arguments).getD ""

/-- The meaning of the value of a name that may have been left out. -/
def choice? {α : Type} (arguments : Arguments) (name : String) (table : List (String × α)) :
    Option α :=
  (List.lookup name arguments).bind fun value => List.lookup value table

def number? (arguments : Arguments) (name : String) : Option UInt64 :=
  (List.lookup name arguments).bind fun value => Text.wordOfText? value.toList

/-- A file and the format that was given for it. -/
def input (arguments : Arguments) (path format : String) : Input :=
  ⟨arguments.value path, arguments.choice? format formats⟩

def auditRequest (arguments : Arguments) : AuditRequest :=
  { input := arguments.input "path" "format"
    level := (arguments.choice? "level" levels).getD .snapshotIsolation
    pruning := (arguments.choice? "pruning" prunings).getD .iterative
    strategy := (arguments.choice? "reachability" strategies).getD .dense
    maxRounds := arguments.number? "max-rounds"
    json := arguments.given "json" }

/-- The conversion that some arguments describe. -/
def convertRequest (arguments : Arguments) : ConvertRequest :=
  { input := arguments.input "input" "from"
    output := arguments.input "output" "to"
    transform := (arguments.choice? "transform" transforms).getD .identity }

/-- The recordings that some arguments describe. -/
def generateRequest (arguments : Arguments) : GenerateRequest :=
  let number (name : String) : UInt64 := (arguments.number? name).getD 0
  { count := number "n-hist"
    parameters :=
      { id := 0
        sessions := number "n-node"
        variableCount := number "n-var"
        transactions := number "n-txn"
        events := number "n-evt"
        staleness := number "staleness" }
    directory := arguments.value "output-dir" }

end Arguments

/-- The variable of the environment that may hold the round budget of an audit. -/
def roundsVariable : String :=
  "POLYSI_PRUNING_ROUNDS"

def commandNames : List String :=
  ["audit", "convert", "stat", "dump", "generate", "schema"]

/-- Words that ask for help name at most one command. -/
def helpOn : List String → UsageError
  | [] => .helpWanted
  | [word] => if word = "help" || commandNames.contains word then .helpWanted else .unknownCommand
  | _ => .unknownCommand

namespace Command

/-- The command of the given name, with the words that follow it. -/
def named (maxRounds : Option String) (name : String) (words : List String) :
    Except UsageError Command :=
  match name with
  | "audit" =>
    let defaults := maxRounds.toList.map fun value => ("max-rounds", value)
    (auditGrammar.scan defaults words).map fun arguments => .audit arguments.auditRequest
  | "convert" =>
    (convertGrammar.scan [] words).map fun arguments => .convert arguments.convertRequest
  | "stat" =>
    (inputGrammar.scan [] words).map fun arguments => .stat (arguments.input "path" "format")
  | "dump" =>
    (inputGrammar.scan [] words).map fun arguments => .dump (arguments.input "path" "format")
  | "generate" =>
    (generateGrammar.scan [] words).map fun arguments => .generate arguments.generateRequest
  | "schema" => (Grammar.scan ⟨[], []⟩ [] words).map fun _ => .schema
  | "help" => .error (helpOn words)
  | _ => .error .unknownCommand

/-- Behind two hyphens there is no command, not even if the word names one. -/
def afterSeparator : List String → UsageError
  | [] => .nothingGiven
  | word :: _ =>
    if word = "help" || commandNames.contains word then .unknownArgument else .unknownCommand

def parse (maxRounds : Option String) (words : List String) : Except UsageError Command :=
  match words with
  | [] => .error .nothingGiven
  | word :: rest =>
    match WordForm.of word with
    | .separator => .error (afterSeparator rest)
    | .long "help" none => .error .helpWanted
    | .long "help" (some _) => .error .surplusValue
    | .long _ _ => .error .unknownArgument
    | .short ('h' :: _) => .error .helpWanted
    | .short _ => .error .unknownArgument
    | .plain => named maxRounds word rest

end Command

end Isolation.CommandLine
