import Isolation.Json.Codec
import Isolation.Recorded.Basic
import Isolation.Text.Utf8

/-!
# Binary Logs

The binary form of recorded sessions. A header with counts and descriptions comes first, then the
sessions. Numbers are 64-bit words, the lowest byte first; a text or a list is preceded by its length; a
flag is a byte that is zero or one. Keys are numbers.

The format records whether each event and each transaction succeeded. Only logs in which everything
succeeded are accepted, and the counts in the header must be those of the body.

A log cannot say that a read saw an initial value. Zero stands for it: a read of zero that nobody in the
log wrote is a read of the initial value.

## Main definitions

* `BinaryLog`, `LogError`: Logs, and why bytes are none.
-/

namespace Isolation

namespace BinaryLog

/-- What a log says about itself. -/
structure Header where
  id : UInt64
  sessionCount : UInt64
  variableCount : UInt64
  transactionCount : UInt64
  eventCount : UInt64
  info : String
  start : String
  stop : String
deriving DecidableEq

instance : JsonCodec Header where
  encode header :=
    .object [("id", JsonCodec.encode header.id), ("n_node", JsonCodec.encode header.sessionCount),
      ("n_variable", JsonCodec.encode header.variableCount),
      ("n_transaction", JsonCodec.encode header.transactionCount),
      ("n_event", JsonCodec.encode header.eventCount), ("info", .string header.info),
      ("start", .string header.start), ("end", .string header.stop)]
  decode? json := do
    let [id, sessions, variableCount, transactions, events, info, start, stop] ←
      json.slots? ["id", "n_node", "n_variable", "n_transaction", "n_event", "info", "start", "end"]
      | none
    return ⟨← id.required?, ← sessions.required?, ← variableCount.required?, ← transactions.required?,
      ← events.required?, ← info.required?, ← start.required?, ← stop.required?⟩

abbrev Sessions : Type := List (Recorded.Session UInt64 UInt64)

/-- Why bytes cannot be read further. -/
inductive Cause where
  | shortWord
  /-- The input ends inside a text or its length. -/
  | shortText
  | badText (fault : Text.Utf8Fault)
  /-- A flag is missing, or neither zero nor one. -/
  | badFlag
  | trailing
deriving DecidableEq

/-- The wording of a cause; two of them go without saying. -/
def Cause.message : Cause → String
  | .shortWord => ""
  | .shortText => "expected a UTF-8 string"
  | .badText fault => "expected a UTF-8 string\n" ++ fault.message
  | .badFlag => "expected a boolean byte"
  | .trailing => ""

/-- What is counted in a header. -/
inductive Counted where
  | sessions
  | transactions
  | events
deriving DecidableEq

def Counted.text : Counted → String
  | .sessions => "sessions"
  | .transactions => "transactions"
  | .events => "events"

end BinaryLog

/-- A header and the sessions it describes. -/
structure BinaryLog where
  header : BinaryLog.Header
  sessions : BinaryLog.Sessions
deriving DecidableEq

/-- Why bytes are no acceptable log. -/
inductive LogError where
  /-- The bytes cannot be read beyond an offset. -/
  | binary (offset : Nat) (cause : BinaryLog.Cause)
  /-- The header announces a number that the body does not have. -/
  | countMismatch (what : BinaryLog.Counted) (expected : UInt64) (found : Nat)
  | failedEvent (session transaction event : Nat)
  | abortedTransaction (session transaction : Nat)
deriving DecidableEq

def LogError.message : LogError → String
  | .binary offset cause =>
    "invalid binary log at byte " ++ Nat.repr offset ++ ": " ++ cause.message
  | .countMismatch what expected found =>
    "header announces " ++ Nat.repr expected.toNat ++ " " ++ what.text ++ ", log holds " ++
      Nat.repr found
  | .failedEvent session transaction event =>
    "event " ++ Nat.repr event ++ " of transaction " ++ Nat.repr transaction ++ " in session " ++
      Nat.repr session ++ " failed"
  | .abortedTransaction session transaction =>
    "transaction " ++ Nat.repr transaction ++ " in session " ++ Nat.repr session ++ " aborted"

namespace BinaryLog

/-- The number of transactions in all sessions. -/
def countTransactions (sessions : Sessions) : Nat :=
  sessions.flatten.length

def countEvents (sessions : Sessions) : Nat :=
  (Recorded.events sessions).length

/-- Sessions with a header that counts them and says nothing else but the given text. -/
def ofSessions (sessions : Sessions) (info : String) : BinaryLog :=
  { header :=
      { id := 0
        sessionCount := UInt64.ofNat sessions.length
        variableCount := UInt64.ofNat (Recorded.keys sessions).eraseDups.length
        transactionCount := UInt64.ofNat (countTransactions sessions)
        eventCount := UInt64.ofNat (countEvents sessions)
        info := info
        start := ""
        stop := "" }
    sessions := sessions }

end BinaryLog

end Isolation
