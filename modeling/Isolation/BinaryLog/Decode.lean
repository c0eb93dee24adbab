import Isolation.BinaryLog.Basic

/-!
# Reading Binary Logs

Every reader takes bytes from the front and gives back what it read and the bytes behind it. A fault
carries the bytes from the place it points at, so an offset is a difference of lengths.

A length may be absurdly large. It does no harm, since an item is read only if there are bytes for it,
and the first missing byte ends everything.

Success flags are looked at after the whole input has been read, in the order of the log, and for each
transaction before its events. The counts come last.

## Main definitions

* `BinaryLog.takeLog`, `BinaryLog.decode`: The log at the front of some bytes, and the one they denote.
-/

namespace Isolation.BinaryLog

/-- A cause, and the bytes from the place where it arose. -/
structure Fault where
  rest : List UInt8
  cause : Cause

abbrev Reader (α : Type) : Type := List UInt8 → Except Fault (α × List UInt8)

/-- The number that bytes denote, the lowest first. -/
def littleEndianValue : List UInt8 → Nat
  | [] => 0
  | b :: rest => b.toNat + 256 * littleEndianValue rest

/-- Reads a word; what to say if it is cut short depends on what it is for. -/
def takeWordFor (cause : Cause) : Reader UInt64 := fun bytes =>
  let front := bytes.take 8
  if front.length = 8 then .ok (UInt64.ofNat (littleEndianValue front), bytes.drop 8)
  else .error ⟨bytes, cause⟩

/-- Reads a word. -/
def takeWord : Reader UInt64 :=
  takeWordFor .shortWord

/-- Reads a flag. -/
def takeFlag : Reader Bool
  | 0 :: rest => .ok (false, rest)
  | 1 :: rest => .ok (true, rest)
  | bytes => .error ⟨bytes, .badFlag⟩

/-- Reads a text. One that is too short is noticed behind its length, one that is no text in front of
    its length. -/
def takeText : Reader String := fun bytes =>
  (takeWordFor .shortText bytes).bind fun (length, rest) =>
    if rest.length < length.toNat then .error ⟨rest, .shortText⟩
    else match Text.decodeUtf8 (rest.take length.toNat) with
      | .ok chars => .ok (String.ofList chars, rest.drop length.toNat)
      | .error fault => .error ⟨bytes, .badText fault⟩

def takeItems {α : Type} (item : Reader α) : Nat → Reader (List α)
  | 0, bytes => .ok ([], bytes)
  | n + 1, bytes =>
    (item bytes).bind fun (first, rest) =>
      (takeItems item n rest).map fun (items, rest) => (first :: items, rest)

/-- Reads a list: its length, then its items. -/
def takeList {α : Type} (item : Reader α) : Reader (List α) := fun bytes =>
  (takeWord bytes).bind fun (length, rest) => takeItems item length.toNat rest

/-- An event as it is logged. -/
structure LoggedEvent where
  isWrite : Bool
  key : UInt64
  value : UInt64
  succeeded : Bool
deriving DecidableEq

/-- A transaction as it is logged. -/
structure LoggedTransaction where
  events : List LoggedEvent
  succeeded : Bool
deriving DecidableEq

def takeEvent : Reader LoggedEvent := fun bytes => do
  let (isWrite, rest) ← takeFlag bytes
  let (key, rest) ← takeWord rest
  let (value, rest) ← takeWord rest
  let (succeeded, rest) ← takeFlag rest
  return (⟨isWrite, key, value, succeeded⟩, rest)

def takeTransaction : Reader LoggedTransaction := fun bytes => do
  let (events, rest) ← takeList takeEvent bytes
  let (succeeded, rest) ← takeFlag rest
  return (⟨events, succeeded⟩, rest)

def takeHeader : Reader Header := fun bytes => do
  let (id, rest) ← takeWord bytes
  let (sessionCount, rest) ← takeWord rest
  let (variableCount, rest) ← takeWord rest
  let (transactionCount, rest) ← takeWord rest
  let (eventCount, rest) ← takeWord rest
  let (info, rest) ← takeText rest
  let (start, rest) ← takeText rest
  let (stop, rest) ← takeText rest
  return (⟨id, sessionCount, variableCount, transactionCount, eventCount, info, start, stop⟩, rest)

/-- Reads a header and the sessions behind it. -/
def takeLog : Reader (Header × List (List LoggedTransaction)) := fun bytes => do
  let (header, rest) ← takeHeader bytes
  let (sessions, rest) ← takeList (takeList takeTransaction) rest
  return ((header, sessions), rest)

/-- The first event of a transaction that did not succeed. -/
def failedEvent? (session index : Nat) (t : LoggedTransaction) : Option LogError :=
  (t.events.findIdx? fun e => !e.succeeded).map fun event => .failedEvent session index event

def sessionFailure? (session : Nat) (transactions : List LoggedTransaction) : Option LogError :=
  transactions.zipIdx.findSome? fun (t, index) =>
    if t.succeeded then failedEvent? session index t else some (.abortedTransaction session index)

/-- The first entry of a log that did not succeed. -/
def firstFailure? (sessions : List (List LoggedTransaction)) : Option LogError :=
  sessions.zipIdx.findSome? fun (transactions, session) => sessionFailure? session transactions

def zeroedKeys (sessions : List (List LoggedTransaction)) : List UInt64 :=
  (sessions.flatten.flatMap LoggedTransaction.events).filterMap fun e =>
    if e.isWrite && e.value == 0 then some e.key else none

/-- An event as a client would have recorded it. -/
def recordedEvent (zeroed : List UInt64) (e : LoggedEvent) : Recorded.Event UInt64 UInt64 :=
  if e.isWrite then .write e.key e.value
  else if e.value == 0 && !zeroed.contains e.key then .read e.key none
  else .read e.key (some e.value)

/-- Sessions as clients would have recorded them. -/
def recordedSessions (sessions : List (List LoggedTransaction)) : Sessions :=
  let zeroed := zeroedKeys sessions
  sessions.map fun transactions => transactions.map fun t =>
    ⟨t.events.map (recordedEvent zeroed), true⟩

/-- The first count of the header that the body does not have. -/
def countMismatch? (header : Header) (sessions : Sessions) : Option LogError :=
  [(Counted.sessions, header.sessionCount, sessions.length),
    (.transactions, header.transactionCount, countTransactions sessions),
    (.events, header.eventCount, countEvents sessions)].findSome?
    fun (what, expected, found) =>
      if expected.toNat = found then none else some (.countMismatch what expected found)

def decode (bytes : List UInt8) : Except LogError BinaryLog :=
  match takeLog bytes with
  | .error fault => .error (.binary (bytes.length - fault.rest.length) fault.cause)
  | .ok ((header, logged), rest) =>
    if !rest.isEmpty then .error (.binary (bytes.length - rest.length) .trailing)
    -- From here on the bytes are a log, and only its content can be wrong.
    else match firstFailure? logged with
      | some error => .error error
      | none =>
        let sessions := recordedSessions logged
        match countMismatch? header sessions with
        | some error => .error error
        | none => .ok ⟨header, sessions⟩

end Isolation.BinaryLog
