import Isolation.History.Error

/-!
# Histories

A history is the init transaction together with the sessions of a recorded execution. It is built by
five steps: open a session, begin a transaction in it, append an event, record an initial value, and
commit. A step that would break an invariant is refused and leaves no trace.

The invariant that matters most is that no value is stored twice under the same key. It makes
"reading a value" the same as "reading from one particular event", which is what `writerOf?` says,
and everything later in the library rests on that identification. The history itself keeps no index of
its writes: the writer is found by looking through the events, so there is nothing that could fall out of
step with them. While a history is being recorded, a `Recorder` keeps the index beside it.

## Main definitions

* `History`, `History.writerOf?`: Histories, and who has written a value.
* `History.addTransaction`, `History.addEvent`, `History.commit`: Some of the building steps.
-/

namespace Isolation

/-- The init transaction and the sessions of a recorded execution. -/
structure History (κ ν : Type) where
  init : Transaction κ ν
  sessions : List (Session κ ν)
deriving DecidableEq

namespace History

variable {κ ν : Type}

/-- The history without sessions and without initial values. -/
def empty : History κ ν := ⟨.start .init, []⟩

/-- Sessions are counted from one; there is no session zero. -/
def session? (h : History κ ν) (id : Nat) : Option (Session κ ν) :=
  match id with
  | 0 => none
  | index + 1 => h.sessions[index]?

def transaction? (h : History κ ν) (id : TransactionId) : Option (Transaction κ ν) :=
  if id.isInit then (if id.height = 0 then some h.init else none)
  else (h.session? id.session).bind fun s => s.transactions[id.height]?

/-- All transactions: the init transaction, then session by session. -/
def transactions (h : History κ ν) : List (Transaction κ ν) :=
  h.init :: h.sessions.flatMap Session.transactions

/-- The transactions of all sessions, without the init transaction. -/
def clientTransactions (h : History κ ν) : List (Transaction κ ν) :=
  h.sessions.flatMap Session.transactions

/-- All events, those of the init transaction first. -/
def events (h : History κ ν) : List (Event κ ν) :=
  h.transactions.flatMap Transaction.events

def sessionCount (h : History κ ν) : Nat :=
  h.sessions.length

/-- Number of transactions, the init transaction included. -/
def transactionCount (h : History κ ν) : Nat :=
  h.transactions.length

/-- Number of events, initial values included. -/
def eventCount (h : History κ ν) : Nat :=
  h.events.length

/-- The event that stores this value under this key. -/
def writerOf? [DecidableEq κ] [DecidableEq ν] (h : History κ ν) (key : κ) (value : ν) :
    Option EventId :=
  h.transactions.findSome? fun t =>
    (t.events.findIdx? (Event.writes key value)).map fun index => ⟨t.id, index⟩

def modifyTransaction (h : History κ ν) (id : TransactionId)
    (change : Transaction κ ν → Transaction κ ν) : History κ ν :=
  match id.session with
  | 0 => { h with init := change h.init }
  | index + 1 =>
    { h with
      sessions := h.sessions.modify index fun s =>
        { s with transactions := s.transactions.modify id.height change } }

/-- Opens a session behind the others and gives its number. -/
def addSession (h : History κ ν) : Nat × History κ ν :=
  let id := h.sessions.length + 1
  (id, { h with sessions := h.sessions ++ [⟨id, []⟩] })

/-- Begins a transaction at the end of a session. -/
def addTransaction (h : History κ ν) (session : Nat) :
    Except (HistoryError κ ν) (TransactionId × History κ ν) :=
  match session, h.session? session with
  | index + 1, some s =>
    let id : TransactionId := ⟨session, s.transactions.length⟩
    .ok (id, { h with
      sessions := h.sessions.modify index fun s =>
        { s with transactions := s.transactions ++ [.start id] } })
  | _, _ => .error (.unknownSession session)

/-- Commits a transaction that is still running. -/
def commit (h : History κ ν) (id : TransactionId) : Except (HistoryError κ ν) (History κ ν) :=
  if id.isInit then .error .initTransaction
  else match h.transaction? id with
    | none => .error (.unknownTransaction id)
    | some t =>
      if t.committed then .error (.alreadyCommitted id)
      else .ok (h.modifyTransaction id fun t => { t with committed := true })

section Events

variable [DecidableEq κ] [DecidableEq ν]

/-- Appends an event to a running transaction. The init transaction takes writes only, and no value
    is stored twice under the same key. -/
def addEvent (h : History κ ν) (id : TransactionId) (kind : EventKind) (key : κ) (value : ν) :
    Except (HistoryError κ ν) (EventId × History κ ν) :=
  if id.isInit && kind == .read then .error .initTransaction
  else match h.transaction? id with
    | none => .error (.unknownTransaction id)
    | some t =>
      if t.committed then .error (.alreadyCommitted id)
      else
        let eventId : EventId := ⟨id, t.events.length⟩
        let appended := h.modifyTransaction id fun t =>
          { t with events := t.events ++ [⟨id, kind, key, value⟩] }
        match kind with
        | .read => .ok (eventId, appended)
        | .write =>
          match h.writerOf? key value with
          | some existing => .error (.duplicateWrite key value existing eventId)
          | none => .ok (eventId, appended)

/-- Records the value a key has before the recording starts. -/
def addInitialWrite (h : History κ ν) (key : κ) (value : ν) :
    Except (HistoryError κ ν) (EventId × History κ ν) :=
  h.addEvent .init .write key value

end Events

end History

end Isolation
