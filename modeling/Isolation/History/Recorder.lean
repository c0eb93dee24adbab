import Isolation.History.Basic

/-!
# Recording Step by Step

While a history is being recorded, it comes with an index of its writes, so that the writer of a value is
found without looking through the events. The building steps change the recorder in place. A step can be
refused at any point, and what it has changed up to there stays changed; nothing is taken back. So it is up
to the steps themselves to refuse before they change anything, and to keep the index in step with the
events.

The steps are data, with any arguments, and a recorder can be run along a list of them.

## Main definitions

* `Recorder`: A history with the index of its writes.
* `Recorder.step`, `Recorder.run`: Takes a step, accepted or not, and one after the other.
-/

namespace Isolation

/-- A history that is being recorded, with the index of its writes. -/
structure Recorder (κ ν : Type) where
  history : History κ ν
  /-- Keys and values with the events that store them, the latest first. -/
  index : List (κ × ν × EventId)
deriving DecidableEq

/-- A step that may change the recorder and may be refused, with the recorder as it is then. -/
abbrev Recording (κ ν α : Type) : Type :=
  EStateM (HistoryError κ ν) (Recorder κ ν) α

namespace Recorder

variable {κ ν : Type}

def empty : Recorder κ ν := ⟨.empty, []⟩

/-- A building step with its arguments, which can be anything. -/
inductive Step (κ ν : Type) where
  | addSession
  | addTransaction (session : Nat)
  | addEvent (id : TransactionId) (kind : EventKind) (key : κ) (value : ν)
  | addInitialWrite (key : κ) (value : ν)
  | commit (id : TransactionId)
deriving DecidableEq

/-- What an accepted step is answered by. -/
inductive Reply where
  | session (id : Nat)
  | transaction (id : TransactionId)
  | event (id : EventId)
  | committed
deriving DecidableEq

def apply {α : Type} (change : History κ ν → Except (HistoryError κ ν) (α × History κ ν)) :
    Recording κ ν α := do
  match change (← get).history with
  | .error error => throw error
  | .ok (answer, next) =>
    modify fun r => { r with history := next }
    return answer

variable [DecidableEq κ] [DecidableEq ν]

/-- The event that stores a value under a key, by the index. -/
def writerOf? (r : Recorder κ ν) (key : κ) (value : ν) : Option EventId :=
  (r.index.find? fun entry => entry.1 = key && entry.2.1 = value).map fun entry => entry.2.2

/-- Appends an event to a running transaction. The init transaction takes writes only, and no value is
    stored twice under the same key. -/
def addEvent (id : TransactionId) (kind : EventKind) (key : κ) (value : ν) :
    Recording κ ν EventId := do
  if id.isInit && kind == .read then throw .initTransaction
  match (← get).history.transaction? id with
  | none => throw (.unknownTransaction id)
  | some t =>
    if t.committed then throw (.alreadyCommitted id)
    let place : EventId := ⟨id, t.events.length⟩
    if kind == .write then
      match (← get).writerOf? key value with
      | some existing => throw (.duplicateWrite key value existing place)
      | none => modify fun r => { r with index := (key, value, place) :: r.index }
    -- From here on the index is ahead of the history, so nothing may be refused any more.
    modify fun r => { r with
      history := r.history.modifyTransaction id fun t =>
        { t with events := t.events ++ [⟨id, kind, key, value⟩] } }
    return place

def perform : Step κ ν → Recording κ ν Reply
  | .addSession => return .session (← apply fun h => .ok h.addSession)
  | .addTransaction session => return .transaction (← apply fun h => h.addTransaction session)
  | .addEvent id kind key value => return .event (← addEvent id kind key value)
  | .addInitialWrite key value => return .event (← addEvent .init .write key value)
  | .commit id => do
    apply fun h => (h.commit id).map fun next => ((), next)
    return .committed

def step (r : Recorder κ ν) (s : Step κ ν) : Except (HistoryError κ ν) Reply × Recorder κ ν :=
  match (perform s).run r with
  | .ok reply next => (.ok reply, next)
  | .error error next => (.error error, next)

/-- Takes steps one after the other, whether they are accepted or not. -/
def run (r : Recorder κ ν) (steps : List (Step κ ν)) : Recorder κ ν :=
  steps.foldl (fun r s => (r.step s).2) r

end Recorder

end Isolation
