import Isolation.History.Basic
import Isolation.Recorded.Basic

/-!
# From Recordings to Histories and Back

Loading numbers the sessions from one and replays every recorded step through the building steps of a
history, so a loaded history satisfies whatever those steps guarantee. A read that left its value
open sees the default value; if nobody has stored that value under the key so far, the init
transaction does so on the spot.

Two ways lead back. `History.toSessions` forgets that the init transaction is special and puts it in
front as a session of its own. `History.recording` leaves it out, and turns every read of an initial
value into one that leaves its value open.

## Main definitions

* `History.load`: The history of recorded sessions.
* `History.toSessions`, `History.recording`: A history as recorded sessions, with its init transaction
  and without.
-/

namespace Isolation.History

variable {κ ν : Type}

section Loading

variable [DecidableEq κ] [DecidableEq ν] [Inhabited ν]

/-- Makes sure that somebody stores the default value under a key; if nobody does, it is what the key
    held before the recording started. -/
def ensureInitial (h : History κ ν) (key : κ) : Except (HistoryError κ ν) (History κ ν) :=
  match h.writerOf? key default with
  | some _ => .ok h
  | none => (h.addInitialWrite key default).map Prod.snd

/-- Replays one recorded event at the end of a transaction. -/
def loadEvent (id : TransactionId) (h : History κ ν) (event : Recorded.Event κ ν) :
    Except (HistoryError κ ν) (History κ ν) :=
  match event with
  | .write key value => (h.addEvent id .write key value).map Prod.snd
  | .read key (some value) => (h.addEvent id .read key value).map Prod.snd
  | .read key none =>
    (h.ensureInitial key).bind fun h => (h.addEvent id .read key default).map Prod.snd

/-- Replays one recorded transaction at the end of a session. -/
def loadTransaction (session : Nat) (h : History κ ν) (t : Recorded.Transaction κ ν) :
    Except (HistoryError κ ν) (History κ ν) :=
  (h.addTransaction session).bind fun (id, h) =>
    (t.events.foldlM (loadEvent id) h).bind fun h =>
      if t.committed then h.commit id else .ok h

/-- Replays one recorded session behind the others. -/
def loadSession (h : History κ ν) (session : Recorded.Session κ ν) :
    Except (HistoryError κ ν) (History κ ν) :=
  let (id, h) := h.addSession
  session.foldlM (loadTransaction id) h

/-- The history of recorded sessions, or the first step that is refused. -/
def load (sessions : List (Recorded.Session κ ν)) : Except (HistoryError κ ν) (History κ ν) :=
  sessions.foldlM loadSession empty

end Loading

/-- An event as a client would have recorded it. -/
def recordEvent (e : Event κ ν) : Recorded.Event κ ν :=
  match e.kind with
  | .read => .read e.key (some e.value)
  | .write => .write e.key e.value

/-- A transaction as a client would have recorded it; the init transaction counts as committed. -/
def recordTransaction (t : Transaction κ ν) : Recorded.Transaction κ ν :=
  ⟨t.events.map recordEvent, t.id.isInit || t.committed⟩

/-- All transactions as recorded sessions. Initial values become a session of their own, in front. -/
def toSessions (h : History κ ν) : List (Recorded.Session κ ν) :=
  let sessions := h.sessions.map fun s => s.transactions.map recordTransaction
  if h.init.events.isEmpty then sessions else [recordTransaction h.init] :: sessions

section Recording

variable [DecidableEq κ] [DecidableEq ν]

/-- An event as a client would have recorded it, where reads of initial values leave them open. -/
def recordOpenEvent (h : History κ ν) (e : Event κ ν) : Recorded.Event κ ν :=
  match e.kind with
  | .write => .write e.key e.value
  | .read =>
    if (h.writerOf? e.key e.value).any fun write => write.transaction.isInit then .read e.key none
    else .read e.key (some e.value)

/-- The recorded sessions without the init transaction. -/
def recording (h : History κ ν) : List (Recorded.Session κ ν) :=
  h.sessions.map fun s => s.transactions.map fun t =>
    ⟨t.events.map h.recordOpenEvent, t.committed⟩

end Recording

end Isolation.History
