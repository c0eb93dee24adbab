import Isolation.Generator.Parameters
import Isolation.Recorded.Basic

/-!
# Generating Recordings

A generated recording comes from a run of a small store. Transactions of all sessions are interleaved.
Each runs against one of the latest committed states and reads a variable at most once; it sees its own
earlier write of the variable, and the initial value if nobody has written the variable yet. Values
are the numbers of the writes to their variable, counted from one, so they are distinct.

With a staleness of zero every transaction sees the latest state. The run is then serial, and the
recording satisfies every isolation level. Larger values let transactions miss what others have
committed.

All that is random is gathered in `Choices`, and every choice is brought into its range when it is used.
So a recording is a function of its parameters and its choices.

## Main definitions

* `Generator.Choices`: What is left to chance.
* `Generator.recording?`: The recording that some choices lead to.
-/

namespace Isolation.Generator

/-- What is left to chance. Transactions are counted in the order in which they run. -/
structure Choices where
  /-- Which of the waiting transactions runs next. -/
  next : Nat → Nat
  lag : Nat → Nat
  touched : Nat → Nat → Nat
  wantsRead : Nat → Nat → Bool

/-- The latest value of each variable that has been written; later writes stand first. -/
abbrev State : Type := List (Nat × Nat)

/-- A transaction that is running. -/
structure Running where
  seen : List Nat
  own : State
  /-- The variables of all writes so far, its own included. -/
  written : List Nat
  events : List (Recorded.Event UInt64 UInt64)

/-- One more event: a read if it is wanted and the variable has not been read yet, else a write. -/
def Running.step (snapshot : State) (running : Running) (v : Nat) (wantsRead : Bool) : Running :=
  if wantsRead && !running.seen.contains v then
    { running with
      seen := v :: running.seen
      events := .read (UInt64.ofNat v)
        (((running.own ++ snapshot).lookup v).map UInt64.ofNat) :: running.events }
  else
    let value := running.written.count v + 1
    { running with
      own := (v, value) :: running.own
      written := v :: running.written
      events := .write (UInt64.ofNat v) (UInt64.ofNat value) :: running.events }

def transactionEvents (p : Parameters) (choices : Choices) (number : Nat) (snapshot : State)
    (written : List Nat) : Running :=
  (List.range p.events.toNat).foldl (fun running i =>
    running.step snapshot (choices.touched number i % p.variableCount.toNat)
      (choices.wantsRead number i)) ⟨[], [], written, []⟩

/-- A run of the store. -/
structure Run where
  /-- The sessions of the transactions that wait. -/
  waiting : List Nat
  states : List State
  written : List Nat
  sessions : List (Recorded.Session UInt64 UInt64)

/-- What waits once the entry at a place has left: the last entry takes its place. -/
def takeOut (waiting : List Nat) (place : Nat) : List Nat :=
  (waiting.set place (waiting.getLastD 0)).dropLast

def Run.turn (choices : Choices) (run : Run) (number : Nat) : Nat :=
  run.waiting.getD (choices.next number % run.waiting.length) 0

/-- The state that the next transaction sees. The first state is the empty one, so there is always one. -/
def Run.snapshot (p : Parameters) (choices : Choices) (run : Run) (number : Nat) : State :=
  let reach := min p.staleness.toNat (run.states.length - 1)
  run.states.getD (choices.lag number % (reach + 1)) []

def Run.next (p : Parameters) (choices : Choices) (run : Run) (number : Nat) : Running :=
  transactionEvents p choices number (run.snapshot p choices number) run.written

def Run.step (p : Parameters) (choices : Choices) (run : Run) (number : Nat) : Run :=
  if run.waiting.isEmpty then run
  else
    let done := run.next p choices number
    { waiting := takeOut run.waiting (choices.next number % run.waiting.length)
      states := (done.own ++ run.states.headD []) :: run.states
      written := done.written
      sessions := run.sessions.modify (run.turn choices number) (· ++ [⟨done.events.reverse, true⟩]) }

def Run.start (p : Parameters) : Run :=
  { waiting := (List.range p.sessions.toNat).flatMap fun session =>
      List.replicate p.transactions.toNat session
    states := [[]]
    written := []
    sessions := List.replicate p.sessions.toNat [] }

def byteLimit : Nat :=
  Nat.pow 2 63 - 1

def Parameters.transactionCount (p : Parameters) : Nat :=
  p.sessions.toNat * p.transactions.toNat

/-- No list of the recording is larger than a list can be, and there are addresses for all events. Sessions
    and events take up twenty-four bytes each, and a transaction that waits takes up eight. -/
def Parameters.isFeasible (p : Parameters) : Bool :=
  p.sessions.toNat * 24 ≤ byteLimit && (p.sessions = 0 || (p.transactions.toNat * 8 ≤ byteLimit &&
    (p.transactions = 0 || p.events.toNat * 24 ≤ byteLimit))) &&
  p.transactionCount * p.events.toNat * 24 ≤ UInt64.size

/-- The recording that some choices lead to. Without variables there is nothing to choose from. -/
def recording? (p : Parameters) (choices : Choices) :
    Option (List (Recorded.Session UInt64 UInt64)) :=
  if p.variableCount = 0 || !p.isFeasible then none
  else
    let start := Run.start p
    some ((List.range start.waiting.length).foldl (Run.step p choices) start).sessions

end Isolation.Generator
