import Isolation.Recorded.Basic
import Isolation.SortedList

/-!
# Statistics of a Recording

Counts of what a recording holds, and how often keys are written. A transaction without events counts as
read-only, since it writes nothing.

## Main definitions

* `Recorded.statistics`: The counts of a recording.
-/

namespace Isolation.Recorded

/-- What a recording holds. -/
structure Statistics where
  sessions : Nat
  transactions : Nat
  readOnly : Nat
  writeOnly : Nat
  events : Nat
  reads : Nat
  writes : Nat
  keys : Nat
  /-- For each number of writes, how many keys are written that often; sorted, without zero. -/
  writesPerKey : List (Nat × Nat)
deriving DecidableEq

section Counting

variable {κ ν : Type}

def Transaction.isReadOnly (t : Transaction κ ν) : Bool :=
  t.events.all fun e => !e.isWrite

/-- There are events, and all of them are writes. -/
def Transaction.isWriteOnly (t : Transaction κ ν) : Bool :=
  !t.events.isEmpty && t.events.all Event.isWrite

/-- The distinct numbers of a list, sorted, with the number of their occurrences. -/
def tally (counts : List Nat) : List (Nat × Nat) :=
  (SortedList.ofList counts).map fun n => (n, counts.count n)

def statistics [DecidableEq κ] (sessions : List (Session κ ν)) : Statistics :=
  let transactions := sessions.flatten
  let events := events sessions
  let writes := events.filter Event.isWrite
  let written := writes.map Event.key
  { sessions := sessions.length
    transactions := transactions.length
    readOnly := transactions.countP Transaction.isReadOnly
    writeOnly := transactions.countP Transaction.isWriteOnly
    events := events.length
    reads := events.length - writes.length
    writes := writes.length
    keys := (keys sessions).eraseDups.length
    writesPerKey := tally (written.eraseDups.map written.count) }

end Counting

/-- A number in a column of the given width, flush right. -/
def column (width n : Nat) : String :=
  let digits := Nat.repr n
  String.ofList (List.replicate (width - digits.length) ' ') ++ digits

def Statistics.text (s : Statistics) : String :=
  "sessions:     " ++ Nat.repr s.sessions ++ "\n" ++
  "transactions: " ++ Nat.repr s.transactions ++ " (" ++ Nat.repr s.readOnly ++ " read-only, " ++
    Nat.repr s.writeOnly ++ " write-only)\n" ++
  "events:       " ++ Nat.repr s.events ++ " (" ++ Nat.repr s.reads ++ " reads, " ++
    Nat.repr s.writes ++ " writes)\n" ++
  "keys:         " ++ Nat.repr s.keys ++ "\n" ++
  "writes per key:\n" ++
  String.join (s.writesPerKey.map fun (writes, keys) =>
    "  " ++ column 4 writes ++ ": " ++ Nat.repr keys ++ "\n")

end Isolation.Recorded
