import Isolation.History.Basic

/-!
# Local Consistency

Some faults of a history can be seen without asking how its transactions were ordered: a transaction
that never committed, a value nobody stored, a read that ignores its own transaction's write, a read
of a value its writer had already replaced. `History.validate` scans for them in the order of the
recording and reports the first. Only histories that pass are worth an audit.

## Main definitions

* `History.validate`: The first fault of a history.
-/

namespace Isolation.History

variable {κ ν : Type} [DecidableEq κ] [DecidableEq ν]

/-- The write at this place is followed by another write of the key in the same transaction. -/
def overwritten (h : History κ ν) (write : EventId) (key : κ) : Bool :=
  (h.transaction? write.transaction).any fun t => t.overwritesAfter key write.index

/-- What is wrong with the read at a position of a transaction. -/
def readFault? (h : History κ ν) (t : Transaction κ ν) (index : Nat) (e : Event κ ν) :
    Option (Malformed κ ν) :=
  let read : EventId := ⟨t.id, index⟩
  match h.writerOf? e.key e.value with
  | none => some (.missingWrite read e.key e.value)
  | some write =>
    if write.transaction = t.id ∧ index < write.index then
      some (.futureRead read write e.key e.value)
    else match t.lastWriteBefore? e.key index with
      | some own =>
        if write.transaction ≠ t.id ∨ write.index ≠ own then
          some (.notOwnWrite read ⟨t.id, own⟩ e.key e.value)
        else none
      | none =>
        if write.transaction ≠ t.id ∧ h.overwritten write e.key then
          some (.intermediateRead read write e.key e.value)
        else none

/-- The first fault of a transaction: that it did not commit, or else that of its first bad read. -/
def transactionFault? (h : History κ ν) (t : Transaction κ ν) : Option (Malformed κ ν) :=
  if !t.id.isInit && !t.committed then some (.uncommitted t.id)
  else t.events.zipIdx.findSome? fun (e, index) =>
    if e.isRead then h.readFault? t index e else none

/-- Accepts a history without local faults, or reports the first fault in recording order. -/
def validate (h : History κ ν) : Except (Malformed κ ν) Unit :=
  match h.transactions.findSome? h.transactionFault? with
  | some fault => .error fault
  | none => .ok ()

end Isolation.History
