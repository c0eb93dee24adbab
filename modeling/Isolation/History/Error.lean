import Isolation.Transaction

/-!
# What Can Be Wrong With a History

Two families of faults. A `HistoryError` is the refusal of a building step, and the history is then
left as it was. A `Malformed` fault is found afterwards, in a history whose steps were all accepted:
something in it cannot have happened in any execution, whatever the isolation level.

Each fault names its cause; the wording is in one function per family.

## Main definitions

* `HistoryError`, `Malformed`: Refused building steps, and histories no execution can produce.
-/

namespace Isolation

/-- Why a building step is refused. -/
inductive HistoryError (κ ν : Type) where
  /-- The value is already stored under the key by an earlier event. -/
  | duplicateWrite (key : κ) (value : ν) (first second : EventId)
  | unknownSession (session : Nat)
  | unknownTransaction (id : TransactionId)
  | alreadyCommitted (id : TransactionId)
  /-- The init transaction neither reads nor commits. -/
  | initTransaction
deriving DecidableEq

/-- Why no execution can produce a history. -/
inductive Malformed (κ ν : Type) where
  | uncommitted (id : TransactionId)
  | missingWrite (read : EventId) (key : κ) (value : ν)
  /-- The value is stored later in the reading transaction itself. -/
  | futureRead (read write : EventId) (key : κ) (value : ν)
  /-- The read does not see the transaction's own latest write of the key. -/
  | notOwnWrite (read localWrite : EventId) (key : κ) (value : ν)
  /-- The value seen is overwritten before its writer commits. -/
  | intermediateRead (read write : EventId) (key : κ) (value : ν)
deriving DecidableEq

section Wording

variable {κ ν : Type} [Render κ] [Render ν]

/-- A key with its value, as messages show them. -/
def bindingText (key : κ) (value : ν) : String :=
  "(" ++ Render.quoted key ++ ", " ++ Render.quoted value ++ ")"

/-- The wording of a refusal. -/
def HistoryError.message : HistoryError κ ν → String
  | .duplicateWrite key value first second =>
    bindingText key value ++ " is written by both " ++ first.text ++ " and " ++ second.text
  | .unknownSession session => "unknown session " ++ Nat.repr session
  | .unknownTransaction id => "unknown transaction " ++ id.text
  | .alreadyCommitted id => id.text ++ " is already committed"
  | .initTransaction => "init transaction only accepts initial writes"

/-- The wording of a malformation. -/
def Malformed.message : Malformed κ ν → String
  | .uncommitted id => id.text ++ " did not commit"
  | .missingWrite read key value =>
    read.text ++ " reads " ++ bindingText key value ++ " which is never written"
  | .futureRead read write key value =>
    read.text ++ " reads " ++ bindingText key value ++ " written later at " ++ write.text
  | .notOwnWrite read localWrite key value =>
    read.text ++ " reads " ++ bindingText key value ++ " after its own write at " ++
      localWrite.text
  | .intermediateRead read write key value =>
    read.text ++ " reads " ++ bindingText key value ++ " from " ++ write.text ++
      ", which is overwritten before commit"

end Wording

end Isolation
