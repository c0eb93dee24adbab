import Isolation.History.Encoding

/-!
# Witnesses

A witness is the evidence that a history could have happened at an isolation level. For
serializability it is a serial order of the transactions. For snapshot isolation every transaction
occurs twice, once where it takes its snapshot and once where its writes take effect.

The init transaction is never listed. It comes before everything else.

## Main definitions

* `Witness`: Commit orders and split commit orders.
-/

namespace Isolation

/-- The two moments of a transaction. -/
inductive Phase where
  | start
  | commit
deriving DecidableEq, Repr

/-- An order of transactions, or of their phases. -/
inductive Witness where
  | commitOrder (order : List TransactionId)
  | splitOrder (order : List (TransactionId × Phase))
deriving DecidableEq

/-- The transactions whose commits are listed, in order. -/
def committedIn (order : List (TransactionId × Phase)) : List TransactionId :=
  (order.filter fun entry => entry.2 = .commit).map Prod.fst

namespace Witness

/-- The listed transactions in the order of their commits. -/
def commits : Witness → List TransactionId
  | .commitOrder order => order
  | .splitOrder order => committedIn order

def length (w : Witness) : Nat :=
  w.commits.length

def isEmpty (w : Witness) : Bool :=
  w.length == 0

end Witness

instance : JsonCodec Phase where
  encode
    | .start => .bool false
    | .commit => .bool true
  decode?
    | .bool false => some .start
    | .bool true => some .commit
    | _ => none

instance : JsonCodec Witness where
  encode
    | .commitOrder order => .object [("CommitOrder", JsonCodec.encode order)]
    | .splitOrder order => .object [("SplitCommitOrder", JsonCodec.encode order)]
  decode? json := do
    match ← json.case? with
    | ("CommitOrder", some contents) => return .commitOrder (← JsonCodec.decode? contents)
    | ("SplitCommitOrder", some contents) => return .splitOrder (← JsonCodec.decode? contents)
    | _ => none

end Isolation
