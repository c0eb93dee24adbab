import Isolation.Text.Quoted

/-!
# Transactions

A transaction is a list of reads and writes issued by one client session. It is identified by the
number of its session and its position there, and the identifiers are ordered the same way: first by
session, then by position.

Session zero is reserved. Its only member is the *init transaction*, which holds the value every key
has before the recording starts. It is never committed by anybody, so nothing that is said about
commits applies to it, and it is shown under a name of its own.

## Main definitions

* `Event`, `Transaction`, `Session`: What a history is made of.
-/

namespace Isolation

/-- The session of a transaction and its position in that session. -/
structure TransactionId where
  session : Nat
  height : Nat
deriving DecidableEq, Repr

namespace TransactionId

/-- The transaction that holds the initial values. -/
def init : TransactionId := ⟨0, 0⟩

/-- Session zero belongs to the init transaction alone. -/
def isInit (id : TransactionId) : Bool :=
  id.session == 0

instance : Ord TransactionId where
  compare := compareLex (compareOn TransactionId.session) (compareOn TransactionId.height)

/-- The order of identifiers: by session, then by position. -/
def before (a b : TransactionId) : Bool :=
  compare a b == .lt

def text (id : TransactionId) : String :=
  if id.isInit then "T(init)"
  else "T(" ++ Nat.repr id.session ++ ":" ++ Nat.repr id.height ++ ")"

end TransactionId

/-- An event is found by its transaction and its position there. -/
structure EventId where
  transaction : TransactionId
  index : Nat
deriving DecidableEq, Repr

def EventId.text (id : EventId) : String :=
  id.transaction.text ++ "#" ++ Nat.repr id.index

/-- What an event does to its key. -/
inductive EventKind where
  | read
  | write
deriving DecidableEq, Repr

/-- A read or write of a key with the value seen or stored. -/
structure Event (κ ν : Type) where
  transaction : TransactionId
  kind : EventKind
  key : κ
  value : ν
deriving DecidableEq

namespace Event

variable {κ ν : Type}

def isRead (e : Event κ ν) : Bool :=
  e.kind == .read

def isWrite (e : Event κ ν) : Bool :=
  e.kind == .write

/-- The event stores this value under this key. -/
def writes [DecidableEq κ] [DecidableEq ν] (key : κ) (value : ν) (e : Event κ ν) : Bool :=
  e.isWrite && e.key == key && e.value == value

/-- The event stores some value under this key. -/
def writesKey [DecidableEq κ] (key : κ) (e : Event κ ν) : Bool :=
  e.isWrite && e.key == key

def text [Render κ] [Render ν] (e : Event κ ν) : String :=
  (match e.kind with
    | .read => "r("
    | .write => "w(") ++ Render.plain e.key ++ ", " ++ Render.plain e.value ++ ")"

end Event

/-- The events of one transaction in program order, and whether it committed. -/
structure Transaction (κ ν : Type) where
  id : TransactionId
  events : List (Event κ ν)
  committed : Bool
deriving DecidableEq

namespace Transaction

variable {κ ν : Type}

def start (id : TransactionId) : Transaction κ ν := ⟨id, [], false⟩

/-- The reads of a transaction in program order. -/
def reads (t : Transaction κ ν) : List (Event κ ν) :=
  t.events.filter Event.isRead

/-- The writes of a transaction in program order. -/
def writes (t : Transaction κ ν) : List (Event κ ν) :=
  t.events.filter Event.isWrite

/-- The transaction stores some value under this key. -/
def writesKey [DecidableEq κ] (key : κ) (t : Transaction κ ν) : Bool :=
  t.events.any (Event.writesKey key)

/-- Position of the transaction's latest write of a key among its first events. -/
def lastWriteBefore? [DecidableEq κ] (t : Transaction κ ν) (key : κ) (index : Nat) : Option Nat :=
  (List.range (min index t.events.length)).reverse.find? fun i =>
    (t.events[i]?).any (Event.writesKey key)

/-- A write of the key follows the given position. -/
def overwritesAfter [DecidableEq κ] (t : Transaction κ ν) (key : κ) (index : Nat) : Bool :=
  (t.events.drop (index + 1)).any (Event.writesKey key)

/-- How a transaction is listed; an exclamation mark says that it has not committed. -/
def text [Render κ] [Render ν] (t : Transaction κ ν) : String :=
  t.id.text ++ " [" ++ " ".intercalate (t.events.map Event.text) ++ "]" ++
    (if t.committed then "" else "!")

end Transaction

/-- The transactions of one client in the order in which it issued them. -/
structure Session (κ ν : Type) where
  id : Nat
  transactions : List (Transaction κ ν)
deriving DecidableEq

end Isolation
