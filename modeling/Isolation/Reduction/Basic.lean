import Isolation.History.Encoding
import Isolation.History.Basic

/-!
# From Snapshot Isolation to Serializability

A history that has to be checked for snapshot isolation can be turned into one that has to be checked
for serializability. Every transaction is split into a read half and a write half, back to back in its
session: the read half reads the snapshot, the write half makes the writes. A read that follows an own
write of its key says nothing about the snapshot and is dropped.

What remains to be expressed is that no two transactions with a common key overlap. For every ordered
pair of such transactions there is a *conflict key*. The read half of the first writes a marker to it,
its write half reads the marker back, and the write half of the second overwrites it. In a serial order
the second's write half then cannot stand between the two halves of the first.

Conflict keys are numbered. The pairs are listed by their earlier transaction and then by their later
one, and every pair takes two numbers, the first for the order in which it is listed and the second for
the other. Each conflict key has two values of its own, so no value is stored twice.

## Main definitions

* `ReducedKey`, `ReducedValue`: Keys and values with those that were added.
* `History.reduce`: The history to be checked for serializability.
-/

namespace Isolation

/-- A key of the history, or a conflict key. -/
inductive ReducedKey (κ : Type) where
  | plain (key : κ)
  | conflict (slot : Nat)
deriving DecidableEq

/-- A value of the history, or one that was made up for a conflict key. -/
inductive ReducedValue (ν : Type) where
  | plain (value : ν)
  | generated (n : Nat)
deriving DecidableEq

/-- Conflict keys come behind the keys of the history. -/
instance {κ : Type} [Ord κ] : Ord (ReducedKey κ) where
  compare
    | .plain a, .plain b => compare a b
    | .plain _, .conflict _ => .lt
    | .conflict _, .plain _ => .gt
    | .conflict m, .conflict n => compare m n

instance {ν : Type} [Inhabited ν] : Inhabited (ReducedValue ν) := ⟨.plain default⟩

instance {κ : Type} [Render κ] : Render (ReducedKey κ) where
  plain
    | .plain key => Render.plain key
    | .conflict slot => "_c" ++ Nat.repr slot
  quoted
    | .plain key => "Original(" ++ Render.quoted key ++ ")"
    | .conflict slot => "Conflict(" ++ Nat.repr slot ++ ")"

instance {ν : Type} [Render ν] : Render (ReducedValue ν) where
  plain
    | .plain value => Render.plain value
    | .generated n => Nat.repr n
  quoted
    | .plain value => "Original(" ++ Render.quoted value ++ ")"
    | .generated n => "Generated(" ++ Nat.repr n ++ ")"

instance {κ : Type} [JsonCodec κ] : JsonCodec (ReducedKey κ) where
  encode
    | .plain key => .object [("Original", JsonCodec.encode key)]
    | .conflict slot => .object [("Conflict", .nat slot)]
  decode? json := do
    match ← json.case? with
    | ("Original", some contents) => return .plain (← JsonCodec.decode? contents)
    | ("Conflict", some contents) => return .conflict (← JsonCodec.decode? contents)
    | _ => none

instance {ν : Type} [JsonCodec ν] : JsonCodec (ReducedValue ν) where
  encode
    | .plain value => .object [("Original", JsonCodec.encode value)]
    | .generated n => .object [("Generated", .nat n)]
  decode? json := do
    match ← json.case? with
    | ("Original", some contents) => return .plain (← JsonCodec.decode? contents)
    | ("Generated", some contents) => return .generated (← JsonCodec.decode? contents)
    | _ => none

/-- The value that the read half of a pair's first transaction writes to the conflict key. -/
def markerOf (slot : Nat) : Nat := 2 * slot

/-- The value that the write half of a pair's second transaction writes to the conflict key. -/
def overwriteOf (slot : Nat) : Nat := 2 * slot + 1

/-- The two halves of a transaction. -/
inductive Half where
  | reading
  | writing
deriving DecidableEq

/-- An event of one of the halves. -/
structure HalfEvent (κ ν : Type) where
  half : Half
  kind : EventKind
  key : ReducedKey κ
  value : ReducedValue ν
deriving DecidableEq

namespace History

variable {κ ν : Type} [DecidableEq κ]

def shareKey (t u : Transaction κ ν) : Bool :=
  t.writes.any fun e => u.writesKey e.key

/-- The ordered pairs of transactions with a common key, pair by pair. -/
def slotsAmong : List (Transaction κ ν) → List (TransactionId × TransactionId)
  | [] => []
  | t :: rest =>
    (rest.filter (shareKey t)).flatMap (fun u => [(t.id, u.id), (u.id, t.id)]) ++ slotsAmong rest

/-- The ordered pairs of transactions that have a conflict key; its number is their position. -/
def conflictSlots (h : History κ ν) : List (TransactionId × TransactionId) :=
  slotsAmong h.clientTransactions

/-- The conflict keys of a transaction: its own ones and those of its partners against it. The partners
    of both lists are the same, in the same order. -/
def slotsOf (slots : List (TransactionId × TransactionId)) (id : TransactionId) :
    List (Nat × Nat) :=
  let numbered := slots.zipIdx
  let own := (numbered.filter fun (pair, _) => pair.1 = id).map Prod.snd
  let theirs := (numbered.filter fun (pair, _) => pair.2 = id).map Prod.snd
  own.zip theirs

/-- The reads of the snapshot and the writes, each in its half. -/
def plainEvents (t : Transaction κ ν) : List (HalfEvent κ ν) :=
  t.events.zipIdx.filterMap fun (e, index) =>
    match e.kind with
    | .write => some ⟨.writing, .write, .plain e.key, .plain e.value⟩
    | .read =>
      if (t.lastWriteBefore? e.key index).isSome then none
      else some ⟨.reading, .read, .plain e.key, .plain e.value⟩

/-- What a transaction does about one partner. -/
def conflictEvents (own theirs : Nat) : List (HalfEvent κ ν) :=
  [⟨.reading, .write, .conflict own, .generated (markerOf own)⟩,
    ⟨.writing, .read, .conflict own, .generated (markerOf own)⟩,
    ⟨.writing, .write, .conflict theirs, .generated (overwriteOf theirs)⟩]

/-- The events of the two halves of a transaction. -/
def halfEvents (slots : List (TransactionId × TransactionId)) (t : Transaction κ ν) :
    List (HalfEvent κ ν) :=
  plainEvents t ++ (slotsOf slots t.id).flatMap fun (own, theirs) => conflictEvents own theirs

abbrev Reduced (κ ν : Type) : Type := History (ReducedKey κ) (ReducedValue ν)

abbrev ReductionError (κ ν : Type) : Type := HistoryError (ReducedKey κ) (ReducedValue ν)

variable [DecidableEq ν]

/-- Splits one transaction at the end of a session. -/
def reduceTransaction (slots : List (TransactionId × TransactionId)) (session : Nat)
    (r : Reduced κ ν) (t : Transaction κ ν) : Except (ReductionError κ ν) (Reduced κ ν) := do
  -- Both halves exist before either has events, so their heights are consecutive.
  let (readHalf, r) ← r.addTransaction session
  let (writeHalf, r) ← r.addTransaction session
  let r ← (halfEvents slots t).foldlM (fun r e =>
    (r.addEvent (if e.half = .reading then readHalf else writeHalf) e.kind e.key e.value).map
      Prod.snd) r
  if t.committed then (← r.commit readHalf).commit writeHalf else return r

def reduceSession (slots : List (TransactionId × TransactionId)) (r : Reduced κ ν)
    (s : Session κ ν) : Except (ReductionError κ ν) (Reduced κ ν) :=
  let (session, r) := r.addSession
  s.transactions.foldlM (reduceTransaction slots session) r

/-- The history whose serializability decides whether the given one is snapshot isolated. -/
def reduce (h : History κ ν) : Except (ReductionError κ ν) (Reduced κ ν) := do
  let start ← h.init.events.foldlM (fun (r : Reduced κ ν) e =>
    (r.addInitialWrite (.plain e.key) (.plain e.value)).map Prod.snd) empty
  h.sessions.foldlM (reduceSession h.conflictSlots) start

end History

end Isolation
