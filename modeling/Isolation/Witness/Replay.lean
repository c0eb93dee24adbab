import Isolation.History.Basic
import Isolation.Witness.Basic

/-!
# Replaying a Witness

A witness is checked by running the transactions in the order it gives and comparing every read with
what the run would have shown. Nothing of how the witness was found is used.

What has been committed so far is kept in a store of versions. A version has the position in the order at
which it was committed, and the versions of a key are in the order of their commits. A snapshot is a position
as well: it shows the last version from before. First-committer-wins says that no key that a transaction
writes has a version from after its snapshot.

## Main definitions

* `VersionStore`: The committed versions of all keys.
* `Witness.explains`: The replay of a witness.
-/

namespace Isolation

section Replay

variable {κ ν : Type} [DecidableEq κ]

/-- The committed versions of every key, in the order of their commits, each with its position. -/
structure VersionStore (κ ν : Type) where
  versions : κ → List (Nat × ν)

namespace VersionStore

/-- Adds the version that a write brings. If a transaction writes a key again, the new version takes the
    place of the earlier one. -/
def put (position : Nat) (store : VersionStore κ ν) (e : Event κ ν) : VersionStore κ ν where
  versions key :=
    let versions := store.versions key
    if e.key = key then
      (if versions.getLast?.any (fun last => last.1 == position) then versions.dropLast else versions) ++
        [(position, e.value)]
    else versions

def install (store : VersionStore κ ν) (t : Transaction κ ν) (position : Nat) : VersionStore κ ν :=
  t.writes.foldl (put position) store

/-- The store at the beginning, with the writes of the init transaction. -/
def begin (init : Transaction κ ν) : VersionStore κ ν :=
  install ⟨fun _ => []⟩ init 0

/-- The latest value of a key that was committed before a position. -/
def readAt? (store : VersionStore κ ν) (position : Nat) (key : κ) : Option ν :=
  ((store.versions key).takeWhile fun version => version.1 < position).getLast?.map Prod.snd

/-- The position of the last commit that wrote a key. -/
def lastCommit? (store : VersionStore κ ν) (key : κ) : Option Nat :=
  (store.versions key).getLast?.map Prod.fst

end VersionStore

/-- The reads among events see the latest own write before them, or else the snapshot. The events
    before them are given, the latest first. -/
def readsMatchAfter [DecidableEq ν] (snapshot : κ → Option ν) (earlier : List (Event κ ν)) :
    List (Event κ ν) → Bool
  | [] => true
  | e :: rest =>
    (e.isWrite ||
      ((earlier.find? (Event.writesKey e.key)).map Event.value).or (snapshot e.key) ==
        some e.value) &&
      readsMatchAfter snapshot (e :: earlier) rest

/-- Every read of a transaction sees its own latest write, or else the snapshot. -/
def Transaction.readsMatch [DecidableEq ν] (t : Transaction κ ν) (snapshot : κ → Option ν) : Bool :=
  readsMatchAfter snapshot [] t.events

end Replay

/-- The entries of a list are numbered consecutively in each session, behind those already seen. -/
def inSessionOrderAfter (seen : List TransactionId) : List TransactionId → Bool
  | [] => true
  | id :: rest =>
    !id.isInit && id.height == seen.countP (fun other => other.session == id.session) &&
      inSessionOrderAfter (id :: seen) rest

variable {κ ν : Type}

/-- The list holds every transaction of every session once, sessions in order. -/
def coversSessions (h : History κ ν) (order : List TransactionId) : Bool :=
  inSessionOrderAfter [] order &&
    h.sessions.all fun s =>
      order.countP (fun id => id.session == s.id) == s.transactions.length

variable [DecidableEq κ] [DecidableEq ν]

/-- Runs transactions one after the other, the first of them at the given position. -/
def runSerial (h : History κ ν) (store : VersionStore κ ν) (position : Nat) : List TransactionId → Bool
  | [] => true
  | id :: rest =>
    match h.transaction? id with
    | none => false
    | some t =>
      t.readsMatch (store.readAt? position) &&
        runSerial h (store.install t position) (position + 1) rest

/-- A run in which transactions start and commit at different positions. -/
structure TimedRun (κ ν : Type) where
  position : Nat
  store : VersionStore κ ν
  /-- The started transactions with the positions of their starts. -/
  started : List (TransactionId × Nat)
  committed : List TransactionId
  /-- The transactions that committed in a session, the latest first. -/
  lastInSession : List (Nat × TransactionId)

namespace TimedRun

/-- Starts a transaction, if its session predecessor has committed. -/
def start? (run : TimedRun κ ν) (id : TransactionId) : Option (TimedRun κ ν) :=
  let ready := id.height == 0 ||
    run.lastInSession.lookup id.session == some ⟨id.session, id.height - 1⟩
  if ready && (run.started.lookup id).isNone then
    some { run with position := run.position + 1, started := (id, run.position) :: run.started }
  else none

/-- Commits a transaction: its reads match its snapshot, and nobody who committed since then wrote one
    of its keys. -/
def commit? (run : TimedRun κ ν) (id : TransactionId) (t : Transaction κ ν) :
    Option (TimedRun κ ν) :=
  (run.started.lookup id).bind fun snapshot =>
    if !run.committed.contains id && t.readsMatch (run.store.readAt? snapshot) &&
        t.writes.all (fun e => !(run.store.lastCommit? e.key).any (snapshot < ·)) then
      some { run with
        position := run.position + 1
        store := run.store.install t run.position
        committed := id :: run.committed
        lastInSession := (id.session, id) :: run.lastInSession }
    else none

def step? (h : History κ ν) (run : TimedRun κ ν) (entry : TransactionId × Phase) :
    Option (TimedRun κ ν) :=
  (h.transaction? entry.1).bind fun t =>
    match entry.2 with
    | .start => run.start? entry.1
    | .commit => run.commit? entry.1 t

end TimedRun

/-- Runs a split commit order; in the end everything that has started has committed. -/
def runSplit (h : History κ ν) (order : List (TransactionId × Phase)) : Bool :=
  match order.foldlM (TimedRun.step? h) ⟨1, .begin h.init, [], [], []⟩ with
  | some run => run.committed.length == run.started.length
  | none => false

/-- The witness covers the history, and every read sees what the witnessed order produces. -/
def Witness.explains (w : Witness) (h : History κ ν) : Bool :=
  coversSessions h w.commits &&
    match w with
    | .commitOrder order => runSerial h (.begin h.init) 1 order
    | .splitOrder order => runSplit h order

end Isolation
