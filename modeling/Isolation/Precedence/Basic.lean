import Isolation.Audit.Options
import Isolation.Graph.NodeGraph
import Isolation.History.Basic
import Isolation.Precedence.Label

/-!
# Precedence Graphs

The transactions of a history, the init transaction included, with everything that is known about
their order. An edge carries all labels that were ever given to its pair of transactions, each once and
in the order in which they came.

The labels of an edge decide what it means. If one of them is not an anti-dependency, the first
transaction commits before the second starts, and the edge is a *dependency*. If all of them are
anti-dependencies, it is less: at snapshot isolation the first transaction then merely starts before the
second commits. What follows at each level is the *known graph*. For serializability it has the edges of
both sorts. For snapshot isolation it has the dependencies, and every dependency followed by an
anti-dependency.

## Main definitions

* `Precedence.ofHistory`: Session order and write-read dependencies of a history.
* `Precedence.knownGraph`: What every ordering at a level contains.
-/

namespace Isolation

/-- A pair of transactions with the reasons for its order. -/
structure LabelledEdge (κ : Type) where
  source : TransactionId
  target : TransactionId
  labels : List (Label κ)
deriving DecidableEq

namespace LabelledEdge

variable {κ : Type}

def isDependency (e : LabelledEdge κ) : Bool :=
  e.labels.any fun label => !label.isAnti

def isTagged (e : LabelledEdge κ) : Bool :=
  e.labels.any Label.isTagged

/-- The place of an edge in the order of edges. -/
def comparePair (source target : TransactionId) (e : LabelledEdge κ) : Ordering :=
  (compare source e.source).then (compare target e.target)

def addLabel [DecidableEq κ] (label : Label κ) (e : LabelledEdge κ) : LabelledEdge κ :=
  if e.labels.contains label then e else { e with labels := e.labels ++ [label] }

end LabelledEdge

/-- Gives a pair one more label. The edges are sorted by their pairs. -/
def insertLabel {κ : Type} [DecidableEq κ] (source target : TransactionId) (label : Label κ) :
    List (LabelledEdge κ) → List (LabelledEdge κ)
  | [] => [⟨source, target, [label]⟩]
  | e :: rest =>
    match e.comparePair source target with
    | .lt => ⟨source, target, [label]⟩ :: e :: rest
    | .eq => e.addLabel label :: rest
    | .gt => e :: insertLabel source target label rest

/-- Which transaction read a value of which other one. -/
structure ReadFrom (κ : Type) where
  key : κ
  writer : TransactionId
  reader : TransactionId
deriving DecidableEq

/-- What is known about the order of the transactions of a history. -/
structure Precedence (κ : Type) where
  nodes : List TransactionId
  edges : List (LabelledEdge κ)
  reads : List (ReadFrom κ)

namespace Precedence

variable {κ : Type}

/-- The labels of a pair, none if it has no edge. -/
def labels? (g : Precedence κ) (source target : TransactionId) : Option (List (Label κ)) :=
  (g.edges.find? fun e => e.source = source && e.target = target).map LabelledEdge.labels

/-- The edges that order the commit of one transaction before the start of another. -/
def dependencies (g : Precedence κ) : List (LabelledEdge κ) :=
  g.edges.filter LabelledEdge.isDependency

/-- The edges that consist of anti-dependencies only. -/
def antiDependencies (g : Precedence κ) : List (LabelledEdge κ) :=
  g.edges.filter fun e => !e.isDependency

/-- The transactions that depend on a transaction. -/
def successors (g : Precedence κ) (id : TransactionId) : List TransactionId :=
  (g.dependencies.filter fun e => e.source = id).map LabelledEdge.target

/-- The transactions that a transaction depends on. -/
def predecessors (g : Precedence κ) (id : TransactionId) : List TransactionId :=
  (g.dependencies.filter fun e => e.target = id).map LabelledEdge.source

/-- The transactions that read what a transaction wrote under a key. -/
def readers [DecidableEq κ] (g : Precedence κ) (key : κ) (writer : TransactionId) :
    List TransactionId :=
  ((g.reads.filter fun r => r.writer = writer && r.key = key).map ReadFrom.reader).eraseDups

def addEdge [DecidableEq κ] (g : Precedence κ) (source target : TransactionId)
    (label : Label κ) : Precedence κ :=
  { g with edges := insertLabel source target label g.edges }

/-- The number of a transaction among the nodes. -/
def index? (g : Precedence κ) (id : TransactionId) : Option Nat :=
  g.nodes.idxOf? id

/-- Edges by the numbers of their ends; edges that leave the nodes are dropped. -/
def indexed (g : Precedence κ) (tag : LabelledEdge κ → Bool) (edges : List (LabelledEdge κ)) :
    List (Nat × Nat × Bool) :=
  edges.filterMap fun e =>
    (g.index? e.source).bind fun i => (g.index? e.target).map fun j => (i, j, tag e)

/-- The graph of dependencies; all but pure session order is tagged. -/
def dependencyGraph (g : Precedence κ) : TaggedGraph :=
  .ofEdges g.nodes.length (g.indexed LabelledEdge.isTagged g.dependencies)

/-- The graph of anti-dependencies, all of them tagged. -/
def antiDependencyGraph (g : Precedence κ) : TaggedGraph :=
  .ofEdges g.nodes.length (g.indexed (fun _ => true) g.antiDependencies)

/-- The edges that every ordering at a level contains. -/
def knownGraph (g : Precedence κ) (level : IsolationLevel) (strategy : Strategy) : TaggedGraph :=
  let a := g.dependencyGraph
  let b := g.antiDependencyGraph
  match level with
  | .snapshotIsolation => a.union (a.compose strategy b)
  | .serializable => a.union b

/-- The session and the position of a numbered transaction. -/
def placement (g : Precedence κ) : TaggedGraph.Placement :=
  NodeGraph.placement g.nodes fun id => (id.session, id.height)

section OfHistory

variable {ν : Type} [DecidableEq κ]

/-- The pairs of neighbours in a session, behind the init transaction. -/
def sessionPairs (s : Session κ ν) : List (TransactionId × TransactionId) :=
  let ids := s.transactions.map Transaction.id
  (TransactionId.init :: ids).zip ids

/-- The reads of a transaction whose value another transaction wrote. -/
def readsOf [DecidableEq ν] (h : History κ ν) (t : Transaction κ ν) : List (ReadFrom κ) :=
  t.reads.filterMap fun e =>
    (h.writerOf? e.key e.value).bind fun write =>
      if write.transaction = t.id then none else some ⟨e.key, write.transaction, t.id⟩

/-- Session order and write-read dependencies. Reads of values that nobody wrote say nothing. -/
def ofHistory [DecidableEq ν] (h : History κ ν) : Precedence κ :=
  let reads := h.transactions.flatMap (readsOf h)
  let start : Precedence κ := ⟨h.transactions.map Transaction.id, [], reads⟩
  let ordered := (h.sessions.flatMap sessionPairs).foldl
    (fun g (source, target) => g.addEdge source target .session) start
  reads.foldl (fun g r => g.addEdge r.writer r.reader (.keyed .writeRead r.key)) ordered

end OfHistory

end Precedence

end Isolation
