import Isolation.Precedence.Basic

/-!
# Edges in Layers

While labels are coming in, the two sorts of edges are kept apart. Dependencies are in one list and edges
that consist of anti-dependencies only are in another one, both sorted by their pairs. The neighbours along
dependencies are kept as well, in both directions, so that nobody has to look through a list for them.

One more label is a local change, and where it goes depends on what came before. An anti-dependency joins
the dependencies if its pair is among them, and otherwise the anti-dependencies. Any other label goes to
the dependencies and takes along what the anti-dependencies have for its pair.

## Main definitions

* `Layers`, `Layers.add`: The edges of both sorts with the neighbours, and one more label.
-/

namespace Isolation

variable {κ : Type}

/-- One more label for a pair. -/
structure Addition (κ : Type) where
  source : TransactionId
  target : TransactionId
  label : Label κ
deriving DecidableEq

/-- The labels of a pair in a list of edges, none if it has no edge there. -/
def labelsIn? (edges : List (LabelledEdge κ)) (source target : TransactionId) :
    Option (List (Label κ)) :=
  (edges.find? fun e => e.source = source && e.target = target).map LabelledEdge.labels

def removePair (source target : TransactionId) (edges : List (LabelledEdge κ)) :
    List (LabelledEdge κ) :=
  edges.filter fun e => !(e.source = source && e.target = target)

/-- The edges of both sorts, each sorted by pairs, and the neighbours along dependencies. -/
structure Layers (κ : Type) where
  dependencies : List (LabelledEdge κ)
  antiDependencies : List (LabelledEdge κ)
  outgoing : Digraph TransactionId
  incoming : Digraph TransactionId

namespace Layers

def empty : Layers κ := ⟨[], [], .empty, .empty⟩

/-- The transactions that depend on a transaction. -/
def successors (l : Layers κ) (id : TransactionId) : List TransactionId :=
  l.outgoing.successors id

/-- The transactions that a transaction depends on. -/
def predecessors (l : Layers κ) (id : TransactionId) : List TransactionId :=
  l.incoming.successors id

variable [DecidableEq κ]

def add (l : Layers κ) (a : Addition κ) : Layers κ :=
  if a.label.isAnti then
    if (labelsIn? l.dependencies a.source a.target).isSome then
      { l with dependencies := insertLabel a.source a.target a.label l.dependencies }
    else { l with antiDependencies := insertLabel a.source a.target a.label l.antiDependencies }
  else
    let absorbed := (labelsIn? l.antiDependencies a.source a.target).getD []
    let moved := (⟨a.source, a.target, absorbed⟩ : LabelledEdge κ).addLabel a.label
    { dependencies := moved.labels.foldl
        (fun edges label => insertLabel a.source a.target label edges) l.dependencies
      antiDependencies := removePair a.source a.target l.antiDependencies
      outgoing := (l.outgoing.addEdge a.source a.target).2
      incoming := (l.incoming.addEdge a.target a.source).2 }

def addAll (l : Layers κ) (additions : List (Addition κ)) : Layers κ :=
  additions.foldl add l

end Layers

section OfHistory

variable {ν : Type} [DecidableEq κ] [DecidableEq ν]

/-- The labels that a history brings: session order first, then its reads. -/
def History.additions (h : History κ ν) : List (Addition κ) :=
  (h.sessions.flatMap Precedence.sessionPairs).map (fun p => ⟨p.1, p.2, .session⟩) ++
    (h.transactions.flatMap (Precedence.readsOf h)).map fun r =>
      ⟨r.writer, r.reader, .keyed .writeRead r.key⟩

/-- Session order and write-read dependencies. -/
def Layers.ofHistory (h : History κ ν) : Layers κ :=
  Layers.empty.addAll h.additions

end OfHistory

end Isolation
