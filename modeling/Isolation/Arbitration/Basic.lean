import Isolation.Precedence.Pruning
import Isolation.Sat.Clause
import Isolation.SortedMap

/-!
# Arbitrations

What is left to be decided once the known edges and the open constraints are on the table: one side has
to be chosen for every constraint so that everything together can be put in order.

The question is put in Boolean variables. Every known edge has one, which says that the edge is there;
dependencies come first, then anti-dependencies. Behind them every constraint has a *ballot*: one
variable says that the constraint counts, the next one picks its side, and then there is one for every
edge of either side. Two clauses link each of the latter to the side it belongs to. If the constraint
counts, the edges of the side picked are there and those of the other side are not; if it does not
count, nothing is said about its edges, and they may be there or not. To ask about everything is to
assume that all known edges are there and that all constraints count. To ask about a part is to assume
less.

An *arc* is an edge between numbered transactions with its literal. Several arcs may lead from one
transaction to another, and the first one that is there speaks for all of them.

## Main definitions

* `Ballot`, `Ballot.links`: The variables of a constraint, and the clauses that link them.
* `Arbitration.ofPrecedence`: The question that known edges and constraints leave.
-/

namespace Isolation

open Isolation.Sat

/-- The two sorts of edges. -/
inductive Layer where
  | dependency
  | antiDependency
deriving DecidableEq

/-- An edge between numbered transactions, and the literal that says that it is there. -/
structure Arc where
  source : Nat
  target : Nat
  layer : Layer
  literal : Literal
deriving DecidableEq

/-- The literals of all arcs from one transaction to another. -/
abbrev Bundle : Type := (Nat × Nat) × List Literal

/-- The arcs of a layer by their ends. The literals of a bundle are in the order of the arcs. -/
def bundles (layer : Layer) (arcs : List Arc) : List Bundle :=
  SortedMap.gather (fun l literals => literals ++ [l])
    ((arcs.filter fun arc => arc.layer = layer).map fun arc => ((arc.source, arc.target), arc.literal))

/-- What leads from each numbered transaction to which others, and by which literals. -/
abbrev Outgoing : Type := Array (List (Nat × Literal))

/-- Lists what leads from each of some numbers of transactions. -/
def Outgoing.tabulate (size : Nat) (targets : Nat → List (Nat × Literal)) : Outgoing :=
  ((List.range size).map targets).toArray

/-- An edge of a graph, and the literals that bring it. -/
structure Step where
  source : Nat
  target : Nat
  reason : List Literal
deriving DecidableEq

section Numbering

variable {κ : Type}

def LabelledEdge.layer (e : LabelledEdge κ) : Layer :=
  if e.isDependency then .dependency else .antiDependency

def SideEdge.layer (e : SideEdge κ) : Layer :=
  if e.kind = .readWrite then .antiDependency else .dependency

/-- The arc between two transactions, if both are numbered. -/
def Precedence.arc? (g : Precedence κ) (source target : TransactionId) (layer : Layer)
    (index : Nat) : Option Arc := do
  return ⟨← g.index? source, ← g.index? target, layer, ⟨index, true⟩⟩

/-- The arcs of edges of a side, with variables from the given one on. Edges that leave the nodes get
    none. -/
def sideArcs (g : Precedence κ) (index : Nat) : List (SideEdge κ) → List Arc
  | [] => []
  | e :: rest =>
    match g.arc? e.source e.target e.layer index with
    | some arc => arc :: sideArcs g (index + 1) rest
    | none => sideArcs g index rest

end Numbering

/-- The variables of a constraint. They follow each other, with the arcs of the forward side before
    those of the backward side. -/
structure Ballot where
  first : Nat
  forward : List Arc
  backward : List Arc
deriving DecidableEq

namespace Ballot

def active (b : Ballot) : Literal := ⟨b.first, true⟩

def side (b : Ballot) (direction : Direction) : Literal :=
  ⟨b.first + 1, direction = .forward⟩

def arcs (b : Ballot) : Direction → List Arc
  | .forward => b.forward
  | .backward => b.backward

/-- The first variable behind those of the constraint. -/
def next (b : Ballot) : Nat :=
  b.first + 2 + b.forward.length + b.backward.length

/-- If the constraint counts, an edge of a side is there if the side is picked, and not otherwise. -/
def sideLinks (b : Ballot) (direction : Direction) : List Clause :=
  (b.arcs direction).flatMap fun arc =>
    [[b.active.negate, (b.side direction).negate, arc.literal],
      [b.active.negate, b.side direction, arc.literal.negate]]

def links (b : Ballot) : List Clause :=
  b.sideLinks .forward ++ b.sideLinks .backward

variable {κ : Type}

/-- The ballot of a constraint, with variables from the given one on. -/
def ofConstraint (g : Precedence κ) (first : Nat) (c : Constraint κ) : Ballot :=
  let forward := sideArcs g (first + 2) c.forward
  ⟨first, forward, sideArcs g (first + 2 + forward.length) c.backward⟩

/-- The ballots of constraints, one behind the other. -/
def ofConstraints (g : Precedence κ) (first : Nat) : List (Constraint κ) → List Ballot
  | [] => []
  | c :: rest =>
    let ballot := ofConstraint g first c
    ballot :: ofConstraints g ballot.next rest

end Ballot

/-- The choices that are to be made so that the transactions can be put in order. -/
structure Arbitration where
  level : IsolationLevel
  nodes : List TransactionId
  knownCount : Nat
  known : List Arc
  ballots : List Ballot
  dependencies : List Bundle
  antiDependencies : List Bundle
  /-- The known graph without the edges that session order implies, with reasons. -/
  shortcuts : List Step
  closure : TaggedGraph

namespace Arbitration

def knownLiteral (index : Nat) : Literal := ⟨index, true⟩

section Shortcuts

/-- What leads from where among the arcs of a layer. -/
def outgoing (size : Nat) (layer : Layer) (arcs : List Arc) : Outgoing :=
  .tabulate size fun i =>
    (arcs.filter fun arc => arc.layer = layer && arc.source = i).map fun arc =>
      (arc.target, arc.literal)

/-- The literals of known arcs that bring an edge at a level: a dependency does, and if there is none, an
    anti-dependency or a dependency followed by an anti-dependency. -/
def knownReason? (level : IsolationLevel) (dependencies antiDependencies : Outgoing) (i j : Nat) :
    Option (List Literal) :=
  match (dependencies.getD i []).lookup j with
  | some l => some [l]
  | none =>
    match level with
    | .serializable => ((antiDependencies.getD i []).lookup j).map fun l => [l]
    | .snapshotIsolation =>
      (dependencies.getD i []).findSome? fun (middle, l) =>
        ((antiDependencies.getD middle []).lookup j).map fun l' => [l, l']

/-- The edges of a graph with their reasons among known arcs. -/
def shortcutsFor (level : IsolationLevel) (size : Nat) (known : List Arc) (thinned : TaggedGraph) :
    List Step :=
  let dependencies := outgoing size .dependency known
  let antiDependencies := outgoing size .antiDependency known
  thinned.edges.filterMap fun (i, j, _) =>
    (knownReason? level dependencies antiDependencies i j).map (Step.mk i j)

end Shortcuts

section OfPrecedence

variable {κ : Type}

/-- The known edges between transactions of the history, dependencies first. -/
def knownEdges (g : Precedence κ) : List (LabelledEdge κ) :=
  (g.dependencies ++ g.antiDependencies).filter fun e =>
    g.nodes.contains e.source && g.nodes.contains e.target

/-- The known graph without the edges that session order implies. -/
def thinnedGraph (g : Precedence κ) (options : AuditOptions) : TaggedGraph :=
  (g.knownGraph options.level options.strategy).thin g.placement

def knownArcs (g : Precedence κ) : List Arc :=
  (knownEdges g).zipIdx.filterMap fun (e, index) => g.arc? e.source e.target e.layer index

/-- The choices that known edges and open constraints leave. -/
def ofPrecedence (g : Precedence κ) (constraints : List (Constraint κ)) (options : AuditOptions) :
    Arbitration :=
  let known := knownArcs g
  let ballots := Ballot.ofConstraints g (knownEdges g).length constraints
  let arcs := known ++ ballots.flatMap fun b => b.forward ++ b.backward
  let thinned := thinnedGraph g options
  { level := options.level
    nodes := g.nodes
    knownCount := (knownEdges g).length
    known := known
    ballots := ballots
    dependencies := bundles .dependency arcs
    antiDependencies := bundles .antiDependency arcs
    shortcuts := shortcutsFor options.level g.nodes.length known thinned
    closure := thinned.closure options.strategy }

end OfPrecedence

def size (a : Arbitration) : Nat :=
  a.nodes.length

def variableCount (a : Arbitration) : Nat :=
  a.ballots.foldl (fun _ b => b.next) a.knownCount

/-- All known edges are there and all constraints count. -/
def assumptions (a : Arbitration) : List Literal :=
  (List.range a.knownCount).map knownLiteral ++ a.ballots.map Ballot.active

/-- What links the variables of all constraints. -/
def links (a : Arbitration) : List Clause :=
  a.ballots.flatMap Ballot.links

end Arbitration

end Isolation
