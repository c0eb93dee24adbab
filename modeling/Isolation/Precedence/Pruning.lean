import Isolation.Precedence.Constraint

/-!
# Pruning

Many constraints can be decided by looking at what is known already. A side that would close a cycle is
impossible, so the other side holds, and its edges become known. That may decide more constraints, so
pruning goes in rounds until one of them changes nothing or the budget is used up.

All constraints of a round are judged by one closure, the one at the beginning of the round; the edges
they bring are added afterwards, in the order of the constraints. If both sides of a constraint are
impossible, the second one is added all the same, and the next round finds the cycle.

A side is tested by *probes*: pairs of transactions such that the side closes a cycle if one of them
is connected. For an edge this is the pair backwards. An anti-dependency at snapshot isolation orders
only the predecessors of its source before its target, so there is a probe for each of them.

## Main definitions

* `Precedence.pruneRound`: One round.
* `Precedence.prune`: Rounds until nothing changes.
-/

namespace Isolation

/-- The known edges form a cycle, and one of its edges is the one given. -/
structure KnownCycle where
  source : TransactionId
  target : TransactionId
deriving DecidableEq

/-- What pruning has done. -/
structure PruningReport where
  rounds : Nat
  resolved : Nat
  remaining : Nat
deriving DecidableEq

/-- The two sides of a constraint. -/
inductive Direction where
  | forward
  | backward
deriving DecidableEq

def Constraint.edges {κ : Type} (c : Constraint κ) : Direction → List (SideEdge κ)
  | .forward => c.forward
  | .backward => c.backward

/-- The result of some rounds: what is known, what is open, and how it went. -/
structure Pruned (κ : Type) where
  graph : Precedence κ
  constraints : List (Constraint κ)
  outcome : Except KnownCycle PruningReport

namespace Precedence

variable {κ : Type}

/-- The pairs of transactions that must not be connected if an edge is to be added. -/
def edgeProbes (g : Precedence κ) (level : IsolationLevel) (e : SideEdge κ) : List (Nat × Nat) :=
  match g.index? e.source, g.index? e.target with
  | some source, some target =>
    match e.kind, level with
    | .readWrite, .snapshotIsolation =>
      ((g.predecessors e.source).filterMap g.index?).map fun p => (target, p)
    | _, _ => [(target, source)]
  | _, _ => []

/-- The pairs of transactions that must not be connected if a side is to hold. -/
def probes (g : Precedence κ) (level : IsolationLevel) (edges : List (SideEdge κ)) :
    List (Nat × Nat) :=
  edges.flatMap (g.edgeProbes level)

def conflicts (g : Precedence κ) (level : IsolationLevel) (closure : TaggedGraph)
    (edges : List (SideEdge κ)) : Bool :=
  (g.probes level edges).any fun (p, q) => closure.hasEdge p q

/-- The side that has to hold because the other one is impossible. -/
def forced? (g : Precedence κ) (level : IsolationLevel) (closure : TaggedGraph)
    (c : Constraint κ) : Option Direction :=
  if g.conflicts level closure c.forward then some .backward
  else if g.conflicts level closure c.backward then some .forward
  else none

def addSide [DecidableEq κ] (g : Precedence κ) (edges : List (SideEdge κ)) : Precedence κ :=
  edges.foldl (fun g e => g.addEdge e.source e.target e.label) g

/-- A known cycle, given the closure that shows it. -/
def knownCycle (g : Precedence κ) (known closure : TaggedGraph) : KnownCycle :=
  let name := fun i => g.nodes[i]?.getD .init
  match known.cycleEdge? closure with
  | some (i, j) => ⟨name i, name j⟩
  | none =>
    -- Does not happen if the closure is that of the known graph.
    let i := closure.cyclicNodes.headD 0
    ⟨name i, name i⟩

/-- The closure by which a round judges its constraints. -/
def roundClosure (g : Precedence κ) (options : AuditOptions) : TaggedGraph :=
  ((g.knownGraph options.level options.strategy).thin g.placement).closure options.strategy

/-- The decisions about constraints, one for each. All of them are made by the same closure. -/
def decisions (g : Precedence κ) (closure : TaggedGraph) (options : AuditOptions)
    (constraints : List (Constraint κ)) : List (Option Direction) :=
  constraints.map (g.forced? options.level closure)

/-- Adds the side that a constraint has been decided for, and counts it. -/
def promote [DecidableEq κ] (state : Nat × Precedence κ)
    (entry : Constraint κ × Option Direction) : Nat × Precedence κ :=
  match entry.2 with
  | some direction => (state.1 + 1, state.2.addSide (entry.1.edges direction))
  | none => state

/-- Keeps the constraints that are not decided. One decision is used up for every constraint. -/
def retainOpen : List (Option Direction) → List (Constraint κ) → List (Constraint κ)
  | _, [] => []
  | decisions, c :: rest =>
    let kept := retainOpen decisions.tail rest
    if decisions.head?.join.isNone then c :: kept else kept

/-- One round: the number of constraints that it resolves, the graph with the sides that these are decided
    for, and the constraints that stay open. -/
def pruneRound [DecidableEq κ] (g : Precedence κ) (constraints : List (Constraint κ))
    (options : AuditOptions) : Except KnownCycle (Nat × Precedence κ × List (Constraint κ)) :=
  let closure := g.roundClosure options
  if closure.hasTaggedLoop then
    .error (g.knownCycle (g.knownGraph options.level options.strategy) closure)
  else
    let decisions := g.decisions closure options constraints
    let (resolved, extended) := (constraints.zip decisions).foldl promote (0, g)
    .ok (resolved, extended, retainOpen decisions constraints)

/-- At most the given number of rounds, after some have been done. -/
def pruneWithin [DecidableEq κ] (options : AuditOptions) :
    Nat → Nat → Nat → Precedence κ → List (Constraint κ) → Pruned κ
  | 0, rounds, resolved, g, constraints =>
    ⟨g, constraints, .ok ⟨rounds, resolved, constraints.length⟩⟩
  | budget + 1, rounds, resolved, g, constraints =>
    match g.pruneRound constraints options with
    | .error cycle => ⟨g, constraints, .error cycle⟩
    | .ok (newly, g, remaining) =>
      if newly = 0 then
        ⟨g, remaining, .ok ⟨rounds + 1, resolved, remaining.length⟩⟩
      else pruneWithin options budget (rounds + 1) (resolved + newly) g remaining

/-- Resolves constraints in rounds, until one of them resolves nothing or the budget is used up. -/
def prune [DecidableEq κ] (g : Precedence κ) (constraints : List (Constraint κ))
    (options : AuditOptions) : Pruned κ :=
  pruneWithin options options.rounds 0 0 g constraints

end Precedence

end Isolation
