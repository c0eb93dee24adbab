import Isolation.Graph.Tagged

/-!
# Thinning by Sessions

Nodes that stand in sessions, one behind the other, are ordered already. If a node has edges to several
members of a session, the edge to the earliest of them implies the others. Thinning keeps that edge and
the edge to the next node of the own session, and drops the rest. Reachability does not change as long
as every edge to a next node is there to begin with.

## Main definitions

* `TaggedGraph.thin`: The graph without the edges that sessions imply.
-/

namespace Isolation.TaggedGraph

/-- The position of a node: its session and how far down it stands there. -/
abbrev Placement : Type := Nat → Nat × Nat

def isNext (place : Placement) (i j : Nat) : Bool :=
  (place j).1 == (place i).1 && (place j).2 == (place i).2 + 1

/-- A node stands before another of the same session; of two in one place, the lower number does. -/
def standsBefore (place : Placement) (k j : Nat) : Bool :=
  (place k).1 == (place j).1 &&
    ((place k).2 < (place j).2 || ((place k).2 == (place j).2 && k < j))

/-- An edge stays if it leads to the next node or to the earliest target in its session. -/
def keepsEdge (g : TaggedGraph) (place : Placement) (i j : Nat) : Bool :=
  isNext place i j || !(g.successors i).any fun k => standsBefore place k j

/-- The graph without the edges that others imply. -/
def thin (g : TaggedGraph) (place : Placement) : TaggedGraph :=
  ofEdges g.size (g.edges.filter fun (i, j, _) => g.keepsEdge place i j)

end Isolation.TaggedGraph
