import Isolation.Graph.Product
import Isolation.Graph.Search
import Isolation.Graph.Sorting

/-!
# Closures of Tagged Graphs

The closure has an edge from a node to itself and to every node that a path leads to, and the edge is
tagged if some walk between the two uses a tagged edge. A walk may pass a node twice, and it sometimes
has to: the only tagged edge may lie on a loop beside the shortest path.

The dense way admits one more node as an intermediate stop in each round. When a node joins that lies
on a tagged cycle, its own row is tagged first, since every path through it can make the detour. The
sparse way works backwards along a topological order, where every row is joined from finished rows. In
a graph with cycles there is no such order, and it searches from each node instead; what it visits are
nodes together with the information whether the walk was tagged so far.

## Main definitions

* `TaggedGraph.closure`: The closure by a given strategy.
* `TaggedGraph.cycleEdge?`: An edge on a tagged cycle.
-/

namespace Isolation.TaggedGraph

/-- Adds the edge from every node to itself, untagged. -/
def reflexive (g : TaggedGraph) : TaggedGraph :=
  ⟨g.rows.mapIdx fun i row => row.insert i false⟩

/-- A node on a tagged cycle reaches everything by a tagged walk. -/
def tagLoop (g : TaggedGraph) (pivot : Nat) : TaggedGraph :=
  if g.hasTaggedEdge pivot pivot then
    ⟨g.rows.modify pivot fun row => row.behind true⟩
  else g

def relax (g : TaggedGraph) (pivot : Nat) : TaggedGraph :=
  -- The pivot's own loop comes first, so that walks through it count as tagged.
  let g := g.tagLoop pivot
  let through := g.row pivot
  ⟨g.rows.mapIdx fun i row =>
    if i ≠ pivot && row.reach.testBit pivot then
      row.union (through.behind (row.tagged.testBit pivot))
    else row⟩

/-- The closure by admitting the nodes one after the other. -/
def closureDense (g : TaggedGraph) : TaggedGraph :=
  g.nodes.foldl relax g.reflexive

/-- All nodes in an order in which every edge goes forward, if there is one. -/
def topologicalOrder? (g : TaggedGraph) : Option (List Nat) :=
  Graph.topologicalOrder? g.size g.successors

/-- The row of a node in the closure, from the finished rows of its successors. -/
def finishRow (g : TaggedGraph) (closed : TaggedGraph) (i : Nat) : TaggedGraph :=
  let row := (g.successors i).foldl
    (fun joined j => joined.union ((closed.row j).behind (g.hasTaggedEdge i j)))
    (Row.empty.insert i false)
  ⟨closed.rows.modify i fun _ => row⟩

/-- The closure of a graph without cycles, along a topological order. -/
def closureAlong (g : TaggedGraph) (order : List Nat) : TaggedGraph :=
  order.reverse.foldl g.finishRow (empty g.size)

/-- A step of a walk that remembers whether it has been tagged. -/
def walkStep (g : TaggedGraph) (a b : Nat × Bool) : Bool :=
  g.hasEdge a.1 b.1 && b.2 == (a.2 || g.hasTaggedEdge a.1 b.1)

/-- The ends of walks: every node, untagged and tagged. -/
def walkEnds (g : TaggedGraph) : List (Nat × Bool) :=
  g.nodes.flatMap fun i => [(i, false), (i, true)]

/-- The row of a node in the closure, by a search from it. -/
def searchRow (g : TaggedGraph) (i : Nat) : Row :=
  (Graph.reachable g.walkStep g.walkEnds (i, false)).foldl
    (fun row (j, tagged) => row.insert j tagged) (Row.empty.insert i false)

/-- The closure along a topological order, or else by a search from every node. -/
def closureSparse (g : TaggedGraph) : TaggedGraph :=
  match g.topologicalOrder? with
  | some order => g.closureAlong order
  | none => ⟨(g.nodes.map g.searchRow).toArray⟩

def closure (strategy : Strategy) (g : TaggedGraph) : TaggedGraph :=
  match strategy with
  | .dense => g.closureDense
  | .sparse => g.closureSparse

/-- The first edge, row by row, that lies on a tagged cycle, judged by the closure of the graph. -/
def cycleEdge? (g closure : TaggedGraph) : Option (Nat × Nat) :=
  (g.edges.find? fun (i, j, tagged) =>
    closure.hasEdge j i && (tagged || closure.hasTaggedEdge j i)).map fun (i, j, _) => (i, j)

end Isolation.TaggedGraph
