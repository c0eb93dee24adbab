import Isolation.Graph.Descent
import Isolation.Graph.Search
import Isolation.Graph.Sorting
import Isolation.Total

/-!
# Directed Graphs

A directed graph over any type of vertices, as a list of vertices with their targets. Adding an edge
adds both of its ends, but a graph may also be given by its adjacency, and then a target need not be
listed itself. Self-loops are allowed.

Neither the order of the list nor the order of the targets means anything.

## Main definitions

* `Digraph`, `Digraph.addEdge`: Graphs and their construction.
* `Digraph.topologicalSort?`, `Digraph.findCycle?`, `Digraph.closure`: What is asked about them.
-/

namespace Isolation

/-- Vertices with their targets. -/
structure Digraph (α : Type) where
  adjacency : List (α × List α)
deriving DecidableEq

namespace Digraph

variable {α : Type}

def empty : Digraph α := ⟨[]⟩

def keys (g : Digraph α) : List α :=
  g.adjacency.map Prod.fst

def edges (g : Digraph α) : List (α × α) :=
  g.adjacency.flatMap fun (v, targets) => targets.map (v, ·)

def edgeCount (g : Digraph α) : Nat :=
  total (fun entry => entry.2.length) g.adjacency

variable [DecidableEq α]

def successors (g : Digraph α) (v : α) : List α :=
  (g.adjacency.lookup v).getD []

/-- An edge leads from one vertex to the other. -/
def hasEdge (g : Digraph α) (source target : α) : Bool :=
  (g.successors source).contains target

/-- Lists a vertex, if it is not listed yet. -/
def addVertex (g : Digraph α) (v : α) : Digraph α :=
  if g.keys.contains v then g else ⟨g.adjacency ++ [(v, [])]⟩

/-- Adds an edge and both of its ends, and says whether the edge is new. -/
def addEdge (g : Digraph α) (source target : α) : Bool × Digraph α :=
  let g := (g.addVertex target).addVertex source
  if g.hasEdge source target then (false, g)
  else
    (true, ⟨g.adjacency.map fun (v, targets) =>
      if v = source then (v, targets ++ [target]) else (v, targets)⟩)

/-- Puts a vertex with its targets into a graph, in place of the targets it had. -/
def setTargets (g : Digraph α) (v : α) (targets : List α) : Digraph α :=
  ⟨(g.adjacency.filter fun entry => entry.1 ≠ v) ++ [(v, targets.eraseDups)]⟩

/-- The graph with the given adjacency; of two entries for a vertex the later one counts. -/
def ofAdjacency (entries : List (α × List α)) : Digraph α :=
  entries.foldl (fun g (v, targets) => g.setTargets v targets) empty

/-- All vertices, whether listed or only the target of an edge. -/
def vertices (g : Digraph α) : List α :=
  (g.keys ++ g.edges.map Prod.snd).eraseDups

/-- The targets of a vertex, where a vertex is known by its place in a listing of all vertices. -/
def successorPlaces (g : Digraph α) (listing : List α) (i : Nat) : List Nat :=
  ((listing[i]?.map g.successors).getD []).map fun target => listing.idxOf target

/-- All vertices in an order in which every edge goes forward, if there is one. The vertices are looked
    through as they are listed. -/
def topologicalSortAlong? (g : Digraph α) (listing : List α) : Option (List α) :=
  (Graph.topologicalOrder? listing.length (g.successorPlaces listing)).map fun order =>
    order.filterMap fun i => listing[i]?

/-- All vertices in an order in which every edge goes forward, if there is one. -/
def topologicalSort? (g : Digraph α) : Option (List α) :=
  g.topologicalSortAlong? g.vertices

def hasCycle (g : Digraph α) : Bool :=
  g.topologicalSort?.isNone

/-- The vertices of some cycle; each has an edge to the next, and the last one to the first. -/
def findCycle? (g : Digraph α) : Option (List α) :=
  Graph.findCycle? g.successors g.vertices g.keys

/-- The graph with an edge wherever a nonempty path leads. -/
def closure (g : Digraph α) : Digraph α :=
  ⟨g.keys.map fun v => (v, Graph.reachable (fun v => (g.successors v).contains) g.vertices v)⟩

end Digraph

end Isolation
