import Isolation.Graph.Closure
import Isolation.Graph.Digraph
import Isolation.Graph.Thinning

/-!
# Tagged Graphs Over Named Nodes

A tagged graph knows its nodes by number only. Here the numbers get names: a fixed list of distinct
nodes, where a node's number is its place in the list.

## Main definitions

* `NodeGraph`, `NodeGraph.ofDigraph`: A tagged graph with its list of nodes, and that of a digraph.
-/

namespace Isolation

/-- A tagged graph and the names of its nodes. -/
structure NodeGraph (α : Type) where
  names : List α
  graph : TaggedGraph
deriving DecidableEq

namespace NodeGraph

variable {α : Type} [DecidableEq α]

/-- The graph without edges over the given nodes; repeats are dropped. -/
def edgeless (names : List α) : NodeGraph α :=
  let names := names.eraseDups
  ⟨names, .empty names.length⟩

def index? (g : NodeGraph α) (node : α) : Option Nat :=
  g.names.idxOf? node

def pair? (g : NodeGraph α) (source target : α) : Option (Nat × Nat) :=
  (g.index? source).bind fun i => (g.index? target).map fun j => (i, j)

/-- Adds an edge and says whether both ends are nodes of the graph; if not, nothing changes. -/
def insert (g : NodeGraph α) (source target : α) (tagged : Bool) : Bool × NodeGraph α :=
  match g.pair? source target with
  | some (i, j) => (true, { g with graph := g.graph.insert i j tagged })
  | none => (false, g)

def hasEdge (g : NodeGraph α) (source target : α) : Bool :=
  (g.pair? source target).any fun (i, j) => g.graph.hasEdge i j

/-- A tagged edge leads from one node to the other. -/
def hasTaggedEdge (g : NodeGraph α) (source target : α) : Bool :=
  (g.pair? source target).any fun (i, j) => g.graph.hasTaggedEdge i j

/-- The edges of a directed graph between the given nodes, all with one tag. -/
def ofDigraph (names : List α) (d : Digraph α) (tagged : Bool) : NodeGraph α :=
  d.edges.foldl (fun g (source, target) => (g.insert source target tagged).2) (edgeless names)

def closure (strategy : Strategy) (g : NodeGraph α) : NodeGraph α :=
  { g with graph := g.graph.closure strategy }

/-- The place of a numbered node, when the places of the named nodes are known. -/
def placement (names : List α) (place : α → Nat × Nat) : TaggedGraph.Placement :=
  fun i => (names[i]?.map place).getD (0, 0)

end NodeGraph

end Isolation
