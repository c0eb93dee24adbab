/-!
# Graphs With Tagged Edges

A graph whose nodes are numbered from zero, with two kinds of edges. A *tagged* edge is one that says
more than the order of a session; a path is tagged if one of its edges is. What matters later is
whether a cycle is tagged, so tags travel with edges through every operation.

A row holds the successors of a node as the bits of a natural number, and those behind tagged edges as
the bits of another. Joining two rows is then one operation, however many nodes there are. Two things
hold of every graph that is built by the operations of the library: a tagged edge is an edge, and no
bit at or above the number of nodes is set.

## Main definitions

* `TaggedGraph`, `TaggedGraph.insert`: Graphs as arrays of rows, and adding an edge.
* `TaggedGraph.hasEdge`, `TaggedGraph.hasTaggedEdge`: The two relations a graph stands for.
-/

namespace Isolation

/-- A set of small numbers as the bits of one number. -/
def bit (i : Nat) : Nat :=
  1 <<< i

/-- The successors of a node, and those behind tagged edges. -/
structure Row where
  reach : Nat
  tagged : Nat
deriving DecidableEq, Inhabited

namespace Row

def empty : Row := ⟨0, 0⟩

/-- Adds an edge; a tag is never taken away. -/
def insert (row : Row) (target : Nat) (tagged : Bool) : Row :=
  ⟨row.reach ||| bit target, if tagged then row.tagged ||| bit target else row.tagged⟩

def union (a b : Row) : Row :=
  ⟨a.reach ||| b.reach, a.tagged ||| b.tagged⟩

/-- The row as seen through an edge: everything is tagged if the edge is. -/
def behind (row : Row) (tagged : Bool) : Row :=
  if tagged then ⟨row.reach, row.tagged ||| row.reach⟩ else row

end Row

/-- A graph as an array of rows, one for every node. -/
structure TaggedGraph where
  rows : Array Row
deriving DecidableEq, Inhabited

namespace TaggedGraph

def empty (size : Nat) : TaggedGraph := ⟨Array.replicate size .empty⟩

def size (g : TaggedGraph) : Nat :=
  g.rows.size

def nodes (g : TaggedGraph) : List Nat :=
  List.range g.size

def row (g : TaggedGraph) (i : Nat) : Row :=
  g.rows.getD i .empty

def hasEdge (g : TaggedGraph) (i j : Nat) : Bool :=
  (g.row i).reach.testBit j

/-- A tagged edge leads from one node to the other. -/
def hasTaggedEdge (g : TaggedGraph) (i j : Nat) : Bool :=
  (g.row i).tagged.testBit j

/-- Adds an edge between two nodes; a tag is never taken away. -/
def insert (g : TaggedGraph) (i j : Nat) (tagged : Bool) : TaggedGraph :=
  ⟨g.rows.modify i fun row => row.insert j tagged⟩

def union (f g : TaggedGraph) : TaggedGraph :=
  ⟨Array.zipWith Row.union f.rows g.rows⟩

/-- The nodes that a row leads to, in ascending order. -/
def members (g : TaggedGraph) (row : Row) : List Nat :=
  g.nodes.filter row.reach.testBit

/-- The successors of a node in ascending order. -/
def successors (g : TaggedGraph) (i : Nat) : List Nat :=
  g.members (g.row i)

/-- The predecessors of a node in ascending order. -/
def predecessors (g : TaggedGraph) (j : Nat) : List Nat :=
  g.nodes.filter fun i => g.hasEdge i j

def edges (g : TaggedGraph) : List (Nat × Nat × Bool) :=
  g.nodes.flatMap fun i => (g.successors i).map fun j => (i, j, g.hasTaggedEdge i j)

def ofEdges (size : Nat) (edges : List (Nat × Nat × Bool)) : TaggedGraph :=
  edges.foldl (fun g (i, j, tagged) => g.insert i j tagged) (empty size)

/-- The nodes with a tagged edge to themselves. In a closure, these are the nodes that lie on a tagged
    cycle. -/
def cyclicNodes (g : TaggedGraph) : List Nat :=
  g.nodes.filter fun i => g.hasTaggedEdge i i

def hasTaggedLoop (g : TaggedGraph) : Bool :=
  g.nodes.any fun i => g.hasTaggedEdge i i

end TaggedGraph

end Isolation
