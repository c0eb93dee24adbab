import Isolation.Graph.Cells
import Isolation.Graph.Closure
import Isolation.Graph.Thinning

/-!
# Tagged Graphs as Bit Matrices

A tagged graph on numbered nodes as two tables of packed cells, one for the edges and one for those that
are tagged. It has the operations of `TaggedGraph`, carried out word by word and in place: a row is joined
into another by joining its words, and a graph is built up by changing one table step by step.

The search from a node keeps the nodes found by untagged walks and those found by tagged ones in two
rows. A node that a tagged walk has found is not visited again by an untagged one, since everything behind
it has been found by a tagged walk too.

## Main definitions

* `BitMatrix`, `BitMatrix.insert`: The two tables, and adding an edge.
* `BitMatrix.compose`, `BitMatrix.closure`, `BitMatrix.thin`: Products, closures and thinning.
-/

namespace Isolation

/-- The successors of a node, and those behind tagged edges, in packed cells. -/
structure BitRow (size : Nat) where
  reach : CellRow size
  tagged : CellRow size

/-- A graph as two tables of cells. -/
structure BitMatrix (size : Nat) where
  reach : Cells size size
  tagged : Cells size size
deriving DecidableEq

namespace BitMatrix

variable {size : Nat}

def empty : BitMatrix size := ⟨.empty, .empty⟩

def hasEdge (m : BitMatrix size) (i j : Nat) : Bool :=
  m.reach.test i j

/-- A tagged edge leads from one node to the other. -/
def hasTaggedEdge (m : BitMatrix size) (i j : Nat) : Bool :=
  m.tagged.test i j

def row (m : BitMatrix size) (i : Nat) : BitRow size :=
  ⟨m.reach.row i, m.tagged.row i⟩

/-! ### Listings -/

/-- The successors of a node in ascending order. -/
def successors (m : BitMatrix size) (i : Nat) : List Nat :=
  m.reach.ones i

/-- The predecessors of a node in ascending order. -/
def predecessors (m : BitMatrix size) (j : Nat) : List Nat :=
  (List.range size).filter fun i => m.hasEdge i j

def adjacency (m : BitMatrix size) (i : Nat) : List (Nat × Bool) :=
  (m.successors i).map fun j => (j, m.hasTaggedEdge i j)

def edges (m : BitMatrix size) : List (Nat × Nat × Bool) :=
  (List.range size).flatMap fun i => (m.adjacency i).map fun target => (i, target)

def edgeCount (m : BitMatrix size) : Nat :=
  m.reach.count

/-- The nodes with a tagged edge to themselves. -/
def cyclicNodes (m : BitMatrix size) : List Nat :=
  (List.range size).filter fun i => m.hasTaggedEdge i i

/-- All nodes in an order in which every edge goes forward, if there is one. -/
def topologicalOrder? (m : BitMatrix size) : Option (List Nat) :=
  Graph.topologicalOrder? size m.successors

/-! ### Adding edges -/

/-- Adds an edge between two nodes; a tag is never taken away. -/
def insert (m : BitMatrix size) (i j : Nat) (tagged : Bool) : BitMatrix size :=
  { reach := m.reach.set i j
    tagged := if tagged then m.tagged.set i j else m.tagged }

def insertAll (m : BitMatrix size) (edges : List (Nat × Nat × Bool)) : BitMatrix size :=
  edges.foldl (fun m edge => m.insert edge.1 edge.2.1 edge.2.2) m

/-- Adds the edges of a row to a node, as they are seen through an edge: all of them are tagged if that
    edge is. -/
def absorb (m : BitMatrix size) (i : Nat) (row : BitRow size) (through : Bool) : BitMatrix size :=
  let tagged := m.tagged.joinRow i row.tagged
  { reach := m.reach.joinRow i row.reach
    tagged := if through then tagged.joinRow i row.reach else tagged }

def union (f g : BitMatrix size) : BitMatrix size :=
  ⟨f.reach.join g.reach, f.tagged.join g.tagged⟩

/-! ### Products -/

def composeRow (f g : BitMatrix size) (m : BitMatrix size) (i : Nat) : BitMatrix size :=
  (f.successors i).foldl (fun m j => m.absorb i (g.row j) (f.hasTaggedEdge i j)) m

def composeDense (f g : BitMatrix size) : BitMatrix size :=
  (List.range size).foldl (composeRow f g) empty

/-- The pairs of an edge into a middle node with an edge out of it, as edges of the product. -/
def joined (f g : BitMatrix size) (middle : Nat) : List (Nat × Nat × Bool) :=
  (f.predecessors middle).flatMap fun i =>
    (g.adjacency middle).map fun target =>
      (i, target.1, f.hasTaggedEdge i middle || target.2)

def composeSparse (f g : BitMatrix size) : BitMatrix size :=
  empty.insertAll ((List.range size).flatMap (joined f g))

def compose (strategy : Strategy) (f g : BitMatrix size) : BitMatrix size :=
  match strategy with
  | .dense => composeDense f g
  | .sparse => composeSparse f g

/-! ### Closures -/

/-- Adds the edge from every node to itself, untagged. -/
def reflexive (m : BitMatrix size) : BitMatrix size :=
  m.insertAll ((List.range size).map fun i => (i, i, false))

/-- A node on a tagged cycle reaches everything by a tagged walk. -/
def tagLoop (m : BitMatrix size) (pivot : Nat) : BitMatrix size :=
  if m.hasTaggedEdge pivot pivot then
    { m with tagged := m.tagged.joinRow pivot (m.reach.row pivot) }
  else m

/-- Lets the walks from a node pass through another, whose row is given. -/
def relaxRow (pivot : Nat) (through : BitRow size) (m : BitMatrix size) (i : Nat) :
    BitMatrix size :=
  if i ≠ pivot && m.hasEdge i pivot then m.absorb i through (m.hasTaggedEdge i pivot) else m

def relax (m : BitMatrix size) (pivot : Nat) : BitMatrix size :=
  let m := m.tagLoop pivot
  (List.range size).foldl (relaxRow pivot (m.row pivot)) m

/-- The closure by admitting the nodes one after the other. -/
def closureDense (m : BitMatrix size) : BitMatrix size :=
  (List.range size).foldl relax m.reflexive

/-- Joins the row of a successor into the row of a node. -/
def joinSuccessor (m : BitMatrix size) (i : Nat) (closed : BitMatrix size) (j : Nat) :
    BitMatrix size :=
  closed.absorb i (closed.row j) (m.hasTaggedEdge i j)

/-- The row of a node in the closure, from the rows of its successors. -/
def finishRow (m : BitMatrix size) (closed : BitMatrix size) (i : Nat) : BitMatrix size :=
  (m.successors i).foldl (m.joinSuccessor i) (closed.insert i i false)

/-- The closure of a graph without cycles, along a topological order. -/
def closureAlong (m : BitMatrix size) (order : List Nat) : BitMatrix size :=
  order.reverse.foldl m.finishRow empty

/-- A search from a node: what walks have found, and the ends of walks that are to be continued. -/
structure Search (size : Nat) where
  plain : CellRow size
  tagged : CellRow size
  /-- Ends of walks with their tags, the next one first. -/
  stack : List (Nat × Bool)

namespace Search

def start (source : Nat) : Search size :=
  ⟨Cells.empty.set 0 source, .empty, [(source, false)]⟩

/-- Takes note of a node, unless a walk that is tagged or of the same kind has found it before. -/
def find (s : Search size) (j : Nat) (tagged : Bool) : Search size :=
  if s.tagged.test 0 j || (!tagged && s.plain.test 0 j) then s
  else if tagged then { s with tagged := s.tagged.set 0 j, stack := (j, true) :: s.stack }
  else { s with plain := s.plain.set 0 j, stack := (j, false) :: s.stack }

def visit (tagged : Bool) (s : Search size) (target : Nat × Bool) : Search size :=
  s.find target.1 (tagged || target.2)

/-- Follows all edges from the end of the next walk. -/
def step (m : BitMatrix size) (s : Search size) : Search size :=
  match s.stack with
  | [] => s
  | (i, tagged) :: stack => (m.adjacency i).foldl (visit tagged) { s with stack := stack }

def run (m : BitMatrix size) : Nat → Search size → Search size
  | 0, s => s
  | n + 1, s => run m n (s.step m)

end Search

/-- The row of a node in the closure, by a search from it. Every node goes on the stack at most once
    untagged and once tagged, which bounds the number of steps. -/
def searchRow (m : BitMatrix size) (i : Nat) : BitRow size :=
  let s := (Search.start i).run m (2 * size)
  ⟨s.plain.join s.tagged, s.tagged⟩

def putRow (m : BitMatrix size) (i : Nat) (row : BitRow size) : BitMatrix size :=
  ⟨m.reach.putRow i row.reach, m.tagged.putRow i row.tagged⟩

def closureSearched (m : BitMatrix size) : BitMatrix size :=
  (List.range size).foldl (fun closed i => closed.putRow i (m.searchRow i)) empty

/-- The closure along a topological order, or else by a search from every node. -/
def closureSparse (m : BitMatrix size) : BitMatrix size :=
  match m.topologicalOrder? with
  | some order => m.closureAlong order
  | none => m.closureSearched

def closure (strategy : Strategy) (m : BitMatrix size) : BitMatrix size :=
  match strategy with
  | .dense => m.closureDense
  | .sparse => m.closureSparse

/-! ### Thinning -/

/-- An edge stays if it leads to the next node or to the earliest target in its session. -/
def keepsEdge (m : BitMatrix size) (place : TaggedGraph.Placement) (i j : Nat) : Bool :=
  TaggedGraph.isNext place i j ||
    !(m.successors i).any fun k => TaggedGraph.standsBefore place k j

/-- The graph without the edges that others imply. -/
def thin (m : BitMatrix size) (place : TaggedGraph.Placement) : BitMatrix size :=
  empty.insertAll (m.edges.filter fun edge => m.keepsEdge place edge.1 edge.2.1)

end BitMatrix

end Isolation
