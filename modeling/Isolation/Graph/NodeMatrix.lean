import Isolation.Graph.BitMatrix
import Isolation.Graph.NodeGraph

/-!
# Bit Matrices Over Named Nodes

A bit matrix with a fixed list of distinct nodes, where a node's number is its place in the list. The list
also fixes the rows and words that the matrix has. Two matrices can be combined only if they are over the
same list.

## Main definitions

* `NodeMatrix`, `NodeMismatch`: A bit matrix with its list of nodes, and why two cannot be combined.
-/

namespace Isolation

/-- Why two graphs cannot be combined, or a graph cannot be asked. -/
inductive NodeMismatch where
  /-- The graphs are over different lists of nodes. -/
  | differentNodes
  | outside
deriving DecidableEq

def NodeMismatch.message : NodeMismatch → String
  | .differentNodes => "matrix graphs over different node sets"
  | .outside => "no such row or column"

/-- A bit matrix and the names of its nodes. -/
structure NodeMatrix (α : Type) where
  names : List α
  cells : BitMatrix names.length
deriving DecidableEq

namespace NodeMatrix

variable {α : Type} [DecidableEq α]

/-- The graph without edges over the given nodes; repeats are dropped. -/
def edgeless (names : List α) : NodeMatrix α :=
  ⟨names.eraseDups, .empty⟩

def index? (m : NodeMatrix α) (node : α) : Option Nat :=
  m.names.idxOf? node

def pair? (m : NodeMatrix α) (source target : α) : Option (Nat × Nat) :=
  (m.index? source).bind fun i => (m.index? target).map fun j => (i, j)

def insertAt (m : NodeMatrix α) (i j : Nat) (tagged : Bool) : NodeMatrix α :=
  { m with cells := m.cells.insert i j tagged }

/-- Adds an edge and says whether both ends are nodes of the graph; if not, nothing changes. -/
def insert (m : NodeMatrix α) (source target : α) (tagged : Bool) : Bool × NodeMatrix α :=
  match m.pair? source target with
  | some (i, j) => (true, m.insertAt i j tagged)
  | none => (false, m)

def hasEdge (m : NodeMatrix α) (source target : α) : Bool :=
  (m.pair? source target).any fun (i, j) => m.cells.hasEdge i j

/-- A tagged edge leads from one node to the other. -/
def hasTaggedEdge (m : NodeMatrix α) (source target : α) : Bool :=
  (m.pair? source target).any fun (i, j) => m.cells.hasTaggedEdge i j

/-- The edges of a directed graph between the given nodes, all with one tag. -/
def ofDigraph (names : List α) (d : Digraph α) (tagged : Bool) : NodeMatrix α :=
  d.edges.foldl (fun m (source, target) => (m.insert source target tagged).2) (edgeless names)

/-- The matrix of a graph over the same list of nodes. -/
def cellsOver (m : NodeMatrix α) {names : List α} (h : names = m.names) : BitMatrix names.length :=
  h ▸ m.cells

/-- The edges of two graphs over the same nodes. -/
def union (f g : NodeMatrix α) : Except NodeMismatch (NodeMatrix α) :=
  if h : f.names = g.names then .ok { f with cells := f.cells.union (g.cellsOver h) }
  else .error .differentNodes

/-- The product of two graphs over the same nodes. -/
def compose (strategy : Strategy) (f g : NodeMatrix α) : Except NodeMismatch (NodeMatrix α) :=
  if h : f.names = g.names then .ok { f with cells := f.cells.compose strategy (g.cellsOver h) }
  else .error .differentNodes

def closure (strategy : Strategy) (m : NodeMatrix α) : NodeMatrix α :=
  { m with cells := m.cells.closure strategy }

/-- The graph without the edges that the order of sessions implies. -/
def thin (m : NodeMatrix α) (place : α → Nat × Nat) : NodeMatrix α :=
  { m with cells := m.cells.thin (NodeGraph.placement m.names place) }

/-- The graph has a cell in that row and column. Cells that stand for no edge count. -/
def hasCell (m : NodeMatrix α) (i j : Nat) : Bool :=
  i < m.names.length && j < 64 * rowWords m.names.length

/-- The first of some edges that lies on a tagged cycle, judged by a closure. An edge for which the
    closure has no cell ends the search. -/
def findCycleEdge (closure : NodeMatrix α) :
    List (Nat × Nat × Bool) → Except NodeMismatch (Option (Nat × Nat))
  | [] => .ok none
  | (i, j, tagged) :: rest =>
    if !closure.hasCell j i then .error .outside
    else if closure.cells.hasEdge j i && (tagged || closure.cells.hasTaggedEdge j i) then
      .ok (some (i, j))
    else closure.findCycleEdge rest

/-- The first edge that lies on a tagged cycle, judged by the closure of the graph. -/
def cycleEdge (m closure : NodeMatrix α) : Except NodeMismatch (Option (α × α)) :=
  (closure.findCycleEdge m.cells.edges).map fun edge =>
    edge.bind fun (i, j) =>
      m.names[i]?.bind fun source => m.names[j]?.map fun target => (source, target)

end NodeMatrix

end Isolation
