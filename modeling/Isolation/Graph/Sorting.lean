/-!
# Topological Sorting

Vertices are numbered from zero. A vertex is *ready* when all edges into it come from vertices that
are already listed. Ready vertices wait on a stack, the ones that are ready from the start with the
highest number on top; when a vertex is listed, its successors lose one open edge each, in their order,
and those that lose their last one go on top of the stack.

Every vertex leaves the stack at most once, so the number of vertices bounds the number of steps. If
vertices remain when the stack is empty, they lie on a cycle or behind one.

## Main definitions

* `Sorting.step`, `topologicalOrder?`: Lists one vertex, and all of them, every edge going forward.
-/

namespace Isolation.Graph

/-- A partly sorted graph. -/
structure Sorting where
  /-- How many edges into each vertex come from vertices that are not listed. -/
  openEdges : Array Nat
  ready : List Nat
  listed : List Nat

namespace Sorting

/-- One edge into a vertex has been dealt with. -/
def closeEdge (s : Sorting) (v : Nat) : Sorting :=
  let remaining := s.openEdges.getD v 0 - 1
  { s with
    openEdges := s.openEdges.modify v fun _ => remaining
    ready := if remaining = 0 then v :: s.ready else s.ready }

def step (successors : Nat → List Nat) (s : Sorting) : Sorting :=
  match s.ready with
  | [] => s
  | v :: ready =>
    (successors v).foldl closeEdge { s with ready := ready, listed := v :: s.listed }

def run (successors : Nat → List Nat) : Nat → Sorting → Sorting
  | 0, s => s
  | n + 1, s => run successors n (step successors s)

def countEdge (openEdges : Array Nat) (v : Nat) : Array Nat :=
  openEdges.modify v (· + 1)

def inDegrees (size : Nat) (successors : Nat → List Nat) : Array Nat :=
  (List.range size).foldl (fun degrees v => (successors v).foldl countEdge degrees)
    (Array.replicate size 0)

/-- Nothing is listed, and the vertices without incoming edges are ready. -/
def start (size : Nat) (successors : Nat → List Nat) : Sorting :=
  let degrees := inDegrees size successors
  { openEdges := degrees
    ready := ((List.range size).filter fun v => degrees.getD v 0 = 0).reverse
    listed := [] }

end Sorting

/-- All vertices in an order in which every edge goes forward, if there is one. -/
def topologicalOrder? (size : Nat) (successors : Nat → List Nat) : Option (List Nat) :=
  let order := ((Sorting.start size successors).run successors size).listed.reverse
  if order.length = size then some order else none

end Isolation.Graph
