import Isolation.Graph.Tagged

/-!
# Products of Tagged Graphs

The product of two graphs has an edge wherever an edge of the first is followed by an edge of the
second, and the edge is tagged if one of the two is. There are two ways to compute it, with the same
result. The dense way joins, for every edge of the first graph, a whole row of the second. The sparse
way pairs the edges into each middle node with the edges out of it.

## Main definitions

* `Strategy`, `TaggedGraph.compose`: The two ways to a product, and the product.
-/

namespace Isolation

/-- How products and closures are computed. The results agree; only the effort differs. -/
inductive Strategy where
  | dense
  | sparse
deriving DecidableEq, Repr

namespace TaggedGraph

/-- What a row reaches through the rows of another graph. -/
def throughRow (f g : TaggedGraph) (row : Row) : Row :=
  (f.members row).foldl
    (fun joined j => joined.union ((g.row j).behind (row.tagged.testBit j))) .empty

def composeDense (f g : TaggedGraph) : TaggedGraph :=
  ⟨f.rows.map (throughRow f g)⟩

/-- The pairs of an edge into a middle node with an edge out of it, as edges of the product. -/
def joined (f g : TaggedGraph) (middle : Nat) : List (Nat × Nat × Bool) :=
  (f.predecessors middle).flatMap fun i =>
    (g.successors middle).map fun k =>
      (i, k, f.hasTaggedEdge i middle || g.hasTaggedEdge middle k)

def composeSparse (f g : TaggedGraph) : TaggedGraph :=
  ofEdges f.size (f.nodes.flatMap (joined f g))

def compose (strategy : Strategy) (f g : TaggedGraph) : TaggedGraph :=
  match strategy with
  | .dense => composeDense f g
  | .sparse => composeSparse f g

end TaggedGraph

end Isolation
