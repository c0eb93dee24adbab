/-!
# Searching a Finite Graph

Breadth-first search over a list of vertices. The vertices that have not been met yet are an argument
of the search, and every vertex that is met is taken out of them, so the search ends because the
unmet vertices and the waiting ones together become fewer.

The graph is given by the question whether an edge leads from one vertex to another. The search starts
*behind* the source: a vertex counts as reachable from itself only if a cycle leads back to it.

## Main definitions

* `reachable`: The vertices that a nonempty path leads to.
-/

namespace Isolation.Graph

variable {α : Type}

theorem length_partition (p : α → Bool) (l : List α) :
    (l.partition p).1.length + (l.partition p).2.length = l.length := by
  rw [List.partition_eq_filter_filter]
  induction l with
  | nil => rfl
  | cons a l ih => cases h : p a <;> simp_all <;> omega

/-- The waiting vertices and all that can be met from them. -/
def explore (edge : α → α → Bool) (unmet waiting : List α) : List α :=
  match waiting with
  | [] => []
  | v :: waiting =>
    v :: explore edge (unmet.partition (edge v)).2 (waiting ++ (unmet.partition (edge v)).1)
termination_by unmet.length + waiting.length
decreasing_by
  have := length_partition (edge v) unmet
  simp only [List.length_append, List.length_cons]
  omega

/-- The vertices that a nonempty path from the source leads to. -/
def reachable (edge : α → α → Bool) (vertices : List α) (source : α) : List α :=
  let (next, unmet) := vertices.partition (edge source)
  explore edge unmet next

end Isolation.Graph
