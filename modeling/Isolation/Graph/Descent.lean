/-!
# Depth-First Search for a Cycle

A path is followed downwards for as long as its last vertex has successors that nobody has come to. A
successor that lies on the path closes a cycle, which is the path from that successor on. When all
successors of the last vertex have been looked at, the path goes back by one vertex, and that vertex is
never entered again.

The path is kept on a stack, together with the successors that remain to be looked at, and beside it the
place of each of its vertices, so that a cycle is cut out without looking for its start. Places are given
up when the path goes back. One table of places serves all roots in turn.

## Main definitions

* `Descent`, `findCycle?`: A search that is under way, and the cycle it finds.
-/

namespace Isolation.Graph

variable {α : Type}

/-- A search that is under way. -/
structure Descent (α : Type) where
  /-- The vertices on the path with their places, counted from zero. -/
  places : List (α × Nat)
  unmet : List α
  /-- The path, its last vertex first, with the successors that remain to be looked at. -/
  stack : List (α × List α)

namespace Descent

/-- The vertices on the path, from the first to the last. -/
def path (s : Descent α) : List α :=
  (s.stack.map Prod.fst).reverse

/-- The number of looks at the stack that are due for what waits on it. -/
def waiting : List (α × List α) → Nat
  | [] => 0
  | (_, pending) :: below => pending.length + 1 + waiting below

def start (vertices : List α) : Descent α :=
  ⟨[], vertices, []⟩

variable [DecidableEq α]

/-- The path goes on to a vertex. Of its successors the last one is looked at first. -/
def enter (successors : α → List α) (s : Descent α) (v : α) : Descent α where
  places := (v, s.stack.length) :: s.places
  unmet := s.unmet.filter (· ≠ v)
  stack := (v, (successors v).reverse) :: s.stack

def leave (s : Descent α) (v : α) (below : List (α × List α)) : Descent α :=
  { s with places := s.places.filter (·.1 ≠ v), stack := below }

/-- The looks at the stack that vertices will bring when they are met: one for each successor, and one
    more. -/
def cost (successors : α → List α) : List α → Nat
  | [] => 0
  | v :: rest => (successors v).length + 1 + cost successors rest

omit [DecidableEq α] in
theorem cost_filter_le (successors : α → List α) (p : α → Bool) (l : List α) :
    cost successors (l.filter p) ≤ cost successors l := by
  induction l with
  | nil => exact Nat.le_refl _
  | cons w rest ih =>
    rw [List.filter_cons]
    split
    · exact Nat.add_le_add_left ih _
    · exact Nat.le_trans ih (Nat.le_add_left _ _)

/-- A vertex that is met has been paid for. -/
theorem cost_filter_ne (successors : α → List α) {v : α} {l : List α} (hv : v ∈ l) :
    cost successors (l.filter (· ≠ v)) + (successors v).length + 1 ≤ cost successors l := by
  induction l with
  | nil => exact absurd hv List.not_mem_nil
  | cons w rest ih =>
    by_cases hw : w = v
    · have hrest := cost_filter_le successors (· ≠ v) rest
      rw [List.filter_cons_of_neg (by simp [hw]), cost, hw]
      omega
    · have hrest := ih ((List.mem_cons.mp hv).resolve_left fun heq => hw heq.symm)
      rw [List.filter_cons_of_pos (by simp [hw]), cost, cost]
      omega

/-- Follows the path until a cycle closes, which is then the outcome, or the path is used up. -/
def search (successors : α → List α) (s : Descent α) : Except (List α) (Descent α) :=
  match _ : s.stack with
  | [] => .ok s
  | (v, []) :: below => search successors (s.leave v below)
  | (v, w :: pending) :: below =>
    match s.places.lookup w with
    | some place => .error (s.path.drop place)
    | none =>
      if w ∈ s.unmet then
        search successors (enter successors { s with stack := (v, pending) :: below } w)
      else search successors { s with stack := (v, pending) :: below }
termination_by waiting s.stack + cost successors s.unmet
decreasing_by
  · rename_i hstack
    simp only [leave, hstack, waiting]
    omega
  · rename_i hstack hunmet
    have hcost := cost_filter_ne successors hunmet
    simp only [enter, hstack, waiting, List.length_cons, List.length_reverse]
    omega
  · rename_i hstack _
    simp only [hstack, waiting, List.length_cons]
    omega

/-- Follows a path from a root, unless it has been met. -/
def visit (successors : α → List α) (s : Descent α) (root : α) : Except (List α) (Descent α) :=
  if root ∈ s.unmet then (s.enter successors root).search successors else .ok s

end Descent

variable [DecidableEq α]

/-- The cycle that is found first by descending from each root in turn, if there is one. -/
def findCycle? (successors : α → List α) (vertices roots : List α) : Option (List α) :=
  match roots.foldlM (Descent.visit successors) (Descent.start vertices) with
  | .error cycle => some cycle
  | .ok _ => none

end Isolation.Graph
