import Isolation.Proofs.Graph.Simulation

/-!
# Topological Orders of Bit Matrices

The sparse closure of a graph without cycles goes through a topological order from its end and joins into
the row of each node the rows of its successors. It changes the table it reads from. This is right because
every edge goes forward in the order: the successors of a node come after it, so their rows were finished
before and are never touched again, and the node is not among them.

That the order has this property is a fact about sorting, which only asks that the listings of successors
name nodes and name each of them once. In an intact matrix they do.

## Main definitions

* `BitMatrix.SortsRight`: Sorting and the pass along the order do what they are meant to.

## Theorems

* `BitMatrix.Intact.sortsRight`: Sorting finds an order exactly if there is no cycle, no count drops below
  zero on the way, and the pass along the order reads final rows only.
-/

namespace Isolation

namespace BitMatrix

variable {size : Nat} {m : BitMatrix size}

/-- Whenever the pass along an order joins the row of a node's successor into the row of the node, the two
    are different, and the row that is read is the one that the closure has in the end. -/
def ReadsFinal (m : BitMatrix size) (order : List Nat) : Prop :=
  ∀ earlier i later, order = earlier ++ i :: later →
    ∀ before j after, m.successors i = before ++ j :: after →
      j ≠ i ∧ (before.foldl (m.joinSuccessor i)
        ((later.reverse.foldl m.finishRow empty).insert i i false)).row j =
          (m.closureAlong order).row j

/-- Along an order in which edges go forward, only final rows are read. -/
theorem readsFinal_of_forward {order : List Nat} (hperm : order.Perm (List.range size))
    (hforward : ∀ i j, m.Edge i j → order.idxOf i < order.idxOf j) : m.ReadsFinal order := by
  rintro earlier i later rfl before j after hsplit
  have hedge : m.Edge i j := mem_successors_iff.1 (by rw [hsplit]; simp)
  have hlt : ∀ k ∈ earlier ++ i :: later, k < size := fun k hk =>
    List.mem_range.1 (hperm.mem_iff.1 hk)
  have hnodup : (earlier ++ i :: later).Nodup := hperm.nodup_iff.2 List.nodup_range
  have hi : i < size := hlt i (by simp)
  have hne : j ≠ i := by
    rintro rfl
    exact Nat.lt_irrefl _ (hforward j j hedge)
  -- A node that is finished after this one stands before it, and no edge leads back there.
  have hnew : j ∉ i :: earlier.reverse := by
    rw [List.mem_cons, List.mem_reverse, not_or]
    refine ⟨hne, fun hj => ?_⟩
    have hback := (mem_prefix_iff_idxOf_lt hnodup rfl j).1 hj
    exact Nat.lt_asymm hback (hforward i j hedge)
  have hfinal : m.closureAlong (earlier ++ i :: later) =
      (i :: earlier.reverse).foldl m.finishRow (later.reverse.foldl m.finishRow empty) := by
    rw [closureAlong, List.reverse_append, List.reverse_cons, List.append_assoc,
      List.singleton_append, List.foldl_append]
  refine ⟨hne, ?_⟩
  have hrest : ∀ k ∈ i :: earlier.reverse, k < size := by
    intro k hk
    refine hlt k (List.mem_append.2 ?_)
    rcases List.mem_cons.1 hk with rfl | hk
    · exact .inr List.mem_cons_self
    · exact .inl (List.mem_reverse.1 hk)
  rw [row_foldl_joinSuccessor _ hi hne, row_insert_of_ne hi hi hne, hfinal,
    row_foldl_finishRow hrest hnew]

/-- Sorting finds an order of the nodes exactly if there is no cycle; no count drops below zero on the way,
    nothing waits in the end, and the pass along the order reads final rows only. -/
structure SortsRight (m : BitMatrix size) : Prop where
  found_iff : (∃ order, m.topologicalOrder? = some order) ↔ Acyclic m.Edge
  counts_closed : ∀ n, ((Graph.Sorting.start size m.successors).run m.successors n).CountsClosed
    m.successors
  nothing_ready : ((Graph.Sorting.start size m.successors).run m.successors size).ready = []
  perm : ∀ order, m.topologicalOrder? = some order → order.Perm (List.range size)
  forward : ∀ order, m.topologicalOrder? = some order → ∀ i j, m.Edge i j →
    order.idxOf i < order.idxOf j
  reads_final : ∀ order, m.topologicalOrder? = some order → m.ReadsFinal order

section Sorting

variable (hm : m.Intact)

include hm

theorem Intact.successors_lt (i : Nat) : ∀ j ∈ m.successors i, j < size :=
  fun _ hj => hm.target_lt (mem_successors_iff.1 hj)

theorem Intact.perm_topologicalOrder {order : List Nat} (hfound : m.topologicalOrder? = some order) :
    order.Perm (List.range size) :=
  Graph.perm_of_topologicalOrder? m.nodup_successors hm.successors_lt hfound

theorem Intact.forward_topologicalOrder {order : List Nat}
    (hfound : m.topologicalOrder? = some order) (i j : Nat) (hedge : m.Edge i j) :
    order.idxOf i < order.idxOf j :=
  Graph.idxOf_lt_of_topologicalOrder? m.nodup_successors hm.successors_lt hfound (source_lt hedge)
    (mem_successors_iff.2 hedge)

/-- An order is found exactly if there is no cycle. -/
theorem Intact.topologicalOrder_iff :
    (∃ order, m.topologicalOrder? = some order) ↔ Acyclic m.Edge := by
  constructor
  · rintro ⟨order, hfound⟩
    exact Acyclic.of_rank order.idxOf (hm.forward_topologicalOrder hfound)
  · intro hacyclic
    refine Graph.exists_topologicalOrder m.nodup_successors hm.successors_lt (hacyclic.mono ?_)
    exact fun i j h => mem_successors_iff.1 h.2

theorem Intact.nothing_ready :
    ((Graph.Sorting.start size m.successors).run m.successors size).ready = [] := by
  have hs := Graph.Sorting.sorted_final m.nodup_successors hm.successors_lt
  rcases Graph.Sorting.listed_run m.successors (Graph.Sorting.start size m.successors) size with
    hready | hlength
  · exact hready
  · -- All vertices are listed, and what waits is not listed.
    generalize (Graph.Sorting.start size m.successors).run m.successors size = final at hs hlength ⊢
    have hperm : final.listed.Perm (List.range size) := by
      refine (hs.nodup_listed.subperm fun v hv => List.mem_range.2 (hs.listed_lt v hv)).perm_of_length_le ?_
      rw [hlength, List.length_range]
      exact Nat.le_add_left ..
    refine List.eq_nil_iff_forall_not_mem.2 fun v hv => ?_
    rcases (hs.mem_ready v).1 hv with ⟨hlt, hnew, -⟩
    exact hnew (hperm.mem_iff.2 (List.mem_range.2 hlt))

end Sorting

/-- Sorting is right for every intact matrix, and so is the closure along the order that it finds. -/
theorem Intact.sortsRight (hm : m.Intact) : m.SortsRight where
  found_iff := hm.topologicalOrder_iff
  counts_closed n := Graph.Sorting.Sorted.countsClosed m.nodup_successors hm.successors_lt
    (Graph.Sorting.Sorted.run m.nodup_successors hm.successors_lt
      (Graph.Sorting.sorted_start m.nodup_successors hm.successors_lt) n)
  nothing_ready := hm.nothing_ready
  perm _ := hm.perm_topologicalOrder
  forward _ := hm.forward_topologicalOrder
  reads_final _ hfound :=
    readsFinal_of_forward (hm.perm_topologicalOrder hfound) (hm.forward_topologicalOrder hfound)

/-- A path from the last of sixty-five nodes back to the first and on to the second. -/
theorem sortsRight_acrossWords :
    ((empty : BitMatrix 65).insertAll [(64, 0, true), (0, 1, false)]).Intact ∧
      ((empty : BitMatrix 65).insertAll [(64, 0, true), (0, 1, false)]).SortsRight := by
  have hm : ((empty : BitMatrix 65).insertAll [(64, 0, true), (0, 1, false)]).Intact :=
    (Shows.ofEdges (by simp [InRange])).intact (.ofEdges (by grind))
  exact ⟨hm, hm.sortsRight⟩

end BitMatrix

end Isolation
