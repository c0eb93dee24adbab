import Isolation.Graph.NodeMatrix
import Isolation.Proofs.Graph.Cells
import Isolation.Proofs.Graph.Sorting

/-!
# Edges of Bit Matrices

A bit matrix is described by the two relations that its cells stand for. It is *intact* if a tagged cell is
also set in the other table and no cell beyond the nodes is set in either. The second is not a matter of
course: the cells that fill up the last word of a row are copied and joined along with the others, and the
listing of a row does not know how many nodes there are. A single such cell would show up as a node that
does not exist, and only for numbers of nodes that are no multiple of sixty-four.

## Main definitions

* `BitMatrix.Intact`: Tagged edges are edges, and edges end at nodes.

## Theorems

* `Intact.faithful`: The listings of an intact matrix are right.
-/

namespace Isolation

namespace BitMatrix

variable {size : Nat} {m f g : BitMatrix size} {i j a b : Nat}

/-- An edge leads from one node to the other. -/
def Edge (m : BitMatrix size) (i j : Nat) : Prop :=
  m.hasEdge i j = true

/-- A tagged edge leads from one node to the other. -/
def Tagged (m : BitMatrix size) (i j : Nat) : Prop :=
  m.hasTaggedEdge i j = true

/-- Tagged edges are edges, and edges end at nodes. -/
structure Intact (m : BitMatrix size) : Prop where
  edge_of_tagged : ∀ {i j}, m.Tagged i j → m.Edge i j
  target_lt : ∀ {i j}, m.Edge i j → j < size

theorem source_lt (h : m.Edge i j) : i < size :=
  (m.reach.lt_of_test h).1

theorem test_row_reach : (m.row i).reach.test 0 j = true ↔ m.Edge i j := by
  rw [row, Cells.test_row]
  rfl

theorem test_row_tagged : (m.row i).tagged.test 0 j = true ↔ m.Tagged i j := by
  rw [row, Cells.test_row]
  rfl

/-! ### Listings -/

section Listings

theorem mem_successors_iff : j ∈ m.successors i ↔ m.Edge i j :=
  Cells.mem_ones_iff _

theorem pairwise_successors (m : BitMatrix size) (i : Nat) : (m.successors i).Pairwise (· < ·) :=
  Cells.pairwise_ones _ i

theorem nodup_successors (m : BitMatrix size) (i : Nat) : (m.successors i).Nodup :=
  (m.pairwise_successors i).nodup

theorem mem_predecessors_iff : i ∈ m.predecessors j ↔ m.Edge i j := by
  rw [predecessors, List.mem_filter, List.mem_range]
  exact ⟨fun h => h.2, fun h => ⟨source_lt h, h⟩⟩

theorem mem_adjacency_iff {tagged : Bool} :
    (j, tagged) ∈ m.adjacency i ↔ m.Edge i j ∧ m.hasTaggedEdge i j = tagged := by
  rw [adjacency, List.mem_map]
  constructor
  · rintro ⟨k, hk, heq⟩
    rw [Prod.mk.injEq] at heq
    rw [← heq.1]
    exact ⟨mem_successors_iff.1 hk, heq.2⟩
  · rintro ⟨hedge, htag⟩
    exact ⟨j, mem_successors_iff.2 hedge, by rw [htag]⟩

theorem mem_edges_iff {tagged : Bool} :
    (i, j, tagged) ∈ m.edges ↔ m.Edge i j ∧ m.hasTaggedEdge i j = tagged := by
  rw [edges, List.mem_flatMap]
  constructor
  · rintro ⟨k, -, hk⟩
    rcases List.mem_map.1 hk with ⟨target, htarget, heq⟩
    rw [Prod.mk.injEq] at heq
    rw [heq.1, heq.2] at htarget
    exact mem_adjacency_iff.1 htarget
  · intro h
    exact ⟨i, List.mem_range.2 (source_lt h.1), List.mem_map.2 ⟨_, mem_adjacency_iff.2 h, rfl⟩⟩

theorem nodup_edges (m : BitMatrix size) : m.edges.Nodup := by
  refine List.nodup_flatMap.2 ⟨fun i _ => ?_, ?_⟩
  · have htargets : (m.adjacency i).Nodup :=
      (m.nodup_successors i).map fun _ _ h => (Prod.mk.inj h).1
    exact htargets.map fun _ _ h => (Prod.mk.inj h).2
  · refine List.nodup_range.imp fun {i k} hne => ?_
    refine List.disjoint_left.2 fun e hi hk => hne ?_
    rcases List.mem_map.1 hi with ⟨_, _, rfl⟩
    rcases List.mem_map.1 hk with ⟨_, _, heq⟩
    exact (Prod.mk.inj heq).1.symm

theorem edgeCount_eq (m : BitMatrix size) : m.edgeCount = m.edges.length := by
  rw [edgeCount, Cells.count_eq, edges, length_flatMap_eq_total]
  refine total_congr fun i _ => ?_
  rw [List.length_map, adjacency, List.length_map, successors]

end Listings

/-! ### Setting cells -/

section Insert

theorem not_edge_empty : ¬ (empty : BitMatrix size).Edge i j := by
  simp [Edge, hasEdge, empty]

theorem not_tagged_empty : ¬ (empty : BitMatrix size).Tagged i j := by
  simp [Tagged, hasTaggedEdge, empty]

variable {tagged : Bool}

theorem edge_insert_iff (hi : i < size) (hj : j < size) :
    (m.insert i j tagged).Edge a b ↔ m.Edge a b ∨ i = a ∧ j = b := by
  rw [Edge, hasEdge, insert, Cells.test_set _ hi (lt_rowWords_mul hj), Bool.or_eq_true,
    decide_eq_true_eq]
  rfl

theorem tagged_insert_iff (hi : i < size) (hj : j < size) :
    (m.insert i j tagged).Tagged a b ↔ m.Tagged a b ∨ tagged = true ∧ i = a ∧ j = b := by
  cases tagged with
  | false => exact ⟨Or.inl, fun h => h.resolve_right fun h => Bool.false_ne_true h.1⟩
  | true =>
    rw [Tagged, hasTaggedEdge, insert, if_pos rfl, Cells.test_set _ hi (lt_rowWords_mul hj),
      Bool.or_eq_true, decide_eq_true_eq, and_iff_right rfl]
    rfl

/-- Edges between nodes of the graph. -/
def InRange (size : Nat) (edges : List (Nat × Nat × Bool)) : Prop :=
  ∀ edge ∈ edges, edge.1 < size ∧ edge.2.1 < size

variable {edges : List (Nat × Nat × Bool)}

theorem edge_insertAll_iff (hin : InRange size edges) :
    (m.insertAll edges).Edge a b ↔ m.Edge a b ∨ ∃ tagged, (a, b, tagged) ∈ edges := by
  induction edges generalizing m with
  | nil => simp [insertAll]
  | cons edge rest ih =>
    rcases List.forall_mem_cons.1 hin with ⟨hedge, hrest⟩
    rw [insertAll, List.foldl_cons]
    refine (ih hrest).trans ?_
    rw [edge_insert_iff hedge.1 hedge.2, or_assoc]
    refine or_congr_right ⟨?_, ?_⟩
    · rintro (⟨rfl, rfl⟩ | ⟨tagged, hmem⟩)
      · exact ⟨edge.2.2, List.mem_cons_self⟩
      · exact ⟨tagged, List.mem_cons_of_mem _ hmem⟩
    · rintro ⟨tagged, hmem⟩
      rcases List.mem_cons.1 hmem with rfl | hmem
      · exact .inl ⟨rfl, rfl⟩
      · exact .inr ⟨tagged, hmem⟩

theorem tagged_insertAll_iff (hin : InRange size edges) :
    (m.insertAll edges).Tagged a b ↔ m.Tagged a b ∨ (a, b, true) ∈ edges := by
  induction edges generalizing m with
  | nil => simp [insertAll]
  | cons edge rest ih =>
    rcases List.forall_mem_cons.1 hin with ⟨hedge, hrest⟩
    rw [insertAll, List.foldl_cons]
    refine (ih hrest).trans ?_
    rw [tagged_insert_iff hedge.1 hedge.2, or_assoc, List.mem_cons]
    refine or_congr_right (or_congr_left ⟨?_, ?_⟩)
    · rintro ⟨htag, rfl, rfl⟩
      rw [← htag]
    · rintro rfl
      exact ⟨rfl, rfl, rfl⟩

end Insert

/-! ### Joining and replacing rows -/

section Rows

variable {row : BitRow size} {through : Bool}

theorem edge_absorb_iff (hi : i < size) :
    (m.absorb i row through).Edge a b ↔ m.Edge a b ∨ a = i ∧ row.reach.test 0 b = true := by
  rw [Edge, hasEdge, absorb, Cells.test_joinRow _ _ hi, Bool.or_eq_true, Bool.and_eq_true,
    decide_eq_true_eq]
  rfl

theorem tagged_absorb_iff (hi : i < size) :
    (m.absorb i row through).Tagged a b ↔ m.Tagged a b ∨
      a = i ∧ (row.tagged.test 0 b = true ∨ through = true ∧ row.reach.test 0 b = true) := by
  have hplain : (m.tagged.joinRow i row.tagged).test a b = true ↔
      m.Tagged a b ∨ a = i ∧ row.tagged.test 0 b = true := by
    rw [Cells.test_joinRow _ _ hi, Bool.or_eq_true, Bool.and_eq_true, decide_eq_true_eq]
    rfl
  cases through with
  | false =>
    rw [Tagged, hasTaggedEdge, absorb, if_neg Bool.false_ne_true, hplain]
    simp
  | true =>
    rw [Tagged, hasTaggedEdge, absorb, if_pos rfl, Cells.test_joinRow _ _ hi, Bool.or_eq_true,
      Bool.and_eq_true, decide_eq_true_eq, hplain, or_assoc, ← and_or_left, and_iff_right rfl]

theorem edge_putRow_iff (hi : i < size) :
    (m.putRow i row).Edge a b ↔ if a = i then row.reach.test 0 b = true else m.Edge a b := by
  rw [Edge, hasEdge, putRow, Cells.test_putRow _ _ hi]
  split <;> rfl

theorem tagged_putRow_iff (hi : i < size) :
    (m.putRow i row).Tagged a b ↔ if a = i then row.tagged.test 0 b = true else m.Tagged a b := by
  rw [Tagged, hasTaggedEdge, putRow, Cells.test_putRow _ _ hi]
  split <;> rfl

theorem edge_union_iff : (f.union g).Edge i j ↔ f.Edge i j ∨ g.Edge i j := by
  rw [Edge, hasEdge, union, Cells.test_join, Bool.or_eq_true]
  rfl

theorem tagged_union_iff : (f.union g).Tagged i j ↔ f.Tagged i j ∨ g.Tagged i j := by
  rw [Tagged, hasTaggedEdge, union, Cells.test_join, Bool.or_eq_true]
  rfl

theorem row_insert_of_ne {tagged : Bool} (hi : i < size) (hj : j < size) (ha : a ≠ i) :
    (m.insert i j tagged).row a = m.row a := by
  have hset : ∀ cells : Cells size size, (cells.set i j).row a = cells.row a := fun cells =>
    cells.row_set_of_ne hi (lt_rowWords_mul hj) ha
  cases tagged with
  | false => rw [BitMatrix.row, BitMatrix.row, insert, hset, if_neg Bool.false_ne_true]
  | true => rw [BitMatrix.row, BitMatrix.row, insert, hset, if_pos rfl, hset]

theorem row_absorb_of_ne (hi : i < size) (ha : a ≠ i) :
    (m.absorb i row through).row a = m.row a := by
  have hjoin : ∀ (cells : Cells size size) row, (cells.joinRow i row).row a = cells.row a :=
    fun cells _ => cells.row_updateRow_of_ne _ hi ha
  cases through with
  | false => rw [BitMatrix.row, BitMatrix.row, absorb, hjoin, if_neg Bool.false_ne_true, hjoin]
  | true => rw [BitMatrix.row, BitMatrix.row, absorb, hjoin, if_pos rfl, hjoin, hjoin]

theorem row_putRow_of_ne (hi : i < size) (ha : a ≠ i) : (m.putRow i row).row a = m.row a :=
  congrArg₂ BitRow.mk (Cells.row_updateRow_of_ne _ _ hi ha) (Cells.row_updateRow_of_ne _ _ hi ha)

theorem row_foldl {β : Type} {step : BitMatrix size → β → BitMatrix size} {l : List β}
    (hframe : ∀ m, ∀ x ∈ l, (step m x).row a = m.row a) : (l.foldl step m).row a = m.row a :=
  List.foldlRecOn (motive := fun built => built.row a = m.row a) l step rfl
    fun built hbuilt x hx => (hframe built x hx).trans hbuilt

/-- Where each step changes a row of its own, a row is in the end what its step has made of it. -/
theorem exists_row_foldl {step : BitMatrix size → Nat → BitMatrix size}
    (hframe : ∀ m i, i < size → a ≠ i → (step m i).row a = m.row a) (m : BitMatrix size)
    (ha : a < size) : ∃ before : BitMatrix size, before.row a = m.row a ∧
      ((List.range size).foldl step m).row a = (step before a).row a := by
  rcases List.append_of_mem (List.mem_range.2 ha) with ⟨front, back, hsplit⟩
  have hnodup : (front ++ a :: back).Nodup := hsplit ▸ List.nodup_range
  have hlt : ∀ i ∈ front ++ a :: back, i < size := fun i hi => List.mem_range.1 (hsplit ▸ hi)
  simp only [List.nodup_append, List.nodup_cons, List.mem_append, List.mem_cons] at hnodup hlt
  refine ⟨front.foldl step m, row_foldl fun m i hi => ?_, ?_⟩
  · exact hframe m i (hlt i (.inl hi)) fun h => hnodup.2.2 i hi a (.inl rfl) h.symm
  · rw [hsplit, List.foldl_append, List.foldl_cons]
    exact row_foldl fun m i hi =>
      hframe m i (hlt i (.inr (.inr hi))) fun h => hnodup.2.1.1 (h ▸ hi)

/-- Matrices with the same edges and the same tags consist of the same words. -/
theorem ext_edges {n : BitMatrix size} (hedge : ∀ i j, m.Edge i j ↔ n.Edge i j)
    (htagged : ∀ i j, m.Tagged i j ↔ n.Tagged i j) : m = n := by
  have hreach : m.reach = n.reach := Cells.ext_test fun i j => Bool.eq_iff_iff.2 (hedge i j)
  have htags : m.tagged = n.tagged := Cells.ext_test fun i j => Bool.eq_iff_iff.2 (htagged i j)
  cases m
  cases n
  exact congrArg₂ BitMatrix.mk hreach htags

theorem edge_congr {n : BitMatrix size} (h : m.row i = n.row i) : m.Edge i j ↔ n.Edge i j := by
  rw [← test_row_reach, h, test_row_reach]

theorem tagged_congr {n : BitMatrix size} (h : m.row i = n.row i) : m.Tagged i j ↔ n.Tagged i j := by
  rw [← test_row_tagged, h, test_row_tagged]

end Rows

/-! ### What listings say -/

/-- The tables agree with each other, no cell is set that stands for no edge, and the listings are those
    of the cells. -/
structure Faithful (m : BitMatrix size) : Prop where
  edge_of_tagged : ∀ i j, m.hasTaggedEdge i j = true → m.hasEdge i j = true
  /-- In every word of either table, the cells beyond the nodes are clear. -/
  padding : ∀ i k c, c < 64 → size ≤ 64 * k + c →
    Word.test (m.reach.word i k) c = false ∧ Word.test (m.tagged.word i k) c = false
  ascending : ∀ i, (m.successors i).Pairwise (· < ·)
  mem_successors : ∀ i j, j ∈ m.successors i ↔ (i < size ∧ j < size) ∧ m.hasEdge i j = true
  mem_predecessors : ∀ i j, i ∈ m.predecessors j ↔ (i < size ∧ j < size) ∧ m.hasEdge i j = true
  nodup_edges : m.edges.Nodup
  mem_edges : ∀ i j tagged, (i, j, tagged) ∈ m.edges ↔
    (i < size ∧ j < size) ∧ m.hasEdge i j = true ∧ m.hasTaggedEdge i j = tagged
  edgeCount : m.edgeCount = m.edges.length

/-- The listings of an intact matrix are those of its cells. -/
theorem Intact.faithful (hm : m.Intact) : m.Faithful := by
  have hin : ∀ {i j}, m.Edge i j → i < size ∧ j < size := fun h => ⟨source_lt h, hm.target_lt h⟩
  refine ⟨fun i j => hm.edge_of_tagged, fun i k c hc hpad => ?_, m.pairwise_successors,
    fun i j => ?_, fun i j => ?_, m.nodup_edges, fun i j tagged => ?_, m.edgeCount_eq⟩
  · have hout : ¬ m.Edge i (64 * k + c) := fun h => Nat.not_lt.2 hpad (hm.target_lt h)
    rw [Cells.test_word _ hc, Cells.test_word _ hc]
    exact ⟨Bool.eq_false_iff.2 hout, Bool.eq_false_iff.2 fun h => hout (hm.edge_of_tagged h)⟩
  · exact mem_successors_iff.trans ⟨fun h => ⟨hin h, h⟩, And.right⟩
  · exact mem_predecessors_iff.trans ⟨fun h => ⟨hin h, h⟩, And.right⟩
  · exact mem_edges_iff.trans ⟨fun h => ⟨hin h.1, h⟩, And.right⟩

end BitMatrix

end Isolation
