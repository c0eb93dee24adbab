import Isolation.Proofs.Graph.BitMatrix
import Isolation.Proofs.Graph.Thinning

/-!
# Bit Matrices Follow Tagged Graphs

A bit matrix *shows* a tagged graph if the two have the same edges and the same tags. Each operation on
matrices follows the operation on graphs, so what is known about graphs is known about matrices. In
particular a matrix stays intact, because graphs stay regular: the rows that are joined word by word are
rows of a graph, and no graph has an edge that ends beyond its nodes.

The search is the one operation that works differently. It visits nodes by untagged and by tagged walks, and
it gives up an untagged walk where a tagged one has been. Nothing is lost by that: what lies behind the node
is found by the tagged walk, and that a tagged walk leads there is the stronger statement.

## Main definitions

* `BitMatrix.Shows`: A matrix and a graph have the same edges.

## Theorems

* `BitMatrix.Shows.compose`, `BitMatrix.Shows.closure`, `BitMatrix.Shows.thin`: The operations follow
  those on graphs.
-/

namespace Isolation

open Relation

namespace BitMatrix

variable {size : Nat} {m f n : BitMatrix size} {g h : TaggedGraph} {i j : Nat} {closed : BitMatrix size}

/-- The matrix and the graph have the same edges and the same tags. -/
structure Shows (m : BitMatrix size) (g : TaggedGraph) : Prop where
  size_eq : g.size = size
  edge : ∀ {i j}, m.Edge i j ↔ g.Edge i j
  tagged : ∀ {i j}, m.Tagged i j ↔ g.Tagged i j

theorem Shows.of_lt (hsize : g.size = size)
    (hsame : ∀ i < size, ∀ j, (m.Edge i j ↔ g.Edge i j) ∧ (m.Tagged i j ↔ g.Tagged i j)) :
    m.Shows g where
  size_eq := hsize
  edge {i j} := by
    by_cases hi : i < size
    · exact (hsame i hi j).1
    · exact iff_of_false (fun h => hi (source_lt h))
        (fun h => hi (hsize ▸ TaggedGraph.lt_size_of_edge h))
  tagged {i j} := by
    by_cases hi : i < size
    · exact (hsame i hi j).2
    · exact iff_of_false (fun h => hi (Cells.lt_of_test _ h).1)
        (fun h => hi (hsize ▸ TaggedGraph.lt_size_of_tagged h))

theorem Shows.intact (hm : m.Shows g) (hg : g.Regular) : m.Intact where
  edge_of_tagged h := hm.edge.2 (hg.edge_of_tagged (hm.tagged.1 h))
  target_lt h := hm.size_eq ▸ hg.target_lt (hm.edge.1 h)

theorem Shows.empty : (BitMatrix.empty : BitMatrix size).Shows (.empty size) where
  size_eq := TaggedGraph.size_empty size
  edge := iff_of_false not_edge_empty (TaggedGraph.not_edge_empty size _ _)
  tagged := iff_of_false not_tagged_empty (TaggedGraph.not_tagged_empty size _ _)

theorem Shows.insert (hm : m.Shows g) (hi : i < size) (hj : j < size) (tagged : Bool) :
    (m.insert i j tagged).Shows (g.insert i j tagged) where
  size_eq := (TaggedGraph.size_insert ..).trans hm.size_eq
  edge {a b} := by
    rw [edge_insert_iff hi hj, TaggedGraph.edge_insert_iff, hm.edge, hm.size_eq]
    exact or_congr_right ⟨fun h => ⟨⟨h.1.symm, hi⟩, h.2.symm⟩, fun h => ⟨h.1.1.symm, h.2.symm⟩⟩
  tagged {a b} := by
    rw [tagged_insert_iff hi hj, TaggedGraph.tagged_insert_iff, hm.tagged, hm.size_eq]
    exact or_congr_right ⟨fun h => ⟨⟨h.2.1.symm, hi⟩, h.2.2.symm, h.1⟩,
      fun h => ⟨h.2.2, h.1.1.symm, h.2.1.symm⟩⟩

theorem Shows.ofEdges {edges : List (Nat × Nat × Bool)} (hin : InRange size edges) :
    (BitMatrix.empty.insertAll edges : BitMatrix size).Shows (.ofEdges size edges) := by
  refine .of_lt (TaggedGraph.size_ofEdges ..) fun i hi j => ⟨?_, ?_⟩
  · rw [edge_insertAll_iff hin, TaggedGraph.edge_ofEdges_iff, or_iff_right not_edge_empty,
      and_iff_right hi]
  · rw [tagged_insertAll_iff hin, TaggedGraph.tagged_ofEdges_iff, or_iff_right not_tagged_empty,
      and_iff_right hi]

theorem Shows.union (hf : f.Shows g) (hn : n.Shows h) : (f.union n).Shows (g.union h) where
  size_eq := (TaggedGraph.size_union (hf.size_eq.trans hn.size_eq.symm)).trans hf.size_eq
  edge {i j} := by
    rw [edge_union_iff, TaggedGraph.edge_union_iff (hf.size_eq.trans hn.size_eq.symm), hf.edge, hn.edge]
  tagged {i j} := by
    rw [tagged_union_iff, TaggedGraph.tagged_union_iff (hf.size_eq.trans hn.size_eq.symm), hf.tagged,
      hn.tagged]

/-! ### Listings -/

theorem Shows.hasTaggedEdge_eq (hm : m.Shows g) (i j : Nat) :
    m.hasTaggedEdge i j = g.hasTaggedEdge i j :=
  Bool.eq_iff_iff.2 hm.tagged

theorem Shows.successors_eq (hm : m.Shows g) (hg : g.Regular) : m.successors = g.successors := by
  funext i
  refine List.Perm.eq_of_pairwise (fun a b _ _ hab hba => absurd hab (Nat.lt_asymm hba))
    (m.pairwise_successors i) (List.pairwise_lt_range.filter _) ?_
  refine (List.perm_ext_iff_of_nodup (m.nodup_successors i) (g.nodup_successors i)).2 fun j => ?_
  rw [mem_successors_iff, TaggedGraph.mem_successors_iff, hm.edge]
  exact ⟨fun h => ⟨hg.target_lt h, h⟩, And.right⟩

theorem Shows.edges_eq (hm : m.Shows g) (hg : g.Regular) : m.edges = g.edges := by
  simp [BitMatrix.edges, TaggedGraph.edges, adjacency, hm.successors_eq hg, hm.hasTaggedEdge_eq,
    TaggedGraph.nodes, hm.size_eq, Function.comp_def]

theorem Shows.joined_eq (hf : f.Shows g) (hn : n.Shows h) (hh : h.Regular) :
    joined f n = TaggedGraph.joined g h := by
  have hedge : ∀ i j, f.hasEdge i j = g.hasEdge i j := fun _ _ => Bool.eq_iff_iff.2 hf.edge
  funext middle
  simp [joined, TaggedGraph.joined, adjacency, predecessors, TaggedGraph.predecessors, hedge,
    hn.successors_eq hh, hf.hasTaggedEdge_eq, hn.hasTaggedEdge_eq, TaggedGraph.nodes, hf.size_eq,
    Function.comp_def]

/-- What is left of a graph is what is left of the matrix. -/
theorem Shows.thin (hm : m.Shows g) (hg : g.Regular) (place : TaggedGraph.Placement) :
    (m.thin place).Shows (g.thin place) := by
  have hkeeps : ∀ i j, m.keepsEdge place i j = g.keepsEdge place i j := by
    intro i j
    rw [keepsEdge, TaggedGraph.keepsEdge, hm.successors_eq hg]
  rw [BitMatrix.thin, TaggedGraph.thin, hm.edges_eq hg, hm.size_eq]
  simp only [hkeeps]
  refine .ofEdges fun edge hedge => ?_
  rcases (TaggedGraph.mem_edges_iff ..).1 (List.mem_filter.1 hedge).1 with ⟨htarget, hedge, -⟩
  exact ⟨hm.size_eq ▸ TaggedGraph.lt_size_of_edge hedge, hm.size_eq ▸ htarget⟩

/-! ### Products -/

section Products

theorem foldl_absorb_iff (rows : Nat → BitRow size) (through : Nat → Bool) (l : List Nat)
    (hi : i < size) (b : Nat) :
    ((l.foldl (fun m j => m.absorb i (rows j) (through j)) m).Edge i b ↔
      m.Edge i b ∨ ∃ j ∈ l, (rows j).reach.test 0 b = true) ∧
    ((l.foldl (fun m j => m.absorb i (rows j) (through j)) m).Tagged i b ↔
      m.Tagged i b ∨ ∃ j ∈ l, (rows j).tagged.test 0 b = true ∨
        through j = true ∧ (rows j).reach.test 0 b = true) := by
  induction l generalizing m with
  | nil => simp
  | cons j rest ih =>
    rw [List.foldl_cons, ih.1, ih.2, edge_absorb_iff hi, tagged_absorb_iff hi, and_iff_right rfl,
      and_iff_right rfl, List.exists_mem_cons_iff, List.exists_mem_cons_iff, or_assoc, or_assoc]
    exact ⟨Iff.rfl, Iff.rfl⟩

theorem composeDense_iff (hi : i < size) (k : Nat) :
    ((composeDense f n).Edge i k ↔ ∃ j, f.Edge i j ∧ n.Edge j k) ∧
    ((composeDense f n).Tagged i k ↔
      ∃ j, f.Edge i j ∧ (n.Tagged j k ∨ f.Tagged i j ∧ n.Edge j k)) := by
  have hframe : ∀ (m : BitMatrix size) a, a < size → i ≠ a → (composeRow f n m a).row i = m.row i :=
    fun m a ha hne => row_foldl fun m j _ => row_absorb_of_ne ha hne
  rcases exists_row_foldl hframe BitMatrix.empty hi with ⟨before, hbefore, hrow⟩
  rw [composeDense, edge_congr hrow, tagged_congr hrow, composeRow,
    (foldl_absorb_iff _ _ _ hi k).1, (foldl_absorb_iff _ _ _ hi k).2, edge_congr hbefore,
    tagged_congr hbefore, or_iff_right not_edge_empty, or_iff_right not_tagged_empty]
  simp only [mem_successors_iff, test_row_reach, test_row_tagged, true_and]
  exact Iff.rfl

theorem Shows.compose (hf : f.Shows g) (hn : n.Shows h) (hg : g.Regular) (hh : h.Regular)
    (strategy : Strategy) : (f.compose strategy n).Shows (g.compose strategy h) := by
  cases strategy with
  | dense =>
    refine .of_lt ((TaggedGraph.size_compose .dense).trans hf.size_eq) fun i hi k => ?_
    rw [TaggedGraph.edge_compose_iff .dense hg hh, TaggedGraph.tagged_compose_iff .dense hg hh,
      BitMatrix.compose, (composeDense_iff hi k).1, (composeDense_iff hi k).2]
    simp only [hf.edge, hf.tagged, hn.edge, hn.tagged, true_and]
    refine exists_congr fun j => ?_
    have hedge : h.Tagged j k → h.Edge j k := hh.edge_of_tagged
    tauto
  | sparse =>
    rw [BitMatrix.compose, composeSparse, TaggedGraph.compose, TaggedGraph.composeSparse,
      TaggedGraph.nodes, hf.size_eq, hf.joined_eq hn hh]
    refine .ofEdges fun edge hedge => ?_
    rcases List.mem_flatMap.1 hedge with ⟨middle, -, hjoined⟩
    rcases (TaggedGraph.mem_joined_iff ..).1 hjoined with ⟨hsource, htarget, -⟩
    exact ⟨hf.size_eq ▸ TaggedGraph.lt_size_of_edge hsource, hn.size_eq ▸ htarget.1⟩

end Products

/-! ### Closures by rounds and along an order -/

section Closures

theorem Shows.reflexive (hm : m.Shows g) : m.reflexive.Shows g.reflexive := by
  have hin : InRange size ((List.range size).map fun i => (i, i, false)) := by
    intro edge hedge
    rcases List.mem_map.1 hedge with ⟨i, hi, rfl⟩
    exact ⟨List.mem_range.1 hi, List.mem_range.1 hi⟩
  refine .of_lt ((TaggedGraph.size_reflexive g).trans hm.size_eq) fun i hi j => ⟨?_, ?_⟩
  · rw [BitMatrix.reflexive, edge_insertAll_iff hin, TaggedGraph.edge_reflexive_iff, hm.edge,
      hm.size_eq]
    simp [hi]
  · rw [BitMatrix.reflexive, tagged_insertAll_iff hin, TaggedGraph.tagged_reflexive_iff, hm.tagged]
    simp

theorem edge_tagLoop_iff {pivot : Nat} : (m.tagLoop pivot).Edge i j ↔ m.Edge i j := by
  rw [tagLoop]
  split <;> rfl

theorem tagged_tagLoop_iff {pivot : Nat} (hpivot : pivot < size) :
    (m.tagLoop pivot).Tagged i j ↔
      m.Tagged i j ∨ i = pivot ∧ m.Tagged pivot pivot ∧ m.Edge pivot j := by
  rw [tagLoop]
  split
  · rename_i hloop
    rw [Tagged, hasTaggedEdge, Cells.test_joinRow _ _ hpivot, Cells.test_row, Bool.or_eq_true,
      Bool.and_eq_true, decide_eq_true_eq]
    exact or_congr_right (and_congr_right fun _ => (and_iff_right hloop).symm)
  · rename_i hloop
    exact ⟨Or.inl, fun h => h.resolve_right fun h => hloop h.2.1⟩

theorem Shows.relax (hm : m.Shows g) {pivot : Nat} (hpivot : pivot < size) :
    (m.relax pivot).Shows (g.relax pivot) := by
  refine .of_lt ((TaggedGraph.size_relax g pivot).trans hm.size_eq) fun i hi j => ?_
  have hframe : ∀ (n : BitMatrix size) a, a < size → i ≠ a →
      (relaxRow pivot ((m.tagLoop pivot).row pivot) n a).row i = n.row i := by
    intro n a ha hne
    rw [relaxRow]
    split
    · exact row_absorb_of_ne ha hne
    · rfl
  rcases exists_row_foldl hframe (m.tagLoop pivot) hi with ⟨before, hbefore, hrow⟩
  have hedge : ∀ {k}, before.Edge i k ↔ m.Edge i k := (edge_congr hbefore).trans edge_tagLoop_iff
  have htagged : ∀ {k}, before.Tagged i k ↔ _ :=
    (tagged_congr hbefore).trans (tagged_tagLoop_iff hpivot)
  rw [BitMatrix.relax, edge_congr hrow, tagged_congr hrow, TaggedGraph.edge_relax_iff,
    TaggedGraph.tagged_relax_iff]
  simp only [← hm.edge, ← hm.tagged]
  -- The row of the stop itself was settled by its loop; the others take it if they lead there.
  by_cases hthrough : i ≠ pivot ∧ m.Edge i pivot
  · have hcond : (decide (i ≠ pivot) && before.hasEdge i pivot) = true :=
      Bool.and_eq_true_iff.2 ⟨decide_eq_true hthrough.1, hedge.2 hthrough.2⟩
    have hback : before.hasTaggedEdge i pivot = true ↔ m.Tagged i pivot := by
      refine htagged.trans (or_iff_left fun h => hthrough.1 h.1)
    rw [relaxRow, if_pos hcond, edge_absorb_iff hi, tagged_absorb_iff hi, test_row_reach,
      test_row_tagged, edge_tagLoop_iff, tagged_tagLoop_iff hpivot, hedge, htagged, hback]
    grind
  · have hcond : ¬ (decide (i ≠ pivot) && before.hasEdge i pivot) = true := fun h =>
      hthrough ⟨of_decide_eq_true (Bool.and_eq_true_iff.1 h).1, hedge.1 (Bool.and_eq_true_iff.1 h).2⟩
    rw [relaxRow, if_neg hcond, hedge, htagged]
    grind

theorem Shows.closureDense (hm : m.Shows g) : m.closureDense.Shows g.closureDense := by
  have hfold : ∀ (l : List Nat) {m : BitMatrix size} {g : TaggedGraph}, m.Shows g →
      (∀ p ∈ l, p < size) → (l.foldl BitMatrix.relax m).Shows (l.foldl TaggedGraph.relax g) := by
    intro l
    induction l with
    | nil => exact fun hm _ => hm
    | cons p rest ih =>
      intro m g hm hl
      rw [List.forall_mem_cons] at hl
      exact ih (hm.relax hl.1) hl.2
  rw [BitMatrix.closureDense, TaggedGraph.closureDense, TaggedGraph.nodes, hm.size_eq]
  exact hfold _ hm.reflexive fun p hp => List.mem_range.1 hp

theorem row_foldl_joinSuccessor {a : Nat} (l : List Nat) (hi : i < size) (ha : a ≠ i) :
    (l.foldl (m.joinSuccessor i) closed).row a = closed.row a :=
  row_foldl fun _ _ _ => row_absorb_of_ne hi ha

theorem foldl_joinSuccessor_eq {start closed : BitMatrix size} (hi : i < size)
    (hsame : ∀ a ≠ i, closed.row a = start.row a) {l : List Nat} (hl : ∀ j ∈ l, j ≠ i) :
    l.foldl (m.joinSuccessor i) closed =
      l.foldl (fun closed j => closed.absorb i (start.row j) (m.hasTaggedEdge i j)) closed := by
  induction l generalizing closed with
  | nil => rw [List.foldl_nil, List.foldl_nil]
  | cons j rest ih =>
    rw [List.forall_mem_cons] at hl
    have hstep : m.joinSuccessor i closed j =
        closed.absorb i (start.row j) (m.hasTaggedEdge i j) := by
      rw [joinSuccessor, hsame j hl.1]
    rw [List.foldl_cons, List.foldl_cons, hstep]
    exact ih (fun a ha => (row_absorb_of_ne hi ha).trans (hsame a ha)) hl.2

theorem row_finishRow_of_ne {a : Nat} (hi : i < size) (ha : a ≠ i) :
    (m.finishRow closed i).row a = closed.row a := by
  rw [finishRow, row_foldl_joinSuccessor _ hi ha, row_insert_of_ne hi hi ha]

theorem row_foldl_finishRow {a : Nat} {l : List Nat} (hl : ∀ i ∈ l, i < size) (ha : a ∉ l) :
    (l.foldl m.finishRow closed).row a = closed.row a :=
  row_foldl fun _ i hi => row_finishRow_of_ne (hl i hi) fun h => ha (h ▸ hi)

/-- A row that was empty is finished by the rows of the successors, none of which it is itself. -/
theorem Shows.finishRow (hm : m.Shows g) (hg : g.Regular) {c : TaggedGraph} (hclosed : closed.Shows c)
    (hi : i < size) (hempty : closed.row i = BitMatrix.empty.row i) (hself : ¬ m.Edge i i) :
    (m.finishRow closed i).Shows (g.finishRow c i) := by
  refine .of_lt ((TaggedGraph.size_finishRow g c i).trans hclosed.size_eq) fun k hk j => ?_
  rw [TaggedGraph.edge_finishRow_iff, TaggedGraph.tagged_finishRow_iff, hclosed.size_eq]
  by_cases hki : k = i
  · subst hki
    have hne : ∀ j ∈ m.successors k, j ≠ k := by
      rintro j hj rfl
      exact hself (mem_successors_iff.1 hj)
    have hother : ∀ a ≠ k, (closed.insert k k false).row a = closed.row a := fun a ha =>
      row_insert_of_ne hi hi ha
    -- The row is not among those that are joined into it, so they can be read before the loop.
    rw [BitMatrix.finishRow, foldl_joinSuccessor_eq hi hother hne, (foldl_absorb_iff _ _ _ hi j).1,
      (foldl_absorb_iff _ _ _ hi j).2, edge_insert_iff hi hi, tagged_insert_iff hi hi,
      edge_congr hempty, tagged_congr hempty, or_iff_right not_edge_empty,
      or_iff_right not_tagged_empty, if_pos ⟨rfl, hi⟩, if_pos ⟨rfl, hi⟩, hm.successors_eq hg]
    simp only [test_row_reach, test_row_tagged, hclosed.edge, hclosed.tagged, true_and,
      Bool.false_eq_true, false_and, false_or]
    exact exists_congr fun a => and_congr_right fun _ => or_congr_right (and_congr_left fun _ => hm.tagged)
  · rw [edge_congr (row_finishRow_of_ne hi hki), tagged_congr (row_finishRow_of_ne hi hki),
      if_neg fun h => hki h.1, if_neg fun h => hki h.1]
    exact ⟨hclosed.edge, hclosed.tagged⟩

theorem Shows.closureAlong (hm : m.Shows g) (hg : g.Regular) {order : List Nat}
    (hnodup : order.Nodup) (hlt : ∀ i ∈ order, i < size) (hacyclic : ∀ i, ¬ m.Edge i i) :
    (m.closureAlong order).Shows (g.closureAlong order) := by
  rw [BitMatrix.closureAlong, TaggedGraph.closureAlong, hm.size_eq]
  -- The pass starts at the end of the order, so the row of a node is empty until all later ones are done.
  induction order with
  | nil => exact .empty
  | cons i later ih =>
    rw [List.nodup_cons] at hnodup
    rw [List.forall_mem_cons] at hlt
    rw [List.reverse_cons, List.foldl_append, List.foldl_append]
    refine hm.finishRow hg (ih hnodup.2 hlt.2) hlt.1 (row_foldl_finishRow ?_ ?_) (hacyclic i)
    · exact fun k hk => hlt.2 k (List.mem_reverse.1 hk)
    · exact fun h => hnodup.1 (List.mem_reverse.1 h)

end Closures

/-! ### Closures by searches -/

namespace Search

variable {s : Search size} {source : Nat} {e : Nat × Bool}

/-- A walk of the kind has found the node. -/
def Found (s : Search size) (e : Nat × Bool) : Prop :=
  (if e.2 then s.tagged else s.plain).test 0 e.1 = true

/-- The node needs no further visit by walks of the kind. -/
def Covered (s : Search size) (e : Nat × Bool) : Prop :=
  s.Found (e.1, true) ∨ s.Found e

/-- What no walk has found. -/
def vacant (s : Search size) : Finset (Nat × Bool) :=
  {e ∈ Finset.range size ×ˢ Finset.univ | (if e.2 then s.tagged else s.plain).test 0 e.1 = false}

/-- An upper bound for the number of steps that are left. -/
def potential (s : Search size) : Nat :=
  s.stack.length + s.vacant.card

theorem mem_vacant_iff : e ∈ s.vacant ↔ e.1 < size ∧ ¬ s.Found e := by
  simp [vacant, Found]

/-- A node is either covered or noted, with the end of its walk on the stack. -/
theorem find_cases (s : Search size) {j : Nat} (hj : j < size) (tagged : Bool) :
    s.Covered (j, tagged) ∧ s.find j tagged = s ∨
      ¬ s.Found (j, tagged) ∧ (s.find j tagged).stack = (j, tagged) :: s.stack ∧
        ∀ e, (s.find j tagged).Found e ↔ s.Found e ∨ e = (j, tagged) := by
  have hset : ∀ (cells : CellRow size) a,
      (cells.set 0 j).test 0 a = true ↔ cells.test 0 a = true ∨ a = j := by
    intro cells a
    rw [Cells.test_set _ Nat.zero_lt_one (lt_rowWords_mul hj), Bool.or_eq_true, decide_eq_true_eq,
      and_iff_right rfl]
    exact or_congr_right eq_comm
  rw [find]
  split
  · rename_i hcovered
    refine Or.inl ⟨?_, rfl⟩
    cases tagged <;> simpa [Covered, Found] using hcovered
  · rename_i hfresh
    right
    cases tagged <;> simp_all [Found, Prod.forall]

theorem potential_eq {t : Search size} (he : e.1 < size) (hfresh : ¬ s.Found e)
    (hstack : t.stack = e :: s.stack) (hfound : ∀ x, t.Found x ↔ s.Found x ∨ x = e) :
    t.potential = s.potential := by
  have hvacant : t.vacant = s.vacant.erase e := by
    ext x
    rw [Finset.mem_erase, mem_vacant_iff, mem_vacant_iff, hfound, not_or]
    tauto
  have hcard := Finset.card_erase_add_one (mem_vacant_iff.2 ⟨he, hfresh⟩)
  rw [potential, potential, hstack, hvacant, List.length_cons]
  omega

/-- The ends of the walks one edge further, as far as they are news, come onto the stack. -/
theorem exists_news (tagged : Bool) {targets : List (Nat × Bool)} (hlt : ∀ x ∈ targets, x.1 < size)
    (s : Search size) : ∃ news, (targets.foldl (visit tagged) s).stack = news ++ s.stack ∧
      (∀ e, (targets.foldl (visit tagged) s).Found e ↔ s.Found e ∨ e ∈ news) ∧
      (∀ e ∈ news, ∃ x ∈ targets, e = (x.1, tagged || x.2)) ∧
      (∀ x ∈ targets, (targets.foldl (visit tagged) s).Covered (x.1, tagged || x.2)) ∧
      (targets.foldl (visit tagged) s).potential = s.potential := by
  induction targets generalizing s with
  | nil => exact ⟨[], by simp⟩
  | cons x rest ih =>
    rw [List.forall_mem_cons] at hlt
    rcases ih hlt.2 (s.visit tagged x) with ⟨news, hstack, hfound, hnews, hcovered, hpotential⟩
    rw [List.foldl_cons]
    -- A target that is covered changes nothing; one that is not lies below the news of the others.
    rcases find_cases s hlt.1 (tagged || x.2) with ⟨hold, hsame⟩ | ⟨hfresh, hpush, hnoted⟩
    · rw [visit, hsame] at hstack hfound hcovered hpotential ⊢
      refine ⟨news, hstack, hfound, fun e he => ?_, ?_, hpotential⟩
      · rcases hnews e he with ⟨y, hy, heq⟩
        exact ⟨y, List.mem_cons_of_mem _ hy, heq⟩
      · exact List.forall_mem_cons.2
          ⟨hold.imp (fun h => (hfound _).2 (.inl h)) fun h => (hfound _).2 (.inl h), hcovered⟩
    · refine ⟨news ++ [(x.1, tagged || x.2)], ?_, fun e => ?_, fun e he => ?_, ?_, ?_⟩
      · rw [hstack, visit, hpush, List.append_assoc, List.singleton_append]
      · rw [hfound, visit, hnoted, List.mem_append, List.mem_singleton, or_assoc, or_comm (a := e = _)]
      · rcases List.mem_append.1 he with he | he
        · rcases hnews e he with ⟨y, hy, heq⟩
          exact ⟨y, List.mem_cons_of_mem _ hy, heq⟩
        · exact ⟨x, List.mem_cons_self, List.mem_singleton.1 he⟩
      · exact List.forall_mem_cons.2
          ⟨.inr ((hfound _).2 (.inl ((hnoted _).2 (.inr rfl)))), hcovered⟩
      · exact hpotential.trans (potential_eq (e := (x.1, tagged || x.2)) hlt.1 hfresh hpush hnoted)

/-- What is found is at the end of a walk, and it is to be continued or has been. -/
structure Explored (g : TaggedGraph) (source : Nat) (s : Search size) : Prop where
  started : s.Covered (source, false)
  sound : ∀ e, s.Found e → ReflTransGen (fun a b => g.walkStep a b = true) (source, false) e
  stacked : ∀ e ∈ s.stack, s.Found e
  followed : ∀ e, s.Found e → e ∈ s.stack ∨ ∀ e', g.walkStep e e' = true → s.Covered e'

theorem explored_start (g : TaggedGraph) (hsource : source < size) :
    Explored g source (start source : Search size) ∧
      (start source : Search size).potential = 2 * size := by
  have hblank : ∀ e, ¬ (⟨.empty, .empty, []⟩ : Search size).Found e := by
    intro e
    simp [Found, Cells.test_empty]
  -- The source is the first news of a search that has found nothing.
  have hstart : (start source : Search size) =
      [(source, false)].foldl (visit false) ⟨.empty, .empty, []⟩ := by
    simp [start, visit, find, Cells.test_empty]
  have hlt : ∀ x ∈ [(source, false)], x.1 < size := by simpa using hsource
  rcases exists_news false hlt ⟨.empty, .empty, []⟩ with
    ⟨news, hstack, hfound, hnews, hcovered, hpotential⟩
  rw [← hstart] at hstack hfound hcovered hpotential
  rw [List.append_nil] at hstack
  have hmem : ∀ e, (start source : Search size).Found e ↔ e ∈ news := fun e =>
    (hfound e).trans (or_iff_right (hblank e))
  have hbegun : (start source : Search size).Covered (source, false) :=
    hcovered (source, false) List.mem_cons_self
  refine ⟨⟨hbegun, fun e he => ?_, fun e he => ?_, fun e he => ?_⟩, ?_⟩
  · rcases hnews e ((hmem e).1 he) with ⟨x, hx, rfl⟩
    rw [List.mem_singleton.1 hx]
    exact .refl
  · exact (hmem e).2 (hstack ▸ he)
  · exact .inl (hstack ▸ (hmem e).1 he)
  · have hall : (⟨.empty, .empty, []⟩ : Search size).vacant = Finset.range size ×ˢ Finset.univ := by
      ext e
      rw [mem_vacant_iff]
      simp [hblank e]
    rw [hpotential, potential, hall, Finset.card_product, Finset.card_range, Finset.card_univ,
      Fintype.card_bool, List.length_nil]
    omega

theorem walkStep_iff (hm : m.Shows g) {tagged : Bool} :
    g.walkStep (i, tagged) e = true ↔ ∃ x ∈ m.adjacency i, e = (x.1, tagged || x.2) := by
  rw [TaggedGraph.walkStep_iff]
  constructor
  · rintro ⟨hedge, heq⟩
    have hlisted : (e.1, g.hasTaggedEdge i e.1) ∈ m.adjacency i :=
      mem_adjacency_iff.2 ⟨hm.edge.2 hedge, hm.hasTaggedEdge_eq ..⟩
    exact ⟨_, hlisted, Prod.ext rfl heq⟩
  · rintro ⟨⟨j, b⟩, hx, rfl⟩
    rcases mem_adjacency_iff.1 hx with ⟨hedge, rfl⟩
    exact ⟨hm.edge.1 hedge, congrArg (tagged || ·) (hm.hasTaggedEdge_eq i j)⟩

theorem Explored.step (hm : m.Shows g) (hg : g.Regular) (hs : Explored g source s)
    (hmore : s.stack ≠ []) :
    Explored g source (s.step m) ∧ (s.step m).potential + 1 = s.potential := by
  rcases List.exists_cons_of_ne_nil hmore with ⟨⟨i, tagged⟩, later, hlater⟩
  have hlt : ∀ x ∈ m.adjacency i, x.1 < size := fun x hx =>
    (hm.intact hg).target_lt (mem_adjacency_iff.1 hx).1
  rcases exists_news tagged hlt { s with stack := later } with
    ⟨news, hstack, hfound, hnews, hcovered, hpotential⟩
  have hstep : s.step m = (m.adjacency i).foldl (visit tagged) { s with stack := later } := by
    rw [Search.step, hlater]
  rw [← hstep] at hstack hfound hcovered hpotential
  have hkeep : ∀ {e}, s.Covered e → (s.step m).Covered e := fun h =>
    h.imp (fun h => (hfound _).2 (.inl h)) fun h => (hfound _).2 (.inl h)
  have hhead : s.Found (i, tagged) := hs.stacked _ (hlater ▸ List.mem_cons_self)
  refine ⟨⟨hkeep hs.started, fun e he => ?_, fun e he => ?_, fun e he => ?_⟩, ?_⟩
  · rcases (hfound e).1 he with hold | hnew
    · exact hs.sound e hold
    · exact (hs.sound _ hhead).tail ((walkStep_iff hm).2 (hnews e hnew))
  · rw [hstack, List.mem_append] at he
    exact (hfound e).2 (he.elim .inr fun he =>
      .inl (hs.stacked e (hlater ▸ List.mem_cons_of_mem _ he)))
  · rw [hstack, List.mem_append]
    rcases (hfound e).1 he with hold | hnew
    · rcases hs.followed e hold with hmem | hdone
      · rw [hlater, List.mem_cons] at hmem
        rcases hmem with rfl | hmem
        · -- This walk is off the stack because all its edges have been followed.
          refine .inr fun e' he' => ?_
          rcases (walkStep_iff hm).1 he' with ⟨x, hx, rfl⟩
          exact hcovered x hx
        · exact .inl (.inr hmem)
      · exact .inr fun e' he' => hkeep (hdone e' he')
    · exact .inl (.inl hnew)
  · rw [hpotential, potential, potential, hlater, List.length_cons]
    exact Nat.add_right_comm ..

theorem Explored.run (hm : m.Shows g) (hg : g.Regular) {steps : Nat} (hs : Explored g source s)
    (henough : s.stack = [] ∨ s.potential ≤ steps) :
    Explored g source (s.run m steps) ∧ (s.run m steps).stack = [] := by
  -- On the number of steps; a search that is over stays as it is, and any other step uses up potential.
  induction steps generalizing s with
  | zero =>
    refine ⟨hs, henough.elim id fun h => List.eq_nil_of_length_eq_zero ?_⟩
    exact Nat.eq_zero_of_le_zero (Nat.le_trans (Nat.le_add_right ..) h)
  | succ steps ih =>
    rw [Search.run]
    by_cases hdone : s.stack = []
    · rw [Search.step, hdone]
      exact ih hs (.inl hdone)
    · rcases hs.step hm hg hdone with ⟨hnext, hpotential⟩
      refine ih hnext (.inr ?_)
      have := henough.resolve_left hdone
      omega

theorem Explored.covered (hs : Explored g source s) (hdone : s.stack = [])
    (hwalk : ReflTransGen (fun a b => g.walkStep a b = true) (source, false) e) : s.Covered e := by
  have hnone : ∀ e, e ∉ s.stack := fun e => hdone ▸ List.not_mem_nil
  induction hwalk with
  | refl => exact hs.started
  | @tail b c _ hstep ih =>
    rcases ih with htagged | hfound
    · -- A tagged walk to the node goes on to be a tagged walk to the next.
      have hlonger : g.walkStep (b.1, true) (c.1, true) = true :=
        (TaggedGraph.walkStep_iff ..).2 ⟨((TaggedGraph.walkStep_iff ..).1 hstep).1, rfl⟩
      exact .inl (or_self_iff.1 (((hs.followed _ htagged).resolve_left (hnone _)) _ hlonger))
    · exact ((hs.followed _ hfound).resolve_left (hnone _)) _ hstep

end Search

/-- A search finds the nodes that walks lead to, and tells which of them tagged walks lead to. -/
theorem Shows.searchRow (hm : m.Shows g) (hg : g.Regular) (hi : i < size) (j : Nat) :
    ((m.searchRow i).reach.test 0 j = true ↔ ReflTransGen g.Edge i j) ∧
      ((m.searchRow i).tagged.test 0 j = true ↔ g.TaggedWalk i j) := by
  rcases Search.explored_start g hi with ⟨hstart, hpotential⟩
  rcases hstart.run hm hg (.inr hpotential.le) with ⟨hs, hdone⟩
  rw [BitMatrix.searchRow, Cells.test_join, Bool.or_eq_true]
  refine ⟨⟨fun hfound => ?_, fun hpath => ?_⟩, ⟨fun hfound => ?_, fun hwalk => ?_⟩⟩
  · have hwalk : ∃ tagged, ReflTransGen (fun a b => g.walkStep a b = true) (i, false) (j, tagged) :=
      hfound.elim (fun h => ⟨false, hs.sound (j, false) h⟩) fun h => ⟨true, hs.sound (j, true) h⟩
    rcases hwalk with ⟨tagged, hwalk⟩
    rcases reflTransGen_iff_eq_or_transGen.1 hwalk with heq | hwalk
    · rw [(Prod.mk.inj heq).1]
    · exact (TaggedGraph.path_of_walk hwalk).1.to_reflTransGen
  · rcases TaggedGraph.exists_walk_of_path hpath false with ⟨tagged, -, hwalk⟩
    rcases hs.covered hdone hwalk with h | h
    · exact .inr h
    · cases tagged
      · exact .inl h
      · exact .inr h
  · rcases reflTransGen_iff_eq_or_transGen.1 (hs.sound (j, true) hfound) with heq | hwalk
    · exact absurd (Prod.mk.inj heq).2 Bool.noConfusion
    · exact ((TaggedGraph.path_of_walk hwalk).2 rfl).resolve_left Bool.false_ne_true
  · have hcovered := hs.covered hdone (TaggedGraph.walk_of_taggedWalk hwalk).to_reflTransGen
    exact hcovered.elim id id

/-- Both strategies lead to the closure of the graph. -/
theorem Shows.closure (hm : m.Shows g) (hg : g.Regular) (strategy : Strategy) :
    (m.closure strategy).Shows (g.closure strategy) := by
  cases strategy with
  | dense => exact hm.closureDense
  | sparse =>
    have horder : m.topologicalOrder? = g.topologicalOrder? := by
      rw [BitMatrix.topologicalOrder?, TaggedGraph.topologicalOrder?, hm.successors_eq hg, hm.size_eq]
    cases hfound : g.topologicalOrder? with
    | some order =>
      have hordered := TaggedGraph.topologicalOrder?_ordered hg hfound
      rw [BitMatrix.closure, BitMatrix.closureSparse, horder, hfound, TaggedGraph.closure,
        TaggedGraph.closureSparse, hfound]
      refine hm.closureAlong hg (hordered.1.nodup_iff.2 List.nodup_range) (fun i hi => ?_)
        fun i hedge => Nat.lt_irrefl _ (hordered.2 (hm.edge.1 hedge))
      exact hm.size_eq ▸ List.mem_range.1 (hordered.1.mem_iff.1 hi)
    | none =>
      -- There is a cycle, and every row comes from a search of its own.
      refine .of_lt ((TaggedGraph.size_closure g _).trans hm.size_eq) fun i hi j => ?_
      rcases exists_row_foldl (fun _ _ ha hne => row_putRow_of_ne ha hne) .empty hi with
        ⟨before, -, hrow⟩
      rw [BitMatrix.closure, BitMatrix.closureSparse, horder, hfound,
        TaggedGraph.edge_closure_iff hg _ (hm.size_eq ▸ hi), TaggedGraph.tagged_closure_iff hg,
        BitMatrix.closureSearched, edge_congr hrow, tagged_congr hrow, edge_putRow_iff hi,
        tagged_putRow_iff hi, if_pos rfl, if_pos rfl]
      exact hm.searchRow hg hi j

end BitMatrix

end Isolation
