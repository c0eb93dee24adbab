import Isolation.Proofs.History.WellFormed
import Isolation.Graph.Closure
import Isolation.Graph.Thinning

/-!
# Edges of Tagged Graphs

The rows of a graph are bits. Everything that is proved about graphs is about the two relations that the
bits stand for, so each operation is described once by what it does to them, and the bits do not appear
again after that.

A graph is *regular* if a tagged edge is an edge and edges end at nodes. Nothing prevents a row from
holding a bit that is no node, so this has to be known where an edge is looked up by its end.

## Main definitions

* `TaggedGraph.Edge`, `TaggedGraph.Tagged`: The two relations.

## Theorems

* `edge_union_iff`, `edge_compose_iff`, `tagged_compose_iff`: The edges of what the operations build.
-/

namespace Isolation

theorem testBit_bit (i j : Nat) : (bit i).testBit j = decide (i = j) := by
  rw [bit, Nat.one_shiftLeft, Nat.testBit_two_pow]

namespace TaggedGraph

/-- An edge leads from one node to the other. -/
def Edge (g : TaggedGraph) (i j : Nat) : Prop :=
  g.hasEdge i j = true

/-- A tagged edge leads from one node to the other. -/
def Tagged (g : TaggedGraph) (i j : Nat) : Prop :=
  g.hasTaggedEdge i j = true

instance (g : TaggedGraph) (i j : Nat) : Decidable (g.Edge i j) :=
  inferInstanceAs (Decidable (g.hasEdge i j = true))

instance (g : TaggedGraph) (i j : Nat) : Decidable (g.Tagged i j) :=
  inferInstanceAs (Decidable (g.hasTaggedEdge i j = true))

/-- Tagged edges are edges, and edges end at nodes. -/
structure Regular (g : TaggedGraph) : Prop where
  edge_of_tagged : ∀ {i j}, g.Tagged i j → g.Edge i j
  target_lt : ∀ {i j}, g.Edge i j → j < g.size

section Rows

theorem row_eq (g : TaggedGraph) (i : Nat) : g.row i = (g.rows[i]?).getD .empty := by
  rw [row, Array.getD_eq_getD_getElem?]

theorem row_of_size_le (g : TaggedGraph) {i : Nat} (hle : g.size ≤ i) : g.row i = .empty := by
  rw [row_eq, Array.getElem?_eq_none hle, Option.getD_none]

theorem row_empty (size i : Nat) : (empty size).row i = .empty := by
  rw [row_eq, empty, Array.getElem?_replicate]
  split
  · rfl
  · rfl

theorem row_modify (g : TaggedGraph) (change : Row → Row) (i k : Nat) :
    (TaggedGraph.mk (g.rows.modify i change)).row k =
      if k = i ∧ i < g.size then change (g.row k) else g.row k := by
  rw [row_eq, row_eq, Array.getElem?_modify]
  by_cases hk : k = i
  · subst hk
    rw [if_pos rfl]
    by_cases hlt : k < g.size
    · rw [if_pos ⟨rfl, hlt⟩, Array.getElem?_eq_getElem hlt]
      rfl
    · rw [if_neg (fun hc => hlt hc.2), Array.getElem?_eq_none (Nat.le_of_not_lt hlt)]
      rfl
  · rw [if_neg (fun hc => hk hc.symm), if_neg (fun hc => hk hc.1)]

theorem row_insert (g : TaggedGraph) (i j k : Nat) (tagged : Bool) :
    (g.insert i j tagged).row k =
      if k = i ∧ i < g.size then (g.row k).insert j tagged else g.row k :=
  row_modify ..

end Rows

variable {f g : TaggedGraph}

theorem lt_size_of_edge {i j : Nat} (hedge : g.Edge i j) : i < g.size := by
  by_contra hc
  rw [Edge, hasEdge, row_of_size_le g (Nat.le_of_not_lt hc)] at hedge
  exact absurd hedge (by simp [Row.empty])

theorem not_edge_empty (size i j : Nat) : ¬ (empty size).Edge i j := by
  rw [Edge, hasEdge, row_empty, Row.empty, Nat.zero_testBit]
  exact Bool.false_ne_true

theorem not_tagged_empty (size i j : Nat) : ¬ (empty size).Tagged i j := by
  rw [Tagged, hasTaggedEdge, row_empty, Row.empty, Nat.zero_testBit]
  exact Bool.false_ne_true

section Insert

variable (g) (i j : Nat) (tagged : Bool)

theorem size_insert : (g.insert i j tagged).size = g.size :=
  Array.size_modify

theorem edge_insert_iff (a b : Nat) :
    (g.insert i j tagged).Edge a b ↔ g.Edge a b ∨ (a = i ∧ i < g.size) ∧ b = j := by
  rw [Edge, hasEdge, row_insert]
  split
  · next hrow =>
      rw [Row.insert, Nat.testBit_or, Bool.or_eq_true, testBit_bit, decide_eq_true_eq, Edge, hasEdge]
      exact or_congr_right ⟨fun heq => ⟨hrow, heq.symm⟩, fun hc => hc.2.symm⟩
  · next hrow =>
      exact ⟨Or.inl, fun hc => hc.resolve_right fun hc => hrow hc.1⟩

theorem tagged_insert_iff (a b : Nat) :
    (g.insert i j tagged).Tagged a b ↔
      g.Tagged a b ∨ (a = i ∧ i < g.size) ∧ b = j ∧ tagged = true := by
  rw [Tagged, hasTaggedEdge, row_insert]
  split
  · next hrow =>
      rw [Row.insert]
      cases tagged with
      | false =>
        rw [if_neg Bool.false_ne_true]
        exact ⟨Or.inl, fun hc => hc.resolve_right fun hc => Bool.false_ne_true hc.2.2⟩
      | true =>
        rw [if_pos rfl, Nat.testBit_or, Bool.or_eq_true, testBit_bit, decide_eq_true_eq, Tagged,
          hasTaggedEdge]
        exact or_congr_right ⟨fun heq => ⟨hrow, heq.symm, rfl⟩, fun hc => hc.2.1.symm⟩
  · next hrow =>
      exact ⟨Or.inl, fun hc => hc.resolve_right fun hc => hrow hc.1⟩

variable {g j}

theorem Regular.insert (hg : g.Regular) (hj : j < g.size) : (g.insert i j tagged).Regular where
  edge_of_tagged h := by
    rw [tagged_insert_iff] at h
    exact (edge_insert_iff ..).mpr (h.imp hg.edge_of_tagged fun h => ⟨h.1, h.2.1⟩)
  target_lt h := by
    rw [size_insert]
    rcases (edge_insert_iff ..).mp h with h | h
    · exact hg.target_lt h
    · exact h.2 ▸ hj

end Insert

section OfEdges

variable (size : Nat) (es : List (Nat × Nat × Bool))

theorem foldl_insert_spec (g : TaggedGraph) (i j : Nat) :
    let built := es.foldl (fun g (i, j, tagged) => g.insert i j tagged) g
    built.size = g.size ∧
    (built.Edge i j ↔ g.Edge i j ∨ i < g.size ∧ ∃ tagged, (i, j, tagged) ∈ es) ∧
    (built.Tagged i j ↔ g.Tagged i j ∨ i < g.size ∧ (i, j, true) ∈ es) := by
  induction es generalizing g with
  | nil =>
    simp only [List.foldl_nil, List.not_mem_nil, exists_false, and_false, or_false, and_self]
  | cons e rest ih =>
    rcases e with ⟨a, b, t⟩
    rcases ih (g.insert a b t) with ⟨hsize, hedge, htagged⟩
    rw [size_insert] at hsize hedge htagged
    simp only [List.foldl_cons]
    refine ⟨hsize, hedge.trans ?_, htagged.trans ?_⟩
    · rw [edge_insert_iff, or_assoc]
      refine or_congr_right ⟨?_, ?_⟩
      · rintro (⟨⟨rfl, hlt⟩, rfl⟩ | ⟨hlt, t', hmem⟩)
        · exact ⟨hlt, t, List.mem_cons_self ..⟩
        · exact ⟨hlt, t', List.mem_cons_of_mem _ hmem⟩
      · rintro ⟨hlt, t', hmem⟩
        rcases List.mem_cons.mp hmem with heq | hmem
        · simp only [Prod.mk.injEq] at heq
          rcases heq with ⟨rfl, rfl, _⟩
          exact Or.inl ⟨⟨rfl, hlt⟩, rfl⟩
        · exact Or.inr ⟨hlt, t', hmem⟩
    · rw [tagged_insert_iff, or_assoc]
      refine or_congr_right ⟨?_, ?_⟩
      · rintro (⟨⟨rfl, hlt⟩, rfl, rfl⟩ | ⟨hlt, hmem⟩)
        · exact ⟨hlt, List.mem_cons_self ..⟩
        · exact ⟨hlt, List.mem_cons_of_mem _ hmem⟩
      · rintro ⟨hlt, hmem⟩
        rcases List.mem_cons.mp hmem with heq | hmem
        · simp only [Prod.mk.injEq] at heq
          rcases heq with ⟨rfl, rfl, rfl⟩
          exact Or.inl ⟨⟨rfl, hlt⟩, rfl, rfl⟩
        · exact Or.inr ⟨hlt, hmem⟩

theorem size_empty : (empty size).size = size :=
  Array.size_replicate

theorem size_ofEdges : (ofEdges size es).size = size :=
  (foldl_insert_spec es (empty size) 0 0).1.trans (size_empty size)

theorem edge_ofEdges_iff (i j : Nat) :
    (ofEdges size es).Edge i j ↔ i < size ∧ ∃ tagged, (i, j, tagged) ∈ es := by
  rw [ofEdges, (foldl_insert_spec es (empty size) i j).2.1, size_empty]
  exact or_iff_right (not_edge_empty size i j)

theorem tagged_ofEdges_iff (i j : Nat) :
    (ofEdges size es).Tagged i j ↔ i < size ∧ (i, j, true) ∈ es := by
  rw [ofEdges, (foldl_insert_spec es (empty size) i j).2.2, size_empty]
  exact or_iff_right (not_tagged_empty size i j)

theorem Regular.empty : (empty size).Regular where
  edge_of_tagged h := (not_tagged_empty _ _ _ h).elim
  target_lt h := (not_edge_empty _ _ _ h).elim

variable {size es}

theorem Regular.ofEdges (htarget : ∀ i j tagged, (i, j, tagged) ∈ es → j < size) :
    (ofEdges size es).Regular := by
  constructor
  · intro i j htagged
    rw [tagged_ofEdges_iff] at htagged
    exact (edge_ofEdges_iff size es i j).mpr ⟨htagged.1, true, htagged.2⟩
  · intro i j hedge
    rw [edge_ofEdges_iff] at hedge
    rcases hedge with ⟨_, tagged, hmem⟩
    rw [size_ofEdges]
    exact htarget i j tagged hmem

end OfEdges

section Union

theorem size_union (hsize : f.size = g.size) : (f.union g).size = f.size := by
  rw [size, union, Array.size_zipWith]
  exact Nat.min_eq_left (Nat.le_of_eq hsize)

theorem row_union (hsize : f.size = g.size) (i : Nat) :
    (f.union g).row i = (f.row i).union (g.row i) := by
  by_cases hlt : i < f.size
  · rw [row_eq, row_eq, row_eq, union, Array.getElem?_zipWith,
      Array.getElem?_eq_getElem hlt, Array.getElem?_eq_getElem (hsize ▸ hlt : i < g.size)]
    rfl
  · have hle := Nat.le_of_not_lt hlt
    rw [row_of_size_le _ (by rw [size_union hsize]; exact hle), row_of_size_le f hle,
      row_of_size_le g (hsize ▸ hle)]
    rfl

theorem edge_union_iff (hsize : f.size = g.size) (i j : Nat) :
    (f.union g).Edge i j ↔ f.Edge i j ∨ g.Edge i j := by
  rw [Edge, hasEdge, row_union hsize, Row.union, Nat.testBit_or, Bool.or_eq_true]
  rfl

theorem tagged_union_iff (hsize : f.size = g.size) (i j : Nat) :
    (f.union g).Tagged i j ↔ f.Tagged i j ∨ g.Tagged i j := by
  rw [Tagged, hasTaggedEdge, row_union hsize, Row.union, Nat.testBit_or, Bool.or_eq_true]
  rfl

theorem Regular.union (hf : f.Regular) (hg : g.Regular) (hsize : f.size = g.size) :
    (f.union g).Regular := by
  constructor
  · intro i j htagged
    rw [tagged_union_iff hsize] at htagged
    rw [edge_union_iff hsize]
    exact htagged.imp hf.edge_of_tagged hg.edge_of_tagged
  · intro i j hedge
    rw [edge_union_iff hsize] at hedge
    rw [size_union hsize]
    rcases hedge with hedge | hedge
    · exact hf.target_lt hedge
    · exact hsize ▸ hg.target_lt hedge

end Union

section Listings

theorem mem_nodes_iff (i : Nat) : i ∈ g.nodes ↔ i < g.size :=
  List.mem_range

theorem mem_successors_iff (i j : Nat) : j ∈ g.successors i ↔ j < g.size ∧ g.Edge i j := by
  rw [successors, members, List.mem_filter, mem_nodes_iff]
  rfl

theorem nodup_successors (g : TaggedGraph) (i : Nat) : (g.successors i).Nodup :=
  List.nodup_range.filter _

theorem mem_predecessors_iff (i j : Nat) : i ∈ g.predecessors j ↔ g.Edge i j := by
  rw [predecessors, List.mem_filter, mem_nodes_iff]
  exact ⟨And.right, fun hedge => ⟨lt_size_of_edge hedge, hedge⟩⟩

theorem mem_edges_iff (i j : Nat) (tagged : Bool) :
    (i, j, tagged) ∈ g.edges ↔ j < g.size ∧ g.Edge i j ∧ tagged = g.hasTaggedEdge i j := by
  simp only [edges, List.mem_flatMap, List.mem_map, mem_nodes_iff, mem_successors_iff, Prod.mk.injEq]
  constructor
  · rintro ⟨i', hi, j', ⟨hj, hedge⟩, rfl, rfl, htag⟩
    exact ⟨hj, hedge, htag.symm⟩
  · rintro ⟨hj, hedge, rfl⟩
    exact ⟨i, lt_size_of_edge hedge, j, ⟨hj, hedge⟩, rfl, rfl, rfl⟩

theorem edge_ofEdges_filter_iff {size : Nat} (keep : Nat × Nat × Bool → Bool) (hsize : size = g.size)
    (i j : Nat) : (ofEdges size (g.edges.filter keep)).Edge i j ↔
      j < g.size ∧ g.Edge i j ∧ keep (i, j, g.hasTaggedEdge i j) = true := by
  rw [edge_ofEdges_iff]
  simp only [List.mem_filter, mem_edges_iff]
  constructor
  · rintro ⟨_, tagged, ⟨hj, hedge, rfl⟩, hkeep⟩
    exact ⟨hj, hedge, hkeep⟩
  · rintro ⟨hj, hedge, hkeep⟩
    exact ⟨hsize ▸ lt_size_of_edge hedge, _, ⟨hj, hedge, rfl⟩, hkeep⟩

theorem Regular.ofEdges_filter {size : Nat} (keep : Nat × Nat × Bool → Bool) (hsize : size = g.size) :
    (TaggedGraph.ofEdges size (g.edges.filter keep)).Regular := by
  refine Regular.ofEdges (fun i j tagged hmem => ?_)
  rw [List.mem_filter, mem_edges_iff] at hmem
  exact hsize ▸ hmem.1.1

theorem size_thin (place : Placement) : (g.thin place).size = g.size :=
  size_ofEdges _ _

/-- Thinning takes edges away. -/
theorem edge_of_thin {place : Placement} {i j : Nat} (hedge : (g.thin place).Edge i j) :
    g.Edge i j :=
  ((edge_ofEdges_filter_iff _ rfl i j).mp hedge).2.1

theorem Regular.thin (place : Placement) : (g.thin place).Regular :=
  Regular.ofEdges_filter _ rfl

end Listings

section Compose

theorem reach_behind (row : Row) (tagged : Bool) : (row.behind tagged).reach = row.reach := by
  cases tagged with
  | false => rfl
  | true => rfl

theorem testBit_tagged_behind (row : Row) (tagged : Bool) (k : Nat) :
    (row.behind tagged).tagged.testBit k = true ↔
      row.tagged.testBit k = true ∨ tagged = true ∧ row.reach.testBit k = true := by
  cases tagged with
  | false => simp only [Row.behind, Bool.false_eq_true, if_false, false_and, or_false]
  | true => simp only [Row.behind, if_true, Nat.testBit_or, Bool.or_eq_true, true_and]

theorem foldl_union_spec (rows : Nat → Row) (l : List Nat) (start : Row) (k : Nat) :
    let joined := l.foldl (fun joined j => joined.union (rows j)) start
    (joined.reach.testBit k = true ↔
      start.reach.testBit k = true ∨ ∃ j ∈ l, (rows j).reach.testBit k = true) ∧
    (joined.tagged.testBit k = true ↔
      start.tagged.testBit k = true ∨ ∃ j ∈ l, (rows j).tagged.testBit k = true) := by
  induction l generalizing start with
  | nil => simp only [List.foldl_nil, List.not_mem_nil, false_and, exists_false, or_false, and_self]
  | cons j rest ih =>
    rcases ih (start.union (rows j)) with ⟨hreach, htagged⟩
    simp only [List.foldl_cons, hreach, htagged, List.exists_mem_cons_iff, ← or_assoc]
    refine ⟨or_congr_left ?_, or_congr_left ?_⟩
    · rw [Row.union, Nat.testBit_or, Bool.or_eq_true]
    · rw [Row.union, Nat.testBit_or, Bool.or_eq_true]

theorem size_composeDense (f g : TaggedGraph) : (composeDense f g).size = f.size :=
  Array.size_map

theorem row_composeDense (f g : TaggedGraph) (i : Nat) :
    (composeDense f g).row i = throughRow f g (f.row i) := by
  by_cases hlt : i < f.size
  · rw [row_eq, row_eq, composeDense, Array.getElem?_map, Array.getElem?_eq_getElem hlt]
    rfl
  · have hle := Nat.le_of_not_lt hlt
    have hnone : f.members .empty = [] := by
      rw [members, List.filter_eq_nil_iff]
      intro j _
      rw [Row.empty, Nat.zero_testBit]
      exact Bool.false_ne_true
    rw [row_of_size_le _ (by rw [size_composeDense]; exact hle), row_of_size_le f hle, throughRow,
      hnone, List.foldl_nil]

theorem edge_composeDense_iff (hf : f.Regular) (i k : Nat) :
    (composeDense f g).Edge i k ↔ ∃ j, f.Edge i j ∧ g.Edge j k := by
  have hspec := (foldl_union_spec (fun j => (g.row j).behind ((f.row i).tagged.testBit j))
    (f.members (f.row i)) .empty k).1
  simp only [Row.empty, Nat.zero_testBit, Bool.false_eq_true, false_or, reach_behind] at hspec
  rw [Edge, hasEdge, row_composeDense, throughRow, Row.empty, hspec]
  constructor
  · rintro ⟨j, hj, hjk⟩
    exact ⟨j, ((mem_successors_iff i j).mp hj).2, hjk⟩
  · rintro ⟨j, hij, hjk⟩
    exact ⟨j, (mem_successors_iff i j).mpr ⟨hf.target_lt hij, hij⟩, hjk⟩

theorem tagged_composeDense_iff (hf : f.Regular) (hg : g.Regular) (i k : Nat) :
    (composeDense f g).Tagged i k ↔ ∃ j, (f.Edge i j ∧ g.Edge j k) ∧ (f.Tagged i j ∨ g.Tagged j k) := by
  have hspec := (foldl_union_spec (fun j => (g.row j).behind ((f.row i).tagged.testBit j))
    (f.members (f.row i)) .empty k).2
  simp only [Row.empty, Nat.zero_testBit, Bool.false_eq_true, false_or, testBit_tagged_behind] at hspec
  rw [Tagged, hasTaggedEdge, row_composeDense, throughRow, Row.empty, hspec]
  constructor
  · rintro ⟨j, hj, htagged⟩
    have hij := ((mem_successors_iff i j).mp hj).2
    rcases htagged with htagged | ⟨htagged, hjk⟩
    · exact ⟨j, ⟨hij, hg.edge_of_tagged htagged⟩, .inr htagged⟩
    · exact ⟨j, ⟨hij, hjk⟩, .inl htagged⟩
  · rintro ⟨j, ⟨hij, hjk⟩, htagged⟩
    exact ⟨j, (mem_successors_iff i j).mpr ⟨hf.target_lt hij, hij⟩, htagged.symm.imp_right fun h => ⟨h, hjk⟩⟩

theorem Regular.composeDense (hf : f.Regular) (hg : g.Regular) (hsize : f.size = g.size) :
    (composeDense f g).Regular := by
  constructor
  · intro i k htagged
    rcases (tagged_composeDense_iff hf hg i k).mp htagged with ⟨j, hedges, _⟩
    exact (edge_composeDense_iff hf i k).mpr ⟨j, hedges⟩
  · intro i k hedge
    rw [edge_composeDense_iff hf] at hedge
    rcases hedge with ⟨j, _, hjk⟩
    rw [size_composeDense, hsize]
    exact hg.target_lt hjk

theorem size_composeSparse (f g : TaggedGraph) : (composeSparse f g).size = f.size :=
  size_ofEdges _ _

theorem mem_joined_iff (middle i k : Nat) (tagged : Bool) :
    (i, k, tagged) ∈ joined f g middle ↔ f.Edge i middle ∧ (k < g.size ∧ g.Edge middle k) ∧
      tagged = (f.hasTaggedEdge i middle || g.hasTaggedEdge middle k) := by
  simp only [joined, List.mem_flatMap, List.mem_map, mem_predecessors_iff, mem_successors_iff,
    Prod.mk.injEq]
  constructor
  · rintro ⟨i', hi, k', hk, rfl, rfl, rfl⟩
    exact ⟨hi, hk, rfl⟩
  · rintro ⟨hi, hk, rfl⟩
    exact ⟨i, hi, k, hk, rfl, rfl, rfl⟩

theorem edge_composeSparse_iff (hf : f.Regular) (hg : g.Regular) (i k : Nat) :
    (composeSparse f g).Edge i k ↔ ∃ j, f.Edge i j ∧ g.Edge j k := by
  rw [composeSparse, edge_ofEdges_iff]
  simp only [List.mem_flatMap, mem_nodes_iff, mem_joined_iff]
  constructor
  · rintro ⟨_, tagged, j, _, hij, ⟨_, hjk⟩, _⟩
    exact ⟨j, hij, hjk⟩
  · rintro ⟨j, hij, hjk⟩
    exact ⟨lt_size_of_edge hij, _, j, hf.target_lt hij, hij, ⟨hg.target_lt hjk, hjk⟩, rfl⟩

theorem tagged_composeSparse_iff (hf : f.Regular) (hg : g.Regular) (i k : Nat) :
    (composeSparse f g).Tagged i k ↔
      ∃ j, (f.Edge i j ∧ g.Edge j k) ∧ (f.Tagged i j ∨ g.Tagged j k) := by
  rw [composeSparse, tagged_ofEdges_iff]
  simp only [List.mem_flatMap, mem_nodes_iff, mem_joined_iff]
  constructor
  · rintro ⟨_, j, _, hij, ⟨_, hjk⟩, htagged⟩
    exact ⟨j, ⟨hij, hjk⟩, Bool.or_eq_true_iff.mp htagged.symm⟩
  · rintro ⟨j, ⟨hij, hjk⟩, htagged⟩
    exact ⟨lt_size_of_edge hij, j, hf.target_lt hij, hij, ⟨hg.target_lt hjk, hjk⟩,
      (Bool.or_eq_true_iff.mpr htagged).symm⟩

theorem Regular.composeSparse (hsize : f.size = g.size) : (composeSparse f g).Regular := by
  refine Regular.ofEdges (fun i k tagged hmem => ?_)
  rcases List.mem_flatMap.mp hmem with ⟨j, _, hmem⟩
  rw [mem_joined_iff] at hmem
  rw [hsize]
  exact hmem.2.1.1

variable (strategy : Strategy)

theorem size_compose : (f.compose strategy g).size = f.size := by
  cases strategy with
  | dense => exact size_composeDense f g
  | sparse => exact size_composeSparse f g

theorem edge_compose_iff (hf : f.Regular) (hg : g.Regular) (i k : Nat) :
    (f.compose strategy g).Edge i k ↔ ∃ j, f.Edge i j ∧ g.Edge j k := by
  cases strategy with
  | dense => exact edge_composeDense_iff hf i k
  | sparse => exact edge_composeSparse_iff hf hg i k

/-- They tag the same edges: an edge of the product is tagged if one of two edges that it stands for is. -/
theorem tagged_compose_iff (hf : f.Regular) (hg : g.Regular) (i k : Nat) :
    (f.compose strategy g).Tagged i k ↔
      ∃ j, (f.Edge i j ∧ g.Edge j k) ∧ (f.Tagged i j ∨ g.Tagged j k) := by
  cases strategy with
  | dense => exact tagged_composeDense_iff hf hg i k
  | sparse => exact tagged_composeSparse_iff hf hg i k

theorem Regular.compose (hf : f.Regular) (hg : g.Regular) (hsize : f.size = g.size) :
    (f.compose strategy g).Regular := by
  cases strategy with
  | dense => exact Regular.composeDense hf hg hsize
  | sparse => exact Regular.composeSparse hsize

end Compose

end TaggedGraph

end Isolation
