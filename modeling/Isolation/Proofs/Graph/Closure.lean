import Isolation.Proofs.Graph.Edges

/-!
# What a Closure Shows

An edge of a closure is evidence of a path, and a tagged edge is evidence of a walk that uses a tagged
edge. For both strategies it is the same statement, `Within`.

Each step of a closure is first described by what it does to the two relations, and the bits of the rows
do not appear again after that. The dense closure is sound because admitting a stop is, whatever has been
admitted before. The sparse one is sound because every row is joined from sound rows, or else lists what a
search has met; the order in which the rows are finished plays no role.

## Main definitions

* `TaggedGraph.TaggedWalk`: A walk that uses a tagged edge.

## Theorems

* `closure_within`: The edges of a closure are paths.
-/

namespace Isolation

open Relation

namespace Graph

theorem exists_path_of_mem_explore {α : Type} {edge : α → α → Bool} {unmet waiting : List α} {w : α}
    (hmem : w ∈ explore edge unmet waiting) :
    ∃ v ∈ waiting, ReflTransGen (fun a b => edge a b = true) v w := by
  fun_induction explore edge unmet waiting with
  | case1 => exact absurd hmem List.not_mem_nil
  | case2 unmet v waiting ih =>
    rcases List.mem_cons.mp hmem with rfl | hmem
    · exact ⟨w, List.mem_cons_self .., ReflTransGen.refl⟩
    · rcases ih hmem with ⟨u, hu, hpath⟩
      rcases List.mem_append.mp hu with hu | hu
      · exact ⟨u, List.mem_cons_of_mem _ hu, hpath⟩
      · rw [List.partition_eq_filter_filter, List.mem_filter] at hu
        exact ⟨v, List.mem_cons_self .., ReflTransGen.head hu.2 hpath⟩

theorem path_of_mem_reachable {α : Type} {edge : α → α → Bool} {vertices : List α} {source w : α}
    (hmem : w ∈ reachable edge vertices source) :
    TransGen (fun a b => edge a b = true) source w := by
  simp only [reachable, List.partition_eq_filter_filter] at hmem
  rcases exists_path_of_mem_explore hmem with ⟨v, hv, hpath⟩
  exact TransGen.head' (List.mem_filter.mp hv).2 hpath

end Graph

namespace TaggedGraph

/-- A walk that uses a tagged edge. It may pass a node twice, and the tagged edge may lie on a detour. -/
def TaggedWalk (g : TaggedGraph) (i j : Nat) : Prop :=
  ∃ a b, ReflTransGen g.Edge i a ∧ (g.Edge a b ∧ g.Tagged a b) ∧ ReflTransGen g.Edge b j

/-- The edges of a graph are paths of another, and the tagged ones are walks that use a tagged edge. -/
structure Within (g closed : TaggedGraph) : Prop where
  edge : ∀ {i j}, closed.Edge i j → ReflTransGen g.Edge i j
  tagged : ∀ {i j}, closed.Tagged i j → g.TaggedWalk i j

variable {g closed : TaggedGraph}

namespace TaggedWalk

variable {i j k : Nat}

theorem single (hedge : g.Edge i j) (htagged : g.Tagged i j) : g.TaggedWalk i j :=
  ⟨i, j, ReflTransGen.refl, ⟨hedge, htagged⟩, ReflTransGen.refl⟩

theorem behind (hpath : ReflTransGen g.Edge i j) (hwalk : g.TaggedWalk j k) : g.TaggedWalk i k := by
  rcases hwalk with ⟨a, b, hja, hab, hbk⟩
  exact ⟨a, b, hpath.trans hja, hab, hbk⟩

theorem append (hwalk : g.TaggedWalk i j) (hpath : ReflTransGen g.Edge j k) : g.TaggedWalk i k := by
  rcases hwalk with ⟨a, b, hia, hab, hbj⟩
  exact ⟨a, b, hia, hab, hbj.trans hpath⟩

theorem path (hwalk : g.TaggedWalk i j) : TransGen g.Edge i j := by
  rcases hwalk with ⟨a, b, hia, hab, hbj⟩
  exact (TransGen.tail' hia hab.1).trans_left hbj

end TaggedWalk

section Rows

theorem row_mapIdx (g : TaggedGraph) (change : Nat → Row → Row) (i : Nat) :
    (TaggedGraph.mk (g.rows.mapIdx change)).row i =
      if i < g.size then change i (g.row i) else .empty := by
  rw [row_eq, row_eq, Array.getElem?_mapIdx]
  by_cases hlt : i < g.size
  · rw [if_pos hlt, Array.getElem?_eq_getElem hlt]
    rfl
  · rw [if_neg hlt, Array.getElem?_eq_none (Nat.le_of_not_lt hlt)]
    rfl

theorem lt_size_of_tagged {i j : Nat} (htagged : g.Tagged i j) : i < g.size := by
  by_contra hc
  rw [Tagged, hasTaggedEdge, row_of_size_le g (Nat.le_of_not_lt hc), Row.empty,
    Nat.zero_testBit] at htagged
  exact absurd htagged Bool.false_ne_true

theorem size_reflexive (g : TaggedGraph) : g.reflexive.size = g.size :=
  Array.size_mapIdx

theorem edge_reflexive_iff (g : TaggedGraph) (i j : Nat) :
    g.reflexive.Edge i j ↔ g.Edge i j ∨ i < g.size ∧ i = j := by
  rw [Edge, hasEdge, reflexive, row_mapIdx]
  by_cases hlt : i < g.size
  · rw [if_pos hlt, Row.insert, Nat.testBit_or, Bool.or_eq_true, testBit_bit, decide_eq_true_eq]
    exact or_congr_right ⟨fun heq => ⟨hlt, heq⟩, And.right⟩
  · rw [if_neg hlt, Row.empty, Nat.zero_testBit]
    refine ⟨fun hc => absurd hc Bool.false_ne_true, ?_⟩
    rintro (hedge | ⟨hc, _⟩)
    · exact absurd (lt_size_of_edge hedge) hlt
    · exact absurd hc hlt

theorem tagged_reflexive_iff (g : TaggedGraph) (i j : Nat) :
    g.reflexive.Tagged i j ↔ g.Tagged i j := by
  rw [Tagged, hasTaggedEdge, reflexive, row_mapIdx]
  by_cases hlt : i < g.size
  · rw [if_pos hlt, Row.insert, if_neg Bool.false_ne_true]
    rfl
  · rw [if_neg hlt, Row.empty, Nat.zero_testBit]
    exact ⟨fun hc => absurd hc Bool.false_ne_true, fun hc => absurd (lt_size_of_tagged hc) hlt⟩

end Rows

section Relax

variable (closed) (pivot : Nat)

theorem size_tagLoop : (closed.tagLoop pivot).size = closed.size := by
  unfold tagLoop
  split
  · exact Array.size_modify
  · rfl

/-- Only the row of the pivot changes, and only if it lies on a tagged cycle. -/
theorem row_tagLoop (i : Nat) : (closed.tagLoop pivot).row i =
    if i = pivot then (closed.row i).behind (closed.hasTaggedEdge pivot pivot) else closed.row i := by
  unfold tagLoop
  by_cases hloop : closed.hasTaggedEdge pivot pivot = true
  · rw [if_pos hloop, row_modify, hloop]
    have hlt : pivot < closed.size := lt_size_of_tagged hloop
    by_cases hi : i = pivot
    · rw [if_pos ⟨hi, hlt⟩, if_pos hi]
    · rw [if_neg (fun hc => hi hc.1), if_neg hi]
  · rw [if_neg hloop]
    rw [Bool.not_eq_true] at hloop
    rw [hloop, Row.behind, if_neg Bool.false_ne_true, ite_self]

theorem edge_tagLoop_iff (i j : Nat) : (closed.tagLoop pivot).Edge i j ↔ closed.Edge i j := by
  rw [Edge, hasEdge, row_tagLoop]
  split
  · rw [reach_behind]
    rfl
  · rfl

theorem tagged_tagLoop_iff (i j : Nat) : (closed.tagLoop pivot).Tagged i j ↔
    closed.Tagged i j ∨ i = pivot ∧ closed.Tagged pivot pivot ∧ closed.Edge i j := by
  rw [Tagged, hasTaggedEdge, row_tagLoop]
  split
  · next hi =>
      rw [testBit_tagged_behind]
      exact or_congr_right ⟨fun hc => ⟨hi, hc⟩, And.right⟩
  · next hi => exact ⟨Or.inl, fun hc => hc.resolve_right fun hc => hi hc.1⟩

theorem size_relax : (closed.relax pivot).size = closed.size :=
  Array.size_mapIdx.trans (size_tagLoop closed pivot)

/-- Rows that lead to the pivot are joined with its row, behind the edge that leads there. -/
theorem row_relax (i : Nat) : (closed.relax pivot).row i =
    if i ≠ pivot ∧ closed.hasEdge i pivot = true then
      (closed.row i).union (((closed.tagLoop pivot).row pivot).behind (closed.hasTaggedEdge i pivot))
    else (closed.tagLoop pivot).row i := by
  have hother : i ≠ pivot → (closed.tagLoop pivot).row i = closed.row i := by
    intro hne
    rw [row_tagLoop, if_neg hne]
  rw [relax, row_mapIdx, size_tagLoop]
  by_cases hlt : i < closed.size
  · rw [if_pos hlt]
    by_cases hi : i = pivot
    · simp only [hi, ne_eq, not_true_eq_false, decide_false, Bool.false_and, Bool.false_eq_true,
        if_false, false_and]
    · simp only [hother hi, ne_eq, hi, not_false_eq_true, decide_true, Bool.true_and, true_and]
      rfl
  · have hnone : ¬ (i ≠ pivot ∧ closed.hasEdge i pivot = true) := fun hc => hlt (lt_size_of_edge hc.2)
    rw [if_neg hlt, if_neg hnone, row_of_size_le]
    rw [size_tagLoop]
    exact Nat.le_of_not_lt hlt

theorem edge_relax_iff (i j : Nat) : (closed.relax pivot).Edge i j ↔
    closed.Edge i j ∨ closed.Edge i pivot ∧ closed.Edge pivot j := by
  have hpivot : ((closed.tagLoop pivot).row pivot).reach.testBit j = true ↔ closed.Edge pivot j :=
    edge_tagLoop_iff closed pivot pivot j
  rw [Edge, hasEdge, row_relax]
  split
  · next hthrough =>
      rw [Row.union, Nat.testBit_or, Bool.or_eq_true, reach_behind, hpivot]
      exact or_congr_right ⟨fun hc => ⟨hthrough.2, hc⟩, And.right⟩
  · next hthrough =>
      refine (edge_tagLoop_iff closed pivot i j).trans ⟨Or.inl, ?_⟩
      rintro (hedge | ⟨hip, hpj⟩)
      · exact hedge
      · -- The row of the pivot stays as it is, since a path from it through it adds nothing.
        by_cases hi : i = pivot
        · rw [hi]
          exact hpj
        · exact absurd ⟨hi, hip⟩ hthrough

/-- Admitting a stop adds the walks through it: they are tagged before it, behind it, or on a cycle
    there. -/
theorem tagged_relax_iff (i j : Nat) : (closed.relax pivot).Tagged i j ↔
    closed.Tagged i j ∨ (i = pivot ∨ closed.Edge i pivot) ∧ (closed.Tagged pivot j ∨
      (closed.Tagged i pivot ∨ closed.Tagged pivot pivot) ∧ closed.Edge pivot j) := by
  have hpivot : ((closed.tagLoop pivot).row pivot).tagged.testBit j = true ↔
      closed.Tagged pivot j ∨ closed.Tagged pivot pivot ∧ closed.Edge pivot j := by
    refine (tagged_tagLoop_iff closed pivot pivot j).trans (or_congr_right ?_)
    exact ⟨And.right, fun hc => ⟨rfl, hc⟩⟩
  have hreach : ((closed.tagLoop pivot).row pivot).reach.testBit j = true ↔ closed.Edge pivot j :=
    edge_tagLoop_iff closed pivot pivot j
  rw [Tagged, hasTaggedEdge, row_relax]
  split
  · next hthrough =>
      rw [Row.union, Nat.testBit_or, Bool.or_eq_true, testBit_tagged_behind, hpivot, hreach]
      have hstop : i = pivot ∨ closed.Edge i pivot := Or.inr hthrough.2
      simp only [Tagged, hasTaggedEdge, hstop, true_and, or_and_right, or_assoc]
      exact or_congr_right (or_congr_right or_comm)
  · next hthrough =>
      refine (tagged_tagLoop_iff closed pivot i j).trans ⟨?_, ?_⟩
      · rintro (htagged | ⟨rfl, hloop, hedge⟩)
        · exact Or.inl htagged
        · exact Or.inr ⟨Or.inl rfl, Or.inr ⟨Or.inl hloop, hedge⟩⟩
      · rintro (htagged | ⟨hstop, hbehind⟩)
        · exact Or.inl htagged
        · have hi : i = pivot := by
            by_contra hc
            exact hthrough ⟨hc, hstop.resolve_left hc⟩
          subst hi
          rw [or_self_iff] at hbehind
          exact hbehind.imp_right fun hc => ⟨rfl, hc⟩

end Relax

section FinishRow

variable (g closed) (i : Nat)

theorem size_finishRow : (g.finishRow closed i).size = closed.size :=
  Array.size_modify

/-- The finished row leads to its own node and to where the rows of the successors lead. -/
theorem edge_finishRow_iff (k j : Nat) : (g.finishRow closed i).Edge k j ↔
    if k = i ∧ i < closed.size then i = j ∨ ∃ next ∈ g.successors i, closed.Edge next j
    else closed.Edge k j := by
  rw [Edge, hasEdge, finishRow, row_modify]
  split
  · rw [(foldl_union_spec _ _ _ j).1, Row.insert, Row.empty, Nat.zero_or, testBit_bit,
      decide_eq_true_eq]
    simp only [reach_behind]
    rfl
  · rfl

theorem tagged_finishRow_iff (k j : Nat) : (g.finishRow closed i).Tagged k j ↔
    if k = i ∧ i < closed.size then ∃ next ∈ g.successors i,
      closed.Tagged next j ∨ g.Tagged i next ∧ closed.Edge next j
    else closed.Tagged k j := by
  rw [Tagged, hasTaggedEdge, finishRow, row_modify]
  split
  · rw [(foldl_union_spec _ _ _ j).2, Row.insert, Row.empty, if_neg Bool.false_ne_true,
      Nat.zero_testBit]
    simp only [testBit_tagged_behind, Bool.false_eq_true, false_or]
    rfl
  · rfl

end FinishRow

section SearchRow

theorem foldl_insert_row (l : List (Nat × Bool)) (start : Row) (k : Nat) :
    let filled := l.foldl (fun row (j, tagged) => row.insert j tagged) start
    (filled.reach.testBit k = true ↔
      start.reach.testBit k = true ∨ ∃ tagged, (k, tagged) ∈ l) ∧
    (filled.tagged.testBit k = true ↔ start.tagged.testBit k = true ∨ (k, true) ∈ l) := by
  induction l generalizing start with
  | nil => simp only [List.foldl_nil, List.not_mem_nil, exists_false, or_false, and_self]
  | cons e rest ih =>
    rcases e with ⟨j, t⟩
    rcases ih (start.insert j t) with ⟨hreach, htagged⟩
    simp only [List.foldl_cons, List.mem_cons, Prod.mk.injEq]
    refine ⟨hreach.trans ?_, htagged.trans ?_⟩
    · rw [Row.insert, Nat.testBit_or, Bool.or_eq_true, testBit_bit, decide_eq_true_eq, or_assoc]
      refine or_congr_right ⟨?_, ?_⟩
      · rintro (rfl | ⟨t', hmem⟩)
        · exact ⟨t, Or.inl ⟨rfl, rfl⟩⟩
        · exact ⟨t', Or.inr hmem⟩
      · rintro ⟨t', ⟨rfl, _⟩ | hmem⟩
        · exact Or.inl rfl
        · exact Or.inr ⟨t', hmem⟩
    · rw [Row.insert]
      cases t with
      | false => simp only [Bool.false_eq_true, if_false, Bool.true_eq_false, and_false, false_or]
      | true =>
        simp only [if_true, Nat.testBit_or, Bool.or_eq_true, testBit_bit, decide_eq_true_eq,
          and_true, or_assoc]
        exact or_congr_right (or_congr_left eq_comm)

/-- The row of a search leads to its own node and to what the search has met. -/
theorem reach_searchRow_iff (g : TaggedGraph) (i j : Nat) :
    (g.searchRow i).reach.testBit j = true ↔
      i = j ∨ ∃ tagged, (j, tagged) ∈ Graph.reachable g.walkStep g.walkEnds (i, false) := by
  rw [searchRow, (foldl_insert_row _ _ j).1, Row.insert, Row.empty, Nat.zero_or, testBit_bit,
    decide_eq_true_eq]

theorem tagged_searchRow_iff (g : TaggedGraph) (i j : Nat) :
    (g.searchRow i).tagged.testBit j = true ↔
      (j, true) ∈ Graph.reachable g.walkStep g.walkEnds (i, false) := by
  rw [searchRow, (foldl_insert_row _ _ j).2, Row.insert, Row.empty, if_neg Bool.false_ne_true,
    Nat.zero_testBit]
  exact or_iff_right Bool.false_ne_true

theorem walkStep_iff (g : TaggedGraph) (a b : Nat × Bool) : g.walkStep a b = true ↔
    g.Edge a.1 b.1 ∧ b.2 = (a.2 || g.hasTaggedEdge a.1 b.1) := by
  rw [walkStep, Bool.and_eq_true, beq_iff_eq]
  rfl

/-- A walk that remembers its tags is a path, and it remembers them rightly. -/
theorem path_of_walk {a b : Nat × Bool} (hwalk : TransGen (fun a b => g.walkStep a b = true) a b) :
    TransGen g.Edge a.1 b.1 ∧ (b.2 = true → a.2 = true ∨ g.TaggedWalk a.1 b.1) := by
  induction hwalk with
  | @single b hstep =>
    rcases (walkStep_iff g a b).mp hstep with ⟨hedge, htag⟩
    refine ⟨TransGen.single hedge, fun hb => ?_⟩
    rw [hb, eq_comm, Bool.or_eq_true] at htag
    exact htag.imp_right (TaggedWalk.single hedge)
  | @tail b c _ hstep ih =>
    rcases ih with ⟨hpath, hremembered⟩
    rcases (walkStep_iff g b c).mp hstep with ⟨hedge, htag⟩
    refine ⟨hpath.tail hedge, fun hc => ?_⟩
    rw [hc, eq_comm, Bool.or_eq_true] at htag
    rcases htag with hb | htagged
    · exact (hremembered hb).imp_right fun hwalk => hwalk.append (ReflTransGen.single hedge)
    · exact Or.inr ((TaggedWalk.single hedge htagged).behind hpath.to_reflTransGen)

end SearchRow

namespace Within

theorem reflexive (hg : g.Regular) : Within g g.reflexive := by
  refine ⟨fun {i j} hedge => ?_, fun {i j} htagged => ?_⟩
  · rcases (edge_reflexive_iff g i j).mp hedge with hedge | ⟨_, rfl⟩
    · exact ReflTransGen.single hedge
    · exact ReflTransGen.refl
  · rw [tagged_reflexive_iff] at htagged
    exact TaggedWalk.single (hg.edge_of_tagged htagged) htagged

theorem relax (hwithin : Within g closed) (pivot : Nat) : Within g (closed.relax pivot) := by
  refine ⟨fun {i j} hedge => ?_, fun {i j} htagged => ?_⟩
  · rcases (edge_relax_iff closed pivot i j).mp hedge with hedge | ⟨hip, hpj⟩
    · exact hwithin.edge hedge
    · exact (hwithin.edge hip).trans (hwithin.edge hpj)
  · rcases (tagged_relax_iff closed pivot i j).mp htagged with htagged | ⟨hstop, hbehind⟩
    · exact hwithin.tagged htagged
    · have hpath : ReflTransGen g.Edge i pivot := by
        rcases hstop with rfl | hip
        · exact ReflTransGen.refl
        · exact hwithin.edge hip
      rcases hbehind with hpj | ⟨hip | hloop, hpj⟩
      · exact (hwithin.tagged hpj).behind hpath
      · exact (hwithin.tagged hip).append (hwithin.edge hpj)
      · exact ((hwithin.tagged hloop).append (hwithin.edge hpj)).behind hpath

theorem finishRow (hwithin : Within g closed) (i : Nat) : Within g (g.finishRow closed i) := by
  refine ⟨fun {k j} hedge => ?_, fun {k j} htagged => ?_⟩
  · rw [edge_finishRow_iff] at hedge
    split at hedge
    · next hk =>
        rw [hk.1]
        rcases hedge with rfl | ⟨next, hnext, hedge⟩
        · exact ReflTransGen.refl
        · exact ReflTransGen.head ((mem_successors_iff i next).mp hnext).2 (hwithin.edge hedge)
    · exact hwithin.edge hedge
  · rw [tagged_finishRow_iff] at htagged
    split at htagged
    · next hk =>
        rw [hk.1]
        rcases htagged with ⟨next, hnext, hbehind⟩
        have hfirst := ((mem_successors_iff i next).mp hnext).2
        rcases hbehind with htagged | ⟨htagged, hedge⟩
        · exact (hwithin.tagged htagged).behind (ReflTransGen.single hfirst)
        · exact (TaggedWalk.single hfirst htagged).append (hwithin.edge hedge)
    · exact hwithin.tagged htagged

end Within

theorem searchRow_sound (g : TaggedGraph) (i j : Nat) :
    ((g.searchRow i).reach.testBit j = true → ReflTransGen g.Edge i j) ∧
      ((g.searchRow i).tagged.testBit j = true → g.TaggedWalk i j) := by
  refine ⟨fun hbit => ?_, fun hbit => ?_⟩
  · rcases (reach_searchRow_iff g i j).mp hbit with rfl | ⟨tagged, hmem⟩
    · exact ReflTransGen.refl
    · exact (path_of_walk (Graph.path_of_mem_reachable hmem)).1.to_reflTransGen
  · have hwalk := path_of_walk (Graph.path_of_mem_reachable ((tagged_searchRow_iff g i j).mp hbit))
    exact (hwalk.2 rfl).resolve_left Bool.false_ne_true

theorem Within.foldl {step : TaggedGraph → Nat → TaggedGraph}
    (hstep : ∀ {closed}, Within g closed → ∀ i, Within g (step closed i)) (l : List Nat)
    (hwithin : Within g closed) : Within g (l.foldl step closed) := by
  induction l generalizing closed with
  | nil => exact hwithin
  | cons i rest ih => exact ih (hstep hwithin i)

theorem size_searched (g : TaggedGraph) :
    (TaggedGraph.mk (g.nodes.map g.searchRow).toArray).size = g.size := by
  rw [size, List.size_toArray, List.length_map, nodes, List.length_range]

theorem row_searched (g : TaggedGraph) (i : Nat) :
    (TaggedGraph.mk (g.nodes.map g.searchRow).toArray).row i =
      if i < g.size then g.searchRow i else .empty := by
  by_cases hlt : i < g.size
  · rw [if_pos hlt, row_eq, List.getElem?_toArray, List.getElem?_map, nodes, List.getElem?_range hlt]
    rfl
  · rw [if_neg hlt, row_of_size_le]
    rw [size_searched]
    exact Nat.le_of_not_lt hlt

/-- The edges of a closure are paths, and the tagged ones are walks that use a tagged edge. -/
theorem closure_within (hg : g.Regular) (strategy : Strategy) : Within g (g.closure strategy) := by
  cases strategy with
  | dense => exact Within.foldl Within.relax g.nodes (Within.reflexive hg)
  | sparse =>
    rw [closure, closureSparse]
    cases g.topologicalOrder? with
    | some order =>
      refine Within.foldl Within.finishRow order.reverse ⟨?_, ?_⟩
      · intro i j hedge
        exact absurd hedge (not_edge_empty g.size i j)
      · intro i j htagged
        exact absurd htagged (not_tagged_empty g.size i j)
    | none =>
      constructor
      · intro i j hedge
        have hlt := lt_size_of_edge hedge
        rw [size_searched] at hlt
        rw [Edge, hasEdge, row_searched, if_pos hlt] at hedge
        exact (g.searchRow_sound i j).1 hedge
      · intro i j htagged
        have hlt := lt_size_of_tagged htagged
        rw [size_searched] at hlt
        rw [Tagged, hasTaggedEdge, row_searched, if_pos hlt] at htagged
        exact (g.searchRow_sound i j).2 htagged

/-- A tagged loop of the closure is a cycle. -/
theorem exists_cycle_of_hasTaggedLoop (hwithin : Within g closed)
    (hloop : closed.hasTaggedLoop = true) : ∃ i, TransGen g.Edge i i := by
  rw [hasTaggedLoop, List.any_eq_true] at hloop
  rcases hloop with ⟨i, _, htagged⟩
  exact ⟨i, (hwithin.tagged htagged).path⟩

end TaggedGraph

end Isolation
