import Isolation.Proofs.Graph.Acyclic
import Isolation.Proofs.Lists

/-!
# Topological Sorting is Right

The procedure keeps, for every vertex, the number of edges into it that come from vertices which are not
listed yet. `Sorting.Sorted` ties that number to the vertices themselves, and everything else follows
from it: a vertex waits exactly if the number is zero, so whatever is listed has its predecessors listed
before it; an edge that is closed was counted, so no count drops below zero; and if nothing waits, every
vertex that is left has a predecessor that is left, which is impossible without a cycle.

## Main definitions

* `Sorting.Sorted`: What is true of every state.

## Theorems

* `TaggedGraph.topologicalOrder?_ordered`, `TaggedGraph.exists_topologicalOrder`: What is found is a
  topological order, and one is found if there is no cycle.
-/

namespace Isolation

namespace Graph

namespace Sorting

variable (size : Nat) (successors : Nat → List Nat)

/-- The predecessors of a vertex that are not listed. -/
def pending (listed : List Nat) (v : Nat) : Finset Nat :=
  (Finset.range size).filter fun u => u ∉ listed ∧ v ∈ successors u

/-- What is true of every state of the procedure. -/
structure Sorted (s : Sorting) : Prop where
  openSize : s.openEdges.size = size
  count : ∀ v < size, s.openEdges.getD v 0 = (pending size successors s.listed v).card
  mem_ready : ∀ v, v ∈ s.ready ↔ v < size ∧ v ∉ s.listed ∧ s.openEdges.getD v 0 = 0
  nodup_ready : s.ready.Nodup
  nodup_listed : s.listed.Nodup
  listed_lt : ∀ v ∈ s.listed, v < size
  /-- Predecessors are listed earlier. -/
  earlier : ∀ after v before, s.listed = after ++ v :: before →
    ∀ u < size, v ∈ successors u → u ∈ before

variable {size successors}

/-- In the next step, every edge is counted until it is closed. -/
def CountsClosed (successors : Nat → List Nat) (s : Sorting) : Prop :=
  ∀ v rest, s.ready = v :: rest → ∀ before w after, successors v = before ++ w :: after →
    0 < (before.foldl closeEdge
      { s with ready := rest, listed := v :: s.listed }).openEdges.getD w 0

theorem mem_pending_iff {listed : List Nat} {v u : Nat} :
    u ∈ pending size successors listed v ↔ u < size ∧ u ∉ listed ∧ v ∈ successors u := by
  rw [pending, Finset.mem_filter, Finset.mem_range]

theorem pending_cons (listed : List Nat) (w v : Nat) :
    pending size successors (w :: listed) v = (pending size successors listed v).erase w := by
  ext u
  rw [Finset.mem_erase, mem_pending_iff, mem_pending_iff, List.mem_cons, not_or]
  exact ⟨fun hc => ⟨hc.2.1.1, hc.1, hc.2.1.2, hc.2.2⟩, fun hc => ⟨hc.2.1, ⟨hc.1, hc.2.2.1⟩, hc.2.2.2⟩⟩

theorem getD_modify (a : Array Nat) (f : Nat → Nat) (v w : Nat) (hlt : v < a.size) :
    (a.modify v f).getD w 0 = if w = v then f (a.getD w 0) else a.getD w 0 := by
  rw [Array.getD_eq_getD_getElem?, Array.getD_eq_getD_getElem?, Array.getElem?_modify]
  by_cases hw : w = v
  · subst hw
    rw [if_pos rfl, if_pos rfl, Array.getElem?_eq_getElem hlt]
    rfl
  · rw [if_neg (fun hc => hw hc.symm), if_neg hw]

theorem foldl_closeEdge_spec (l : List Nat) (hnodup : l.Nodup) (s : Sorting)
    (hlt : ∀ w ∈ l, w < s.openEdges.size) :
    let closed := l.foldl closeEdge s
    closed.listed = s.listed ∧ closed.openEdges.size = s.openEdges.size ∧
    (∀ w, closed.openEdges.getD w 0 = s.openEdges.getD w 0 - if w ∈ l then 1 else 0) ∧
    (∀ w, w ∈ closed.ready ↔ w ∈ s.ready ∨ w ∈ l ∧ s.openEdges.getD w 0 ≤ 1) ∧
    (s.ready.Nodup → (∀ w ∈ l, w ∉ s.ready) → closed.ready.Nodup) := by
  induction l generalizing s with
  | nil =>
    refine ⟨rfl, rfl, fun w => ?_, fun w => ?_, fun hready _ => hready⟩
    · rw [if_neg List.not_mem_nil]
      rfl
    · exact ⟨Or.inl, fun hc => hc.resolve_right fun hc => List.not_mem_nil hc.1⟩
  | cons v rest ih =>
    rw [List.nodup_cons] at hnodup
    have hv := hlt v List.mem_cons_self
    have hsize : (closeEdge s v).openEdges.size = s.openEdges.size := Array.size_modify
    have hget : ∀ w, (closeEdge s v).openEdges.getD w 0 =
        if w = v then s.openEdges.getD v 0 - 1 else s.openEdges.getD w 0 :=
      fun w => getD_modify _ _ v w hv
    have hready : ∀ w, w ∈ (closeEdge s v).ready ↔
        w ∈ s.ready ∨ w = v ∧ s.openEdges.getD v 0 ≤ 1 := by
      intro w
      by_cases hzero : s.openEdges.getD v 0 - 1 = 0
      · rw [closeEdge, if_pos hzero, List.mem_cons, or_comm]
        exact or_congr_right (iff_self_and.mpr fun _ => by omega)
      · rw [closeEdge, if_neg hzero]
        exact ⟨Or.inl, fun hc => hc.resolve_right (by omega)⟩
    rcases ih hnodup.2 (closeEdge s v)
      (fun w hw => hsize ▸ hlt w (List.mem_cons_of_mem _ hw)) with
      ⟨hlisted, hsize', hget', hready', hnodup'⟩
    simp only [List.foldl_cons]
    refine ⟨hlisted, hsize'.trans hsize, fun w => ?_, fun w => ?_, fun hs hnew => ?_⟩
    · rw [hget', hget]
      by_cases hw : w = v
      · subst hw
        rw [if_pos rfl, if_neg hnodup.1, if_pos List.mem_cons_self, Nat.sub_zero]
      · rw [if_neg hw]
        simp only [List.mem_cons, hw, false_or]
    · rw [hready', hget, hready, List.mem_cons]
      by_cases hw : w = v
      · subst hw
        simp only [hnodup.1, false_and, or_false, true_and]
      · rw [if_neg hw]
        simp only [hw, false_and, or_false, false_or]
    · refine hnodup' ?_ ?_
      · have hv' := hnew v List.mem_cons_self
        by_cases hzero : s.openEdges.getD v 0 - 1 = 0
        · rw [closeEdge, if_pos hzero]
          exact List.nodup_cons.mpr ⟨hv', hs⟩
        · rw [closeEdge, if_neg hzero]
          exact hs
      · intro w hw hc
        rcases (hready w).mp hc with hc | ⟨rfl, _⟩
        · exact hnew w (List.mem_cons_of_mem _ hw) hc
        · exact hnodup.1 hw

theorem size_foldl_countEdge (l : List Nat) (a : Array Nat) :
    (l.foldl countEdge a).size = a.size := by
  induction l generalizing a with
  | nil => rfl
  | cons v rest ih => exact (ih _).trans Array.size_modify

theorem getD_foldl_countEdge {l : List Nat} (hnodup : l.Nodup) {a : Array Nat}
    (hlt : ∀ v ∈ l, v < a.size) (w : Nat) :
    (l.foldl countEdge a).getD w 0 = a.getD w 0 + if w ∈ l then 1 else 0 := by
  induction l generalizing a with
  | nil =>
    rw [if_neg List.not_mem_nil]
    rfl
  | cons v rest ih =>
    rw [List.nodup_cons] at hnodup
    have hsize : (countEdge a v).size = a.size := Array.size_modify
    rw [List.foldl_cons,
      ih hnodup.2 (fun u hu => hsize ▸ hlt u (List.mem_cons_of_mem _ hu)), countEdge,
      getD_modify _ _ _ _ (hlt v List.mem_cons_self)]
    by_cases hw : w = v
    · subst hw
      rw [if_pos rfl, if_neg hnodup.1, if_pos List.mem_cons_self]
    · rw [if_neg hw]
      simp only [List.mem_cons, hw, false_or]

theorem listed_foldl_closeEdge (l : List Nat) (s : Sorting) :
    (l.foldl closeEdge s).listed = s.listed := by
  induction l generalizing s with
  | nil => rfl
  | cons v rest ih => exact ih _

/-- A step lists a vertex, unless none is ready. -/
theorem listed_step (successors : Nat → List Nat) (s : Sorting) :
    s.ready = [] ∧ step successors s = s ∨
      (step successors s).listed.length = s.listed.length + 1 := by
  cases hready : s.ready with
  | nil =>
    left
    rw [Sorting.step, hready]
    exact ⟨rfl, rfl⟩
  | cons v rest =>
    right
    rw [Sorting.step, hready]
    simp only [listed_foldl_closeEdge, List.length_cons]

theorem run_of_step_eq {successors : Nat → List Nat} {s : Sorting} (hsame : step successors s = s)
    (n : Nat) : s.run successors n = s := by
  induction n with
  | zero => rfl
  | succ n ih => rw [run, hsame, ih]

theorem listed_run (successors : Nat → List Nat) (s : Sorting) (n : Nat) :
    (s.run successors n).ready = [] ∨ (s.run successors n).listed.length = s.listed.length + n := by
  induction n generalizing s with
  | zero => exact Or.inr rfl
  | succ n ih =>
    rcases listed_step successors s with ⟨hready, hsame⟩ | hlength
    · left
      rw [run_of_step_eq hsame]
      exact hready
    · rcases ih (step successors s) with hready | hlength'
      · exact Or.inl hready
      · exact Or.inr (by rw [run, hlength', hlength]; omega)

section Successors

variable (hnodup : ∀ u, (successors u).Nodup) (hlt : ∀ u, ∀ v ∈ successors u, v < size)

include hnodup hlt

omit hnodup hlt in
theorem Sorted.listed_of_ready {s : Sorting} (hs : Sorted size successors s) {u v : Nat}
    (hready : v ∈ s.ready) (hu : u < size) (huv : v ∈ successors u) : u ∈ s.listed := by
  rcases (hs.mem_ready v).mp hready with ⟨hv, _, hzero⟩
  by_contra hc
  have hcard := hs.count v hv
  rw [hzero, eq_comm, Finset.card_eq_zero] at hcard
  exact absurd (mem_pending_iff.mpr ⟨hu, hc, huv⟩) (by rw [hcard]; exact Finset.notMem_empty u)

section Listing

variable {s : Sorting} (hs : Sorted size successors s) {v : Nat} {rest : List Nat}
  (hready : s.ready = v :: rest)

include hs hready

/-- What listing a ready vertex changes: its edges are no longer open, and the vertices that have no open
    edge left get ready. -/
theorem Sorted.step_spec :
    (Sorting.step successors s).listed = v :: s.listed ∧
    (Sorting.step successors s).openEdges.size = s.openEdges.size ∧
    (∀ w, (Sorting.step successors s).openEdges.getD w 0 =
      s.openEdges.getD w 0 - if w ∈ successors v then 1 else 0) ∧
    (∀ w, w ∈ (Sorting.step successors s).ready ↔
      w ∈ rest ∨ w ∈ successors v ∧ s.openEdges.getD w 0 ≤ 1) ∧
    (rest.Nodup → (∀ w ∈ successors v, w ∉ rest) → (Sorting.step successors s).ready.Nodup) := by
  have hstep : Sorting.step successors s =
      (successors v).foldl closeEdge { s with ready := rest, listed := v :: s.listed } := by
    rw [Sorting.step, hready]
  rw [hstep]
  exact foldl_closeEdge_spec (successors v) (hnodup v)
    { s with ready := rest, listed := v :: s.listed } (fun w hw => hs.openSize.symm ▸ hlt v w hw)

omit hnodup hlt in
/-- An open edge is taken off exactly where the listed vertex has one. -/
theorem Sorted.mem_successors_iff (w : Nat) :
    w ∈ successors v ↔ v ∈ pending size successors s.listed w := by
  rcases (hs.mem_ready v).mp (by rw [hready]; exact List.mem_cons_self ..) with ⟨hv, hnew, _⟩
  rw [mem_pending_iff]
  exact ⟨fun hw => ⟨hv, hnew, hw⟩, fun hc => hc.2.2⟩

theorem Sorted.count_step {w : Nat} (hw : w < size) :
    (Sorting.step successors s).openEdges.getD w 0 =
      (pending size successors (v :: s.listed) w).card := by
  rcases hs.step_spec hnodup hlt hready with ⟨_, _, hget, _⟩
  have hmem := hs.mem_successors_iff hready w
  rw [hget, hs.count w hw, pending_cons]
  by_cases hc : w ∈ successors v
  · rw [if_pos hc, Finset.card_erase_of_mem (hmem.mp hc)]
  · rw [if_neg hc, Finset.erase_eq_of_notMem (fun hc' => hc (hmem.mpr hc')), Nat.sub_zero]

omit hnodup hlt in
theorem Sorted.notMem_listed_of_successor {w : Nat} (hw : w ∈ successors v) : w ∉ v :: s.listed := by
  have hv : v ∈ s.ready := by
    rw [hready]
    exact List.mem_cons_self ..
  rcases (hs.mem_ready v).mp hv with ⟨hlt, hnew, _⟩
  rw [List.mem_cons, not_or]
  constructor
  · -- A vertex that has all its predecessors listed has no edge to itself.
    rintro rfl
    exact hnew (hs.listed_of_ready hv hlt hw)
  · intro hc
    rcases List.append_of_mem hc with ⟨after, before, hsplit⟩
    have hbefore := hs.earlier after w before hsplit v hlt hw
    exact hnew (by rw [hsplit]; exact List.mem_append_right _ (List.mem_cons_of_mem _ hbefore))

theorem Sorted.mem_ready_step (w : Nat) : w ∈ (Sorting.step successors s).ready ↔
    w < size ∧ w ∉ v :: s.listed ∧ (Sorting.step successors s).openEdges.getD w 0 = 0 := by
  rcases hs.step_spec hnodup hlt hready with ⟨_, _, hget, hready', _⟩
  have hrest := hs.nodup_ready
  rw [hready, List.nodup_cons] at hrest
  rw [hready']
  constructor
  · rintro (hw | ⟨hw, hone⟩)
    · have hold := (hs.mem_ready w).mp (by rw [hready]; exact List.mem_cons_of_mem _ hw)
      refine ⟨hold.1, ?_, by rw [hget, hold.2.2, Nat.zero_sub]⟩
      rw [List.mem_cons, not_or]
      refine ⟨?_, hold.2.1⟩
      rintro rfl
      exact hrest.1 hw
    · exact ⟨hlt v w hw, hs.notMem_listed_of_successor hready hw, by rw [hget, if_pos hw]; omega⟩
  · rintro ⟨hw, hlistedw, hzerow⟩
    rw [List.mem_cons, not_or] at hlistedw
    by_cases hc : w ∈ successors v
    · rw [hget, if_pos hc] at hzerow
      exact Or.inr ⟨hc, by omega⟩
    · rw [hget, if_neg hc, Nat.sub_zero] at hzerow
      have hold := (hs.mem_ready w).mpr ⟨hw, hlistedw.2, hzerow⟩
      rw [hready, List.mem_cons] at hold
      exact Or.inl (hold.resolve_left hlistedw.1)

end Listing

theorem Sorted.step {s : Sorting} (hs : Sorted size successors s) :
    Sorted size successors (step successors s) := by
  cases hready : s.ready with
  | nil =>
    rw [Sorting.step, hready]
    exact hs
  | cons v rest =>
    have hv : v ∈ s.ready := by
      rw [hready]
      exact List.mem_cons_self ..
    rcases (hs.mem_ready v).mp hv with ⟨hvlt, hnew, _⟩
    rcases hs.step_spec hnodup hlt hready with ⟨hlisted, hsize, _, _, hnodup'⟩
    have hrest := hs.nodup_ready
    rw [hready, List.nodup_cons] at hrest
    refine ⟨hsize.trans hs.openSize, ?_, ?_, hnodup' hrest.2 ?_, ?_, ?_, ?_⟩
    · rw [hlisted]
      exact fun w hw => hs.count_step hnodup hlt hready hw
    · rw [hlisted]
      exact hs.mem_ready_step hnodup hlt hready
    · intro w hw hc
      have hzerow := ((hs.mem_ready w).mp (by rw [hready]; exact List.mem_cons_of_mem _ hc)).2.2
      rw [hs.count w (hlt v w hw), Finset.card_eq_zero] at hzerow
      exact absurd ((hs.mem_successors_iff hready w).mp hw)
        (by rw [hzerow]; exact Finset.notMem_empty v)
    · rw [hlisted]
      exact List.nodup_cons.mpr ⟨hnew, hs.nodup_listed⟩
    · rw [hlisted]
      intro w hw
      rcases List.mem_cons.mp hw with rfl | hw
      · exact hvlt
      · exact hs.listed_lt w hw
    · rw [hlisted]
      intro after w before hsplit u hu huw
      cases after with
      | nil =>
        rw [List.nil_append, List.cons.injEq] at hsplit
        rw [← hsplit.2]
        exact hs.listed_of_ready hv hu (hsplit.1 ▸ huw)
      | cons a after =>
        rw [List.cons_append, List.cons.injEq] at hsplit
        exact hs.earlier after w before hsplit.2 u hu huw

theorem Sorted.run {s : Sorting} (hs : Sorted size successors s) (n : Nat) :
    Sorted size successors (s.run successors n) := by
  induction n generalizing s with
  | zero => exact hs
  | succ n ih => exact ih (Sorted.step hnodup hlt hs)

theorem degrees_spec (k : Nat) :
    let degrees := (List.range k).foldl
      (fun degrees v => (successors v).foldl countEdge degrees) (Array.replicate size 0);
    degrees.size = size ∧ ∀ w < size, degrees.getD w 0 =
      ((Finset.range k).filter fun u => w ∈ successors u).card := by
  induction k with
  | zero =>
    refine ⟨Array.size_replicate, fun w hw => ?_⟩
    rw [List.range_zero, List.foldl_nil, Array.getD_eq_getD_getElem?, Array.getElem?_replicate,
      if_pos hw]
    rfl
  | succ k ih =>
    rcases ih with ⟨hsize, hget⟩
    rw [List.range_succ, List.foldl_append, List.foldl_cons, List.foldl_nil]
    refine ⟨(size_foldl_countEdge _ _).trans hsize, fun w hw => ?_⟩
    rw [getD_foldl_countEdge (hnodup k) (fun v hv => hsize.symm ▸ hlt k v hv), hget w hw,
      Finset.range_add_one, Finset.filter_insert]
    by_cases hc : w ∈ successors k
    · rw [if_pos hc, if_pos hc, Finset.card_insert_of_notMem]
      exact fun hk => absurd (Finset.mem_range.mp (Finset.mem_filter.mp hk).1) (Nat.lt_irrefl k)
    · rw [if_neg hc, if_neg hc, Nat.add_zero]

theorem sorted_start : Sorted size successors (start size successors) := by
  rcases degrees_spec hnodup hlt size with ⟨hsize, hget⟩
  refine ⟨hsize, ?_, ?_, ?_, List.nodup_nil, ?_, ?_⟩
  · intro v hv
    refine (hget v hv).trans (congrArg Finset.card ?_)
    ext u
    rw [Finset.mem_filter, Finset.mem_range, mem_pending_iff]
    exact ⟨fun hc => ⟨hc.1, List.not_mem_nil, hc.2⟩, fun hc => ⟨hc.1, hc.2.2⟩⟩
  · intro v
    simp only [start, List.mem_reverse, List.mem_filter, List.mem_range, decide_eq_true_eq,
      List.not_mem_nil, not_false_eq_true, true_and]
  · exact List.nodup_reverse.mpr (List.nodup_range.filter _)
  · intro v hv
    exact absurd hv List.not_mem_nil
  · intro after v before hsplit
    exact absurd hsplit.symm (by simp only [List.append_eq_nil_iff, reduceCtorEq, and_false,
      not_false_eq_true, start])

/-- Every edge that a step closes is counted until its turn comes, so no count drops below zero. -/
theorem Sorted.countsClosed {s : Sorting} (hs : Sorted size successors s) :
    s.CountsClosed successors := by
  intro v rest hready before w after hsplit
  have hw : w ∈ successors v := by
    rw [hsplit]
    exact List.mem_append_right _ List.mem_cons_self
  have hsub : before.Sublist (successors v) := hsplit ▸ List.sublist_append_left ..
  have hnew : w ∉ before := by
    have hdistinct := hnodup v
    rw [hsplit, List.nodup_append] at hdistinct
    exact fun hc => hdistinct.2.2 w hc w List.mem_cons_self rfl
  -- The edges that were closed before lead elsewhere, and the listed vertex is among those counted.
  rcases foldl_closeEdge_spec before ((hnodup v).sublist hsub)
    { s with ready := rest, listed := v :: s.listed }
    (fun u hu => hs.openSize.symm ▸ hlt v u (hsub.subset hu)) with ⟨_, _, hget, _⟩
  rw [hget, if_neg hnew, Nat.sub_zero, hs.count w (hlt v w hw), Finset.card_pos]
  exact ⟨v, (hs.mem_successors_iff hready w).mp hw⟩

theorem sorted_final : Sorted size successors ((start size successors).run successors size) :=
  Sorted.run hnodup hlt (sorted_start hnodup hlt) size

end Successors

end Sorting

variable {size : Nat} {successors : Nat → List Nat}

theorem topologicalOrder?_eq_some_iff (order : List Nat) :
    topologicalOrder? size successors = some order ↔
      ((Sorting.start size successors).run successors size).listed.length = size ∧
      ((Sorting.start size successors).run successors size).listed.reverse = order := by
  simp only [topologicalOrder?, Option.ite_none_right_eq_some, Option.some.injEq, List.length_reverse]

section Outcome

variable (hnodup : ∀ u, (successors u).Nodup) (hlt : ∀ u, ∀ v ∈ successors u, v < size)

include hnodup hlt

theorem perm_of_topologicalOrder? {order : List Nat}
    (hfound : topologicalOrder? size successors = some order) : order.Perm (List.range size) := by
  have hs := Sorting.sorted_final hnodup hlt
  rcases (topologicalOrder?_eq_some_iff order).mp hfound with ⟨hlength, rfl⟩
  refine ((List.nodup_reverse.mpr hs.nodup_listed).subperm ?_).perm_of_length_le ?_
  · intro v hv
    exact List.mem_range.mpr (hs.listed_lt v (List.mem_reverse.mp hv))
  · rw [List.length_range, List.length_reverse, hlength]

theorem idxOf_lt_of_topologicalOrder? {order : List Nat}
    (hfound : topologicalOrder? size successors = some order) {u v : Nat} (hu : u < size)
    (hv : v ∈ successors u) : order.idxOf u < order.idxOf v := by
  have hs := Sorting.sorted_final hnodup hlt
  have hmem := (perm_of_topologicalOrder? hnodup hlt hfound).mem_iff.mpr
    (List.mem_range.mpr (hlt u v hv))
  rcases (topologicalOrder?_eq_some_iff order).mp hfound with ⟨_, rfl⟩
  rcases List.append_of_mem (List.mem_reverse.mp hmem) with ⟨after, before, hsplit⟩
  have hrev : ((Sorting.start size successors).run successors size).listed.reverse =
      before.reverse ++ v :: after.reverse := by
    rw [hsplit, List.reverse_append, List.reverse_cons, List.append_assoc, List.singleton_append]
  refine (mem_prefix_iff_idxOf_lt (List.nodup_reverse.mpr hs.nodup_listed) hrev u).mp ?_
  exact List.mem_reverse.mpr (hs.earlier _ v _ hsplit u hu hv)

/-- Sorting succeeds if there is no cycle. -/
theorem exists_topologicalOrder (hacyclic : Acyclic fun u v => u < size ∧ v ∈ successors u) :
    ∃ order, topologicalOrder? size successors = some order := by
  have hs := Sorting.sorted_final hnodup hlt
  simp only [topologicalOrder?_eq_some_iff, exists_and_left, exists_eq', and_true]
  rcases Sorting.listed_run successors (Sorting.start size successors) size with hready | hlength
  · generalize (Sorting.start size successors).run successors size = final at hs hready ⊢
    let left := (List.range size).filter fun v => v ∉ final.listed
    have hmem : ∀ v, v ∈ left ↔ v < size ∧ v ∉ final.listed := by
      intro v
      rw [List.mem_filter, List.mem_range, decide_eq_true_eq]
    have hnone : left = [] := by
      by_contra hne
      -- One of the vertices that are left would have all its predecessors listed and be ready.
      rcases hacyclic.exists_source hne with ⟨v, hv, hsource⟩
      rw [hmem] at hv
      have hzero : Sorting.pending size successors final.listed v = ∅ := by
        rw [Finset.eq_empty_iff_forall_notMem]
        intro u hu
        rw [Sorting.mem_pending_iff] at hu
        exact hsource u ((hmem u).mpr ⟨hu.1, hu.2.1⟩) ⟨hu.1, hu.2.2⟩
      have hwaits := (hs.mem_ready v).mpr
        ⟨hv.1, hv.2, by rw [hs.count v hv.1, hzero, Finset.card_empty]⟩
      rw [hready] at hwaits
      exact absurd hwaits List.not_mem_nil
    have hperm : final.listed.Perm (List.range size) := by
      refine (List.perm_ext_iff_of_nodup hs.nodup_listed List.nodup_range).mpr (fun v => ?_)
      rw [List.mem_range]
      refine ⟨hs.listed_lt v, fun hv => ?_⟩
      by_contra hc
      have hleft := (hmem v).mpr ⟨hv, hc⟩
      rw [hnone] at hleft
      exact absurd hleft List.not_mem_nil
    rw [hperm.length_eq, List.length_range]
  · rw [hlength]
    exact Nat.zero_add _

end Outcome

end Graph

namespace TaggedGraph

variable {g : TaggedGraph}

/-- All nodes in an order in which every edge goes forward. -/
structure Ordered (g : TaggedGraph) (order : List Nat) : Prop where
  perm : order.Perm g.nodes
  forward : ∀ {i j}, g.Edge i j → order.idxOf i < order.idxOf j

theorem successors_lt (g : TaggedGraph) (i : Nat) : ∀ j ∈ g.successors i, j < g.size :=
  fun j hj => ((mem_successors_iff i j).mp hj).1

/-- What is found by sorting is an order in which every edge goes forward. -/
theorem topologicalOrder?_ordered (hg : g.Regular) {order : List Nat}
    (hfound : g.topologicalOrder? = some order) : g.Ordered order := by
  refine ⟨Graph.perm_of_topologicalOrder? g.nodup_successors g.successors_lt hfound, ?_⟩
  intro i j hedge
  exact Graph.idxOf_lt_of_topologicalOrder? g.nodup_successors g.successors_lt hfound
    (lt_size_of_edge hedge) ((mem_successors_iff i j).mpr ⟨hg.target_lt hedge, hedge⟩)

/-- Sorting succeeds if there is no cycle. -/
theorem exists_topologicalOrder (hacyclic : Acyclic g.Edge) :
    ∃ order, g.topologicalOrder? = some order := by
  refine Graph.exists_topologicalOrder g.nodup_successors g.successors_lt (hacyclic.mono ?_)
  intro i j hij
  exact ((mem_successors_iff i j).mp hij.2).2

end TaggedGraph

end Isolation
