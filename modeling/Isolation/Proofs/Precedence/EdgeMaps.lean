import Isolation.Precedence.Layers
import Isolation.Proofs.Precedence.Generation
import Isolation.Proofs.Precedence.KnownCycles

/-!
# Lists of Edges as Maps

A list of edges that is sorted by pairs is a map from pairs to labels. Inserting a label changes the entry
of its pair, removing a pair drops its entry, and filtering by labels drops the entries that fail the test.
The map determines the list, so lists of edges can be compared pair by pair.

## Main definitions

* `SortedByPairs`: A list of edges is sorted by pairs.

## Theorems

* `labelsIn?_insertLabel`, `labelsIn?_foldl_insertLabel`: Entries that change.
-/

namespace Isolation

variable {κ : Type} {edges : List (LabelledEdge κ)}

theorem compare_pair_self_ne_lt (p : TransactionId × TransactionId) : compare p p ≠ .lt := by
  have hself : compare p p = .eq := Std.ReflCmp.compare_self
  rw [hself]
  decide

/-- The two ends of an edge. -/
def LabelledEdge.pair (e : LabelledEdge κ) : TransactionId × TransactionId :=
  (e.source, e.target)

/-- The edges are sorted by their pairs, and no pair has two of them. -/
def SortedByPairs (edges : List (LabelledEdge κ)) : Prop :=
  (edges.map LabelledEdge.pair).Pairwise fun p q => compare p q = .lt

theorem SortedByPairs.filter (hedges : SortedByPairs edges) (p : LabelledEdge κ → Bool) :
    SortedByPairs (edges.filter p) :=
  List.Pairwise.sublist (List.filter_sublist.map LabelledEdge.pair) hedges

theorem SortedByPairs.nodup (hedges : SortedByPairs edges) : (edges.map LabelledEdge.pair).Nodup := by
  refine List.Pairwise.imp ?_ hedges
  intro p q hlt heq
  rw [heq] at hlt
  exact compare_pair_self_ne_lt q hlt

theorem labelsIn?_nil (a b : TransactionId) : labelsIn? ([] : List (LabelledEdge κ)) a b = none := rfl

theorem labelsIn?_cons (e : LabelledEdge κ) (rest : List (LabelledEdge κ)) (a b : TransactionId) :
    labelsIn? (e :: rest) a b = if e.pair = (a, b) then some e.labels else labelsIn? rest a b := by
  unfold labelsIn? LabelledEdge.pair
  rw [List.find?_cons]
  by_cases hpair : e.source = a ∧ e.target = b
  · simp only [hpair.1, hpair.2, decide_true, Bool.and_self, Option.map_some, if_true]
  · have hfalse : (decide (e.source = a) && decide (e.target = b)) = false := by
      rw [← Bool.not_eq_true, Bool.and_eq_true, decide_eq_true_eq, decide_eq_true_eq]
      exact hpair
    rw [hfalse, if_neg (by rw [Prod.mk.injEq]; exact hpair)]

theorem labelsIn?_eq_none_of_not_mem {a b : TransactionId}
    (hnone : (a, b) ∉ edges.map LabelledEdge.pair) : labelsIn? edges a b = none := by
  induction edges with
  | nil => rfl
  | cons e rest ih =>
    rw [List.map_cons, List.mem_cons, not_or] at hnone
    rw [labelsIn?_cons, if_neg (Ne.symm hnone.1)]
    exact ih hnone.2

theorem labelsIn?_tail_eq_none {e : LabelledEdge κ} {rest : List (LabelledEdge κ)}
    (hnodup : ((e :: rest).map LabelledEdge.pair).Nodup) {a b : TransactionId}
    (hpair : e.pair = (a, b)) : labelsIn? rest a b = none := by
  refine labelsIn?_eq_none_of_not_mem ?_
  rw [← hpair]
  exact (List.nodup_cons.mp hnodup).1

theorem SortedByPairs.mem_iff (hedges : SortedByPairs edges) (e : LabelledEdge κ) :
    e ∈ edges ↔ labelsIn? edges e.source e.target = some e.labels := by
  have hnodup := hedges.nodup
  clear hedges
  induction edges with
  | nil => simp only [List.not_mem_nil, labelsIn?_nil, reduceCtorEq]
  | cons f rest ih =>
    have hmem : e ∈ rest ↔ labelsIn? rest e.source e.target = some e.labels :=
      ih (List.nodup_cons.mp hnodup).2
    rw [List.mem_cons, labelsIn?_cons, hmem]
    by_cases hpair : f.pair = (e.source, e.target)
    · rw [if_pos hpair, labelsIn?_tail_eq_none hnodup hpair, Option.some.injEq,
        or_iff_left (by simp)]
      rw [LabelledEdge.pair, Prod.mk.injEq] at hpair
      refine ⟨fun heq => by rw [heq], fun hlabels => ?_⟩
      cases e
      cases f
      simp_all only
    · rw [if_neg hpair]
      refine or_iff_right (fun heq => hpair ?_)
      rw [heq]
      rfl

theorem SortedByPairs.ext {edges edges' : List (LabelledEdge κ)} (hedges : SortedByPairs edges)
    (hedges' : SortedByPairs edges') (hsame : ∀ a b, labelsIn? edges a b = labelsIn? edges' a b) :
    edges = edges' := by
  have hperm : edges.Perm edges' := by
    rw [List.perm_ext_iff_of_nodup hedges.nodup.of_map hedges'.nodup.of_map]
    intro e
    rw [hedges.mem_iff, hedges'.mem_iff, hsame]
  refine hperm.eq_of_pairwise ?_ (List.pairwise_map.mp hedges) (List.pairwise_map.mp hedges')
  intro e f _ _ hef hfe
  rw [Std.OrientedCmp.gt_of_lt hef] at hfe
  exact absurd hfe (by decide)

/-- Some label is not an anti-dependency. -/
def orders (labels : List (Label κ)) : Bool :=
  labels.any fun label => !label.isAnti

/-- Filtering by the labels drops whole entries of the map. -/
theorem SortedByPairs.labelsIn?_filter (hedges : SortedByPairs edges) (p : List (Label κ) → Bool)
    (a b : TransactionId) :
    labelsIn? (edges.filter fun e => p e.labels) a b = (labelsIn? edges a b).filter p := by
  have hnodup := hedges.nodup
  clear hedges
  induction edges with
  | nil => rfl
  | cons e rest ih =>
    have hrest := ih (List.nodup_cons.mp hnodup).2
    rw [labelsIn?_cons, List.filter_cons]
    by_cases hpair : e.pair = (a, b)
    · rw [if_pos hpair, Option.filter_some]
      split
      · rw [labelsIn?_cons, if_pos hpair]
      · rw [hrest, labelsIn?_tail_eq_none hnodup hpair, Option.filter_none]
    · rw [if_neg hpair, ← hrest]
      split
      · rw [labelsIn?_cons, if_neg hpair]
      · rfl

theorem labelsIn?_removePair (source target : TransactionId) (edges : List (LabelledEdge κ))
    (a b : TransactionId) : labelsIn? (removePair source target edges) a b =
      if source = a ∧ target = b then none else labelsIn? edges a b := by
  have hcond : ∀ e : LabelledEdge κ, (!(decide (e.source = source) && decide (e.target = target))) =
      decide (e.pair ≠ (source, target)) := by
    intro e
    simp only [LabelledEdge.pair, ne_eq, Prod.mk.injEq, Bool.decide_and, decide_not]
  induction edges with
  | nil =>
    split <;> rfl
  | cons e rest ih =>
    have hrest : removePair source target (e :: rest) =
        if e.pair ≠ (source, target) then e :: removePair source target rest
        else removePair source target rest := by
      unfold removePair
      rw [List.filter_cons, hcond]
      simp only [decide_eq_true_eq]
    rw [hrest, labelsIn?_cons]
    by_cases hpair : e.pair = (source, target)
    · rw [if_neg (not_not_intro hpair), ih]
      by_cases hends : source = a ∧ target = b
      · rw [if_pos hends, if_pos hends]
      · rw [if_neg hends, if_neg hends, if_neg]
        rw [hpair, Prod.mk.injEq]
        exact hends
    · rw [if_pos hpair, labelsIn?_cons, ih]
      by_cases hends : source = a ∧ target = b
      · rw [if_pos hends, if_pos hends, if_neg]
        rw [← hends.1, ← hends.2]
        exact hpair
      · rw [if_neg hends, if_neg hends]

variable [DecidableEq κ]

/-- One more label, if it is new. -/
def withLabel (labels : List (Label κ)) (label : Label κ) : List (Label κ) :=
  if labels.contains label then labels else labels ++ [label]

theorem labels_addLabel (label : Label κ) (e : LabelledEdge κ) :
    (e.addLabel label).labels = withLabel e.labels label := by
  unfold LabelledEdge.addLabel withLabel
  split <;> rfl

theorem mem_withLabel_iff (labels : List (Label κ)) (label l : Label κ) :
    l ∈ withLabel labels label ↔ l ∈ labels ∨ l = label := by
  rw [← labels_addLabel label ⟨.init, .init, labels⟩]
  exact Precedence.mem_labels_addLabel l label _

theorem withLabel_ne_nil (labels : List (Label κ)) (label : Label κ) : withLabel labels label ≠ [] :=
  List.ne_nil_of_mem ((mem_withLabel_iff labels label label).mpr (Or.inr rfl))

theorem nodup_withLabel {labels : List (Label κ)} (hlabels : labels.Nodup) (label : Label κ) :
    (withLabel labels label).Nodup := by
  unfold withLabel
  split
  · exact hlabels
  · next hnew =>
      rw [List.contains_iff_mem] at hnew
      exact List.nodup_append.mpr ⟨hlabels, List.nodup_singleton label, fun l hl l' hl' heq =>
        hnew (by rw [← List.mem_singleton.mp hl', ← heq]; exact hl)⟩

theorem orders_withLabel (labels : List (Label κ)) (label : Label κ) :
    orders (withLabel labels label) = true ↔ orders labels = true ∨ label.isAnti = false := by
  rw [← labels_addLabel label ⟨.init, .init, labels⟩]
  exact Precedence.isDependency_addLabel label _

theorem foldl_withLabel_eq (labels known : List (Label κ)) (hnodup : (known ++ labels).Nodup) :
    labels.foldl withLabel known = known ++ labels := by
  induction labels generalizing known with
  | nil => rw [List.foldl_nil, List.append_nil]
  | cons label rest ih =>
    have hnew : known.contains label = false := by
      rw [← Bool.not_eq_true, List.contains_iff_mem]
      intro hmem
      exact (List.nodup_append.mp hnodup).2.2 label hmem label List.mem_cons_self rfl
    rw [List.foldl_cons, withLabel, hnew, if_neg (by decide), List.append_cons known label rest]
    refine ih _ ?_
    rw [← List.append_cons]
    exact hnodup

theorem map_pair_insertLabel (source target : TransactionId) (label : Label κ)
    (edges : List (LabelledEdge κ)) : (insertLabel source target label edges).map LabelledEdge.pair =
      SortedList.insert (source, target) (edges.map LabelledEdge.pair) := by
  induction edges with
  | nil => rfl
  | cons e rest ih =>
    have hcompare : e.comparePair source target = compare (source, target) e.pair := rfl
    rw [insertLabel, List.map_cons, SortedList.insert, hcompare]
    cases compare (source, target) e.pair with
    | lt => rfl
    | eq =>
      rcases Precedence.source_addLabel label e with ⟨hsource, htarget⟩
      simp only [List.map_cons, LabelledEdge.pair, hsource, htarget]
    | gt => simp only [List.map_cons, ih]

theorem SortedByPairs.insertLabel (hedges : SortedByPairs edges) (source target : TransactionId)
    (label : Label κ) : SortedByPairs (insertLabel source target label edges) := by
  unfold SortedByPairs
  rw [map_pair_insertLabel]
  exact SortedList.pairwise_insert hedges

/-- Insertion changes one entry of the map. -/
theorem labelsIn?_insertLabel (hedges : SortedByPairs edges) (source target : TransactionId)
    (label : Label κ) (a b : TransactionId) :
    labelsIn? (insertLabel source target label edges) a b =
      if source = a ∧ target = b then some (withLabel ((labelsIn? edges a b).getD []) label)
      else labelsIn? edges a b := by
  induction edges with
  | nil =>
    rw [insertLabel, labelsIn?_cons, labelsIn?_nil]
    simp only [LabelledEdge.pair, Prod.mk.injEq, Option.getD_none, withLabel, List.contains_nil,
      Bool.false_eq_true, if_false, List.nil_append]
  | cons e rest ih =>
    have hrest := List.pairwise_cons.mp hedges
    have hcompare : e.comparePair source target = compare (source, target) e.pair := rfl
    rw [insertLabel, hcompare]
    cases hplace : compare (source, target) e.pair with
    | lt =>
      -- The pair comes before all others, so it was not there.
      have hnone : labelsIn? (e :: rest) source target = none := by
        refine labelsIn?_eq_none_of_not_mem fun hmem => ?_
        refine compare_pair_self_ne_lt (source, target) ?_
        rcases List.mem_cons.mp hmem with heq | hmem
        · rw [← heq] at hplace
          exact hplace
        · exact Std.TransCmp.lt_trans hplace (hrest.1 _ hmem)
      rw [labelsIn?_cons]
      simp only [LabelledEdge.pair, Prod.mk.injEq]
      by_cases hends : source = a ∧ target = b
      · rw [if_pos hends, if_pos hends, ← hends.1, ← hends.2, hnone]
        rfl
      · rw [if_neg hends, if_neg hends]
    | eq =>
      have hpair : (source, target) = e.pair := Std.LawfulEqOrd.eq_of_compare hplace
      rcases Precedence.source_addLabel label e with ⟨hsource, htarget⟩
      have hsame : (e.addLabel label).pair = e.pair := by
        simp only [LabelledEdge.pair, hsource, htarget]
      simp only [labelsIn?_cons, hsame, ← hpair, Prod.mk.injEq, labels_addLabel]
      by_cases hends : source = a ∧ target = b
      · simp only [hends, and_self, if_true, Option.getD_some]
      · simp only [hends, if_false]
    | gt =>
      have hpair : e.pair ≠ (source, target) := by
        intro heq
        rw [heq] at hplace
        exact compare_pair_self_ne_lt _ (Std.OrientedCmp.gt_iff_lt.mp hplace)
      simp only [labelsIn?_cons, ih hrest.2]
      by_cases hends : source = a ∧ target = b
      · rw [← hends.1, ← hends.2, if_neg hpair, if_neg hpair]
      · rw [if_neg hends, if_neg hends]

/-- Several insertions for one pair add up. -/
theorem labelsIn?_foldl_insertLabel (source target : TransactionId) (labels : List (Label κ))
    (hlabels : labels ≠ []) (hedges : SortedByPairs edges) (a b : TransactionId) :
    SortedByPairs (labels.foldl (fun edges label => insertLabel source target label edges) edges) ∧
    labelsIn? (labels.foldl (fun edges label => insertLabel source target label edges) edges) a b =
      if source = a ∧ target = b then some (labels.foldl withLabel ((labelsIn? edges a b).getD []))
      else labelsIn? edges a b := by
  induction labels generalizing edges with
  | nil => exact absurd rfl hlabels
  | cons label rest ih =>
    have hnext := hedges.insertLabel source target label
    have hstep := labelsIn?_insertLabel hedges source target label a b
    by_cases hrest : rest = []
    · rw [hrest]
      exact ⟨hnext, hstep⟩
    · rcases ih hrest hnext with ⟨hasc, hlast⟩
      refine ⟨hasc, hlast.trans ?_⟩
      rw [hstep]
      by_cases hends : source = a ∧ target = b
      · rw [if_pos hends, if_pos hends, if_pos hends]
        rfl
      · rw [if_neg hends, if_neg hends, if_neg hends]

end Isolation
