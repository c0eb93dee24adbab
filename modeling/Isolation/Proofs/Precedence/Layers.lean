import Isolation.Proofs.Graph.Adjacency
import Isolation.Proofs.Precedence.EdgeMaps

/-!
# What the Layers Hold

Labels come in one after the other, and where each of them goes depends on the ones before it. Still, what
the layers hold can be read off the *log* of the labels. A pair is among the dependencies if it has been
given some label that is not an anti-dependency, and among the anti-dependencies if it has been given
labels, but none of that kind. Either way it has all labels it was ever given, each once and in the order
in which they came.

Sorted lists of edges are maps from pairs to labels, so the argument is about one pair at a time. It has
three cases: a label joins the dependencies, it waits among the anti-dependencies, or it takes along what
has been waiting.

## Main definitions

* `Layers.Holds`: The layers are those of a log.

## Theorems

* `Layers.ofHistory_addAll_exact`: What the layers of a history hold after any further labels.
-/

namespace Isolation

variable {κ ν : Type} [DecidableEq κ]

/-! ### The log -/

/-- The labels that a log gives to a pair, each once and in the order in which they come. -/
def labelsGiven (log : List (Addition κ)) (a b : TransactionId) : List (Label κ) :=
  ((log.filter fun x => x.source = a && x.target = b).map Addition.label).foldl withLabel []

theorem labelsGiven_append_singleton (log : List (Addition κ)) (x : Addition κ) (a b : TransactionId) :
    labelsGiven (log ++ [x]) a b = if x.source = a ∧ x.target = b
      then withLabel (labelsGiven log a b) x.label else labelsGiven log a b := by
  unfold labelsGiven
  rw [List.filter_append, List.map_append, List.foldl_append, List.filter_singleton]
  by_cases hends : x.source = a ∧ x.target = b
  · rw [if_pos hends, decide_eq_true hends.1, decide_eq_true hends.2]
    rfl
  · have hfalse : (decide (x.source = a) && decide (x.target = b)) = false := by
      rw [← Bool.not_eq_true, Bool.and_eq_true, decide_eq_true_eq, decide_eq_true_eq]
      exact hends
    rw [hfalse, if_neg hends]
    rfl

theorem nodup_labelsGiven (log : List (Addition κ)) (a b : TransactionId) :
    (labelsGiven log a b).Nodup := by
  induction log using List.reverseRecOn with
  | nil => exact List.nodup_nil
  | append_singleton log x ih =>
    rw [labelsGiven_append_singleton]
    split
    · exact nodup_withLabel ih x.label
    · exact ih

theorem mem_labelsGiven_iff (log : List (Addition κ)) (a b : TransactionId) (label : Label κ) :
    label ∈ labelsGiven log a b ↔ ⟨a, b, label⟩ ∈ log := by
  induction log using List.reverseRecOn with
  | nil => exact iff_of_false List.not_mem_nil List.not_mem_nil
  | append_singleton log x ih =>
    rw [labelsGiven_append_singleton, List.mem_append, List.mem_singleton, ← ih]
    by_cases hends : x.source = a ∧ x.target = b
    · rw [if_pos hends, mem_withLabel_iff, ← hends.1, ← hends.2]
      refine or_congr_right ⟨fun heq => by rw [heq], fun heq => by rw [← heq]⟩
    · rw [if_neg hends]
      refine (or_iff_left fun heq => hends ?_).symm
      rw [← heq]
      exact ⟨rfl, rfl⟩

theorem orders_labelsGiven_iff (log : List (Addition κ)) (a b : TransactionId) :
    orders (labelsGiven log a b) = true ↔
      ∃ x ∈ log, (x.source = a ∧ x.target = b) ∧ x.label.isAnti = false := by
  simp only [orders, List.any_eq_true, mem_labelsGiven_iff, Bool.not_eq_true']
  constructor
  · intro hlabel
    rcases hlabel with ⟨label, hmem, hanti⟩
    exact ⟨⟨a, b, label⟩, hmem, ⟨rfl, rfl⟩, hanti⟩
  · intro hx
    rcases hx with ⟨x, hmem, ⟨rfl, rfl⟩, hanti⟩
    exact ⟨x.label, hmem, hanti⟩

theorem labelsGiven_eq_nil_iff (log : List (Addition κ)) (a b : TransactionId) :
    labelsGiven log a b = [] ↔ ∀ x ∈ log, ¬ (x.source = a ∧ x.target = b) := by
  simp only [List.eq_nil_iff_forall_not_mem, mem_labelsGiven_iff]
  constructor
  · intro hnone x hx hends
    refine hnone x.label ?_
    rw [← hends.1, ← hends.2]
    exact hx
  · intro hnone label hmem
    exact hnone _ hmem ⟨rfl, rfl⟩

namespace Layers

/-- The layers are those of a log: every pair has the labels it was given, among the dependencies if one of
    them is not an anti-dependency, and otherwise among the anti-dependencies. -/
structure Holds (l : Layers κ) (log : List (Addition κ)) : Prop where
  sorted : SortedByPairs l.dependencies
  sorted_anti : SortedByPairs l.antiDependencies
  labels : ∀ a b, labelsIn? l.dependencies a b =
    if orders (labelsGiven log a b) then some (labelsGiven log a b) else none
  labels_anti : ∀ a b, labelsIn? l.antiDependencies a b =
    if labelsGiven log a b = [] ∨ orders (labelsGiven log a b) = true then none
    else some (labelsGiven log a b)
  mem_successors : ∀ a b, b ∈ l.successors a ↔ orders (labelsGiven log a b) = true
  mem_predecessors : ∀ a b, a ∈ l.predecessors b ↔ orders (labelsGiven log a b) = true

theorem holds_empty : (empty : Layers κ).Holds [] where
  sorted := List.Pairwise.nil
  sorted_anti := List.Pairwise.nil
  labels _ _ := rfl
  labels_anti _ _ := rfl
  mem_successors _ _ := iff_of_false List.not_mem_nil Bool.false_ne_true
  mem_predecessors _ _ := iff_of_false List.not_mem_nil Bool.false_ne_true

variable {l : Layers κ} {log : List (Addition κ)} {x : Addition κ}

theorem orders_append_of_anti (hanti : x.label.isAnti = true) (a b : TransactionId) :
    orders (labelsGiven (log ++ [x]) a b) = orders (labelsGiven log a b) := by
  rw [labelsGiven_append_singleton]
  split
  · rw [Bool.eq_iff_iff, orders_withLabel, hanti]
    exact or_iff_left (by decide)
  · rfl

/-- What is waiting for a pair is all it was given, as long as nothing orders it. -/
theorem Holds.getD_labels_anti (hl : l.Holds log) {a b : TransactionId}
    (horders : orders (labelsGiven log a b) = false) :
    (labelsIn? l.antiDependencies a b).getD [] = labelsGiven log a b := by
  rw [hl.labels_anti, horders]
  by_cases hnil : labelsGiven log a b = []
  · rw [if_pos (Or.inl hnil), hnil, Option.getD_none]
  · rw [if_neg (not_or.mpr ⟨hnil, Bool.false_ne_true⟩), Option.getD_some]

theorem Holds.join (hl : l.Holds log) (hanti : x.label.isAnti = true)
    (horders : orders (labelsGiven log x.source x.target) = true) :
    Holds { l with dependencies := insertLabel x.source x.target x.label l.dependencies }
      (log ++ [x]) where
  sorted := hl.sorted.insertLabel x.source x.target x.label
  sorted_anti := hl.sorted_anti
  labels a b := by
    rw [orders_append_of_anti hanti, labelsIn?_insertLabel hl.sorted, labelsGiven_append_singleton,
      hl.labels]
    by_cases hends : x.source = a ∧ x.target = b
    · rw [hends.1, hends.2] at horders
      rw [if_pos hends, if_pos hends, if_pos horders, if_pos horders, Option.getD_some]
    · rw [if_neg hends, if_neg hends]
  labels_anti a b := by
    rw [orders_append_of_anti hanti, labelsGiven_append_singleton, hl.labels_anti]
    by_cases hends : x.source = a ∧ x.target = b
    · rw [hends.1, hends.2] at horders
      rw [if_pos (Or.inr horders), if_pos (Or.inr horders)]
    · rw [if_neg hends]
  mem_successors a b := by
    rw [orders_append_of_anti hanti]
    exact hl.mem_successors a b
  mem_predecessors a b := by
    rw [orders_append_of_anti hanti]
    exact hl.mem_predecessors a b

/-- An anti-dependency waits with the others of its pair, as long as there is nothing else. -/
theorem Holds.wait (hl : l.Holds log) (hanti : x.label.isAnti = true)
    (horders : orders (labelsGiven log x.source x.target) = false) :
    Holds { l with antiDependencies := insertLabel x.source x.target x.label l.antiDependencies }
      (log ++ [x]) where
  sorted := hl.sorted
  sorted_anti := hl.sorted_anti.insertLabel x.source x.target x.label
  labels a b := by
    rw [orders_append_of_anti hanti, labelsGiven_append_singleton, hl.labels]
    by_cases hends : x.source = a ∧ x.target = b
    · rw [hends.1, hends.2] at horders
      rw [horders]
      rfl
    · rw [if_neg hends]
  labels_anti a b := by
    rw [orders_append_of_anti hanti, labelsIn?_insertLabel hl.sorted_anti,
      labelsGiven_append_singleton]
    by_cases hends : x.source = a ∧ x.target = b
    · rw [hends.1, hends.2] at horders
      rw [if_pos hends, if_pos hends, hl.getD_labels_anti horders, horders, if_neg]
      exact not_or.mpr ⟨withLabel_ne_nil _ _, Bool.false_ne_true⟩
    · rw [if_neg hends, if_neg hends]
      exact hl.labels_anti a b
  mem_successors a b := by
    rw [orders_append_of_anti hanti]
    exact hl.mem_successors a b
  mem_predecessors a b := by
    rw [orders_append_of_anti hanti]
    exact hl.mem_predecessors a b

theorem orders_append_of_not_anti (hanti : x.label.isAnti = false) (a b : TransactionId) :
    orders (labelsGiven (log ++ [x]) a b) = true ↔
      orders (labelsGiven log a b) = true ∨ x.source = a ∧ x.target = b := by
  rw [labelsGiven_append_singleton]
  by_cases hends : x.source = a ∧ x.target = b
  · rw [if_pos hends, orders_withLabel]
    exact iff_of_true (Or.inr hanti) (Or.inr hends)
  · rw [if_neg hends]
    exact (or_iff_left hends).symm

/-- What has been waiting for a pair and the new label make up the labels of the pair, together with those
    that are among the dependencies already. -/
theorem Holds.foldl_absorbed (hl : l.Holds log) (x : Addition κ) :
    (withLabel ((labelsIn? l.antiDependencies x.source x.target).getD []) x.label).foldl withLabel
        ((labelsIn? l.dependencies x.source x.target).getD []) =
      withLabel (labelsGiven log x.source x.target) x.label := by
  cases horders : orders (labelsGiven log x.source x.target) with
  | true =>
    rw [hl.labels, if_pos horders, hl.labels_anti, if_pos (Or.inr horders), Option.getD_some,
      Option.getD_none]
    rfl
  | false =>
    rw [hl.getD_labels_anti horders, hl.labels, horders, if_neg Bool.false_ne_true, Option.getD_none]
    refine foldl_withLabel_eq _ [] ?_
    rw [List.nil_append]
    exact nodup_withLabel (nodup_labelsGiven log _ _) x.label

theorem Holds.absorb (hl : l.Holds log) (hanti : x.label.isAnti = false) :
    Holds
      { dependencies :=
          (withLabel ((labelsIn? l.antiDependencies x.source x.target).getD []) x.label).foldl
            (fun edges label => insertLabel x.source x.target label edges) l.dependencies
        antiDependencies := removePair x.source x.target l.antiDependencies
        outgoing := (l.outgoing.addEdge x.source x.target).2
        incoming := (l.incoming.addEdge x.target x.source).2 } (log ++ [x]) where
  sorted := (labelsIn?_foldl_insertLabel x.source x.target _ (withLabel_ne_nil _ _) hl.sorted
    .init .init).1
  sorted_anti := hl.sorted_anti.filter _
  labels a b := by
    rw [(labelsIn?_foldl_insertLabel x.source x.target _ (withLabel_ne_nil _ _) hl.sorted a b).2]
    by_cases hends : x.source = a ∧ x.target = b
    · rw [if_pos hends, if_pos ((orders_append_of_not_anti hanti a b).mpr (Or.inr hends)),
        labelsGiven_append_singleton, if_pos hends, ← hends.1, ← hends.2, hl.foldl_absorbed x]
    · rw [if_neg hends, labelsGiven_append_singleton, if_neg hends]
      exact hl.labels a b
  labels_anti a b := by
    rw [labelsIn?_removePair]
    by_cases hends : x.source = a ∧ x.target = b
    · rw [if_pos hends, if_pos (Or.inr ((orders_append_of_not_anti hanti a b).mpr (Or.inr hends)))]
    · rw [if_neg hends, labelsGiven_append_singleton, if_neg hends]
      exact hl.labels_anti a b
  mem_successors a b := by
    rw [orders_append_of_not_anti hanti, ← hl.mem_successors]
    refine (Digraph.mem_successors_addEdge_iff _ _ _ a b).trans (or_congr_right ?_)
    rw [eq_comm, eq_comm (a := b)]
  mem_predecessors a b := by
    rw [orders_append_of_not_anti hanti, ← hl.mem_predecessors]
    refine (Digraph.mem_successors_addEdge_iff _ _ _ b a).trans (or_congr_right ?_)
    rw [and_comm, eq_comm, eq_comm (a := b)]

theorem Holds.add (hl : l.Holds log) (x : Addition κ) : (l.add x).Holds (log ++ [x]) := by
  unfold Layers.add
  by_cases hanti : x.label.isAnti = true
  · rw [if_pos hanti]
    cases horders : orders (labelsGiven log x.source x.target) with
    | true =>
      rw [hl.labels, if_pos horders, if_pos Option.isSome_some]
      exact hl.join hanti horders
    | false =>
      rw [hl.labels, horders, if_neg Bool.false_ne_true, Option.isSome_none,
        if_neg Bool.false_ne_true]
      exact hl.wait hanti horders
  · rw [if_neg hanti]
    simp only [labels_addLabel]
    exact hl.absorb ((Bool.not_eq_true _).mp hanti)

theorem Holds.addAll (hl : l.Holds log) (more : List (Addition κ)) :
    (l.addAll more).Holds (log ++ more) := by
  induction more generalizing l log with
  | nil =>
    rw [List.append_nil]
    exact hl
  | cons x rest ih =>
    rw [List.append_cons]
    exact ih (hl.add x)

variable [DecidableEq ν]

theorem holds_ofHistory (h : History κ ν) : (ofHistory h).Holds h.additions :=
  holds_empty.addAll h.additions

end Layers

/-! ### The graph that keeps all edges in one list -/

namespace Precedence

/-- One label after the other. -/
def addAll (g : Precedence κ) (additions : List (Addition κ)) : Precedence κ :=
  additions.foldl (fun g x => g.addEdge x.source x.target x.label) g

/-- The edges are those of a log. -/
structure Logged (g : Precedence κ) (log : List (Addition κ)) : Prop where
  sorted : SortedByPairs g.edges
  labels : ∀ a b, labelsIn? g.edges a b =
    if labelsGiven log a b = [] then none else some (labelsGiven log a b)

variable {g : Precedence κ} {log : List (Addition κ)}

theorem Logged.addEdge (hg : g.Logged log) (x : Addition κ) :
    (g.addEdge x.source x.target x.label).Logged (log ++ [x]) where
  sorted := hg.sorted.insertLabel x.source x.target x.label
  labels a b := by
    refine (labelsIn?_insertLabel hg.sorted x.source x.target x.label a b).trans ?_
    rw [labelsGiven_append_singleton, hg.labels]
    by_cases hends : x.source = a ∧ x.target = b
    · rw [if_pos hends, if_pos hends, if_neg (withLabel_ne_nil _ _)]
      by_cases hnil : labelsGiven log a b = []
      · rw [if_pos hnil, hnil, Option.getD_none]
      · rw [if_neg hnil, Option.getD_some]
    · rw [if_neg hends, if_neg hends]

theorem Logged.addAll (hg : g.Logged log) (more : List (Addition κ)) :
    (g.addAll more).Logged (log ++ more) := by
  induction more generalizing g log with
  | nil =>
    rw [List.append_nil]
    exact hg
  | cons x rest ih =>
    rw [List.append_cons]
    exact ih (hg.addEdge x)

variable [DecidableEq ν]

/-- The graph of a history is built by the labels that the history brings. -/
theorem ofHistory_eq_addAll (h : History κ ν) : ofHistory h =
    Precedence.addAll ⟨h.transactions.map Transaction.id, [], h.transactions.flatMap (readsOf h)⟩
      h.additions := by
  rw [addAll, History.additions, List.foldl_append, List.foldl_map, List.foldl_map]
  rfl

theorem logged_ofHistory (h : History κ ν) : (ofHistory h).Logged h.additions := by
  have hstart : Logged (⟨h.transactions.map Transaction.id, [],
      h.transactions.flatMap (readsOf h)⟩ : Precedence κ) [] :=
    ⟨List.Pairwise.nil, fun _ _ => rfl⟩
  rw [ofHistory_eq_addAll]
  exact hstart.addAll h.additions

end Precedence

/-- The layers are the two sorts of edges. -/
theorem Layers.Holds.eq_of_logged {l : Layers κ} {g : Precedence κ} {log : List (Addition κ)}
    (hl : l.Holds log) (hg : g.Logged log) :
    l.dependencies = g.dependencies ∧ l.antiDependencies = g.antiDependencies := by
  constructor
  · refine hl.sorted.ext (hg.sorted.filter _) fun a b => ?_
    refine (hl.labels a b).trans (Eq.trans ?_ (hg.sorted.labelsIn?_filter orders a b).symm)
    rw [hg.labels]
    by_cases hnil : labelsGiven log a b = []
    · rw [if_pos hnil, hnil]
      rfl
    · rw [if_neg hnil, Option.filter_some]
  · refine hl.sorted_anti.ext (hg.sorted.filter _) fun a b => ?_
    refine (hl.labels_anti a b).trans
      (Eq.trans ?_ (hg.sorted.labelsIn?_filter (fun labels => !orders labels) a b).symm)
    rw [hg.labels]
    by_cases hnil : labelsGiven log a b = []
    · rw [if_pos hnil, if_pos (Or.inl hnil), Option.filter_none]
    · rw [if_neg hnil, Option.filter_some]
      cases horders : orders (labelsGiven log a b) with
      | true =>
        rw [if_pos (Or.inr rfl)]
        rfl
      | false =>
        rw [if_neg (not_or.mpr ⟨hnil, Bool.false_ne_true⟩)]
        rfl

/-! ### Any further labels, in any order -/

namespace Layers

variable {l l' : Layers κ} {log log' : List (Addition κ)}

/-- The layers say about every pair what the labels say that were added to it, and they say it once. -/
structure Reflects (l : Layers κ) (log : List (Addition κ)) : Prop where
  sorted : SortedByPairs l.dependencies ∧ SortedByPairs l.antiDependencies
  dependency_iff : ∀ a b, (labelsIn? l.dependencies a b).isSome = true ↔
    ∃ x ∈ log, (x.source = a ∧ x.target = b) ∧ x.label.isAnti = false
  antiDependency_iff : ∀ a b, (labelsIn? l.antiDependencies a b).isSome = true ↔
    (∃ x ∈ log, x.source = a ∧ x.target = b) ∧
      ∀ x ∈ log, x.source = a ∧ x.target = b → x.label.isAnti = true
  not_both : ∀ a b, ¬ ((labelsIn? l.dependencies a b).isSome = true ∧
    (labelsIn? l.antiDependencies a b).isSome = true)
  labels_exact : ∀ a b labels,
    labelsIn? l.dependencies a b = some labels ∨ labelsIn? l.antiDependencies a b = some labels →
      labels.Nodup ∧ ∀ label, label ∈ labels ↔ ⟨a, b, label⟩ ∈ log
  successors_iff : ∀ a b, b ∈ l.successors a ↔ (labelsIn? l.dependencies a b).isSome = true
  predecessors_iff : ∀ a b, b ∈ l.predecessors a ↔ (labelsIn? l.dependencies b a).isSome = true

theorem Holds.isSome_labels_iff (hl : l.Holds log) (a b : TransactionId) :
    (labelsIn? l.dependencies a b).isSome = true ↔ orders (labelsGiven log a b) = true := by
  rw [hl.labels]
  cases orders (labelsGiven log a b) with
  | true => exact iff_of_true rfl rfl
  | false => exact iff_of_false Bool.false_ne_true Bool.false_ne_true

theorem Holds.isSome_labels_anti_iff (hl : l.Holds log) (a b : TransactionId) :
    (labelsIn? l.antiDependencies a b).isSome = true ↔
      labelsGiven log a b ≠ [] ∧ ¬ orders (labelsGiven log a b) = true := by
  rw [hl.labels_anti, ← not_or]
  by_cases hnone : labelsGiven log a b = [] ∨ orders (labelsGiven log a b) = true
  · rw [if_pos hnone]
    exact iff_of_false Bool.false_ne_true (not_not_intro hnone)
  · rw [if_neg hnone]
    exact iff_of_true rfl hnone

theorem Holds.eq_labelsGiven (hl : l.Holds log) {a b : TransactionId} {labels : List (Label κ)}
    (hlabels : labelsIn? l.dependencies a b = some labels ∨
      labelsIn? l.antiDependencies a b = some labels) : labels = labelsGiven log a b := by
  rw [hl.labels, hl.labels_anti, Option.ite_none_right_eq_some, Option.ite_none_left_eq_some,
    Option.some.injEq] at hlabels
  exact hlabels.elim (fun hsome => hsome.2.symm) (fun hsome => hsome.2.symm)

theorem Holds.reflects (hl : l.Holds log) : l.Reflects log where
  sorted := ⟨hl.sorted, hl.sorted_anti⟩
  dependency_iff a b := (hl.isSome_labels_iff a b).trans (orders_labelsGiven_iff log a b)
  antiDependency_iff a b := by
    rw [hl.isSome_labels_anti_iff, orders_labelsGiven_iff, ne_eq, labelsGiven_eq_nil_iff]
    simp only [not_forall, not_not, exists_prop, not_exists, not_and, Bool.not_eq_false]
  not_both a b := by
    rw [hl.isSome_labels_iff, hl.isSome_labels_anti_iff]
    exact fun hboth => hboth.2.2 hboth.1
  labels_exact a b labels hlabels := by
    rw [hl.eq_labelsGiven hlabels]
    exact ⟨nodup_labelsGiven log a b, mem_labelsGiven_iff log a b⟩
  successors_iff a b := (hl.mem_successors a b).trans (hl.isSome_labels_iff a b).symm
  predecessors_iff a b := (hl.mem_predecessors b a).trans (hl.isSome_labels_iff b a).symm

/-- The same labels in another order give the same pairs, with the same labels. -/
theorem Holds.toFinset_labels_eq (hl : l.Holds log) (hl' : l'.Holds log')
    (hsame : ∀ x, x ∈ log ↔ x ∈ log') (a b : TransactionId) :
    (labelsIn? l.dependencies a b).map List.toFinset =
        (labelsIn? l'.dependencies a b).map List.toFinset ∧
      (labelsIn? l.antiDependencies a b).map List.toFinset =
        (labelsIn? l'.antiDependencies a b).map List.toFinset := by
  have hset : (labelsGiven log a b).toFinset = (labelsGiven log' a b).toFinset := by
    ext label
    rw [List.mem_toFinset, List.mem_toFinset, mem_labelsGiven_iff, mem_labelsGiven_iff, hsame]
  have hnil : labelsGiven log a b = [] ↔ labelsGiven log' a b = [] := by
    simp only [labelsGiven_eq_nil_iff, hsame]
  have horders : orders (labelsGiven log a b) = orders (labelsGiven log' a b) := by
    rw [Bool.eq_iff_iff]
    simp only [orders_labelsGiven_iff, hsame]
  rw [hl.labels, hl'.labels, hl.labels_anti, hl'.labels_anti, horders]
  simp only [hnil]
  constructor
  · split
    · rw [Option.map_some, Option.map_some, hset]
    · rfl
  · split
    · rfl
    · rw [Option.map_some, Option.map_some, hset]

variable [DecidableEq ν]

/-- After any further labels, the layers of a history reflect all labels that were added: a pair is among
    the dependencies if it has a label that is not an anti-dependency, among the anti-dependencies if it
    has labels and all of them are, and never in both. Its labels are those that were ever added to it,
    each once, and the neighbours are those along dependencies. The pairs and the sets of their labels do
    not depend on the order in which the labels came. Besides, the layers are the two sorts of edges of
    the graph that gets the same labels. -/
theorem ofHistory_addAll_exact (h : History κ ν) (calls : List (Addition κ)) :
    ((ofHistory h).addAll calls).Reflects (h.additions ++ calls) ∧
    (∀ reordered, reordered.Perm calls → ∀ a b,
      (labelsIn? ((ofHistory h).addAll reordered).dependencies a b).map List.toFinset =
          (labelsIn? ((ofHistory h).addAll calls).dependencies a b).map List.toFinset ∧
        (labelsIn? ((ofHistory h).addAll reordered).antiDependencies a b).map List.toFinset =
          (labelsIn? ((ofHistory h).addAll calls).antiDependencies a b).map List.toFinset) ∧
    ((ofHistory h).addAll calls).dependencies =
        ((Precedence.ofHistory h).addAll calls).dependencies ∧
      ((ofHistory h).addAll calls).antiDependencies =
        ((Precedence.ofHistory h).addAll calls).antiDependencies := by
  have hholds := (holds_ofHistory h).addAll calls
  refine ⟨hholds.reflects, ?_, hholds.eq_of_logged ((Precedence.logged_ofHistory h).addAll calls)⟩
  intro reordered hperm a b
  refine ((holds_ofHistory h).addAll reordered).toFinset_labels_eq hholds ?_ a b
  intro x
  rw [List.mem_append, List.mem_append, hperm.mem_iff]

/-- An anti-dependency, and then a label that orders the same pair. -/
def antiThenWrite : List (Addition Nat) :=
  [⟨⟨1, 0⟩, ⟨2, 0⟩, .keyed .readWrite 0⟩, ⟨⟨1, 0⟩, ⟨2, 0⟩, .keyed .writeWrite 1⟩]

/-- The anti-dependency moves to the dependencies, or joins them if it comes second. -/
theorem ofHistory_addAll_exact_writeSkew :
    labelsIn? ((ofHistory History.writeSkew).addAll antiThenWrite).dependencies ⟨1, 0⟩ ⟨2, 0⟩ =
      some [.keyed .readWrite 0, .keyed .writeWrite 1] ∧
    antiThenWrite.reverse.Perm antiThenWrite ∧
    (labelsIn? ((ofHistory History.writeSkew).addAll antiThenWrite.reverse).dependencies
        ⟨1, 0⟩ ⟨2, 0⟩).map List.toFinset =
      (labelsIn? ((ofHistory History.writeSkew).addAll antiThenWrite).dependencies
        ⟨1, 0⟩ ⟨2, 0⟩).map List.toFinset := by
  have hperm : antiThenWrite.reverse.Perm antiThenWrite := List.reverse_perm _
  have horder := (ofHistory_addAll_exact History.writeSkew antiThenWrite).2.1
  exact ⟨by decide +kernel, hperm, (horder _ hperm ⟨1, 0⟩ ⟨2, 0⟩).1⟩

end Layers

end Isolation
