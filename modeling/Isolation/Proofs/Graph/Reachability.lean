import Isolation.Proofs.Graph.Closure
import Isolation.Proofs.Graph.Sorting

/-!
# Closures Are Exact

A closure misses nothing: where a path leads, it has an edge, and where a walk leads that uses a tagged
edge, it has a tagged edge. With what a closure shows, this describes it completely, so the dense and the
sparse way come to the same graph, bit by bit.

Each way has a reason of its own. Of the dense way, what is kept is not which paths have been looked at but
that the relation is *transitive through* the stops admitted so far: two edges that meet in such a stop are
one edge, tagged if one of them is. When all nodes are stops, that is transitivity. A walk that goes around
a tagged cycle needs no special treatment, because the row of a stop on such a cycle is tagged before the
stop is used.

## Main definitions

* `TaggedGraph.Admitting`: What is true of a dense closure while stops are admitted.

## Theorems

* `edge_closure_iff`, `tagged_closure_iff`: The edges of a closure are the paths.
-/

namespace Isolation

open Relation

namespace Graph

variable {α : Type} {edge : α → α → Bool} {goal : α}

/-- A way from a vertex to the goal by unmet vertices. -/
inductive Leads (edge : α → α → Bool) (goal : α) (unmet : List α) : α → Prop where
  | last {v : α} : edge v goal = true → Leads edge goal unmet v
  | step {v w : α} : w ∈ unmet → edge v w = true → Leads edge goal unmet w → Leads edge goal unmet v

theorem mem_partition_snd {p : α → Bool} {l : List α} {a : α} :
    a ∈ (l.partition p).2 ↔ a ∈ l ∧ p a = false := by
  rw [List.partition_eq_filter_filter, List.mem_filter, Function.comp_apply, Bool.not_eq_true']

theorem mem_partition_fst {p : α → Bool} {l : List α} {a : α} :
    a ∈ (l.partition p).1 ↔ a ∈ l ∧ p a = true := by
  rw [List.partition_eq_filter_filter, List.mem_filter]

/-- When the successors of a vertex are met, a way that was open is still open, or one is open from a
    successor. -/
theorem Leads.of_met {unmet : List α} {u : α} (hleads : Leads edge goal unmet u) (v : α) :
    Leads edge goal (unmet.partition (edge v)).2 u ∨
      ∃ x ∈ (unmet.partition (edge v)).1, Leads edge goal (unmet.partition (edge v)).2 x := by
  induction hleads with
  | last hedge => exact Or.inl (Leads.last hedge)
  | @step u w hw hedge _ ih =>
    rcases ih with hw' | hx
    · by_cases hvw : edge v w = true
      · exact Or.inr ⟨w, mem_partition_fst.mpr ⟨hw, hvw⟩, hw'⟩
      · rw [Bool.not_eq_true] at hvw
        exact Or.inl (Leads.step (mem_partition_snd.mpr ⟨hw, hvw⟩) hedge hw')
    · exact Or.inr hx

/-- From a vertex whose successors are met, a way to the goal is open from one of them, unless the goal
    is a successor itself. -/
theorem Leads.exists_met {unmet : List α} {v : α} (hleads : Leads edge goal unmet v)
    (hgoal : ¬ edge v goal = true) :
    ∃ x ∈ (unmet.partition (edge v)).1, Leads edge goal (unmet.partition (edge v)).2 x := by
  rcases hleads.of_met v with hleads | hmet
  · cases hleads with
    | last hedge => exact absurd hedge hgoal
    | step hw hedge _ =>
      have hunmet := (mem_partition_snd.mp hw).2
      rw [hedge] at hunmet
      exact absurd hunmet (by decide)
  · exact hmet

theorem mem_explore_of_mem {unmet waiting : List α} {w : α} (hmem : w ∈ waiting) :
    w ∈ explore edge unmet waiting := by
  fun_induction explore edge unmet waiting with
  | case1 => exact absurd hmem List.not_mem_nil
  | case2 unmet v waiting ih =>
    rcases List.mem_cons.mp hmem with rfl | hmem
    · exact List.mem_cons_self ..
    · exact List.mem_cons_of_mem _ (ih (List.mem_append_left _ hmem))

/-- A search lists every vertex to which a way is open from a waiting one. -/
theorem mem_explore_of_leads {unmet waiting : List α} {u w : α} (hw : w ∈ unmet) (hu : u ∈ waiting)
    (hleads : Leads edge w unmet u) : w ∈ explore edge unmet waiting := by
  fun_induction explore edge unmet waiting generalizing u with
  | case1 => exact absurd hu List.not_mem_nil
  | case2 unmet v waiting ih =>
    refine List.mem_cons_of_mem _ ?_
    by_cases hvw : edge v w = true
    · exact mem_explore_of_mem (List.mem_append_right _ (mem_partition_fst.mpr ⟨hw, hvw⟩))
    · have hunmet : w ∈ (unmet.partition (edge v)).2 :=
        mem_partition_snd.mpr ⟨hw, Bool.not_eq_true _ ▸ hvw⟩
      rcases List.mem_cons.mp hu with rfl | hu
      · rcases hleads.exists_met hvw with ⟨x, hx, hleads⟩
        exact ih hunmet (List.mem_append_right _ hx) hleads
      · rcases hleads.of_met v with hleads | ⟨x, hx, hleads⟩
        · exact ih hunmet (List.mem_append_left _ hu) hleads
        · exact ih hunmet (List.mem_append_right _ hx) hleads

/-- A path among the vertices is a way that is open while nothing has been met. -/
theorem leads_of_path_within {vertices : List α} (hvertices : ∀ {a b}, edge a b = true → b ∈ vertices)
    {u w : α} (hpath : TransGen (fun a b => edge a b = true) u w) : Leads edge w vertices u := by
  induction hpath using TransGen.head_induction_on with
  | single hedge => exact Leads.last hedge
  | head hedge _ ih => exact Leads.step (hvertices hedge) hedge ih

theorem mem_reachable_iff {vertices : List α} (hvertices : ∀ {a b}, edge a b = true → b ∈ vertices)
    (source w : α) : w ∈ reachable edge vertices source ↔
      TransGen (fun a b => edge a b = true) source w := by
  refine ⟨path_of_mem_reachable, fun hpath => ?_⟩
  have hw : w ∈ vertices := by
    rcases TransGen.tail'_iff.mp hpath with ⟨v, _, hedge⟩
    exact hvertices hedge
  unfold reachable
  by_cases hnext : edge source w = true
  · exact mem_explore_of_mem (mem_partition_fst.mpr ⟨hw, hnext⟩)
  · have hunmet : w ∈ (vertices.partition (edge source)).2 :=
      mem_partition_snd.mpr ⟨hw, Bool.not_eq_true _ ▸ hnext⟩
    rcases (leads_of_path_within hvertices hpath).exists_met hnext with ⟨x, hx, hleads⟩
    exact mem_explore_of_leads hunmet hx hleads

end Graph

namespace TaggedGraph

/-- A graph with an edge wherever a path of another leads, tagged wherever a walk uses a tagged edge. -/
structure Covers (g closed : TaggedGraph) : Prop where
  edge : ∀ {i j}, i < g.size → ReflTransGen g.Edge i j → closed.Edge i j
  tagged : ∀ {i j}, g.TaggedWalk i j → closed.Tagged i j

variable {g closed : TaggedGraph}

theorem TaggedWalk.lt_size {i j : Nat} (hwalk : g.TaggedWalk i j) : i < g.size := by
  rcases TransGen.head'_iff.mp hwalk.path with ⟨_, hfirst, _⟩
  exact lt_size_of_edge hfirst

section Dense

/-- Edges that meet in a stop are one edge, and it is tagged if one of them is. -/
structure Through (closed : TaggedGraph) (stop : Nat → Prop) : Prop where
  edge : ∀ {p i j}, stop p → closed.Edge i p → closed.Edge p j → closed.Edge i j
  tagged_left : ∀ {p i j}, stop p → closed.Tagged i p → closed.Edge p j → closed.Tagged i j
  tagged_right : ∀ {p i j}, stop p → closed.Edge i p → closed.Tagged p j → closed.Tagged i j

theorem edge_relax_pivot_iff (closed : TaggedGraph) (pivot i : Nat) :
    (closed.relax pivot).Edge i pivot ↔ closed.Edge i pivot := by
  rw [edge_relax_iff]
  exact ⟨fun hc => hc.elim id And.left, Or.inl⟩

theorem edge_relax_of_pivot_iff (closed : TaggedGraph) (pivot j : Nat) :
    (closed.relax pivot).Edge pivot j ↔ closed.Edge pivot j := by
  rw [edge_relax_iff]
  exact ⟨fun hc => hc.elim id And.right, Or.inl⟩

/-- Around a pivot that has an edge to itself, the walks through it are tagged before it, behind it, or on
    a cycle there. -/
theorem tagged_relax_iff_of_self {pivot : Nat} (hsub : ∀ {i j}, closed.Tagged i j → closed.Edge i j)
    (hself : closed.Edge pivot pivot) (i j : Nat) : (closed.relax pivot).Tagged i j ↔
      closed.Tagged i j ∨ (closed.Edge i pivot ∧ closed.Tagged pivot j) ∨
      (closed.Tagged i pivot ∧ closed.Edge pivot j) ∨
      (closed.Edge i pivot ∧ closed.Tagged pivot pivot ∧ closed.Edge pivot j) := by
  have hstop : (i = pivot ∨ closed.Edge i pivot) ↔ closed.Edge i pivot := by
    refine ⟨?_, Or.inr⟩
    rintro (rfl | hedge)
    · exact hself
    · exact hedge
  rw [tagged_relax_iff, hstop]
  refine or_congr_right ⟨?_, ?_⟩
  · rintro ⟨hip, hpj | ⟨hip' | hloop, hpj⟩⟩
    · exact Or.inl ⟨hip, hpj⟩
    · exact Or.inr (Or.inl ⟨hip', hpj⟩)
    · exact Or.inr (Or.inr ⟨hip, hloop, hpj⟩)
  · rintro (⟨hip, hpj⟩ | ⟨hip, hpj⟩ | ⟨hip, hloop, hpj⟩)
    · exact ⟨hip, Or.inl hpj⟩
    · exact ⟨hsub hip, Or.inr ⟨Or.inl hip, hpj⟩⟩
    · exact ⟨hip, Or.inr ⟨Or.inr hloop, hpj⟩⟩

section Relax

variable {stop : Nat → Prop} (hthrough : Through closed stop) {pivot : Nat}
  (hsub : ∀ {i j}, closed.Tagged i j → closed.Edge i j) (hself : closed.Edge pivot pivot)

include hthrough in
/-- Two edges that meet in a stop are still one edge after the pivot is admitted, and two that meet in the
    pivot now are. -/
theorem Through.edge_relax {p i j : Nat} (hp : stop p ∨ p = pivot)
    (hip : (closed.relax pivot).Edge i p) (hpj : (closed.relax pivot).Edge p j) :
    (closed.relax pivot).Edge i j := by
  rcases hp with hp | rfl
  · rw [edge_relax_iff] at hip hpj ⊢
    -- Each half is an edge or goes through the pivot; if one does, so does the whole.
    rcases hip with hip | ⟨hiq, hqp⟩
    · rcases hpj with hpj | ⟨hpq, hqj⟩
      · exact Or.inl (hthrough.edge hp hip hpj)
      · exact Or.inr ⟨hthrough.edge hp hip hpq, hqj⟩
    · rcases hpj with hpj | ⟨_, hqj⟩
      · exact Or.inr ⟨hiq, hthrough.edge hp hqp hpj⟩
      · exact Or.inr ⟨hiq, hqj⟩
  · rw [edge_relax_pivot_iff] at hip
    rw [edge_relax_of_pivot_iff] at hpj
    exact (edge_relax_iff closed p i j).mpr (Or.inr ⟨hip, hpj⟩)

include hthrough hsub hself in
theorem Through.tagged_left_relax {p i j : Nat} (hp : stop p ∨ p = pivot)
    (hip : (closed.relax pivot).Tagged i p) (hpj : (closed.relax pivot).Edge p j) :
    (closed.relax pivot).Tagged i j := by
  rw [tagged_relax_iff_of_self hsub hself] at hip ⊢
  rcases hp with hp | rfl
  · rw [edge_relax_iff] at hpj
    rcases hip with hip | ⟨hiq, hqp⟩ | ⟨hiq, hqp⟩ | ⟨hiq, hloop, hqp⟩
    · rcases hpj with hpj | ⟨hpq, hqj⟩
      · exact Or.inl (hthrough.tagged_left hp hip hpj)
      · exact Or.inr (Or.inr (Or.inl ⟨hthrough.tagged_left hp hip hpq, hqj⟩))
    · rcases hpj with hpj | ⟨hpq, hqj⟩
      · exact Or.inr (Or.inl ⟨hiq, hthrough.tagged_left hp hqp hpj⟩)
      · -- The way from the pivot to the stop and back is a tagged cycle.
        exact Or.inr (Or.inr (Or.inr ⟨hiq, hthrough.tagged_left hp hqp hpq, hqj⟩))
    · have hqj : closed.Edge pivot j := hpj.elim (hthrough.edge hp hqp) And.right
      exact Or.inr (Or.inr (Or.inl ⟨hiq, hqj⟩))
    · have hqj : closed.Edge pivot j := hpj.elim (hthrough.edge hp hqp) And.right
      exact Or.inr (Or.inr (Or.inr ⟨hiq, hloop, hqj⟩))
  · rw [edge_relax_of_pivot_iff] at hpj
    rcases hip with hip | ⟨hip, hloop⟩ | ⟨hip, _⟩ | ⟨hip, hloop, _⟩
    · exact Or.inr (Or.inr (Or.inl ⟨hip, hpj⟩))
    · exact Or.inr (Or.inr (Or.inr ⟨hip, hloop, hpj⟩))
    · exact Or.inr (Or.inr (Or.inl ⟨hip, hpj⟩))
    · exact Or.inr (Or.inr (Or.inr ⟨hip, hloop, hpj⟩))

include hthrough hsub hself in
theorem Through.tagged_right_relax {p i j : Nat} (hp : stop p ∨ p = pivot)
    (hip : (closed.relax pivot).Edge i p) (hpj : (closed.relax pivot).Tagged p j) :
    (closed.relax pivot).Tagged i j := by
  rw [tagged_relax_iff_of_self hsub hself] at hpj ⊢
  rcases hp with hp | rfl
  · rw [edge_relax_iff] at hip
    rcases hpj with hpj | ⟨hpq, hqj⟩ | ⟨hpq, hqj⟩ | ⟨hpq, hloop, hqj⟩
    · rcases hip with hip | ⟨hiq, hqp⟩
      · exact Or.inl (hthrough.tagged_right hp hip hpj)
      · exact Or.inr (Or.inl ⟨hiq, hthrough.tagged_right hp hqp hpj⟩)
    · have hiq : closed.Edge i pivot := hip.elim (fun hc => hthrough.edge hp hc hpq) And.left
      exact Or.inr (Or.inl ⟨hiq, hqj⟩)
    · rcases hip with hip | ⟨hiq, hqp⟩
      · exact Or.inr (Or.inr (Or.inl ⟨hthrough.tagged_right hp hip hpq, hqj⟩))
      · -- The way from the pivot to the stop and back is a tagged cycle.
        exact Or.inr (Or.inr (Or.inr ⟨hiq, hthrough.tagged_right hp hqp hpq, hqj⟩))
    · have hiq : closed.Edge i pivot := hip.elim (fun hc => hthrough.edge hp hc hpq) And.left
      exact Or.inr (Or.inr (Or.inr ⟨hiq, hloop, hqj⟩))
  · rw [edge_relax_pivot_iff] at hip
    rcases hpj with hpj | ⟨_, hpj⟩ | ⟨hloop, hpj⟩ | ⟨_, hloop, hpj⟩
    · exact Or.inr (Or.inl ⟨hip, hpj⟩)
    · exact Or.inr (Or.inl ⟨hip, hpj⟩)
    · exact Or.inr (Or.inr (Or.inr ⟨hip, hloop, hpj⟩))
    · exact Or.inr (Or.inr (Or.inr ⟨hip, hloop, hpj⟩))

end Relax

/-- What is true of a dense closure while stops are admitted. -/
structure Admitting (g closed : TaggedGraph) (stop : Nat → Prop) : Prop where
  through : Through closed stop
  self : ∀ {i}, i < g.size → closed.Edge i i
  edge_of_edge : ∀ {i j}, g.Edge i j → closed.Edge i j
  tagged_of_tagged : ∀ {i j}, g.Tagged i j → closed.Tagged i j
  edge_of_tagged : ∀ {i j}, closed.Tagged i j → closed.Edge i j

theorem admitting_reflexive (hg : g.Regular) : Admitting g g.reflexive fun _ => False := by
  refine ⟨⟨False.elim, False.elim, False.elim⟩, fun {i} hlt => ?_, fun {i j} hedge => ?_,
    fun {i j} htagged => ?_, fun {i j} htagged => ?_⟩
  · exact (edge_reflexive_iff g i i).mpr (Or.inr ⟨hlt, rfl⟩)
  · exact (edge_reflexive_iff g i j).mpr (Or.inl hedge)
  · exact (tagged_reflexive_iff g i j).mpr htagged
  · rw [tagged_reflexive_iff] at htagged
    exact (edge_reflexive_iff g i j).mpr (Or.inl (hg.edge_of_tagged htagged))

theorem Admitting.relax {stop : Nat → Prop} (hrounds : Admitting g closed stop) {pivot : Nat}
    (hlt : pivot < g.size) : Admitting g (closed.relax pivot) fun p => stop p ∨ p = pivot := by
  rcases hrounds with ⟨hthrough, hself, hedges, htags, hsub⟩
  have hloop : closed.Edge pivot pivot := hself hlt
  refine ⟨⟨hthrough.edge_relax, hthrough.tagged_left_relax hsub hloop,
    hthrough.tagged_right_relax hsub hloop⟩, fun {i} hi => ?_, fun {i j} hedge => ?_,
    fun {i j} htagged => ?_, fun {i j} htagged => ?_⟩
  · exact (edge_relax_iff closed pivot i i).mpr (Or.inl (hself hi))
  · exact (edge_relax_iff closed pivot i j).mpr (Or.inl (hedges hedge))
  · exact (tagged_relax_iff closed pivot i j).mpr (Or.inl (htags htagged))
  · rw [edge_relax_iff]
    rw [tagged_relax_iff_of_self hsub hloop] at htagged
    rcases htagged with htagged | ⟨hip, hpj⟩ | ⟨hip, hpj⟩ | ⟨hip, _, hpj⟩
    · exact Or.inl (hsub htagged)
    · exact Or.inr ⟨hip, hsub hpj⟩
    · exact Or.inr ⟨hsub hip, hpj⟩
    · exact Or.inr ⟨hip, hpj⟩

theorem Admitting.foldl {stop : Nat → Prop} (l : List Nat) (hlt : ∀ p ∈ l, p < g.size)
    (hrounds : Admitting g closed stop) :
    Admitting g (l.foldl TaggedGraph.relax closed) fun p => stop p ∨ p ∈ l := by
  induction l generalizing closed stop with
  | nil =>
    simp only [List.not_mem_nil, or_false]
    exact hrounds
  | cons q rest ih =>
    have hnext := ih (fun p hp => hlt p (List.mem_cons_of_mem _ hp))
      (hrounds.relax (hlt q List.mem_cons_self))
    simp only [List.mem_cons, ← or_assoc]
    exact hnext

theorem Admitting.covers (hg : g.Regular) {stop : Nat → Prop} (hrounds : Admitting g closed stop)
    (hstops : ∀ p < g.size, stop p) : Covers g closed := by
  have hpaths : ∀ {i j}, i < g.size → ReflTransGen g.Edge i j → closed.Edge i j := by
    intro i j hi hpath
    induction hpath with
    | refl => exact hrounds.self hi
    | tail _ hedge ih =>
      exact hrounds.through.edge (hstops _ (lt_size_of_edge hedge)) ih (hrounds.edge_of_edge hedge)
  refine ⟨hpaths, ?_⟩
  intro i j hwalk
  have hi : i < g.size := hwalk.lt_size
  rcases hwalk with ⟨a, b, hia, ⟨hedge, htagged⟩, hbj⟩
  have ha : a < g.size := lt_size_of_edge hedge
  have hb : b < g.size := hg.target_lt hedge
  have hab : closed.Tagged a j :=
    hrounds.through.tagged_left (hstops b hb) (hrounds.tagged_of_tagged htagged) (hpaths hb hbj)
  exact hrounds.through.tagged_right (hstops a ha) (hpaths hi hia) hab

theorem covers_closureDense (hg : g.Regular) : Covers g g.closureDense := by
  have hrounds := (admitting_reflexive hg).foldl g.nodes fun p hp => (mem_nodes_iff p).mp hp
  exact hrounds.covers hg fun p hp => Or.inr ((mem_nodes_iff p).mpr hp)

end Dense

section Along

theorem size_foldr_finishRow (g : TaggedGraph) (order : List Nat) :
    (order.foldr (fun i closed => g.finishRow closed i) (empty g.size)).size = g.size := by
  induction order with
  | nil => exact size_empty g.size
  | cons i rest ih => exact (size_finishRow g _ i).trans ih

/-- In an order in which edges go forward, the successors of a node stand behind it. -/
theorem Ordered.mem_behind (hg : g.Regular) {order before rest : List Nat} {i k : Nat}
    (hordered : g.Ordered order) (hsplit : order = before ++ i :: rest) (hedge : g.Edge i k) :
    k ∈ rest := by
  have hnodup : order.Nodup := hordered.perm.nodup_iff.mpr List.nodup_range
  have hforward := hordered.forward hedge
  have hk : k ∈ before ++ i :: rest := by
    rw [← hsplit]
    exact hordered.perm.mem_iff.mpr ((mem_nodes_iff k).mpr (hg.target_lt hedge))
  rcases List.mem_append.mp hk with hbefore | hk
  · have hearlier := (mem_prefix_iff_idxOf_lt hnodup hsplit k).mp hbefore
    omega
  · rcases List.mem_cons.mp hk with rfl | hrest
    · omega
    · exact hrest

/-- A row that is finished after the rows of all successors misses nothing, if they do not. -/
theorem finishRow_complete (hg : g.Regular) {i : Nat} (hi : i < closed.size)
    (hedge : ∀ {k j}, g.Edge i k → ReflTransGen g.Edge k j → closed.Edge k j)
    (htagged : ∀ {k j}, g.Edge i k → g.TaggedWalk k j → closed.Tagged k j) (j : Nat) :
    (ReflTransGen g.Edge i j → (g.finishRow closed i).Edge i j) ∧
      (g.TaggedWalk i j → (g.finishRow closed i).Tagged i j) := by
  have hmem : ∀ {k}, g.Edge i k → k ∈ g.successors i :=
    fun {k} hc => (mem_successors_iff i k).mpr ⟨hg.target_lt hc, hc⟩
  rw [edge_finishRow_iff, tagged_finishRow_iff, if_pos ⟨rfl, hi⟩, if_pos ⟨rfl, hi⟩]
  refine ⟨fun hpath => ?_, ?_⟩
  · rcases ReflTransGen.cases_head hpath with rfl | ⟨k, hfirst, hpath⟩
    · exact Or.inl rfl
    · exact Or.inr ⟨k, hmem hfirst, hedge hfirst hpath⟩
  · rintro ⟨a, b, hia, hab, hbj⟩
    -- The tagged edge is the first one, or a walk from the first stop uses it.
    rcases ReflTransGen.cases_head hia with rfl | ⟨k, hfirst, hka⟩
    · exact ⟨b, hmem hab.1, Or.inr ⟨hab.2, hedge hab.1 hbj⟩⟩
    · exact ⟨k, hmem hfirst, Or.inl (htagged hfirst ⟨a, b, hka, hab, hbj⟩)⟩

/-- Backwards along an order in which successors stand behind their nodes, every finished row is complete:
    by induction on the part of the order that is done. -/
theorem foldr_finishRow_complete (hg : g.Regular) {order before after : List Nat}
    (hordered : g.Ordered order) (hsplit : order = before ++ after) {i : Nat} (hi : i ∈ after)
    (j : Nat) :
    let closed := after.foldr (fun i closed => g.finishRow closed i) (empty g.size)
    (ReflTransGen g.Edge i j → closed.Edge i j) ∧ (g.TaggedWalk i j → closed.Tagged i j) := by
  induction after generalizing before i j with
  | nil => exact absurd hi List.not_mem_nil
  | cons x rest ih =>
    have hrest : order = (before ++ [x]) ++ rest := by
      rw [List.append_assoc, List.singleton_append]
      exact hsplit
    rw [List.foldr_cons]
    by_cases hx : i = x
    · subst hx
      have hlt : i < g.size := by
        rw [← mem_nodes_iff, ← hordered.perm.mem_iff, hsplit]
        exact List.mem_append_right _ List.mem_cons_self
      refine finishRow_complete hg ?_ ?_ ?_ j
      · rw [size_foldr_finishRow]
        exact hlt
      · intro k j hfirst
        exact (ih hrest (hordered.mem_behind hg hsplit hfirst) j).1
      · intro k j hfirst
        exact (ih hrest (hordered.mem_behind hg hsplit hfirst) j).2
    · intro closed
      rw [edge_finishRow_iff, tagged_finishRow_iff, if_neg (fun hc => hx hc.1),
        if_neg (fun hc => hx hc.1)]
      exact ih hrest ((List.mem_cons.mp hi).resolve_left hx) j

theorem covers_closureAlong (hg : g.Regular) {order : List Nat} (hordered : g.Ordered order) :
    Covers g (g.closureAlong order) := by
  have hmem : ∀ {i}, i < g.size → i ∈ order :=
    fun {i} hi => hordered.perm.mem_iff.mpr ((mem_nodes_iff i).mpr hi)
  rw [closureAlong, List.foldl_reverse]
  refine ⟨fun {i j} hi => ?_, fun {i j} hwalk => ?_⟩
  · exact (foldr_finishRow_complete hg hordered (List.nil_append _).symm (hmem hi) j).1
  · have hi : i < g.size := hwalk.lt_size
    exact (foldr_finishRow_complete hg hordered (List.nil_append _).symm (hmem hi) j).2 hwalk

end Along

section Searched

theorem mem_walkEnds (hg : g.Regular) {a b : Nat × Bool} (hstep : g.walkStep a b = true) :
    b ∈ g.walkEnds := by
  have hlt := hg.target_lt ((walkStep_iff g a b).mp hstep).1
  refine List.mem_flatMap.mpr ⟨b.1, (mem_nodes_iff b.1).mpr hlt, ?_⟩
  rcases b with ⟨j, _ | _⟩
  · exact List.mem_cons_self ..
  · exact List.mem_cons_of_mem _ List.mem_cons_self

/-- A path can be walked with a memory for tags, and the memory keeps a tag. -/
theorem exists_walk_of_path {i j : Nat} (hpath : ReflTransGen g.Edge i j) (tagged : Bool) :
    ∃ tagged', (tagged = true → tagged' = true) ∧
      ReflTransGen (fun a b => g.walkStep a b = true) (i, tagged) (j, tagged') := by
  induction hpath with
  | refl => exact ⟨tagged, id, ReflTransGen.refl⟩
  | @tail j k _ hedge ih =>
    rcases ih with ⟨tagged', hkeep, hwalk⟩
    refine ⟨tagged' || g.hasTaggedEdge j k, fun htagged => ?_, hwalk.tail ?_⟩
    · rw [hkeep htagged, Bool.true_or]
    · exact (walkStep_iff g (j, tagged') (k, _)).mpr ⟨hedge, rfl⟩

theorem walk_of_taggedWalk {i j : Nat} (hwalk : g.TaggedWalk i j) :
    TransGen (fun a b => g.walkStep a b = true) (i, false) (j, true) := by
  rcases hwalk with ⟨a, b, hia, ⟨hedge, htagged⟩, hbj⟩
  rcases exists_walk_of_path hia false with ⟨t, _, hbefore⟩
  rcases exists_walk_of_path hbj true with ⟨t', hkeep, hafter⟩
  have hstep : g.walkStep (a, t) (b, true) = true := by
    refine (walkStep_iff g (a, t) (b, true)).mpr ⟨hedge, ?_⟩
    rw [htagged, Bool.or_true]
  rw [hkeep rfl] at hafter
  exact (TransGen.tail' hbefore hstep).trans_left hafter

theorem searchRow_complete (hg : g.Regular) (i j : Nat) :
    (ReflTransGen g.Edge i j → (g.searchRow i).reach.testBit j = true) ∧
      (g.TaggedWalk i j → (g.searchRow i).tagged.testBit j = true) := by
  refine ⟨fun hpath => ?_, fun hwalk => ?_⟩
  · rw [reach_searchRow_iff]
    rcases exists_walk_of_path hpath false with ⟨tagged, _, hwalk⟩
    rcases reflTransGen_iff_eq_or_transGen.mp hwalk with heq | hwalk
    · exact Or.inl (Prod.mk.inj heq).1.symm
    · exact Or.inr ⟨tagged, (Graph.mem_reachable_iff (mem_walkEnds hg) _ _).mpr hwalk⟩
  · rw [tagged_searchRow_iff]
    exact (Graph.mem_reachable_iff (mem_walkEnds hg) _ _).mpr (walk_of_taggedWalk hwalk)

theorem covers_searched (hg : g.Regular) :
    Covers g (TaggedGraph.mk (g.nodes.map g.searchRow).toArray) := by
  refine ⟨fun {i j} hi hpath => ?_, fun {i j} hwalk => ?_⟩
  · rw [Edge, hasEdge, row_searched, if_pos hi]
    exact (searchRow_complete hg i j).1 hpath
  · rw [Tagged, hasTaggedEdge, row_searched, if_pos hwalk.lt_size]
    exact (searchRow_complete hg i j).2 hwalk

end Searched

/-- No path is missing from a closure, and no walk that uses a tagged edge. -/
theorem closure_covers (hg : g.Regular) (strategy : Strategy) : Covers g (g.closure strategy) := by
  cases strategy with
  | dense => exact covers_closureDense hg
  | sparse =>
    rw [closure, closureSparse]
    cases hfound : g.topologicalOrder? with
    | some order => exact covers_closureAlong hg (topologicalOrder?_ordered hg hfound)
    | none => exact covers_searched hg

theorem size_closure (g : TaggedGraph) (strategy : Strategy) : (g.closure strategy).size = g.size := by
  cases strategy with
  | dense =>
    have hfold : ∀ (l : List Nat) (closed : TaggedGraph),
        (l.foldl TaggedGraph.relax closed).size = closed.size := by
      intro l
      induction l with
      | nil => exact fun _ => rfl
      | cons p rest ih => exact fun closed => (ih _).trans (size_relax closed p)
    exact (hfold g.nodes g.reflexive).trans (size_reflexive g)
  | sparse =>
    rw [closure, closureSparse]
    cases g.topologicalOrder? with
    | some order =>
      simp only [closureAlong, List.foldl_reverse]
      exact size_foldr_finishRow g order
    | none => exact size_searched g

/-- The edges of a closure are the paths. -/
theorem edge_closure_iff (hg : g.Regular) (strategy : Strategy) {i : Nat} (hi : i < g.size) (j : Nat) :
    (g.closure strategy).Edge i j ↔ ReflTransGen g.Edge i j :=
  ⟨(closure_within hg strategy).edge, (closure_covers hg strategy).edge hi⟩

/-- The tagged edges of a closure are the walks that use a tagged edge. -/
theorem tagged_closure_iff (hg : g.Regular) (strategy : Strategy) (i j : Nat) :
    (g.closure strategy).Tagged i j ↔ g.TaggedWalk i j :=
  ⟨(closure_within hg strategy).tagged, (closure_covers hg strategy).tagged⟩

theorem Regular.closure (hg : g.Regular) (strategy : Strategy) : (g.closure strategy).Regular := by
  refine ⟨fun {i j} htagged => ?_, fun {i j} hedge => ?_⟩
  · have hwalk := (tagged_closure_iff hg strategy i j).mp htagged
    exact (edge_closure_iff hg strategy hwalk.lt_size j).mpr hwalk.path.to_reflTransGen
  · have hi := lt_size_of_edge hedge
    rw [size_closure] at hi ⊢
    rcases ReflTransGen.cases_tail ((edge_closure_iff hg strategy hi j).mp hedge) with rfl | ⟨_, _, hlast⟩
    · exact hi
    · exact hg.target_lt hlast

/-- Graphs of one size with the same edges and the same tags are equal, bit by bit. -/
theorem eq_of_relations {f g : TaggedGraph} (hsize : f.size = g.size)
    (hedge : ∀ i < f.size, ∀ j, f.Edge i j ↔ g.Edge i j)
    (htagged : ∀ i < f.size, ∀ j, f.Tagged i j ↔ g.Tagged i j) : f = g := by
  have hrow : ∀ i < f.size, f.row i = g.row i := by
    intro i hi
    have hreach : (f.row i).reach = (g.row i).reach :=
      Nat.eq_of_testBit_eq fun j => Bool.eq_iff_iff.mpr (hedge i hi j)
    have htag : (f.row i).tagged = (g.row i).tagged :=
      Nat.eq_of_testBit_eq fun j => Bool.eq_iff_iff.mpr (htagged i hi j)
    rcases hf : f.row i with ⟨reach, tagged⟩
    rcases hg : g.row i with ⟨reach', tagged'⟩
    rw [hf, hg] at hreach htag
    rw [show reach = reach' from hreach, show tagged = tagged' from htag]
  rcases f with ⟨rows⟩
  rcases g with ⟨rows'⟩
  congr 1
  refine Array.ext hsize fun i hi hi' => ?_
  have hsame := hrow i hi
  rw [row_eq, row_eq, Array.getElem?_eq_getElem hi, Array.getElem?_eq_getElem hi'] at hsame
  exact hsame

end TaggedGraph

end Isolation
