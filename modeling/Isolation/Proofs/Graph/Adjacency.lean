import Isolation.Graph.Digraph
import Isolation.Proofs.Lists

/-!
# Growing Directed Graphs

A directed graph grows by vertices and edges. Listing a vertex changes nothing about the targets of any
vertex, and adding an edge gives its source one more target, if it is new.

A graph that is built in this way, or from an adjacency, lists no vertex twice, and no target of a vertex.
Then the list of edges and the targets of the vertices say the same.

## Main definitions

* `Digraph.Edge`: An edge leads from one vertex to another.

## Theorems

* `Proper.mem_edges_iff`, `Proper.mem_vertices_iff`: The edges and the vertices of a graph.
-/

namespace Isolation.Digraph

variable {α : Type} [DecidableEq α] (g : Digraph α)

theorem successors_addVertex (v x : α) : (g.addVertex v).successors x = g.successors x := by
  unfold addVertex
  split
  · rfl
  · have hlast : (([(v, ([] : List α))] : List (α × List α)).lookup x).getD [] = [] := by
      by_cases hx : x = v
      · rw [hx, List.lookup_cons_self, Option.getD_some]
      · rw [List.lookup_cons, beq_eq_false_iff_ne.mpr hx, List.lookup_nil, Option.getD_none]
    rw [successors, successors, List.lookup_append]
    cases hfound : g.adjacency.lookup x with
    | none => rw [Option.none_or, hlast, Option.getD_none]
    | some targets => rw [Option.some_or]

theorem mem_keys_addVertex (v : α) : v ∈ (g.addVertex v).keys := by
  unfold addVertex
  split
  · next hmem => exact List.contains_iff_mem.mp hmem
  · rw [keys, List.map_append, List.mem_append]
    exact Or.inr (List.mem_singleton_self v)

/-- One more target for every entry of a vertex. -/
def appendTarget (source target : α) (entry : α × List α) : α × List α :=
  if entry.1 = source then (entry.1, entry.2 ++ [target]) else entry

theorem lookup_map_appendTarget (source target x : α) (entries : List (α × List α)) :
    (entries.map (appendTarget source target)).lookup x =
      (entries.lookup x).map fun targets => if x = source then targets ++ [target] else targets := by
  induction entries with
  | nil => rfl
  | cons entry rest ih =>
    rcases entry with ⟨v, targets⟩
    by_cases hx : x = v
    · by_cases hv : v = source
      · simp only [List.map_cons, appendTarget, hx, hv, if_true, List.lookup_cons_self,
          Option.map_some]
      · simp only [List.map_cons, appendTarget, hx, hv, if_false, List.lookup_cons_self,
          Option.map_some]
    · have hkey : appendTarget source target (v, targets) =
          (v, (appendTarget source target (v, targets)).2) := by
        unfold appendTarget
        split <;> rfl
      rw [List.map_cons, hkey, List.lookup_cons, List.lookup_cons, beq_eq_false_iff_ne.mpr hx]
      exact ih

theorem exists_lookup_of_mem_keys {v : α} (hv : v ∈ g.keys) :
    ∃ targets, g.adjacency.lookup v = some targets := by
  rcases List.mem_map.mp hv with ⟨entry, hentry, rfl⟩
  cases hlook : g.adjacency.lookup entry.1 with
  | some targets => exact ⟨targets, rfl⟩
  | none => exact absurd rfl (bne_iff_ne.mp (List.lookup_eq_none_iff.mp hlook entry hentry))

/-- An edge that is there changes nothing, and a new one is appended to the targets of its source. -/
theorem addEdge_eq (source target : α) {listed : Digraph α}
    (hlisted : (g.addVertex target).addVertex source = listed) : (g.addEdge source target).2 =
      if listed.hasEdge source target then listed
      else ⟨listed.adjacency.map (appendTarget source target)⟩ := by
  simp only [addEdge, hlisted]
  split <;> rfl

theorem mem_successors_addEdge_iff (source target x y : α) :
    y ∈ (g.addEdge source target).2.successors x ↔
      y ∈ g.successors x ∨ x = source ∧ y = target := by
  let listed := (g.addVertex target).addVertex source
  have hlisted : ∀ v, listed.successors v = g.successors v := by
    intro v
    rw [successors_addVertex, successors_addVertex]
  have hadded := g.addEdge_eq source target (rfl : _ = listed)
  by_cases hedge : listed.hasEdge source target = true
  · rw [hadded, if_pos hedge, hlisted]
    refine ⟨Or.inl, fun hc => hc.elim id fun hnew => ?_⟩
    rw [hnew.1, hnew.2, ← hlisted]
    exact List.contains_iff_mem.mp hedge
  · have hsource : ∃ targets, listed.adjacency.lookup source = some targets :=
      listed.exists_lookup_of_mem_keys (mem_keys_addVertex _ source)
    rw [hadded, if_neg hedge, ← hlisted, successors, lookup_map_appendTarget, successors]
    by_cases hx : x = source
    · rcases hsource with ⟨targets, htargets⟩
      rw [hx, htargets]
      simp only [Option.map_some, Option.getD_some, List.mem_append, List.mem_singleton, if_true,
        true_and]
    · simp only [hx, if_false, Option.map_id_fun', id_eq, false_and, or_false]

section Edges

variable {g} {u v : α}

/-- An edge leads from one vertex to the other. -/
def Edge (g : Digraph α) (u v : α) : Prop :=
  g.hasEdge u v = true

instance (u v : α) : Decidable (g.Edge u v) :=
  inferInstanceAs (Decidable (_ = true))

theorem edge_iff : g.Edge u v ↔ v ∈ g.successors u :=
  List.contains_iff_mem

theorem exists_entry_of_edge (hedge : g.Edge u v) : ∃ targets, (u, targets) ∈ g.adjacency ∧ v ∈ targets := by
  rw [edge_iff, successors] at hedge
  cases hlook : g.adjacency.lookup u with
  | none =>
    rw [hlook] at hedge
    exact absurd hedge List.not_mem_nil
  | some targets =>
    rw [hlook] at hedge
    exact ⟨targets, mem_of_lookup_eq_some hlook, hedge⟩

theorem mem_keys_of_edge (hedge : g.Edge u v) : u ∈ g.keys := by
  rcases exists_entry_of_edge hedge with ⟨targets, hentry, _⟩
  exact List.mem_map_of_mem hentry

omit [DecidableEq α] in
theorem mem_edges_iff_entry : (u, v) ∈ g.edges ↔ ∃ targets, (u, targets) ∈ g.adjacency ∧ v ∈ targets := by
  simp only [edges, List.mem_flatMap, List.mem_map, Prod.mk.injEq, Prod.exists]
  constructor
  · rintro ⟨w, targets, hentry, x, hx, rfl, rfl⟩
    exact ⟨targets, hentry, hx⟩
  · rintro ⟨targets, hentry, hv⟩
    exact ⟨u, targets, hentry, v, hv, rfl, rfl⟩

end Edges

section Proper

variable {g}

/-- No vertex is listed twice, and no target of a vertex. -/
structure Proper (g : Digraph α) : Prop where
  nodup_keys : g.keys.Nodup
  nodup_targets : ∀ entry ∈ g.adjacency, entry.2.Nodup

theorem Proper.successors_eq (hg : g.Proper) {v : α} {targets : List α}
    (hentry : (v, targets) ∈ g.adjacency) : g.successors v = targets := by
  rw [successors, lookup_eq_some_of_mem hg.nodup_keys hentry, Option.getD_some]

theorem Proper.nodup_successors (hg : g.Proper) (v : α) : (g.successors v).Nodup := by
  rw [successors]
  cases hlook : g.adjacency.lookup v with
  | none => exact List.nodup_nil
  | some targets => exact hg.nodup_targets _ (mem_of_lookup_eq_some hlook)

theorem Proper.mem_edges_iff (hg : g.Proper) (u v : α) : (u, v) ∈ g.edges ↔ g.Edge u v := by
  rw [mem_edges_iff_entry]
  refine ⟨?_, exists_entry_of_edge⟩
  rintro ⟨targets, hentry, hv⟩
  rw [edge_iff, hg.successors_eq hentry]
  exact hv

/-- The vertices are those that are listed and the targets of edges. -/
theorem Proper.mem_vertices_iff (hg : g.Proper) (v : α) :
    v ∈ g.vertices ↔ v ∈ g.keys ∨ ∃ u, g.Edge u v := by
  rw [vertices, List.mem_eraseDups, List.mem_append, List.mem_map]
  refine or_congr_right ⟨?_, ?_⟩
  · rintro ⟨⟨u, w⟩, hedge, rfl⟩
    exact ⟨u, (hg.mem_edges_iff u w).mp hedge⟩
  · rintro ⟨u, hedge⟩
    exact ⟨(u, v), (hg.mem_edges_iff u v).mpr hedge, rfl⟩

omit [DecidableEq α] in
theorem proper_empty : (empty : Digraph α).Proper :=
  ⟨List.nodup_nil, fun _ hentry => absurd hentry List.not_mem_nil⟩

omit [DecidableEq α] in
theorem Proper.concat (hg : g.Proper) {v : α} {targets : List α} (hnew : v ∉ g.keys)
    (htargets : targets.Nodup) : (Digraph.mk (g.adjacency ++ [(v, targets)])).Proper := by
  constructor
  · rw [keys, List.map_append, List.nodup_append]
    refine ⟨hg.nodup_keys, List.nodup_singleton v, fun a ha b hb hc => ?_⟩
    rw [hc, List.mem_singleton.mp hb] at ha
    exact hnew ha
  · intro entry hentry
    rcases List.mem_append.mp hentry with hentry | hentry
    · exact hg.nodup_targets entry hentry
    · rw [List.mem_singleton.mp hentry]
      exact htargets

theorem Proper.setTargets (hg : g.Proper) (v : α) (targets : List α) :
    (g.setTargets v targets).Proper := by
  have hothers : (Digraph.mk (g.adjacency.filter fun entry => entry.1 ≠ v)).Proper := by
    refine ⟨hg.nodup_keys.sublist (List.filter_sublist.map Prod.fst), fun entry hentry => ?_⟩
    exact hg.nodup_targets entry (List.mem_filter.mp hentry).1
  refine hothers.concat (fun hc => ?_) (nodup_eraseDups targets)
  rcases List.mem_map.mp hc with ⟨entry, hentry, hv⟩
  exact absurd hv (of_decide_eq_true (List.mem_filter.mp hentry).2)

/-- Every adjacency is that of a graph which lists nothing twice. -/
theorem proper_ofAdjacency (entries : List (α × List α)) : (ofAdjacency entries).Proper := by
  have hfold : ∀ (entries : List (α × List α)) (g : Digraph α), g.Proper →
      (entries.foldl (fun g entry => g.setTargets entry.1 entry.2) g).Proper := by
    intro entries
    induction entries with
    | nil => exact fun g hg => hg
    | cons entry rest ih => exact fun g hg => ih _ (hg.setTargets entry.1 entry.2)
  exact hfold entries empty proper_empty

end Proper

end Isolation.Digraph
