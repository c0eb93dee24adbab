import Isolation.Proofs.Graph.Adjacency
import Isolation.Proofs.Graph.Descent
import Isolation.Proofs.Graph.Sorting

/-!
# Sorting and Cycle Search Agree

A directed graph can be sorted or has a cycle, and not both. Sorting takes vertices away from the front,
the search for a cycle goes down from every root, and the two have nothing in common but the graph; each is
compared with paths, and so with the other.

A graph is a set of vertices with sets of targets, but both procedures go through lists. What they find may
depend on the order of these lists, so everything is proved of any listing of the graph, and of any order in
which sorting looks through the vertices for those that are ready from the start.

## Main definitions

* `Digraph.Sorts`: All vertices, each of them once, and every edge going forward.

## Theorems

* `sort_search_agree`: Both say the same of every graph, in whatever order it is listed.
-/

namespace Isolation.Digraph

open Relation

variable {α : Type} [DecidableEq α] {g h : Digraph α}

section Listings

/-- The same vertices with the same targets, listed in any order. -/
structure Lists (h g : Digraph α) : Prop where
  keys : h.keys.Perm g.keys
  targets : ∀ v ∈ g.keys, (h.successors v).Perm (g.successors v)

theorem Lists.edge_iff (hlists : h.Lists g) (u v : α) : h.Edge u v ↔ g.Edge u v := by
  by_cases hu : u ∈ g.keys
  · rw [Digraph.edge_iff, Digraph.edge_iff, (hlists.targets u hu).mem_iff]
  · exact ⟨fun hc => absurd (hlists.keys.mem_iff.mp (mem_keys_of_edge hc)) hu,
      fun hc => absurd (mem_keys_of_edge hc) hu⟩

theorem Lists.proper (hlists : h.Lists g) (hg : g.Proper) : h.Proper := by
  have hkeys : h.keys.Nodup := hlists.keys.nodup_iff.mpr hg.nodup_keys
  refine ⟨hkeys, fun entry hentry => ?_⟩
  have hkey : entry.1 ∈ g.keys := hlists.keys.mem_iff.mp (List.mem_map_of_mem hentry)
  have htargets : h.successors entry.1 = entry.2 := by
    rw [successors, lookup_eq_some_of_mem hkeys hentry, Option.getD_some]
  exact htargets ▸ (hlists.targets _ hkey).nodup_iff.mpr (hg.nodup_successors _)

theorem Lists.acyclic_iff (hlists : h.Lists g) : Acyclic h.Edge ↔ Acyclic g.Edge :=
  ⟨fun hc => hc.mono fun u v => (hlists.edge_iff u v).mpr,
    fun hc => hc.mono fun u v => (hlists.edge_iff u v).mp⟩

end Listings

section Sorting

/-- All vertices, each of them once, in an order in which every edge goes forward. -/
structure Sorts (g : Digraph α) (order : List α) : Prop where
  nodup : order.Nodup
  mem_iff : ∀ v, v ∈ order ↔ v ∈ g.keys ∨ ∃ u, g.Edge u v
  forward : ∀ {i j : Nat} {a b : α}, order[i]? = some a → order[j]? = some b → g.Edge a b → i < j

theorem Sorts.acyclic {order : List α} (hsorts : g.Sorts order) : Acyclic g.Edge := by
  refine Acyclic.of_rank order.idxOf fun a b hedge => ?_
  have ha := (hsorts.mem_iff a).mpr (Or.inl (mem_keys_of_edge hedge))
  have hb := (hsorts.mem_iff b).mpr (Or.inr ⟨a, hedge⟩)
  exact hsorts.forward (List.getElem?_idxOf ha) (List.getElem?_idxOf hb) hedge

variable {listing : List α} (hg : g.Proper) (hnodup : listing.Nodup)
  (hmem : ∀ v, v ∈ listing ↔ v ∈ g.keys ∨ ∃ u, g.Edge u v)

include hnodup hmem in
theorem mem_successorPlaces_iff (i j : Nat) : j ∈ g.successorPlaces listing i ↔
    ∃ a b, listing[i]? = some a ∧ listing[j]? = some b ∧ g.Edge a b := by
  unfold successorPlaces
  constructor
  · intro hj
    rcases List.mem_map.mp hj with ⟨b, hb, rfl⟩
    cases ha : listing[i]? with
    | none =>
      rw [ha] at hb
      exact absurd hb List.not_mem_nil
    | some a =>
      rw [ha] at hb
      have hedge : g.Edge a b := edge_iff.mpr hb
      exact ⟨a, b, rfl, List.getElem?_idxOf ((hmem b).mpr (Or.inr ⟨a, hedge⟩)), hedge⟩
  · rintro ⟨a, b, ha, hb, hedge⟩
    rw [ha]
    exact List.mem_map.mpr ⟨b, edge_iff.mp hedge, idxOf_eq_of_getElem? hnodup hb⟩

include hnodup hmem in
theorem successorPlaces_lt (i : Nat) : ∀ j ∈ g.successorPlaces listing i, j < listing.length := by
  intro j hj
  rcases (mem_successorPlaces_iff hnodup hmem i j).mp hj with ⟨_, _, _, hb, _⟩
  exact (List.getElem?_eq_some_iff.mp hb).1

include hg hmem in
theorem nodup_successorPlaces (i : Nat) : (g.successorPlaces listing i).Nodup := by
  unfold successorPlaces
  cases listing[i]? with
  | none => exact List.nodup_nil
  | some a =>
    refine List.Nodup.map_on (fun b hb c _ heq => ?_) (hg.nodup_successors a)
    exact (List.idxOf_inj ((hmem b).mpr (Or.inr ⟨a, edge_iff.mpr hb⟩))).mp heq

include hnodup hmem in
theorem path_of_path_places {i j : Nat}
    (hpath : TransGen (fun i j => i < listing.length ∧ j ∈ g.successorPlaces listing i) i j) :
    ∃ a b, listing[i]? = some a ∧ listing[j]? = some b ∧ TransGen g.Edge a b := by
  induction hpath with
  | single hedge =>
    rcases (mem_successorPlaces_iff hnodup hmem _ _).mp hedge.2 with ⟨a, b, ha, hb, hab⟩
    exact ⟨a, b, ha, hb, TransGen.single hab⟩
  | tail _ hedge ih =>
    rcases ih with ⟨a, b, ha, hb, hab⟩
    rcases (mem_successorPlaces_iff hnodup hmem _ _).mp hedge.2 with ⟨b', c, hb', hc, hbc⟩
    rw [hb, Option.some.injEq] at hb'
    exact ⟨a, c, ha, hc, hab.tail (hb' ▸ hbc)⟩

include hg hnodup hmem

theorem sorts_of_topologicalSortAlong? {order : List α}
    (hfound : g.topologicalSortAlong? listing = some order) : g.Sorts order := by
  rcases Option.map_eq_some_iff.mp hfound with ⟨places, hplaces, rfl⟩
  have hperm := Graph.perm_of_topologicalOrder? (nodup_successorPlaces hg hmem)
    (successorPlaces_lt hnodup hmem) hplaces
  have hlt : ∀ i ∈ places, i < listing.length := fun i hi =>
    List.mem_range.mp (hperm.mem_iff.mp hi)
  have hget : ∀ k, (places.filterMap fun i => listing[i]?)[k]? =
      places[k]?.bind fun i => listing[i]? :=
    getElem?_filterMap_of_isSome fun i hi => by
      rw [List.getElem?_eq_getElem (hlt i hi), Option.isSome_some]
  have hdistinct : places.Nodup := hperm.nodup_iff.mpr List.nodup_range
  refine ⟨?_, fun v => ?_, fun {i j a b} ha hb hedge => ?_⟩
  · refine hdistinct.filterMap fun i j a ha hb => ?_
    rw [← idxOf_eq_of_getElem? hnodup ha, ← idxOf_eq_of_getElem? hnodup hb]
  · rw [← hmem, List.mem_filterMap, List.mem_iff_getElem?]
    refine ⟨fun hv => hv.imp fun i hi => hi.2, fun hv => hv.imp fun i hi => ⟨?_, hi⟩⟩
    exact hperm.mem_iff.mpr (List.mem_range.mpr (List.getElem?_eq_some_iff.mp hi).1)
  · rw [hget, Option.bind_eq_some_iff] at ha hb
    rcases ha with ⟨p, hp, ha⟩
    rcases hb with ⟨q, hq, hb⟩
    have hforward := Graph.idxOf_lt_of_topologicalOrder? (nodup_successorPlaces hg hmem)
      (successorPlaces_lt hnodup hmem) hplaces (List.getElem?_eq_some_iff.mp ha).1
      ((mem_successorPlaces_iff hnodup hmem p q).mpr ⟨a, b, ha, hb, hedge⟩)
    rw [idxOf_eq_of_getElem? hdistinct hp, idxOf_eq_of_getElem? hdistinct hq] at hforward
    exact hforward

/-- Sorting succeeds exactly if there is no cycle. -/
theorem topologicalSortAlong?_isSome_iff :
    (g.topologicalSortAlong? listing).isSome = true ↔ Acyclic g.Edge := by
  constructor
  · intro hsome
    rcases Option.isSome_iff_exists.mp hsome with ⟨order, hfound⟩
    exact (sorts_of_topologicalSortAlong? hg hnodup hmem hfound).acyclic
  · intro hacyclic
    have hplaces : Acyclic fun i j => i < listing.length ∧ j ∈ g.successorPlaces listing i := by
      intro i hcycle
      rcases path_of_path_places hnodup hmem hcycle with ⟨a, b, ha, hb, hab⟩
      rw [ha, Option.some.injEq] at hb
      rw [← hb] at hab
      exact hacyclic a hab
    rcases Graph.exists_topologicalOrder (nodup_successorPlaces hg hmem)
      (successorPlaces_lt hnodup hmem) hplaces with ⟨order, hfound⟩
    rw [topologicalSortAlong?, hfound, Option.map_some, Option.isSome_some]

end Sorting

section Searching

theorem isCycle_of_findCycle? (hg : g.Proper) {cycle : List α} (hfound : g.findCycle? = some cycle) :
    IsCycle g.Edge cycle := by
  refine (Graph.isCycle_of_findCycle? (fun a b hb => ?_) hfound).mono fun a b => edge_iff.mpr
  exact (hg.mem_vertices_iff b).mpr (Or.inr ⟨a, edge_iff.mpr hb⟩)

theorem findCycle?_eq_none_iff_acyclic (hg : g.Proper) : g.findCycle? = none ↔ Acyclic g.Edge := by
  have hiff := Graph.findCycle?_eq_none_iff
    (fun a b hb => (hg.mem_vertices_iff b).mpr (Or.inr ⟨a, edge_iff.mpr hb⟩))
    (fun a b hb => mem_keys_of_edge (edge_iff.mpr hb))
    (fun a ha => (hg.mem_vertices_iff a).mpr (Or.inl ha))
  refine hiff.trans ⟨fun hc => hc.mono fun a b => edge_iff.mp, fun hc => hc.mono fun a b => edge_iff.mpr⟩

end Searching

/-- A graph can be sorted exactly if no cycle is found in it, and exactly if it has none. What is found is a
    cycle, or an order of all vertices in which every edge goes forward, and while sorting counts off the
    edges into the vertices, no count drops below zero. The order in which vertices and targets are listed
    does not matter for this, nor does the order in which sorting looks through the vertices. -/
theorem sort_search_agree (hg : g.Proper) (hlists : h.Lists g) {listing : List α}
    (hlisting : listing.Perm h.vertices) :
    (h.findCycle? = none ↔ Acyclic g.Edge) ∧
    ((h.topologicalSortAlong? listing).isSome = true ↔ Acyclic g.Edge) ∧
    (h.hasCycle = true ↔ ¬ Acyclic g.Edge) ∧
    (∀ cycle, h.findCycle? = some cycle → IsCycle g.Edge cycle) ∧
    (∀ order, h.topologicalSortAlong? listing = some order → g.Sorts order) ∧
    ∀ steps, ((Graph.Sorting.start listing.length (h.successorPlaces listing)).run
      (h.successorPlaces listing) steps).CountsClosed (h.successorPlaces listing) := by
  have hh := hlists.proper hg
  have hvertices : h.vertices.Nodup := nodup_eraseDups _
  have hnodup : listing.Nodup := hlisting.nodup_iff.mpr hvertices
  have hmem : ∀ v, v ∈ listing ↔ v ∈ h.keys ∨ ∃ u, h.Edge u v := fun v =>
    hlisting.mem_iff.trans (hh.mem_vertices_iff v)
  rw [← hlists.acyclic_iff]
  refine ⟨findCycle?_eq_none_iff_acyclic hh, topologicalSortAlong?_isSome_iff hh hnodup hmem, ?_, ?_, ?_, ?_⟩
  · rw [hasCycle, Option.isNone_iff_eq_none, ← Option.not_isSome_iff_eq_none, not_iff_not]
    exact topologicalSortAlong?_isSome_iff hh hvertices hh.mem_vertices_iff
  · intro cycle hfound
    exact (isCycle_of_findCycle? hh hfound).mono fun u v => (hlists.edge_iff u v).mp
  · intro order hfound
    have hsorts := sorts_of_topologicalSortAlong? hh hnodup hmem hfound
    refine ⟨hsorts.nodup, fun v => ?_, fun ha hb hedge => ?_⟩
    · simp only [hsorts.mem_iff, hlists.keys.mem_iff, hlists.edge_iff]
    · exact hsorts.forward ha hb ((hlists.edge_iff _ _).mpr hedge)
  · intro steps
    have hdistinct := nodup_successorPlaces hh hmem
    have hlt := successorPlaces_lt hnodup hmem
    exact Graph.Sorting.Sorted.countsClosed hdistinct hlt
      (Graph.Sorting.Sorted.run hdistinct hlt (Graph.Sorting.sorted_start hdistinct hlt) steps)

/-- A graph with a self-loop, a longer cycle, and a target that is not listed. -/
def knotted : Digraph Nat :=
  ofAdjacency [(1, [2]), (2, [3, 9]), (3, [2, 3])]

/-- The same graph, listed the other way round. -/
def knottedBackwards : Digraph Nat :=
  ⟨[(3, [3, 2]), (2, [9, 3]), (1, [2])]⟩

theorem sort_search_agree_knotted :
    knotted.Proper ∧ knottedBackwards.Lists knotted ∧ [9, 3, 1, 2].Perm knottedBackwards.vertices ∧
      knottedBackwards.topologicalSortAlong? [9, 3, 1, 2] = none ∧
      ∃ cycle, knottedBackwards.findCycle? = some cycle ∧ IsCycle knotted.Edge cycle := by
  have hproper : knotted.Proper := proper_ofAdjacency _
  have hlists : knottedBackwards.Lists knotted := ⟨by decide, by decide⟩
  have hlisting : [9, 3, 1, 2].Perm knottedBackwards.vertices := by decide
  have hcyclic : ¬ Acyclic knotted.Edge := fun hc => hc 3 (TransGen.single (by decide))
  rcases sort_search_agree hproper hlists hlisting with ⟨hnone, hsome, _, hcycle, _⟩
  refine ⟨hproper, hlists, hlisting, ?_, ?_⟩
  · rw [← Option.not_isSome_iff_eq_none, hsome]
    exact hcyclic
  · cases hfound : knottedBackwards.findCycle? with
    | none => exact absurd (hnone.mp hfound) hcyclic
    | some cycle => exact ⟨cycle, rfl, hcycle cycle hfound⟩

end Isolation.Digraph
