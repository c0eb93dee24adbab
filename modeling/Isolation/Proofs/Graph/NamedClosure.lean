import Isolation.Graph.NodeGraph
import Isolation.Proofs.Graph.Adjacency
import Isolation.Proofs.Graph.Reachability

/-!
# Closures of Directed Graphs by Name and by Number

A directed graph has a closure of its own, computed by a search from every listed vertex, in which a vertex
reaches itself only along a cycle. The same graph can be written over a list of nodes as a tagged graph, and
that one has a closure by rows of bits, in which every node reaches itself. Both are compared with the paths
of the directed graph, the second one through the numbers of its nodes.

## Theorems

* `NodeGraph.hasEdge_closure_iff`, `NodeGraph.hasTaggedEdge_closure_iff`: Its closure, by name.
-/

namespace Isolation

open Relation

variable {α : Type} [DecidableEq α]

namespace Digraph

theorem lookup_closure (d : Digraph α) {u : α} (hu : u ∈ d.keys) :
    d.closure.adjacency.lookup u = some (Graph.reachable d.hasEdge d.vertices u) := by
  have hentry : (u, Graph.reachable d.hasEdge d.vertices u) ∈ d.closure.adjacency :=
    List.mem_map_of_mem hu
  -- Every entry for the vertex says the same, so it does not matter which of them is found.
  cases hlook : d.closure.adjacency.lookup u with
  | none => exact absurd rfl (bne_iff_ne.mp (List.lookup_eq_none_iff.mp hlook _ hentry))
  | some targets =>
    rcases List.mem_map.mp (mem_of_lookup_eq_some hlook) with ⟨w, _, heq⟩
    rcases Prod.mk.inj heq with ⟨rfl, rfl⟩
    rfl

theorem edge_closure_iff_path (d : Digraph α) (u v : α) :
    d.closure.Edge u v ↔ TransGen d.Edge u v := by
  have hsearch : v ∈ Graph.reachable d.hasEdge d.vertices u ↔ TransGen d.Edge u v := by
    refine Graph.mem_reachable_iff (fun {a b} hedge => ?_) u v
    rw [vertices, List.mem_eraseDups, List.mem_append]
    exact Or.inr (List.mem_map_of_mem (mem_edges_iff_entry.mpr (exists_entry_of_edge hedge)))
  by_cases hu : u ∈ d.keys
  · rw [edge_iff, successors, d.lookup_closure hu, Option.getD_some, hsearch]
  · have hkeys : d.closure.keys = d.keys := by
      rw [closure, keys, List.map_map]
      exact List.map_id' d.keys
    refine ⟨fun hc => absurd (hkeys ▸ mem_keys_of_edge hc) hu, fun hc => ?_⟩
    rcases TransGen.head'_iff.mp hc with ⟨w, hedge, _⟩
    exact absurd (mem_keys_of_edge hedge) hu

end Digraph

namespace NodeGraph

section Numbers

variable {g : NodeGraph α} (hnodup : g.names.Nodup)

include hnodup

theorem index?_eq_some_iff (a : α) (i : Nat) : g.index? a = some i ↔ g.names[i]? = some a := by
  rw [index?, List.idxOf?_eq_some_iff, List.getElem?_eq_some_iff]
  refine ⟨fun hc => hc.imp fun _ hfirst => hfirst.1, fun hc => hc.imp fun hi hget => ⟨hget, ?_⟩⟩
  intro j hj hsame
  have heq := (hnodup.getElem_inj_iff).mp (hsame.trans hget.symm)
  omega

theorem pair?_eq_some_iff (a b : α) (i j : Nat) :
    g.pair? a b = some (i, j) ↔ g.names[i]? = some a ∧ g.names[j]? = some b := by
  simp only [pair?, Option.bind_eq_some_iff, Option.map_eq_some_iff, index?_eq_some_iff hnodup,
    Prod.mk.injEq]
  constructor
  · rintro ⟨i, ha, j, hb, rfl, rfl⟩
    exact ⟨ha, hb⟩
  · rintro ⟨ha, hb⟩
    exact ⟨i, ha, j, hb, rfl, rfl⟩

theorem hasEdge_iff (a b : α) : g.hasEdge a b = true ↔
    ∃ i j, g.names[i]? = some a ∧ g.names[j]? = some b ∧ g.graph.Edge i j := by
  rw [hasEdge, Option.any_eq_true]
  simp only [Prod.exists, pair?_eq_some_iff hnodup, and_assoc]
  rfl

theorem hasTaggedEdge_iff (a b : α) : g.hasTaggedEdge a b = true ↔
    ∃ i j, g.names[i]? = some a ∧ g.names[j]? = some b ∧ g.graph.Tagged i j := by
  rw [hasTaggedEdge, Option.any_eq_true]
  simp only [Prod.exists, pair?_eq_some_iff hnodup, and_assoc]
  rfl

end Numbers

section Insertion

variable (tagged : Bool)

theorem insert_spec (g : NodeGraph α) (a b : α) :
    (g.insert a b tagged).2.names = g.names ∧ (g.insert a b tagged).2.graph.size = g.graph.size ∧
    (∀ i j, (g.insert a b tagged).2.graph.Edge i j ↔
      g.graph.Edge i j ∨ i < g.graph.size ∧ g.pair? a b = some (i, j)) ∧
    ∀ i j, (g.insert a b tagged).2.graph.Tagged i j ↔
      g.graph.Tagged i j ∨ i < g.graph.size ∧ g.pair? a b = some (i, j) ∧ tagged = true := by
  unfold insert
  split
  · next i j hpair =>
      refine ⟨rfl, TaggedGraph.size_insert .., fun k l => ?_, fun k l => ?_⟩
      · rw [TaggedGraph.edge_insert_iff, hpair, Option.some.injEq, Prod.mk.injEq]
        refine or_congr_right ⟨?_, ?_⟩
        · rintro ⟨⟨rfl, hlt⟩, rfl⟩
          exact ⟨hlt, rfl, rfl⟩
        · rintro ⟨hlt, rfl, rfl⟩
          exact ⟨⟨rfl, hlt⟩, rfl⟩
      · rw [TaggedGraph.tagged_insert_iff, hpair, Option.some.injEq, Prod.mk.injEq]
        refine or_congr_right ⟨?_, ?_⟩
        · rintro ⟨⟨rfl, hlt⟩, rfl, htagged⟩
          exact ⟨hlt, ⟨rfl, rfl⟩, htagged⟩
        · rintro ⟨hlt, ⟨rfl, rfl⟩, htagged⟩
          exact ⟨⟨rfl, hlt⟩, rfl, htagged⟩
  · next hpair =>
      refine ⟨rfl, rfl, fun k l => ?_, fun k l => ?_⟩
      · rw [hpair]
        exact (or_iff_left fun hc => by cases hc.2).symm
      · rw [hpair]
        exact (or_iff_left fun hc => by cases hc.2.1).symm

/-- What inserting edges by name one after the other does, from any graph on. -/
theorem foldl_insert_spec (edges : List (α × α)) (g : NodeGraph α) :
    let built := edges.foldl (fun g e => (g.insert e.1 e.2 tagged).2) g
    built.names = g.names ∧ built.graph.size = g.graph.size ∧
    (∀ i j, built.graph.Edge i j ↔ g.graph.Edge i j ∨
      i < g.graph.size ∧ ∃ e ∈ edges, g.pair? e.1 e.2 = some (i, j)) ∧
    ∀ i j, built.graph.Tagged i j ↔ g.graph.Tagged i j ∨
      i < g.graph.size ∧ (∃ e ∈ edges, g.pair? e.1 e.2 = some (i, j)) ∧ tagged = true := by
  induction edges generalizing g with
  | nil =>
    simp only [List.foldl_nil, List.not_mem_nil, false_and, exists_false, and_false, or_false,
      implies_true, and_self]
  | cons e rest ih =>
    rcases insert_spec tagged g e.1 e.2 with ⟨hnames, hsize, hedge, htagged⟩
    rcases ih (g.insert e.1 e.2 tagged).2 with ⟨hnames', hsize', hedge', htagged'⟩
    have hpair : ∀ a b, (g.insert e.1 e.2 tagged).2.pair? a b = g.pair? a b := by
      intro a b
      rw [pair?, pair?, index?, index?, index?, index?, hnames]
    simp only [List.foldl_cons]
    refine ⟨hnames'.trans hnames, hsize'.trans hsize, fun i j => ?_, fun i j => ?_⟩
    · simp only [hedge', hedge, hsize, hpair, List.exists_mem_cons_iff, or_assoc, and_or_left]
    · simp only [htagged', htagged, hsize, hpair, List.exists_mem_cons_iff, or_assoc, and_or_left,
        or_and_right]

end Insertion

section Standing

variable (names : List α) {d : Digraph α} (tagged : Bool)

theorem names_ofDigraph : (ofDigraph names d tagged).names = names.eraseDups :=
  (foldl_insert_spec tagged d.edges (edgeless names)).1

theorem size_ofDigraph : (ofDigraph names d tagged).graph.size = names.eraseDups.length :=
  (foldl_insert_spec tagged d.edges (edgeless names)).2.1.trans (TaggedGraph.size_empty _)

/-- The nodes that an edge of the directed graph leads between, by number. -/
theorem exists_edge_pair_iff (hd : d.Proper) (i j : Nat) :
    (i < names.eraseDups.length ∧ ∃ e ∈ d.edges, (edgeless names).pair? e.1 e.2 = some (i, j)) ↔
      ∃ a b, names.eraseDups[i]? = some a ∧ names.eraseDups[j]? = some b ∧ d.Edge a b := by
  have hpair := pair?_eq_some_iff (g := edgeless names) (nodup_eraseDups names)
  constructor
  · rintro ⟨_, ⟨a, b⟩, hedge, hnumbers⟩
    rcases (hpair a b i j).mp hnumbers with ⟨ha, hb⟩
    exact ⟨a, b, ha, hb, (hd.mem_edges_iff a b).mp hedge⟩
  · rintro ⟨a, b, ha, hb, hedge⟩
    exact ⟨(List.getElem?_eq_some_iff.mp ha).1, (a, b), (hd.mem_edges_iff a b).mpr hedge,
      (hpair a b i j).mpr ⟨ha, hb⟩⟩

theorem edge_ofDigraph_iff (hd : d.Proper) (i j : Nat) : (ofDigraph names d tagged).graph.Edge i j ↔
    ∃ a b, names.eraseDups[i]? = some a ∧ names.eraseDups[j]? = some b ∧ d.Edge a b := by
  rw [← exists_edge_pair_iff names hd]
  refine ((foldl_insert_spec tagged d.edges (edgeless names)).2.2.1 i j).trans ?_
  rw [edgeless, TaggedGraph.size_empty]
  exact or_iff_right (TaggedGraph.not_edge_empty _ i j)

theorem tagged_ofDigraph_iff (hd : d.Proper) (i j : Nat) :
    (ofDigraph names d tagged).graph.Tagged i j ↔
      (ofDigraph names d tagged).graph.Edge i j ∧ tagged = true := by
  rw [edge_ofDigraph_iff names tagged hd, ← exists_edge_pair_iff names hd]
  refine ((foldl_insert_spec tagged d.edges (edgeless names)).2.2.2 i j).trans ?_
  rw [edgeless, TaggedGraph.size_empty, and_assoc]
  exact or_iff_right (TaggedGraph.not_tagged_empty _ i j)

theorem regular_ofDigraph (hd : d.Proper) : (ofDigraph names d tagged).graph.Regular := by
  constructor
  · intro i j htagged
    exact ((tagged_ofDigraph_iff names tagged hd i j).mp htagged).1
  · intro i j hedge
    rcases (edge_ofDigraph_iff names tagged hd i j).mp hedge with ⟨_, _, _, hb, _⟩
    rw [size_ofDigraph]
    exact (List.getElem?_eq_some_iff.mp hb).1

/-- Over all of its vertices, a directed graph is the relation that its tagged graph stands for. -/
theorem graph_ofDigraph_names (hd : d.Proper) (hnames : ∀ v ∈ d.vertices, v ∈ names) :
    (ofDigraph names d tagged).graph.Names names.eraseDups d.Edge := by
  refine ⟨nodup_eraseDups names, edge_ofDigraph_iff names tagged hd, fun {a b} hedge => ?_⟩
  rw [List.mem_eraseDups, List.mem_eraseDups]
  exact ⟨hnames a ((hd.mem_vertices_iff a).mpr (Or.inl (Digraph.mem_keys_of_edge hedge))),
    hnames b ((hd.mem_vertices_iff b).mpr (Or.inr ⟨a, hedge⟩))⟩

/-- All edges are tagged or none is, so a path that uses a tagged edge is a path in a tagged graph. -/
theorem taggedWalk_ofDigraph_iff (hd : d.Proper) (i j : Nat) :
    (ofDigraph names d tagged).graph.TaggedWalk i j ↔
      tagged = true ∧ TransGen (ofDigraph names d tagged).graph.Edge i j := by
  constructor
  · intro hwalk
    have hpath := hwalk.path
    rcases hwalk with ⟨a, b, _, ⟨_, htagged⟩, _⟩
    exact ⟨((tagged_ofDigraph_iff names tagged hd a b).mp htagged).2, hpath⟩
  · rintro ⟨htagged, hpath⟩
    rcases TransGen.head'_iff.mp hpath with ⟨k, hstep, hrest⟩
    exact ⟨i, k, ReflTransGen.refl,
      ⟨hstep, (tagged_ofDigraph_iff names tagged hd i k).mpr ⟨hstep, htagged⟩⟩, hrest⟩

end Standing

section Closures

theorem names_closure_ofDigraph (names : List α) (d : Digraph α) (tagged : Bool) (strategy : Strategy) :
    ((ofDigraph names d tagged).closure strategy).names = names.eraseDups :=
  names_ofDigraph names tagged

variable {names : List α} {d : Digraph α} (hd : d.Proper) (hnames : ∀ v ∈ d.vertices, v ∈ names)
  (tagged : Bool) (strategy : Strategy)

include hd hnames

/-- In the closure by number, a node reaches itself and whatever a path leads to. -/
theorem hasEdge_closure_iff {u : α} (hu : u ∈ names) (v : α) :
    ((ofDigraph names d tagged).closure strategy).hasEdge u v = true ↔
      u = v ∨ TransGen d.Edge u v := by
  have hclosed : ∀ i, names.eraseDups[i]? = some u → ∀ j,
      (((ofDigraph names d tagged).closure strategy).graph.Edge i j ↔
        j = i ∨ TransGen (ofDigraph names d tagged).graph.Edge i j) := by
    intro i hi j
    rw [← reflTransGen_iff_eq_or_transGen]
    refine TaggedGraph.edge_closure_iff (regular_ofDigraph names tagged hd) strategy ?_ j
    rw [size_ofDigraph]
    exact (List.getElem?_eq_some_iff.mp hi).1
  have hlisted := names_closure_ofDigraph names d tagged strategy
  rw [hasEdge_iff (hlisted ▸ nodup_eraseDups names), hlisted,
    ← (graph_ofDigraph_names names tagged hd hnames).exists_path_iff]
  constructor
  · rintro ⟨i, j, hi, hj, hedge⟩
    rcases (hclosed i hi j).mp hedge with rfl | hpath
    · exact Or.inl (Option.some.inj (hi.symm.trans hj))
    · exact Or.inr ⟨i, j, hi, hj, hpath⟩
  · rintro (rfl | ⟨i, j, hi, hj, hpath⟩)
    · rcases List.mem_iff_getElem?.mp (List.mem_eraseDups.mpr hu) with ⟨i, hi⟩
      exact ⟨i, i, hi, hi, (hclosed i hi i).mpr (Or.inl rfl)⟩
    · exact ⟨i, j, hi, hj, (hclosed i hi j).mpr (Or.inr hpath)⟩

/-- An edge of the closure by number is tagged if edges are, unless it leads from a node to itself without
    using one. -/
theorem hasTaggedEdge_closure_iff (u v : α) :
    ((ofDigraph names d tagged).closure strategy).hasTaggedEdge u v = true ↔
      tagged = true ∧ TransGen d.Edge u v := by
  have hclosed : ∀ i j, ((ofDigraph names d tagged).closure strategy).graph.Tagged i j ↔
      tagged = true ∧ TransGen (ofDigraph names d tagged).graph.Edge i j := by
    intro i j
    rw [← taggedWalk_ofDigraph_iff names tagged hd]
    exact TaggedGraph.tagged_closure_iff (regular_ofDigraph names tagged hd) strategy i j
  have hlisted := names_closure_ofDigraph names d tagged strategy
  rw [hasTaggedEdge_iff (hlisted ▸ nodup_eraseDups names), hlisted,
    ← (graph_ofDigraph_names names tagged hd hnames).exists_path_iff]
  constructor
  · rintro ⟨i, j, hi, hj, hedge⟩
    rcases (hclosed i j).mp hedge with ⟨htagged, hpath⟩
    exact ⟨htagged, i, j, hi, hj, hpath⟩
  · rintro ⟨htagged, i, j, hi, hj, hpath⟩
    exact ⟨i, j, hi, hj, (hclosed i j).mpr ⟨htagged, hpath⟩⟩

end Closures

end NodeGraph

end Isolation
