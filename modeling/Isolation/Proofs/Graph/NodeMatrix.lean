import Isolation.Proofs.Graph.NamedClosure
import Isolation.Proofs.Graph.Simulation

/-!
# Bit Matrices Over Named Nodes

A matrix over named nodes follows a graph over the same names: edges are added to both by name, asking for
an edge has the same answer, and so has asking after the closure. What is known about the closures of named
graphs is therefore known about those of matrices.

Whatever sequence of operations a matrix comes from, it shows some regular graph. No operation looks at the
cells that fill up the last word of a row, and none has to: they are clear because no edge of a regular
graph ends there.

## Main definitions

* `NodeMatrix.Built`: The matrices that the operations build.

## Theorems

* `NodeGraph.closures_agree`: The closure of a directed graph, by name and by number, agrees with its own.
* `NodeMatrix.faithful_of_built`: In every matrix that is ever built, tagged cells are edges, the cells that
  fill up its words are clear, and its listings are those of its cells.
-/

namespace Isolation

open Relation

namespace NodeMatrix

variable {α : Type} [DecidableEq α] {m : NodeMatrix α} {g : NodeGraph α}

/-- The matrix and the graph have the same nodes and the same edges. -/
structure Shows (m : NodeMatrix α) (g : NodeGraph α) : Prop where
  names_eq : g.names = m.names
  cells : m.cells.Shows g.graph

omit [DecidableEq α] in
theorem shows_cellsOver {graph : TaggedGraph} (hm : m.cells.Shows graph) {names : List α}
    (h : names = m.names) : (m.cellsOver h).Shows graph := by
  subst h
  exact hm

theorem Shows.edgeless (names : List α) :
    (NodeMatrix.edgeless names).Shows (NodeGraph.edgeless names) :=
  ⟨rfl, .empty⟩

theorem lt_of_pair? {source target : α} {i j : Nat} (h : m.pair? source target = some (i, j)) :
    i < m.names.length ∧ j < m.names.length := by
  rw [pair?, Option.bind_eq_some_iff] at h
  rcases h with ⟨k, hk, h⟩
  rcases Option.map_eq_some_iff.1 h with ⟨l, hl, heq⟩
  rw [Prod.mk.injEq] at heq
  rw [← heq.1, ← heq.2]
  exact ⟨(List.idxOf?_eq_some_iff.1 hk).1, (List.idxOf?_eq_some_iff.1 hl).1⟩

theorem Shows.pair?_eq (hm : m.Shows g) (source target : α) :
    m.pair? source target = g.pair? source target := by
  simp only [pair?, index?, NodeGraph.pair?, NodeGraph.index?, hm.names_eq]

theorem Shows.hasEdge_eq (hm : m.Shows g) (source target : α) :
    m.hasEdge source target = g.hasEdge source target := by
  rw [hasEdge, NodeGraph.hasEdge, hm.pair?_eq]
  exact congrArg (Option.any · _) (funext fun _ => Bool.eq_iff_iff.2 hm.cells.edge)

theorem Shows.hasTaggedEdge_eq (hm : m.Shows g) (source target : α) :
    m.hasTaggedEdge source target = g.hasTaggedEdge source target := by
  rw [hasTaggedEdge, NodeGraph.hasTaggedEdge, hm.pair?_eq]
  exact congrArg (Option.any · _) (funext fun _ => hm.cells.hasTaggedEdge_eq ..)

theorem Shows.insert (hm : m.Shows g) (source target : α) (tagged : Bool) :
    (m.insert source target tagged).1 = (g.insert source target tagged).1 ∧
      (m.insert source target tagged).2.Shows (g.insert source target tagged).2 := by
  rw [NodeMatrix.insert, NodeGraph.insert, ← hm.pair?_eq]
  cases hpair : m.pair? source target with
  | none => exact ⟨rfl, hm⟩
  | some pair =>
    exact ⟨rfl, hm.names_eq, hm.cells.insert (lt_of_pair? hpair).1 (lt_of_pair? hpair).2 tagged⟩

theorem Shows.ofDigraph (names : List α) (d : Digraph α) (tagged : Bool) :
    (NodeMatrix.ofDigraph names d tagged).Shows (.ofDigraph names d tagged) := by
  rw [NodeMatrix.ofDigraph, NodeGraph.ofDigraph]
  generalize d.edges = edges
  have hstart := Shows.edgeless names
  generalize NodeMatrix.edgeless names = m at hstart ⊢
  generalize NodeGraph.edgeless names = g at hstart ⊢
  induction edges generalizing m g with
  | nil => exact hstart
  | cons edge rest ih => exact ih _ _ (hstart.insert edge.1 edge.2 tagged).2

omit [DecidableEq α] in
theorem Shows.closure (hm : m.Shows g) (hg : g.graph.Regular) (strategy : Strategy) :
    (m.closure strategy).Shows (g.closure strategy) :=
  ⟨hm.names_eq, hm.cells.closure hg strategy⟩

/-- The closure of a directed graph answers alike as a matrix and as a graph. -/
theorem closure_ofDigraph {d : Digraph α} (hd : d.Proper) (names : List α) (tagged : Bool)
    (strategy : Strategy) (source target : α) :
    ((ofDigraph names d tagged).closure strategy).hasEdge source target =
        ((NodeGraph.ofDigraph names d tagged).closure strategy).hasEdge source target ∧
      ((ofDigraph names d tagged).closure strategy).hasTaggedEdge source target =
        ((NodeGraph.ofDigraph names d tagged).closure strategy).hasTaggedEdge source target := by
  have hclosure := (Shows.ofDigraph names d tagged).closure
    (NodeGraph.regular_ofDigraph names tagged hd) strategy
  exact ⟨hclosure.hasEdge_eq source target, hclosure.hasTaggedEdge_eq source target⟩

/-- The matrices that the operations build from those without edges. -/
inductive Built : NodeMatrix α → Prop where
  | edgeless (names : List α) : Built (edgeless names)
  | insert {m : NodeMatrix α} (source target : α) (tagged : Bool) (hm : Built m) :
      Built (m.insert source target tagged).2
  | insertAt {m : NodeMatrix α} {i j : Nat} (tagged : Bool) (hm : Built m)
      (hi : i < m.names.length) (hj : j < m.names.length) : Built (m.insertAt i j tagged)
  | union {f g m : NodeMatrix α} (hf : Built f) (hg : Built g) (h : f.union g = .ok m) : Built m
  | compose {f g m : NodeMatrix α} (strategy : Strategy) (hf : Built f) (hg : Built g)
      (h : f.compose strategy g = .ok m) : Built m
  | closure {m : NodeMatrix α} (strategy : Strategy) (hm : Built m) : Built (m.closure strategy)
  | thin {m : NodeMatrix α} (place : α → Nat × Nat) (hm : Built m) : Built (m.thin place)

theorem Built.exists_shows (hbuilt : Built m) :
    ∃ graph : TaggedGraph, graph.Regular ∧ m.cells.Shows graph := by
  induction hbuilt with
  | edgeless names => exact ⟨_, .empty _, .empty⟩
  | @insert m source target tagged _ ih =>
    rcases ih with ⟨graph, hregular, hm⟩
    rw [NodeMatrix.insert]
    cases hpair : m.pair? source target with
    | none => exact ⟨graph, hregular, hm⟩
    | some pair =>
      rcases lt_of_pair? hpair with ⟨hi, hj⟩
      exact ⟨_, hregular.insert _ _ (hm.size_eq ▸ hj), hm.insert hi hj tagged⟩
  | @insertAt m i j tagged _ hi hj ih =>
    rcases ih with ⟨graph, hregular, hm⟩
    exact ⟨_, hregular.insert _ _ (hm.size_eq ▸ hj), hm.insert hi hj tagged⟩
  | @union f n m _ _ h ihf ihn =>
    rcases ihf, ihn with ⟨⟨g, hg, hf⟩, ⟨k, hk, hn⟩⟩
    rw [NodeMatrix.union] at h
    split at h
    · rename_i hnames
      have hn := shows_cellsOver hn hnames
      rw [← Except.ok.inj h]
      exact ⟨_, hg.union hk (hf.size_eq.trans hn.size_eq.symm), hf.union hn⟩
    · exact absurd h (by simp)
  | @compose f n m strategy _ _ h ihf ihn =>
    rcases ihf, ihn with ⟨⟨g, hg, hf⟩, ⟨k, hk, hn⟩⟩
    rw [NodeMatrix.compose] at h
    split at h
    · rename_i hnames
      have hn := shows_cellsOver hn hnames
      rw [← Except.ok.inj h]
      exact ⟨_, .compose strategy hg hk (hf.size_eq.trans hn.size_eq.symm),
        hf.compose hn hg hk strategy⟩
    · exact absurd h (by simp)
  | closure strategy _ ih =>
    rcases ih with ⟨graph, hregular, hm⟩
    exact ⟨_, hregular.closure strategy, hm.closure hregular strategy⟩
  | thin place _ ih =>
    rcases ih with ⟨graph, hregular, hm⟩
    exact ⟨_, .thin _, hm.thin hregular _⟩

/-- Whatever operations a matrix has been built by, tagged cells are edges, the cells that fill up its
    words are clear, and its listings are those of its cells. -/
theorem faithful_of_built (hbuilt : Built m) : m.cells.Faithful := by
  rcases hbuilt.exists_shows with ⟨graph, hregular, hm⟩
  exact (hm.intact hregular).faithful

/-- Sixty-five nodes take two words to a row, and the second word stands for one node only. -/
theorem faithful_twoWords :
    Built (((edgeless (List.range 65)).insertAt 64 0 true).closure .sparse) ∧
      (((edgeless (List.range 65)).insertAt 64 0 true).closure .sparse).cells.Faithful := by
  have hbuilt : Built (((edgeless (List.range 65)).insertAt 64 0 true).closure .sparse) :=
    .closure _ (.insertAt _ (.edgeless _) (by decide) (by decide))
  exact ⟨hbuilt, faithful_of_built hbuilt⟩

end NodeMatrix

namespace NodeGraph

variable {α : Type} [DecidableEq α]

/-- The closure of a directed graph has an edge exactly where a path of the graph leads. Over any nodes among
    which are all vertices of the graph, either way to close the tagged graph that stands for it comes to the
    same pairs and the pairs of a node and itself, whether its edges are tagged or not; the tags say which
    pairs are joined by a path. The matrix that stands for it has the same answers. -/
theorem closures_agree {d : Digraph α} (hd : d.Proper) :
    (∀ u v, d.closure.Edge u v ↔ TransGen d.Edge u v) ∧
    ∀ names : List α, (∀ v ∈ d.keys, v ∈ names) → (∀ u v, d.Edge u v → v ∈ names) →
      ∀ tagged strategy, ∀ u ∈ names, ∀ v ∈ names,
        (((ofDigraph names d tagged).closure strategy).hasEdge u v = true ↔
          u = v ∨ d.closure.Edge u v) ∧
        (((ofDigraph names d tagged).closure strategy).hasTaggedEdge u v = true ↔
          tagged = true ∧ d.closure.Edge u v) ∧
        (((NodeMatrix.ofDigraph names d tagged).closure strategy).hasEdge u v = true ↔
          u = v ∨ d.closure.Edge u v) ∧
        (((NodeMatrix.ofDigraph names d tagged).closure strategy).hasTaggedEdge u v = true ↔
          tagged = true ∧ d.closure.Edge u v) := by
  refine ⟨d.edge_closure_iff_path, fun names hkeys htargets tagged strategy u hu v _ => ?_⟩
  have hnames : ∀ w ∈ d.vertices, w ∈ names := by
    intro w hw
    rcases (hd.mem_vertices_iff w).mp hw with hkey | ⟨x, hedge⟩
    · exact hkeys w hkey
    · exact htargets x w hedge
  rcases NodeMatrix.closure_ofDigraph hd names tagged strategy u v with ⟨hedge, htagged⟩
  have hasEdge := hasEdge_closure_iff hd hnames tagged strategy hu v
  have hasTagged := hasTaggedEdge_closure_iff hd hnames tagged strategy u v
  rw [d.edge_closure_iff_path, hedge, htagged]
  exact ⟨hasEdge, hasTagged, hasEdge, hasTagged⟩

/-- A cycle with a way out to a vertex that is not listed, and a vertex apart. -/
def wayOut : Digraph Nat :=
  .ofAdjacency [(4, [7]), (7, [4, 2]), (5, [])]

theorem closures_agree_wayOut :
    wayOut.Proper ∧ wayOut.closure.Edge 4 4 ∧ ¬ wayOut.closure.Edge 5 5 ∧
      ((ofDigraph [2, 5, 7, 4, 8] wayOut false).closure .sparse).hasEdge 4 2 = true ∧
      ((NodeMatrix.ofDigraph [2, 5, 7, 4, 8] wayOut true).closure .dense).hasTaggedEdge 5 5 = false := by
  have hproper : wayOut.Proper := Digraph.proper_ofAdjacency _
  have hvertices : ∀ w ∈ wayOut.vertices, w ∈ [2, 5, 7, 4, 8] := by decide
  have hfourSeven : wayOut.Edge 4 7 := by decide
  have hsevenFour : wayOut.Edge 7 4 := by decide
  have hsevenTwo : wayOut.Edge 7 2 := by decide
  rcases closures_agree hproper with ⟨hpath, hclosed⟩
  have hover := hclosed [2, 5, 7, 4, 8] (by decide) fun u v hedge =>
    hvertices v ((hproper.mem_vertices_iff v).mpr (Or.inr ⟨u, hedge⟩))
  have hfive : ¬ wayOut.closure.Edge 5 5 := by
    rw [hpath]
    intro hc
    rcases TransGen.head'_iff.mp hc with ⟨w, hedge, _⟩
    exact absurd (Digraph.edge_iff.mp hedge) List.not_mem_nil
  refine ⟨hproper, (hpath 4 4).mpr (.tail (.single hfourSeven) hsevenFour), hfive, ?_, ?_⟩
  · exact (hover false .sparse 4 (by decide) 2 (by decide)).1.mpr
      (Or.inr ((hpath 4 2).mpr (.tail (.single hfourSeven) hsevenTwo)))
  · rw [← Bool.not_eq_true, (hover true .dense 5 (by decide) 5 (by decide)).2.2.2]
    exact fun hc => hfive hc.2

end NodeGraph

end Isolation
