import Isolation.Proofs.Graph.Simulation

/-!
# Closures, Products and Thinned Graphs, Bit by Bit

A closure can be computed by rows or by single edges, and so can a product. The two ways of a product meet the
ways through different middle nodes in different orders, and such ways may disagree on the tag. Still they
come to the same bits: tags are never taken away, and a graph is given by its two relations, so that nothing
else is to be compared.

The laws are stated for graphs and for matrices of words. An intact matrix shows the graph of the edges that
it lists, whatever its size, and the operations follow those on graphs. So the laws of graphs pass over to
matrices, and matrices with the same cells are made of the same words.

## Theorems

* `TaggedGraph.closure_exact`: The two ways to a closure agree, and what they compute is the paths.
* `TaggedGraph.compose_exact`: The two ways to a product agree, and what they compute is the product of the
  relations.
* `TaggedGraph.thin_faithful`: Thinning keeps the tags, the paths and the cycles.
-/

namespace Isolation

open Relation

namespace BitMatrix

variable {size : Nat} {m f n : BitMatrix size} {g : TaggedGraph}

theorem Intact.exists_shows (hm : m.Intact) : ∃ g : TaggedGraph, g.Regular ∧ m.Shows g := by
  refine ⟨.ofEdges size m.edges, .ofEdges ?_,
    .of_lt (TaggedGraph.size_ofEdges ..) fun i hi j => ⟨?_, ?_⟩⟩
  · exact fun i j tagged hmem => hm.target_lt (mem_edges_iff.1 hmem).1
  · rw [TaggedGraph.edge_ofEdges_iff, and_iff_right hi]
    exact ⟨fun h => ⟨_, mem_edges_iff.2 ⟨h, rfl⟩⟩, fun h => h.elim fun _ hmem => (mem_edges_iff.1 hmem).1⟩
  · rw [TaggedGraph.tagged_ofEdges_iff, and_iff_right hi, mem_edges_iff]
    exact ⟨fun h => ⟨hm.edge_of_tagged h, h⟩, And.right⟩

/-- Closing an intact matrix, whichever way: an edge leads from each node to wherever a path leads, and it
    is tagged if some walk there uses a tagged edge. -/
theorem Intact.closure_iff (hm : m.Intact) (strategy : Strategy) (i j : Nat) :
    ((m.closure strategy).Edge i j ↔ i < size ∧ ReflTransGen m.Edge i j) ∧
      ((m.closure strategy).Tagged i j ↔
        ∃ a b, ReflTransGen m.Edge i a ∧ m.Tagged a b ∧ ReflTransGen m.Edge b j) := by
  rcases hm.exists_shows with ⟨g, hg, hshows⟩
  have hclosure := hshows.closure hg strategy
  have hedges : m.Edge = g.Edge := funext fun _ => funext fun _ => propext hshows.edge
  have htagged : ∀ a b, m.Tagged a b ↔ g.Edge a b ∧ g.Tagged a b := fun a b =>
    hshows.tagged.trans ⟨fun h => ⟨hg.edge_of_tagged h, h⟩, And.right⟩
  rw [hclosure.edge, hclosure.tagged, TaggedGraph.tagged_closure_iff hg, hedges]
  simp only [htagged]
  refine ⟨⟨fun h => ?_, fun h => ?_⟩, Iff.rfl⟩
  · have hi : i < g.size := TaggedGraph.size_closure g strategy ▸ TaggedGraph.lt_size_of_edge h
    exact ⟨hshows.size_eq ▸ hi, (TaggedGraph.edge_closure_iff hg strategy hi j).1 h⟩
  · exact (TaggedGraph.edge_closure_iff hg strategy (hshows.size_eq ▸ h.1) j).2 h.2

theorem Intact.closureDense_eq (hm : m.Intact) : m.closureDense = m.closureSparse :=
  ext_edges (fun i j => (hm.closure_iff .dense i j).1.trans (hm.closure_iff .sparse i j).1.symm)
    fun i j => (hm.closure_iff .dense i j).2.trans (hm.closure_iff .sparse i j).2.symm

theorem Intact.compose_iff (hf : f.Intact) (hn : n.Intact) (strategy : Strategy) (i k : Nat) :
    ((f.compose strategy n).Edge i k ↔ ∃ j, f.Edge i j ∧ n.Edge j k) ∧
      ((f.compose strategy n).Tagged i k ↔
        ∃ j, (f.Edge i j ∧ n.Edge j k) ∧ (f.Tagged i j ∨ n.Tagged j k)) := by
  rcases hf.exists_shows with ⟨g, hg, hfg⟩
  rcases hn.exists_shows with ⟨h, hh, hnh⟩
  have hproduct := hfg.compose hnh hg hh strategy
  rw [hproduct.edge, hproduct.tagged, TaggedGraph.edge_compose_iff strategy hg hh,
    TaggedGraph.tagged_compose_iff strategy hg hh]
  simp only [hfg.edge, hnh.edge, hfg.tagged, hnh.tagged, and_self]

theorem Intact.composeDense_eq (hf : f.Intact) (hn : n.Intact) : f.composeDense n = f.composeSparse n :=
  ext_edges (fun i k => (hf.compose_iff hn .dense i k).1.trans (hf.compose_iff hn .sparse i k).1.symm)
    fun i k => (hf.compose_iff hn .dense i k).2.trans (hf.compose_iff hn .sparse i k).2.symm

theorem intact_insert {i j : Nat} (hi : i < size) (hj : j < size) (tagged : Bool) :
    ((empty : BitMatrix size).insert i j tagged).Intact := by
  have hempty : (empty : BitMatrix size).Shows (.empty size) := .empty
  refine (hempty.insert hi hj tagged).intact ((TaggedGraph.Regular.empty size).insert i tagged ?_)
  rw [hempty.size_eq]
  exact hj

theorem Shows.reach_closure_thin (hm : m.Shows g) (hg : g.Regular) {place : TaggedGraph.Placement}
    (hsessions : g.InSessions place) (strategy strategy' : Strategy) :
    ((m.thin place).closure strategy).reach = (m.closure strategy').reach :=
  Cells.ext_test fun i j => Bool.eq_iff_iff.2 <|
    ((hm.thin hg place).closure (.thin place) strategy).edge.trans <|
      (hsessions.edge_closure_thin_iff hg strategy strategy' i j).trans
        (hm.closure hg strategy').edge.symm

end BitMatrix

namespace TaggedGraph

variable {f g : TaggedGraph} {place : Placement}

/-- The two ways to close a graph come to the same bits, and these are the specified ones: there is an edge
    from each node to itself and to wherever a path leads, and it is tagged if some walk, however often it
    passes a node, uses a tagged edge. For intact matrices of any size, the two ways come to the same words,
    and these have the same meaning. -/
theorem closure_exact (hg : g.Regular) :
    (g.closureDense = g.closureSparse ∧ ∀ strategy,
      (g.closure strategy).Regular ∧ (g.closure strategy).size = g.size ∧ ∀ i < g.size, ∀ j,
        ((g.closure strategy).Edge i j ↔ i = j ∨ TransGen g.Edge i j) ∧
        ((g.closure strategy).Tagged i j ↔ g.TaggedWalk i j)) ∧
    ∀ {size : Nat} {m : BitMatrix size}, m.Intact →
      m.closureDense = m.closureSparse ∧ ∀ strategy i j,
        ((m.closure strategy).Edge i j ↔ i < size ∧ ReflTransGen m.Edge i j) ∧
        ((m.closure strategy).Tagged i j ↔
          ∃ a b, ReflTransGen m.Edge i a ∧ m.Tagged a b ∧ ReflTransGen m.Edge b j) := by
  refine ⟨⟨?_, fun strategy => ⟨hg.closure strategy, size_closure g strategy, fun i hi j => ⟨?_, ?_⟩⟩⟩,
    fun hm => ⟨hm.closureDense_eq, hm.closure_iff⟩⟩
  · have hsize := size_closure g .dense
    refine eq_of_relations (hsize.trans (size_closure g .sparse).symm) ?_ ?_
    · intro i hi j
      rw [show g.closureDense.size = g.size from hsize] at hi
      exact (edge_closure_iff hg .dense hi j).trans (edge_closure_iff hg .sparse hi j).symm
    · intro i _ j
      exact (tagged_closure_iff hg .dense i j).trans (tagged_closure_iff hg .sparse i j).symm
  · rw [edge_closure_iff hg strategy hi, reflTransGen_iff_eq_or_transGen, eq_comm]
  · exact tagged_closure_iff hg strategy i j

/-- A path whose only tagged edge is a loop beside it, and a plain cycle that leads nowhere. -/
def detour : TaggedGraph :=
  .ofEdges 5 [(0, 1, false), (1, 1, true), (1, 2, false), (3, 4, false), (4, 3, false)]

theorem regular_detour : detour.Regular := by
  refine Regular.ofEdges ?_
  intro i j tagged hmem
  fin_cases hmem <;> decide

/-- The walk along the path is tagged because it may go around the loop, and the plain cycle stays
    untagged. In a matrix of two words to a row, the last node reaches the first one. -/
theorem closure_exact_detour : (detour.Regular ∧ detour.closureDense = detour.closureSparse ∧
    detour.TaggedWalk 0 2 ∧ ¬ detour.TaggedWalk 3 3 ∧ TransGen detour.Edge 3 3) ∧
    ((BitMatrix.empty : BitMatrix 65).insert 64 0 true).Intact ∧
    (((BitMatrix.empty : BitMatrix 65).insert 64 0 true).closure .sparse).Tagged 64 0 := by
  rcases closure_exact regular_detour with ⟨⟨hsame, hclosure⟩, hwords⟩
  have htagged := fun i hi j => ((hclosure .dense).2.2 i hi j).2
  have hintact := BitMatrix.intact_insert (by decide : 64 < 65) (by decide : 0 < 65) true
  have hedge : ((BitMatrix.empty : BitMatrix 65).insert 64 0 true).hasTaggedEdge 64 0 = true := by
    decide +kernel
  refine ⟨⟨regular_detour, hsame, (htagged 0 (by decide) 2).mp (by decide), fun hc => ?_, ?_⟩, hintact,
    ((hwords hintact).2 .sparse 64 0).2.mpr ⟨64, 0, .refl, hedge, .refl⟩⟩
  · exact absurd ((htagged 3 (by decide) 3).mpr hc) (by decide)
  · exact (TransGen.single (by decide : detour.Edge 3 4)).tail (by decide)

/-- The two ways to form the product come to the same bits, and these are the specified ones: there is an
    edge wherever an edge of the first graph is followed by one of the second, and it is tagged if this can
    be done with a tagged edge among the two. For intact matrices of any size, the two ways come to the same
    words, and these have the same meaning. -/
theorem compose_exact (hf : f.Regular) (hg : g.Regular) (hsize : f.size = g.size) :
    (f.composeDense g = f.composeSparse g ∧ ∀ strategy,
      (f.compose strategy g).Regular ∧ (f.compose strategy g).size = f.size ∧ ∀ i k,
        ((f.compose strategy g).Edge i k ↔ ∃ j, f.Edge i j ∧ g.Edge j k) ∧
        ((f.compose strategy g).Tagged i k ↔
          ∃ j, (f.Edge i j ∧ g.Edge j k) ∧ (f.Tagged i j ∨ g.Tagged j k))) ∧
    ∀ {size : Nat} {m n : BitMatrix size}, m.Intact → n.Intact →
      m.composeDense n = m.composeSparse n ∧ ∀ strategy i k,
        ((m.compose strategy n).Edge i k ↔ ∃ j, m.Edge i j ∧ n.Edge j k) ∧
        ((m.compose strategy n).Tagged i k ↔
          ∃ j, (m.Edge i j ∧ n.Edge j k) ∧ (m.Tagged i j ∨ n.Tagged j k)) := by
  refine ⟨⟨?_, fun strategy =>
    ⟨hf.compose strategy hg hsize, size_compose strategy, fun i k => ⟨?_, ?_⟩⟩⟩,
    fun hm hn => ⟨hm.composeDense_eq hn, hm.compose_iff hn⟩⟩
  · refine eq_of_relations ((size_composeDense f g).trans (size_composeSparse f g).symm) ?_ ?_
    · intro i _ k
      exact (edge_composeDense_iff hf i k).trans (edge_composeSparse_iff hf hg i k).symm
    · intro i _ k
      exact (tagged_composeDense_iff hf hg i k).trans (tagged_composeSparse_iff hf hg i k).symm
  · exact edge_compose_iff strategy hf hg i k
  · exact tagged_compose_iff strategy hf hg i k

/-- From the first node, two ways lead to the last one; the plain way comes first, and the other one is
    tagged in its first part. A third way is tagged in its second part. -/
def branching : TaggedGraph :=
  .ofEdges 66 [(0, 1, false), (0, 64, true), (2, 3, false), (4, 1, false)]

/-- The second parts of these ways. -/
def joining : TaggedGraph :=
  .ofEdges 66 [(1, 65, false), (64, 65, false), (3, 65, true), (5, 65, true)]

theorem regular_branching : branching.Regular := by
  refine Regular.ofEdges ?_
  intro i j tagged hmem
  fin_cases hmem <;> decide

theorem regular_joining : joining.Regular := by
  refine Regular.ofEdges ?_
  intro i j tagged hmem
  fin_cases hmem <;> decide

/-- The first node reaches the last one by a tagged edge although the way that is met first is plain, and an
    edge that only has a plain way stays untagged. In matrices of two words to a row, a way through the second
    word keeps the tag of its first part. -/
theorem compose_exact_branching :
    (branching.Regular ∧ joining.Regular ∧ branching.size = joining.size) ∧
    branching.composeDense joining = branching.composeSparse joining ∧
    (branching.composeSparse joining).Tagged 0 65 ∧ (branching.composeSparse joining).Tagged 2 65 ∧
    ((branching.composeSparse joining).Edge 4 65 ∧ ¬(branching.composeSparse joining).Tagged 4 65) ∧
    (((BitMatrix.empty : BitMatrix 66).insert 0 64 true).compose .dense
      ((BitMatrix.empty : BitMatrix 66).insert 64 65 false)).Tagged 0 65 := by
  have hsize : branching.size = joining.size := by decide +kernel
  rcases compose_exact regular_branching regular_joining hsize with ⟨⟨hsame, hproduct⟩, hwords⟩
  have hcells := (hproduct .sparse).2.2
  have hedge : ((BitMatrix.empty : BitMatrix 66).insert 0 64 true).hasEdge 0 64 = true ∧
      ((BitMatrix.empty : BitMatrix 66).insert 64 65 false).hasEdge 64 65 = true := by decide +kernel
  have htagged : ((BitMatrix.empty : BitMatrix 66).insert 0 64 true).hasTaggedEdge 0 64 = true := by
    decide +kernel
  have hmatrix := (hwords (BitMatrix.intact_insert (by decide : 0 < 66) (by decide : 64 < 66) true)
    (BitMatrix.intact_insert (by decide : 64 < 66) (by decide : 65 < 66) false)).2 .dense 0 65
  refine ⟨⟨regular_branching, regular_joining, hsize⟩, hsame, ?_, ?_, ⟨?_, fun hc => ?_⟩,
    hmatrix.2.mpr ⟨64, hedge, Or.inl htagged⟩⟩
  · exact (hcells 0 65).2.mpr ⟨64, by decide +kernel⟩
  · exact (hcells 2 65).2.mpr ⟨3, by decide +kernel⟩
  · exact (hcells 4 65).1.mpr ⟨1, by decide +kernel⟩
  · -- The only middle node is the second one, and both parts of that way are plain.
    rcases (hcells 4 65).2.mp hc with ⟨j, ⟨hij, _⟩, htagged⟩
    rcases ((edge_ofEdges_iff ..).mp hij).2 with ⟨tagged, hmem⟩
    simp only [List.mem_cons, Prod.mk.injEq, List.not_mem_nil, or_false] at hmem
    have hj : j = 1 := by omega
    rw [hj] at htagged
    exact absurd htagged (by decide +kernel)

/-- Thinning keeps what matters about a graph whose nodes stand in sessions. The thinned graph has those of
    its edges that lead to the next node or to the least height of a session, with their tags. The closures
    of both lead to the same nodes, bit by bit, and the same nodes lie on cycles. A matrix that shows the
    graph is thinned to one that shows the thinned graph, and closing the two fills in the same words. -/
theorem thin_faithful (hg : g.Regular) (hsessions : g.InSessions place) :
    (g.thin place).Regular ∧ (g.thin place).size = g.size ∧
    (∀ i j, (g.thin place).Edge i j → g.Edge i j ∧ ((g.thin place).Tagged i j ↔ g.Tagged i j)) ∧
    (∀ i j, (g.thin place).Edge i j ↔ g.Edge i j ∧ (isNext place i j = true ∨
      ∀ k, g.Edge i k → (place k).1 = (place j).1 → (place j).2 ≤ (place k).2)) ∧
    (∀ strategy strategy' i,
      (((g.thin place).closure strategy).row i).reach = ((g.closure strategy').row i).reach) ∧
    (∀ i, TransGen (g.thin place).Edge i i ↔ TransGen g.Edge i i) ∧
    ∀ {size : Nat} {m : BitMatrix size}, m.Shows g →
      (m.thin place).Shows (g.thin place) ∧ ∀ strategy strategy',
        ((m.thin place).closure strategy).reach = (m.closure strategy').reach := by
  refine ⟨Regular.thin place, size_thin place, fun i j hedge => ?_,
    hsessions.edge_thin_iff_least hg, fun strategy strategy' i => ?_, fun i => ?_,
    fun hm => ⟨hm.thin hg place, hm.reach_closure_thin hg hsessions⟩⟩
  · exact ⟨edge_of_thin hedge, tagged_thin_iff hedge⟩
  · refine Nat.eq_of_testBit_eq fun j => Bool.eq_iff_iff.mpr ?_
    exact hsessions.edge_closure_thin_iff hg strategy strategy' i j
  · exact hsessions.path_thin_iff hg i i

/-- Two sessions behind a first node. The third node of the longer one has a tagged edge to itself and an
    edge back to the first of its session. -/
def lookingBack : TaggedGraph :=
  .ofEdges 6 [(0, 1, false), (0, 4, false), (0, 5, true), (1, 2, false), (2, 3, false), (3, 3, true),
    (3, 1, false), (4, 5, false), (4, 2, true), (4, 3, true)]

/-- Where the nodes of `lookingBack` stand. -/
def lookingBackPlace : Placement := fun i =>
  [(0, 0), (1, 0), (1, 1), (1, 2), (2, 0), (2, 1)].getD i (0, 0)

theorem regular_lookingBack : lookingBack.Regular := by
  refine Regular.ofEdges ?_
  intro i j tagged hmem
  fin_cases hmem <;> decide

theorem inSessions_lookingBack : lookingBack.InSessions lookingBackPlace :=
  ⟨by decide, by decide, by decide⟩

/-- The loop is dropped because of the edge that leads back, and with it the tag; the node still lies on a
    cycle, along its session. The edges to later nodes of the sessions are dropped as well, and the last
    node of the longer session is still reached from the shorter one. -/
theorem thin_faithful_lookingBack :
    lookingBack.Regular ∧ lookingBack.InSessions lookingBackPlace ∧
    lookingBack.Edge 3 3 ∧ ¬ (lookingBack.thin lookingBackPlace).Edge 3 3 ∧
    TransGen (lookingBack.thin lookingBackPlace).Edge 3 3 ∧
    ¬ (lookingBack.thin lookingBackPlace).Edge 4 3 ∧
    ((lookingBack.thin lookingBackPlace).closure .sparse).Edge 4 3 := by
  rcases thin_faithful regular_lookingBack inSessions_lookingBack with
    ⟨_, _, _, hkept, hreach, hcycles, _⟩
  refine ⟨regular_lookingBack, inSessions_lookingBack, by decide, fun hc => ?_, ?_, fun hc => ?_, ?_⟩
  · rcases ((hkept 3 3).mp hc).2 with hnext | hleast
    · exact absurd hnext (by decide)
    · exact absurd (hleast 1 (by decide) (by decide)) (by decide)
  · exact (hcycles 3).mpr (TransGen.single (by decide))
  · rcases ((hkept 4 3).mp hc).2 with hnext | hleast
    · exact absurd hnext (by decide)
    · exact absurd (hleast 2 (by decide) (by decide)) (by decide)
  · rw [Edge, hasEdge, hreach .sparse .dense 4]
    decide

end TaggedGraph

end Isolation
