import Isolation.Proofs.Graph.Reachability

/-!
# Thinning Loses No Path

Thinning drops many edges at once, and each of them because of another one, which leads to an earlier
node of the same session. The other one may be dropped as well, but only because of one that leads to a
still earlier node, so the search for an edge that stays goes down a session and ends. Behind that edge,
the session itself leads back up to where the dropped edge led: the edges to next nodes always stay.

So a dropped edge is a path of two edges or more, and a graph and its thinned graph connect the same
nodes. They have the same cycles too, even if the only edge of a cycle is a loop, or leads back in its own
session.

Tags are another matter. The tag of a dropped edge is lost, and the path in its place need not be tagged.
But if the untagged edges of a graph form no cycle, then every cycle uses a tagged edge, also in the
thinned graph. It is then enough to look for tagged loops in the closure of the thinned graph.

## Main definitions

* `TaggedGraph.InSessions`: The nodes stand in sessions without gaps, each behind an edge from the one
  before.

## Theorems

* `InSessions.path_thin_iff`: Thinning loses no path.
* `hasTaggedLoop_thin_iff`: The closure of the thinned graph shows whether there is a cycle.
-/

namespace Isolation

open Relation

namespace TaggedGraph

/-- The nodes stand in sessions: no two in one place, none behind a gap, and an edge leads from each node
    to the next one. -/
structure InSessions (g : TaggedGraph) (place : Placement) : Prop where
  distinct : ∀ i < g.size, ∀ j < g.size, place i = place j → i = j
  filled : ∀ i < g.size, ∀ height < (place i).2, ∃ j < g.size, place j = ((place i).1, height)
  edge_next : ∀ i < g.size, ∀ j < g.size, isNext place i j = true → g.Edge i j

variable {g : TaggedGraph} {place : Placement} {i j k : Nat}

theorem isNext_iff (place : Placement) (i j : Nat) :
    isNext place i j = true ↔ (place j).1 = (place i).1 ∧ (place j).2 = (place i).2 + 1 := by
  rw [isNext, Bool.and_eq_true, beq_iff_eq, beq_iff_eq]

theorem standsBefore_iff (place : Placement) (k j : Nat) :
    standsBefore place k j = true ↔ (place k).1 = (place j).1 ∧
      ((place k).2 < (place j).2 ∨ (place k).2 = (place j).2 ∧ k < j) := by
  simp only [standsBefore, Bool.and_eq_true, Bool.or_eq_true, beq_iff_eq, decide_eq_true_eq]

theorem edge_thin_iff (hg : g.Regular) (i j : Nat) : (g.thin place).Edge i j ↔
    g.Edge i j ∧ (isNext place i j = true ∨ ∀ k, g.Edge i k → standsBefore place k j = false) := by
  rw [thin, edge_ofEdges_filter_iff _ rfl]
  simp only [keepsEdge, Bool.or_eq_true, Bool.not_eq_true', List.any_eq_false, mem_successors_iff,
    Bool.not_eq_true]
  constructor
  · rintro ⟨_, hedge, hkeep⟩
    exact ⟨hedge, hkeep.imp_right fun hfirst k hk => hfirst k ⟨hg.target_lt hk, hk⟩⟩
  · rintro ⟨hedge, hkeep⟩
    exact ⟨hg.target_lt hedge, hedge, hkeep.imp_right fun hfirst k hk => hfirst k hk.2⟩

theorem tagged_thin_iff (hedge : (g.thin place).Edge i j) :
    (g.thin place).Tagged i j ↔ g.Tagged i j := by
  rcases (edge_ofEdges_filter_iff _ rfl i j).mp hedge with ⟨hlt, hedge, hkeep⟩
  rw [thin, tagged_ofEdges_iff, List.mem_filter, mem_edges_iff]
  constructor
  · rintro ⟨_, ⟨_, _, htagged⟩, _⟩
    exact htagged.symm
  · intro htagged
    refine ⟨lt_size_of_edge hedge, ⟨hlt, hedge, htagged.symm⟩, ?_⟩
    rw [show g.hasTaggedEdge i j = true from htagged] at hkeep
    exact hkeep

namespace InSessions

variable (hsessions : g.InSessions place) (hg : g.Regular)

include hsessions hg

/-- With one node in every place, the earliest target of a session is the one with the least height. -/
theorem edge_thin_iff_least (i j : Nat) : (g.thin place).Edge i j ↔ g.Edge i j ∧
    (isNext place i j = true ∨
      ∀ k, g.Edge i k → (place k).1 = (place j).1 → (place j).2 ≤ (place k).2) := by
  rw [edge_thin_iff hg]
  refine and_congr_right fun hedge => or_congr_right ⟨?_, ?_⟩
  · intro hfirst k hk hsame
    by_contra hlower
    have hbefore := (standsBefore_iff place k j).mpr ⟨hsame, Or.inl (Nat.lt_of_not_le hlower)⟩
    rw [hfirst k hk] at hbefore
    exact absurd hbefore Bool.false_ne_true
  · intro hleast k hk
    by_contra hbefore
    rw [Bool.not_eq_false, standsBefore_iff] at hbefore
    rcases hbefore with ⟨hsame, hlower | ⟨hheight, hlt⟩⟩
    · have := hleast k hk hsame
      omega
    · -- Two nodes in one place are one node, so the numbers never decide.
      have heq := hsessions.distinct k (hg.target_lt hk) j (hg.target_lt hedge)
        (Prod.ext hsame hheight)
      omega

/-- If an edge leads to a session, one that stays leads there, and at least as far down. -/
theorem exists_kept_edge (hedge : g.Edge i j) : ∃ k, (g.thin place).Edge i k ∧
    (place k).1 = (place j).1 ∧ (place k).2 ≤ (place j).2 := by
  -- An edge is dropped in favour of one that leads further down, and no session goes down forever.
  induction hheight : (place j).2 using Nat.strong_induction_on generalizing j with
  | _ height ih =>
    by_cases hkept : (g.thin place).Edge i j
    · exact ⟨j, hkept, rfl, Nat.le_of_eq hheight⟩
    · rw [hsessions.edge_thin_iff_least hg] at hkept
      push Not at hkept
      rcases (hkept hedge).2 with ⟨k, hk, hsame, hlower⟩
      rw [hheight] at hlower
      rcases ih (place k).2 hlower hk rfl with ⟨first, hfirst, hsession, hle⟩
      exact ⟨first, hfirst, hsession.trans hsame, by omega⟩

/-- A session leads from each of its nodes to the ones behind it, also in the thinned graph. -/
theorem path_along (hi : i < g.size) (hj : j < g.size) (hsame : (place i).1 = (place j).1)
    (hle : (place i).2 ≤ (place j).2) : ReflTransGen (g.thin place).Edge i j := by
  induction hheight : (place j).2 generalizing j with
  | zero =>
    have heq := hsessions.distinct i hi j hj (Prod.ext hsame (by omega))
    rw [heq]
  | succ height ih =>
    by_cases hlast : (place i).2 = (place j).2
    · rw [hsessions.distinct i hi j hj (Prod.ext hsame hlast)]
    · -- The node in the place before is reached already, and the edge from it stays.
      rcases hsessions.filled j hj height (by omega) with ⟨k, hk, hplace⟩
      have hnext : isNext place k j = true := by
        rw [isNext_iff, hplace]
        exact ⟨rfl, hheight⟩
      have hbefore : ReflTransGen (g.thin place).Edge i k := by
        refine ih hk ?_ ?_ ?_
        · rw [hplace]
          exact hsame
        · rw [hplace]
          simp only
          omega
        · rw [hplace]
      exact hbefore.tail ((edge_thin_iff hg k j).mpr
        ⟨hsessions.edge_next k hk j hj hnext, Or.inl hnext⟩)

theorem path_of_edge (hedge : g.Edge i j) : TransGen (g.thin place).Edge i j := by
  rcases hsessions.exists_kept_edge hg hedge with ⟨k, hkept, hsame, hle⟩
  have hk : k < g.size := hg.target_lt (edge_of_thin hkept)
  exact TransGen.head' hkept (hsessions.path_along hg hk (hg.target_lt hedge) hsame hle)

theorem path_thin_iff (i j : Nat) : TransGen (g.thin place).Edge i j ↔ TransGen g.Edge i j :=
  ⟨TransGen.mono (fun _ _ => edge_of_thin) i j,
    TransGen.closed (fun _ _ => hsessions.path_of_edge hg) i j⟩

theorem acyclic_thin_iff : Acyclic (g.thin place).Edge ↔ Acyclic g.Edge :=
  forall_congr' fun i => not_congr (hsessions.path_thin_iff hg i i)

/-- The closures of both graphs lead to the same nodes, whichever way they are computed. -/
theorem edge_closure_thin_iff (strategy strategy' : Strategy) (i j : Nat) :
    ((g.thin place).closure strategy).Edge i j ↔ (g.closure strategy').Edge i j := by
  by_cases hi : i < g.size
  · rw [edge_closure_iff hg strategy' hi, edge_closure_iff (Regular.thin place) strategy
      (by rw [size_thin]; exact hi), reflTransGen_iff_eq_or_transGen, reflTransGen_iff_eq_or_transGen,
      hsessions.path_thin_iff hg]
  · refine iff_of_false (fun hc => hi ?_) (fun hc => hi ?_)
    · have hlt := lt_size_of_edge hc
      rw [size_closure, size_thin] at hlt
      exact hlt
    · have hlt := lt_size_of_edge hc
      rw [size_closure] at hlt
      exact hlt

end InSessions

section Loops

variable {closed : TaggedGraph}

theorem taggedWalk_or_untagged (hpath : TransGen g.Edge i j) :
    g.TaggedWalk i j ∨ TransGen (fun a b => g.Edge a b ∧ ¬ g.Tagged a b) i j := by
  induction hpath with
  | @single j hedge =>
    by_cases htagged : g.Tagged i j
    · exact Or.inl (TaggedWalk.single hedge htagged)
    · exact Or.inr (TransGen.single ⟨hedge, htagged⟩)
  | @tail j k hpath hedge ih =>
    by_cases htagged : g.Tagged j k
    · exact Or.inl ((TaggedWalk.single hedge htagged).behind hpath.to_reflTransGen)
    · refine ih.imp (fun hwalk => ?_) (fun huntagged => ?_)
      · exact hwalk.append (ReflTransGen.single hedge)
      · exact huntagged.tail ⟨hedge, htagged⟩

theorem taggedWalk_of_cycle (huntagged : Acyclic fun a b => g.Edge a b ∧ ¬ g.Tagged a b)
    (hcycle : TransGen g.Edge i i) : g.TaggedWalk i i :=
  (taggedWalk_or_untagged hcycle).resolve_right (huntagged i)

/-- Where untagged edges form no cycle, the closure of the thinned graph has a tagged loop exactly if the
    graph has a cycle. -/
theorem hasTaggedLoop_thin_iff (hg : g.Regular) (hsessions : g.InSessions place)
    (huntagged : Acyclic fun a b => g.Edge a b ∧ ¬ g.Tagged a b) (strategy : Strategy) :
    ((g.thin place).closure strategy).hasTaggedLoop = true ↔ ¬ Acyclic g.Edge := by
  rw [← hsessions.acyclic_thin_iff hg]
  constructor
  · intro hloop hacyclic
    rcases exists_cycle_of_hasTaggedLoop (closure_within (Regular.thin place) strategy) hloop with
      ⟨i, hcycle⟩
    exact hacyclic i hcycle
  · intro hcyclic
    rw [Acyclic, not_forall] at hcyclic
    rcases hcyclic with ⟨i, hcycle⟩
    rw [not_not] at hcycle
    -- The edges that stay are tagged as before, so those without tags form no cycle either.
    have hthinned : Acyclic fun a b => (g.thin place).Edge a b ∧ ¬ (g.thin place).Tagged a b :=
      huntagged.mono fun a b hab => ⟨edge_of_thin hab.1, fun hc => hab.2 ((tagged_thin_iff hab.1).mpr hc)⟩
    have hwalk := taggedWalk_of_cycle hthinned hcycle
    rw [hasTaggedLoop, List.any_eq_true]
    refine ⟨i, ?_, (tagged_closure_iff (Regular.thin place) strategy i i).mpr hwalk⟩
    rw [mem_nodes_iff, size_closure]
    exact hwalk.lt_size

/-- What is found is an edge, the closure leads back from its end, and one of the two is tagged. -/
theorem cycleEdge?_spec (hfound : g.cycleEdge? closed = some (i, j)) :
    g.Edge i j ∧ closed.Edge j i ∧ (g.Tagged i j ∨ closed.Tagged j i) := by
  rcases Option.map_eq_some_iff.mp hfound with ⟨⟨a, b, tagged⟩, hfind, heq⟩
  rw [Prod.mk.injEq] at heq
  rcases heq with ⟨rfl, rfl⟩
  have hback := List.find?_some hfind
  rcases (mem_edges_iff a b tagged).mp (List.mem_of_find?_eq_some hfind) with ⟨_, hedge, rfl⟩
  rw [Bool.and_eq_true, Bool.or_eq_true] at hback
  exact ⟨hedge, hback.1, hback.2⟩

/-- If the closure leads back from the end of a tagged edge, some edge is found. -/
theorem exists_cycleEdge?_of_tagged (hg : g.Regular) (hedge : g.Edge i j) (htagged : g.Tagged i j)
    (hback : closed.Edge j i) : ∃ a b, g.cycleEdge? closed = some (a, b) := by
  have hsome : (g.cycleEdge? closed).isSome = true := by
    rw [cycleEdge?, Option.isSome_map, List.find?_isSome]
    refine ⟨(i, j, true), (mem_edges_iff i j true).mpr ⟨hg.target_lt hedge, hedge, htagged.symm⟩, ?_⟩
    simp only [Bool.true_or, Bool.and_true]
    exact hback
  rcases Option.isSome_iff_exists.mp hsome with ⟨⟨a, b⟩, hfound⟩
  exact ⟨a, b, hfound⟩

/-- If the closure of the thinned graph has a tagged loop, an edge of the graph is found although the graph
    has edges that the closure does not know of. A path leads back from its end, and the way around uses a
    tagged edge. -/
theorem exists_cycleEdge? (hg : g.Regular) (strategy : Strategy)
    (hloop : ((g.thin place).closure strategy).hasTaggedLoop = true) :
    ∃ i j, g.cycleEdge? ((g.thin place).closure strategy) = some (i, j) ∧ g.Edge i j ∧
      (g.Tagged i j ∧ ReflTransGen g.Edge j i ∨ g.TaggedWalk j i) := by
  have hwithin := closure_within (Regular.thin (g := g) place) strategy
  have hpath : ∀ {a b}, ReflTransGen (g.thin place).Edge a b → ReflTransGen g.Edge a b :=
    fun {a b} => ReflTransGen.mono (fun _ _ => edge_of_thin) a b
  rw [hasTaggedLoop, List.any_eq_true] at hloop
  rcases hloop with ⟨i, _, hloop⟩
  -- The way around the loop uses a tagged edge that has stayed.
  rcases hwithin.tagged hloop with ⟨a, b, hia, ⟨hedge, htagged⟩, hbi⟩
  have hlt : b < (g.thin place).size := (Regular.thin place).target_lt hedge
  have hback := (edge_closure_iff (Regular.thin place) strategy hlt a).mpr (hbi.trans hia)
  rcases exists_cycleEdge?_of_tagged hg (edge_of_thin hedge) ((tagged_thin_iff hedge).mp htagged)
    hback with ⟨x, y, hfound⟩
  rcases cycleEdge?_spec hfound with ⟨hxy, hyx, htag⟩
  refine ⟨x, y, hfound, hxy, htag.imp (fun htag => ⟨htag, hpath (hwithin.edge hyx)⟩) fun htag => ?_⟩
  rcases hwithin.tagged htag with ⟨c, d, hyc, ⟨hcd, htagged⟩, hdx⟩
  exact ⟨c, d, hpath hyc, ⟨edge_of_thin hcd, (tagged_thin_iff hcd).mp htagged⟩, hpath hdx⟩

end Loops

end TaggedGraph

end Isolation
