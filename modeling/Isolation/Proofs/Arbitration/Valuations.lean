import Isolation.Proofs.Arbitration.Ballots
import Isolation.Proofs.Precedence.Choices

/-!
# Valuations and Choices

The final graph of a valuation is computed from what is there under it: known edges by their literals, and
edges of the sides of constraints by theirs, each of which has a variable of its own. This is so for every
valuation, whether it respects the links or not.

A valuation that respects the links and under which everything counts is a choice of sides, and every choice
is such a valuation. The edges that are there are then the known ones and those of the sides picked, so the
final graph of the valuation has a cycle exactly if the choice is not acyclic. The search for a valuation is
a search for an acyclic choice.

## Main definitions

* `Arbitration.Respects`, `Arbitration.Counts`: The links hold; everything counts besides.

## Theorems

* `acyclic_finalGraph_iff`: A final graph has no cycle exactly if the choice is acyclic.
-/

namespace Isolation

open Isolation.Sat

variable {κ : Type}

theorem LabelledEdge.layer_eq_iff (e : LabelledEdge κ) :
    e.layer = .dependency ↔ e.isDependency = true := by
  unfold layer
  split
  · next hdep => exact ⟨fun _ => hdep, fun _ => rfl⟩
  · next hdep => exact ⟨fun hc => absurd hc (by decide), fun hc => absurd hc hdep⟩

theorem SideEdge.layer_eq_iff (e : SideEdge κ) : e.layer = .dependency ↔ e.kind ≠ .readWrite := by
  unfold layer
  split
  · next hkind => exact ⟨fun hc => absurd hc (by decide), fun hc => absurd hkind hc⟩
  · next hkind => exact ⟨fun _ => hkind, fun _ => rfl⟩

/-- The pairs of a layer: known edges, and edges of sides. -/
def Precedence.InLayer (g : Precedence κ) (edges : List (SideEdge κ)) (layer : Layer)
    (a b : TransactionId) : Prop :=
  (a ∈ g.nodes ∧ b ∈ g.nodes) ∧ (Precedence.HasEdge g.edges (fun e => e.layer = layer) a b ∨
    ∃ e ∈ edges, (a = e.source ∧ b = e.target) ∧ e.layer = layer)

section Layers

variable [DecidableEq κ] (g : Precedence κ) (edges : List (SideEdge κ))

theorem depends_eq_inLayer : (g.addSide edges).Depends = g.InLayer edges .dependency := by
  funext a b
  rw [Precedence.depends_addSide_iff, Precedence.Depends, Precedence.InLayer, ← and_or_left]
  simp only [LabelledEdge.layer_eq_iff, SideEdge.layer_eq_iff]

theorem linked_iff_inLayer (a b : TransactionId) : (g.addSide edges).Linked a b ↔
    g.InLayer edges .dependency a b ∨ g.InLayer edges .antiDependency a b := by
  rw [Precedence.linked_addSide_iff, Precedence.Linked, Precedence.InLayer, Precedence.InLayer,
    ← and_or_left, ← and_or_left]
  refine and_congr_right fun _ => ⟨?_, ?_⟩
  · rintro (⟨e, he, hsource, htarget, _⟩ | ⟨e, he, hends⟩)
    · cases hlayer : e.layer with
      | dependency => exact Or.inl (Or.inl ⟨e, he, hsource, htarget, hlayer⟩)
      | antiDependency => exact Or.inr (Or.inl ⟨e, he, hsource, htarget, hlayer⟩)
    · cases hlayer : e.layer with
      | dependency => exact Or.inl (Or.inr ⟨e, he, hends, hlayer⟩)
      | antiDependency => exact Or.inr (Or.inr ⟨e, he, hends, hlayer⟩)
  · rintro ((⟨e, he, hsource, htarget, _⟩ | ⟨e, he, hends, _⟩) |
      (⟨e, he, hsource, htarget, _⟩ | ⟨e, he, hends, _⟩))
    · exact Or.inl ⟨e, he, hsource, htarget, trivial⟩
    · exact Or.inr ⟨e, he, hends⟩
    · exact Or.inl ⟨e, he, hsource, htarget, trivial⟩
    · exact Or.inr ⟨e, he, hends⟩

end Layers

namespace Arbitration

/-- The links hold under a valuation. -/
def Respects (a : Arbitration) (valuation : Valuation) : Prop :=
  ∀ clause ∈ a.links, Clause.holds valuation clause = true

/-- Everything counts under a valuation, and the links hold. -/
structure Counts (a : Arbitration) (valuation : Valuation) : Prop where
  assumed : ∀ l ∈ a.assumptions, l.holds valuation = true
  respects : a.Respects valuation

/-- The pairs of a layer that are there under a valuation: known edges, by their numbers. -/
def KnownUnder (g : Precedence κ) (valuation : Valuation) (layer : Layer) (a b : TransactionId) : Prop :=
  ∃ e n, (knownEdges g)[n]? = some e ∧ (knownLiteral n).holds valuation = true ∧
    (a = e.source ∧ b = e.target) ∧ e.layer = layer

/-- The pairs of a layer that are there under a valuation: known edges, and edges of either side of a
    constraint, by the number of the constraint and their own. -/
def InLayerUnder (g : Precedence κ) (cs : List (Constraint κ)) (valuation : Valuation) (layer : Layer)
    (a b : TransactionId) : Prop :=
  KnownUnder g valuation layer a b ∨
  ∃ c ballot n direction e m, BallotOf g cs n c ballot ∧
    (c.within g direction)[m]? = some e ∧ (ballot.edgeLiteral direction m).holds valuation = true ∧
    (a = e.source ∧ b = e.target) ∧ e.layer = layer

section OfPrecedence

variable {g : Precedence κ} (hnodup : g.nodes.Nodup) (cs : List (Constraint κ))
  (options : AuditOptions)

theorem mem_knownEdges_iff (e : LabelledEdge κ) :
    e ∈ knownEdges g ↔ e ∈ g.edges ∧ e.source ∈ g.nodes ∧ e.target ∈ g.nodes := by
  have hlayers : e ∈ g.dependencies ++ g.antiDependencies ↔ e ∈ g.edges := by
    rw [List.mem_append, Precedence.dependencies, Precedence.antiDependencies, List.mem_filter,
      List.mem_filter, ← and_or_left, Bool.not_eq_true', and_iff_left_iff_imp]
    exact fun _ => Bool.eq_false_or_eq_true e.isDependency
  rw [knownEdges, List.mem_filter, Bool.and_eq_true, List.contains_iff_mem, List.contains_iff_mem,
    hlayers]

theorem mem_ballots_iff (b : Ballot) : b ∈ (ofPrecedence g cs options).ballots ↔
    ∃ c n, BallotOf g cs n c b := by
  constructor
  · intro hb
    rcases List.mem_iff_getElem?.mp hb with ⟨n, hn⟩
    rcases Ballot.exists_of_getElem?_ofConstraints hn with ⟨c, hc, _⟩
    exact ⟨c, n, hc, hn⟩
  · rintro ⟨c, n, hn⟩
    exact List.mem_of_getElem? hn.ballot_eq

include hnodup

theorem mem_knownArcs_iff (arc : Arc) : arc ∈ knownArcs g ↔
    ∃ e n, (knownEdges g)[n]? = some e ∧ arc.Joins g.nodes e.source e.target e.layer ∧
      arc.literal = knownLiteral n := by
  simp only [knownArcs, List.mem_filterMap, Prod.exists, List.mem_zipIdx_iff_getElem?,
    arc?_eq_some_iff hnodup]
  rfl

/-- The arcs are those of known edges, and those of edges between nodes of either side. -/
theorem mem_arcs_iff (arc : Arc) : arc ∈ (ofPrecedence g cs options).arcs ↔ arc ∈ knownArcs g ∨
    ∃ c ballot n direction e m, BallotOf g cs n c ballot ∧
      (c.within g direction)[m]? = some e ∧ arc.literal = ballot.edgeLiteral direction m ∧
      arc.Joins g.nodes e.source e.target e.layer := by
  rw [arcs, List.mem_append, List.mem_flatMap]
  refine or_congr_right ⟨?_, ?_⟩
  · rintro ⟨b, hb, harc⟩
    rcases (mem_ballots_iff cs options b).mp hb with ⟨c, n, hn⟩
    rcases Ballot.mem_sides_iff.mp harc with ⟨direction, hside⟩
    rcases List.mem_iff_getElem?.mp hside with ⟨m, hm⟩
    rw [hn.eq, Ballot.getElem?_arcs_iff hnodup, ← hn.eq] at hm
    rcases hm with ⟨e, he, hjoins, hliteral⟩
    exact ⟨c, b, n, direction, e, m, hn, he, hliteral, hjoins⟩
  · rintro ⟨c, b, n, direction, e, m, hn, he, hliteral, hjoins⟩
    have hside : (b.arcs direction)[m]? = some arc := by
      rw [hn.eq, Ballot.getElem?_arcs_iff hnodup, ← hn.eq]
      exact ⟨e, he, hjoins, hliteral⟩
    exact ⟨b, List.mem_of_getElem? hn.ballot_eq,
      Ballot.mem_sides_iff.mpr ⟨direction, List.mem_of_getElem? hside⟩⟩

theorem joins_of_mem_arcs {arc : Arc} (harc : arc ∈ (ofPrecedence g cs options).arcs) :
    ∃ a b layer, arc.Joins g.nodes a b layer := by
  rcases (mem_arcs_iff hnodup cs options arc).mp harc with harc | ⟨_, _, _, _, e, _, _, _, _, hjoins⟩
  · rcases (mem_knownArcs_iff hnodup arc).mp harc with ⟨e, _, _, hjoins, _⟩
    exact ⟨_, _, _, hjoins⟩
  · exact ⟨_, _, _, hjoins⟩

theorem bundled_ofPrecedence : (ofPrecedence g cs options).Bundled := by
  refine ⟨fun arc harc => ?_, rfl, rfl⟩
  rcases joins_of_mem_arcs hnodup cs options harc with ⟨_, _, _, hjoins⟩
  exact ⟨(List.getElem?_eq_some_iff.mp hjoins.source_eq).1,
    (List.getElem?_eq_some_iff.mp hjoins.target_eq).1⟩

theorem present_knownArcs_iff (valuation : Valuation) (layer : Layer) (i j : Nat) :
    Present (knownArcs g) valuation layer i j ↔
      ∃ a b, g.nodes[i]? = some a ∧ g.nodes[j]? = some b ∧ KnownUnder g valuation layer a b := by
  constructor
  · rintro ⟨arc, harc, ⟨rfl, rfl, rfl⟩, hholds⟩
    rcases (mem_knownArcs_iff hnodup arc).mp harc with ⟨e, n, he, hjoins, hliteral⟩
    rw [hliteral] at hholds
    exact ⟨_, _, hjoins.source_eq, hjoins.target_eq, e, n, he, hholds, ⟨rfl, rfl⟩,
      hjoins.layer_eq.symm⟩
  · rintro ⟨_, _, hi, hj, e, n, he, hholds, ⟨rfl, rfl⟩, hlayer⟩
    refine ⟨⟨i, j, layer, knownLiteral n⟩, ?_, ⟨rfl, rfl, rfl⟩, hholds⟩
    exact (mem_knownArcs_iff hnodup _).mpr ⟨e, n, he, ⟨hi, hj, hlayer.symm⟩, rfl⟩

/-- The arcs of a layer that are there stand for the pairs that are there. -/
theorem present_arcs_iff (valuation : Valuation) (layer : Layer) (i j : Nat) :
    Present (ofPrecedence g cs options).arcs valuation layer i j ↔
      ∃ a b, g.nodes[i]? = some a ∧ g.nodes[j]? = some b ∧ InLayerUnder g cs valuation layer a b := by
  constructor
  · rintro ⟨arc, harc, ⟨rfl, rfl, rfl⟩, hholds⟩
    rcases (mem_arcs_iff hnodup cs options arc).mp harc with
      harc | ⟨c, b, n, direction, e, m, hn, he, hliteral, hjoins⟩
    · rcases (present_knownArcs_iff hnodup valuation _ _ _).mp ⟨arc, harc, ⟨rfl, rfl, rfl⟩, hholds⟩ with
        ⟨x, y, hx, hy, hknown⟩
      exact ⟨x, y, hx, hy, Or.inl hknown⟩
    · rw [hliteral] at hholds
      exact ⟨_, _, hjoins.source_eq, hjoins.target_eq, Or.inr ⟨c, b, n, direction, e, m, hn, he, hholds,
        ⟨rfl, rfl⟩, hjoins.layer_eq.symm⟩⟩
  · rintro ⟨x, y, hx, hy, hknown | ⟨c, b, n, direction, e, m, hn, he, hholds, ⟨rfl, rfl⟩, hlayer⟩⟩
    · exact ((present_knownArcs_iff hnodup valuation layer i j).mpr ⟨x, y, hx, hy, hknown⟩).mono
        fun arc harc => (mem_arcs_iff hnodup cs options arc).mpr (Or.inl harc)
    · refine ⟨⟨i, j, layer, b.edgeLiteral direction m⟩, ?_, ⟨rfl, rfl, rfl⟩, hholds⟩
      exact (mem_arcs_iff hnodup cs options _).mpr
        (Or.inr ⟨c, b, n, direction, e, m, hn, he, rfl, hx, hy, hlayer.symm⟩)

omit hnodup in
theorem mem_nodes_of_inLayerUnder {valuation : Valuation} {layer : Layer} {a b : TransactionId}
    (hab : InLayerUnder g cs valuation layer a b) : a ∈ g.nodes ∧ b ∈ g.nodes := by
  rcases hab with ⟨e, n, he, _, ⟨rfl, rfl⟩, _⟩ | ⟨c, _, _, direction, e, m, _, he, _, ⟨rfl, rfl⟩, _⟩
  · exact ((mem_knownEdges_iff e).mp (List.mem_of_getElem? he)).2
  · exact (Constraint.mem_within_iff.mp (List.mem_of_getElem? he)).2

/-- The final graph of any valuation stands for what is computed from the pairs that are there. -/
theorem finalGraph_names_under (valuation : Valuation) :
    ((ofPrecedence g cs options).finalGraph valuation).Names g.nodes
      (Computed options.level (InLayerUnder g cs valuation .dependency)
        (InLayerUnder g cs valuation .antiDependency)) := by
  refine ⟨hnodup, fun i j => ?_, fun {a b} hab => ?_⟩
  · refine (edge_finalGraph_iff (bundled_ofPrecedence hnodup cs options) valuation i j).trans ?_
    exact Computed.names_iff (present_arcs_iff hnodup cs options valuation .dependency)
      (present_arcs_iff hnodup cs options valuation .antiDependency)
      (fun hab => (mem_nodes_of_inLayerUnder cs hab).2) i j
  · exact hab.mem (mem_nodes_of_inLayerUnder cs) (mem_nodes_of_inLayerUnder cs)

/-- The links of an arbitration hold exactly if, for every constraint that counts, the edges that are there
    are those of the side picked. -/
theorem respects_iff (valuation : Valuation) : (ofPrecedence g cs options).Respects valuation ↔
    ∀ c b n, BallotOf g cs n c b →
      b.active.holds valuation = true → ∀ direction e m, (c.within g direction)[m]? = some e →
        ((b.edgeLiteral direction m).holds valuation = true ↔ direction = b.picked valuation) := by
  simp only [Respects, links, List.forall_mem_flatMap, Ballot.holds_links_iff]
  constructor
  · -- An edge of a constraint is the edge of an arc, and the literals are the same.
    intro hall c b n hn hactive direction e m he
    rcases Ballot.exists_arc hnodup b.first he with ⟨arc, harc, _, hliteral⟩
    rw [← hn.eq] at harc hliteral
    rw [← hliteral]
    exact hall b (List.mem_of_getElem? hn.ballot_eq) hactive direction arc (List.mem_of_getElem? harc)
  · intro hall b hb hactive direction arc harc
    rcases (mem_ballots_iff cs options b).mp hb with ⟨c, n, hn⟩
    rcases List.mem_iff_getElem?.mp harc with ⟨m, hm⟩
    rw [hn.eq, Ballot.getElem?_arcs_iff hnodup, ← hn.eq] at hm
    rcases hm with ⟨e, he, _, hliteral⟩
    rw [hliteral]
    exact hall c b n hn hactive direction e m he

/-- The valuation of a choice respects the links, whatever is to count. -/
theorem respects_valuationFor (counts : Literal → Bool) (choice : Constraint κ → Direction) :
    (ofPrecedence g cs options).Respects (valuationFor g cs counts choice) := by
  rw [respects_iff hnodup]
  intro c b n hn hactive direction e m he
  rw [holds_active_valuationFor hn] at hactive
  rw [holds_edgeLiteral_valuationFor hn hnodup he, picked_valuationFor hn, hactive, Bool.true_and,
    decide_eq_true_eq]

end OfPrecedence

theorem mem_assumptions_iff (g : Precedence κ) (cs : List (Constraint κ)) (options : AuditOptions)
    (l : Literal) : l ∈ (ofPrecedence g cs options).assumptions ↔
      (∃ n < (knownEdges g).length, knownLiteral n = l) ∨
        ∃ c b n, BallotOf g cs n c b ∧ b.active = l := by
  rw [assumptions, List.mem_append, List.mem_map, List.mem_map]
  simp only [mem_ballots_iff, List.mem_range]
  refine or_congr Iff.rfl ⟨?_, ?_⟩
  · rintro ⟨b, ⟨c, n, hn⟩, hl⟩
    exact ⟨c, b, n, hn, hl⟩
  · rintro ⟨c, b, n, hn, hl⟩
    exact ⟨b, ⟨c, n, hn⟩, hl⟩

section Picks

variable [DecidableEq κ] {g : Precedence κ} {cs : List (Constraint κ)}

/-- The choice that a valuation makes. -/
def picks (g : Precedence κ) (cs : List (Constraint κ)) (valuation : Valuation) (c : Constraint κ) :
    Direction :=
  ((Ballot.ofConstraints g (knownEdges g).length cs)[cs.idxOf c]?.map fun b =>
    b.picked valuation).getD .forward

theorem picks_eq_picked (hcs : cs.Nodup) {n : Nat} {c : Constraint κ} {b : Ballot}
    (hb : BallotOf g cs n c b) (valuation : Valuation) :
    picks g cs valuation c = b.picked valuation := by
  rw [picks, idxOf_eq_of_getElem? hcs hb.constraint_eq, hb.ballot_eq, Option.map_some,
    Option.getD_some]

theorem picks_valuationFor (counts : Literal → Bool) (choice : Constraint κ → Direction)
    {c : Constraint κ} (hc : c ∈ cs) : picks g cs (valuationFor g cs counts choice) c = choice c := by
  have hget : cs[cs.idxOf c]? = some c := by
    rw [List.getElem?_eq_getElem (List.idxOf_lt_length_of_mem hc), List.getElem_idxOf]
  rcases exists_ballotOf g hget with ⟨b, hb⟩
  rw [picks, hb.ballot_eq, Option.map_some, Option.getD_some, picked_valuationFor hb]

variable (hnodup : g.nodes.Nodup)

include hnodup

omit [DecidableEq κ] in
/-- If everything is to count, it does. -/
theorem counts_valuationFor (cs : List (Constraint κ)) (options : AuditOptions)
    (choice : Constraint κ → Direction) :
    (ofPrecedence g cs options).Counts (valuationFor g cs (fun _ => true) choice) := by
  refine ⟨fun l hl => ?_, respects_valuationFor hnodup cs options _ choice⟩
  rcases (mem_assumptions_iff g cs options l).mp hl with ⟨n, hn, rfl⟩ | ⟨c, b, n, hb, rfl⟩
  · exact holds_knownLiteral_valuationFor hn
  · exact holds_active_valuationFor hb

variable (hcs : cs.Nodup) {options : AuditOptions} {valuation : Valuation}
  (hcounts : (ofPrecedence g cs options).Counts valuation)

include hcs hcounts

/-- If everything counts, what is there are the known edges and the edges of the sides picked. -/
theorem inLayerUnder_eq (layer : Layer) :
    InLayerUnder g cs valuation layer = g.InLayer (chosenEdges cs (picks g cs valuation)) layer := by
  have hassumed : ∀ {l : Literal}, _ → l.holds valuation = true := fun {l} hl =>
    hcounts.assumed l ((mem_assumptions_iff g cs options l).mpr hl)
  have hlinks := (respects_iff hnodup cs options valuation).mp hcounts.respects
  funext a b
  refine propext ⟨?_, ?_⟩
  · rintro (⟨e, n, he, _, ⟨rfl, rfl⟩, hlayer⟩ |
      ⟨c, ballot, n, direction, e, m, hn, he, hholds, ⟨rfl, rfl⟩, hlayer⟩)
    · have hmem := (mem_knownEdges_iff e).mp (List.mem_of_getElem? he)
      exact ⟨hmem.2, Or.inl ⟨e, hmem.1, rfl, rfl, hlayer⟩⟩
    · have hmem := Constraint.mem_within_iff.mp (List.mem_of_getElem? he)
      rw [hlinks c ballot n hn (hassumed (Or.inr ⟨c, ballot, n, hn, rfl⟩)) direction e m he,
        ← picks_eq_picked hcs hn] at hholds
      rw [hholds] at hmem
      have hc := List.mem_of_getElem? hn.constraint_eq
      exact ⟨hmem.2, Or.inr ⟨e, mem_chosenEdges_iff.mpr ⟨c, hc, hmem.1⟩, ⟨rfl, rfl⟩, hlayer⟩⟩
  · rintro ⟨hnodes, ⟨e, he, rfl, rfl, hlayer⟩ | ⟨e, he, ⟨rfl, rfl⟩, hlayer⟩⟩
    · rcases List.mem_iff_getElem?.mp ((mem_knownEdges_iff e).mpr ⟨he, hnodes⟩) with ⟨n, hn⟩
      have hlt := (List.getElem?_eq_some_iff.mp hn).1
      exact Or.inl ⟨e, n, hn, hassumed (Or.inl ⟨n, hlt, rfl⟩), ⟨rfl, rfl⟩, hlayer⟩
    · rcases mem_chosenEdges_iff.mp he with ⟨c, hc, hside⟩
      rcases List.mem_iff_getElem?.mp hc with ⟨n, hc⟩
      rcases exists_ballotOf g hc with ⟨ballot, hn⟩
      rcases List.mem_iff_getElem?.mp (Constraint.mem_within_iff.mpr ⟨hside, hnodes⟩) with ⟨m, hm⟩
      refine Or.inr ⟨c, ballot, n, _, e, m, hn, hm, ?_, ⟨rfl, rfl⟩, hlayer⟩
      rw [hlinks c ballot n hn (hassumed (Or.inr ⟨c, ballot, n, hn, rfl⟩)) _ e m hm]
      exact picks_eq_picked hcs hn valuation

/-- The final graph stands for what is computed from the known graph with the sides picked. -/
theorem finalGraph_names : ((ofPrecedence g cs options).finalGraph valuation).Names g.nodes
    (Computed options.level (g.InLayer (chosenEdges cs (picks g cs valuation)) .dependency)
      (g.InLayer (chosenEdges cs (picks g cs valuation)) .antiDependency)) := by
  rw [← inLayerUnder_eq hnodup hcs hcounts, ← inLayerUnder_eq hnodup hcs hcounts]
  exact finalGraph_names_under hnodup cs options valuation

/-- The final graph has no cycle exactly if the choice is acyclic. -/
theorem acyclic_finalGraph_iff :
    Acyclic ((ofPrecedence g cs options).finalGraph valuation).Edge ↔
      g.AcyclicChoice cs options.level (picks g cs valuation) := by
  rw [(finalGraph_names hnodup hcs hcounts).acyclic_iff,
    acyclic_computed_iff (linked_iff_inLayer g _), Precedence.AcyclicChoice, Precedence.Ordering,
    depends_eq_inLayer]

end Picks

end Arbitration

end Isolation
