import Isolation.Arbitration.Conflict
import Isolation.Proofs.Arbitration.Valuations

/-!
# Parts of a Question

Assumptions single out some known edges and some constraints, and to ask under them is to ask about this
part of the question. `Feasible` says it in valuations: some valuation that satisfies the assumptions and the
links has a final graph without cycles. `Orderable` says it without numbers and without variables: some
choice of one side for every constraint of the part leaves no cycle, with no edges but those of the part.

The two are the same, although a valuation is free in what is not assumed. If a constraint is not assumed to
count, its links say nothing about its edges, and any of them may be there, of one side or of both. They
only add to the final graph, so a valuation without cycles gives a choice; and for a choice there is the
valuation that lets nothing be there but what is assumed.

## Main definitions

* `Precedence.Orderable`: Known edges and constraints that can be put in order.

## Theorems

* `feasible_iff_orderable`: What assumptions mean.
-/

namespace Isolation

open Isolation.Sat

variable {κ : Type}

/-- Some choice of sides leaves no cycle in what known edges and constraints amount to at a level. Only
    edges between transactions of the graph belong to it. -/
def Precedence.Orderable (g : Precedence κ) (level : IsolationLevel) (edges : List (LabelledEdge κ))
    (cs : List (Constraint κ)) : Prop :=
  ∃ choice : Constraint κ → Direction, Acyclic (Computed level
    ({ g with edges := edges }.InLayer (chosenEdges cs choice) .dependency)
    ({ g with edges := edges }.InLayer (chosenEdges cs choice) .antiDependency))

theorem Precedence.Orderable.mono {g : Precedence κ} {level : IsolationLevel}
    {edges edges' : List (LabelledEdge κ)} {cs cs' : List (Constraint κ)}
    (horderable : g.Orderable level edges' cs') (hedges : ∀ e ∈ edges, e ∈ edges')
    (hcs : ∀ c ∈ cs, c ∈ cs') : g.Orderable level edges cs := by
  rcases horderable with ⟨choice, hacyclic⟩
  have hlayer : ∀ layer a b, { g with edges := edges }.InLayer (chosenEdges cs choice) layer a b →
      { g with edges := edges' }.InLayer (chosenEdges cs' choice) layer a b := by
    rintro layer a b ⟨hnodes, ⟨e, he, hends⟩ | ⟨e, he, hends⟩⟩
    · exact ⟨hnodes, Or.inl ⟨e, hedges e he, hends⟩⟩
    · rcases mem_chosenEdges_iff.mp he with ⟨c, hc, he⟩
      exact ⟨hnodes, Or.inr ⟨e, mem_chosenEdges_iff.mpr ⟨c, hcs c hc, he⟩, hends⟩⟩
  exact ⟨choice, hacyclic.mono fun _ _ => Computed.mono (hlayer .dependency) (hlayer .antiDependency)⟩

namespace Arbitration

/-- Some valuation that satisfies the assumptions and the links has a final graph without cycles. -/
def Feasible (a : Arbitration) (assumptions : List Literal) : Prop :=
  ∃ valuation, (∀ l ∈ assumptions, l.holds valuation = true) ∧ a.Respects valuation ∧
    Acyclic (a.finalGraph valuation).Edge

theorem Feasible.mono {a : Arbitration} {fewer assumptions : List Literal}
    (hfeasible : a.Feasible assumptions) (hsub : ∀ l ∈ fewer, l ∈ assumptions) : a.Feasible fewer := by
  rcases hfeasible with ⟨valuation, hholds, hrest⟩
  exact ⟨valuation, fun l hl => hholds l (hsub l hl), hrest⟩

section Behind

variable {g : Precedence κ} {cs : List (Constraint κ)} {core : List Literal}

theorem nodup_keys_knownTable : ((List.range (knownEdges g).length).map knownLiteral).Nodup :=
  List.nodup_range.map fun _ _ heq => (Literal.mk.inj heq).1

theorem nodup_keys_constraintTable :
    ((Ballot.ofConstraints g (knownEdges g).length cs).map Ballot.active).Nodup := by
  refine List.pairwise_map.mpr ((Ballot.pairwise_ofConstraints _ cs).imp fun {b b'} hle heq => ?_)
  have hfirst : b.first = b'.first := (Literal.mk.inj heq).1
  have hlt := b.first_lt_next
  omega

theorem lookup_knownTable_iff {l : Literal} {e : LabelledEdge κ} :
    (knownTable g).lookup l = some e ↔ ∃ n, (knownEdges g)[n]? = some e ∧ knownLiteral n = l := by
  rw [knownTable, lookup_zip_eq_some_iff nodup_keys_knownTable
    (by rw [List.length_map, List.length_range])]
  refine exists_congr fun n => ?_
  rw [List.getElem?_map, Option.map_eq_some_iff, and_comm]
  refine and_congr_right fun he => ?_
  rw [List.getElem?_range (List.getElem?_eq_some_iff.mp he).1]
  simp only [Option.some.injEq, exists_eq_left']

theorem lookup_constraintTable_iff {l : Literal} {c : Constraint κ} :
    (constraintTable g cs).lookup l = some c ↔ ∃ n b, BallotOf g cs n c b ∧ b.active = l := by
  rw [constraintTable, lookup_zip_eq_some_iff nodup_keys_constraintTable
    (by rw [List.length_map, Ballot.length_ofConstraints])]
  refine exists_congr fun n => ?_
  rw [List.getElem?_map, Option.map_eq_some_iff]
  constructor
  · rintro ⟨⟨b, hb, hl⟩, hc⟩
    exact ⟨b, ⟨hc, hb⟩, hl⟩
  · rintro ⟨b, hb, hl⟩
    exact ⟨⟨b, hb.ballot_eq, hl⟩, hb.constraint_eq⟩

theorem mem_behind_edges_iff (cs : List (Constraint κ)) (e : LabelledEdge κ) :
    e ∈ (behind g cs core).edges ↔ ∃ n, (knownEdges g)[n]? = some e ∧ knownLiteral n ∈ core := by
  simp only [behind, List.mem_filterMap, lookup_knownTable_iff]
  constructor
  · rintro ⟨l, hl, n, he, rfl⟩
    exact ⟨n, he, hl⟩
  · rintro ⟨n, he, hl⟩
    exact ⟨_, hl, n, he, rfl⟩

theorem mem_behind_constraints_iff (c : Constraint κ) : c ∈ (behind g cs core).constraints ↔
    ∃ n b, BallotOf g cs n c b ∧ b.active ∈ core := by
  simp only [behind, List.mem_filterMap, lookup_constraintTable_iff]
  constructor
  · rintro ⟨l, hl, n, b, hb, rfl⟩
    exact ⟨n, b, hb, hl⟩
  · rintro ⟨n, b, hb, hl⟩
    exact ⟨_, hl, n, b, hb, rfl⟩

end Behind

section Feasible

variable {g : Precedence κ} (hnodup : g.nodes.Nodup) {cs : List (Constraint κ)}
  {options : AuditOptions} {assumptions : List Literal}

include hnodup

theorem inLayer_of_valuationFor {choice : Constraint κ → Direction} {layer : Layer}
    {a b : TransactionId}
    (hab : InLayerUnder g cs (valuationFor g cs assumptions.contains choice) layer a b) :
    { g with edges := (behind g cs assumptions).edges }.InLayer
      (chosenEdges (behind g cs assumptions).constraints choice) layer a b := by
  have hnodes : a ∈ g.nodes ∧ b ∈ g.nodes := mem_nodes_of_inLayerUnder cs hab
  refine ⟨hnodes, ?_⟩
  rcases hab with ⟨e, n, he, hholds, ⟨rfl, rfl⟩, hlayer⟩ |
    ⟨c, ballot, n, direction, e, m, hn, he, hholds, hends, hlayer⟩
  · rw [holds_knownLiteral_valuationFor (List.getElem?_eq_some_iff.mp he).1, List.contains_iff_mem]
      at hholds
    exact Or.inl ⟨e, (mem_behind_edges_iff cs e).mpr ⟨n, he, hholds⟩, rfl, rfl, hlayer⟩
  · rw [holds_edgeLiteral_valuationFor hn hnodup he, Bool.and_eq_true, List.contains_iff_mem,
      decide_eq_true_eq] at hholds
    have hmem := (Constraint.mem_within_iff.mp (List.mem_of_getElem? he)).1
    rw [hholds.2] at hmem
    have hc := (mem_behind_constraints_iff c).mpr ⟨n, ballot, hn, hholds.1⟩
    exact Or.inr ⟨e, mem_chosenEdges_iff.mpr ⟨c, hc, hmem⟩, hends, hlayer⟩

/-- A valuation that satisfies assumptions and has no cycle picks sides for the constraints assumed. -/
theorem Feasible.orderable (hfeasible : (ofPrecedence g cs options).Feasible assumptions) :
    g.Orderable options.level (behind g cs assumptions).edges
      (behind g cs assumptions).constraints := by
  classical
  rcases hfeasible with ⟨valuation, hholds, hrespects, hacyclic⟩
  rw [(finalGraph_names_under hnodup cs options valuation).acyclic_iff] at hacyclic
  rw [respects_iff hnodup] at hrespects
  -- A constraint that is listed twice may have been picked both ways; any of its numbers will do.
  let choice : Constraint κ → Direction := fun c =>
    if hc : ∃ b n, BallotOf g cs n c b ∧ b.active ∈ assumptions then hc.choose.picked valuation
    else .forward
  have hlayer : ∀ layer a b,
      { g with edges := (behind g cs assumptions).edges }.InLayer
        (chosenEdges (behind g cs assumptions).constraints choice) layer a b →
      InLayerUnder g cs valuation layer a b := by
    rintro layer a b ⟨hnodes, ⟨e, he, rfl, rfl, hends⟩ | ⟨e, he, ⟨rfl, rfl⟩, hsame⟩⟩
    · rcases (mem_behind_edges_iff cs e).mp he with ⟨n, he, hmem⟩
      exact Or.inl ⟨e, n, he, hholds _ hmem, ⟨rfl, rfl⟩, hends⟩
    · rcases mem_chosenEdges_iff.mp he with ⟨c, hc, he⟩
      rcases (mem_behind_constraints_iff c).mp hc with ⟨n, b, hb, hmem⟩
      have hlisted : ∃ b n, BallotOf g cs n c b ∧ b.active ∈ assumptions := ⟨b, n, hb, hmem⟩
      rcases hlisted.choose_spec with ⟨n, hn, hassumed⟩
      rw [show choice c = hlisted.choose.picked valuation from dif_pos hlisted] at he
      rcases List.mem_iff_getElem?.mp (Constraint.mem_within_iff.mpr ⟨he, hnodes⟩) with ⟨m, hm⟩
      refine Or.inr ⟨c, _, n, _, e, m, hn, hm, ?_, ⟨rfl, rfl⟩, hsame⟩
      exact (hrespects c _ n hn (hholds _ hassumed) _ e m hm).mpr rfl
  exact ⟨choice, hacyclic.mono fun _ _ => Computed.mono (hlayer .dependency) (hlayer .antiDependency)⟩

/-- Assumptions are feasible exactly if what stands behind them can be ordered. -/
theorem feasible_iff_orderable (hsub : ∀ l ∈ assumptions, l ∈ (ofPrecedence g cs options).assumptions) :
    (ofPrecedence g cs options).Feasible assumptions ↔
      g.Orderable options.level (behind g cs assumptions).edges
        (behind g cs assumptions).constraints := by
  refine ⟨Feasible.orderable hnodup, ?_⟩
  rintro ⟨choice, hacyclic⟩
  refine ⟨valuationFor g cs assumptions.contains choice, fun l hl => ?_,
    respects_valuationFor hnodup cs options _ choice, ?_⟩
  · rcases (mem_assumptions_iff g cs options l).mp (hsub l hl) with ⟨n, hn, rfl⟩ | ⟨c, b, n, hb, rfl⟩
    · rw [holds_knownLiteral_valuationFor hn, List.contains_iff_mem]
      exact hl
    · rw [holds_active_valuationFor hb, List.contains_iff_mem]
      exact hl
  · rw [(finalGraph_names_under hnodup cs options _).acyclic_iff]
    exact hacyclic.mono fun _ _ => Computed.mono (fun _ _ => inLayer_of_valuationFor hnodup)
      (fun _ _ => inLayer_of_valuationFor hnodup)

end Feasible

end Arbitration

end Isolation
