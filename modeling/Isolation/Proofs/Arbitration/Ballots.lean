import Isolation.Proofs.Arbitration.Arcs
import Isolation.Proofs.Sat.Models

/-!
# Ballots and Their Variables

The variables of a constraint follow each other, and those of the next constraint come behind them. Every
edge of a side that lies between nodes has a variable of its own, found by its number among these edges.
The links say one thing: if the constraint counts, the edges of a side are there exactly if the side is
picked.

For every choice of sides, and for whatever is to count, there is a valuation that satisfies the links. It
lets the edges of the sides chosen be there, and no edge of a constraint that does not count.

## Main definitions

* `Arbitration.valuationFor`: The valuation that makes a choice and lets only a part count.

## Theorems

* `valuationFor_eq`: The valuation of a choice, variable by variable.
-/

namespace Isolation

open Isolation.Sat

variable {κ : Type} {direction : Direction}

/-- The arc stands for an edge between transactions. -/
structure Arc.Joins (arc : Arc) (nodes : List TransactionId) (source target : TransactionId)
    (layer : Layer) : Prop where
  source_eq : nodes[arc.source]? = some source
  target_eq : nodes[arc.target]? = some target
  layer_eq : arc.layer = layer

/-- The edges of a side between nodes. -/
def Constraint.within (c : Constraint κ) (g : Precedence κ) (direction : Direction) :
    List (SideEdge κ) :=
  (c.edges direction).filter fun e => g.nodes.contains e.source && g.nodes.contains e.target

theorem Constraint.mem_within_iff {c : Constraint κ} {g : Precedence κ} {e : SideEdge κ} :
    e ∈ c.within g direction ↔
      e ∈ c.edges direction ∧ e.source ∈ g.nodes ∧ e.target ∈ g.nodes := by
  rw [within, List.mem_filter, Bool.and_eq_true, List.contains_iff_mem, List.contains_iff_mem]

section Numbering

variable {g : Precedence κ} (hnodup : g.nodes.Nodup)

include hnodup

theorem arc?_eq_some_iff {source target : TransactionId} {layer : Layer} {index : Nat} {arc : Arc} :
    g.arc? source target layer index = some arc ↔
      arc.Joins g.nodes source target layer ∧ arc.literal = ⟨index, true⟩ := by
  simp only [Precedence.arc?, Option.bind_eq_bind, Option.pure_def, Option.bind_eq_some_iff,
    Option.some.injEq, Precedence.index?_eq_some_iff hnodup]
  constructor
  · rintro ⟨i, hi, j, hj, rfl⟩
    exact ⟨⟨hi, hj, rfl⟩, rfl⟩
  · rcases arc with ⟨i, j, sort, literal⟩
    rintro ⟨⟨hi, hj, rfl⟩, rfl⟩
    exact ⟨i, hi, j, hj, rfl⟩

theorem arc?_eq_none_iff {source target : TransactionId} {layer : Layer} {index : Nat} :
    g.arc? source target layer index = none ↔
      (g.nodes.contains source && g.nodes.contains target) = false := by
  rw [← Bool.not_eq_true, Bool.and_eq_true, List.contains_iff_mem, List.contains_iff_mem,
    Option.eq_none_iff_forall_ne_some]
  constructor
  · rintro hnone ⟨hsource, htarget⟩
    rcases List.mem_iff_getElem?.mp hsource with ⟨i, hi⟩
    rcases List.mem_iff_getElem?.mp htarget with ⟨j, hj⟩
    exact hnone ⟨i, j, layer, ⟨index, true⟩⟩ ((arc?_eq_some_iff hnodup).mpr ⟨⟨hi, hj, rfl⟩, rfl⟩)
  · intro hnot arc harc
    rcases (arc?_eq_some_iff hnodup).mp harc with ⟨⟨hi, hj, _⟩, _⟩
    exact hnot ⟨List.mem_of_getElem? hi, List.mem_of_getElem? hj⟩

/-- The arcs of edges are those of the edges between nodes, with variables by their numbers. -/
theorem getElem?_sideArcs_iff (edges : List (SideEdge κ)) (index m : Nat) (arc : Arc) :
    (sideArcs g index edges)[m]? = some arc ↔
      ∃ e, (edges.filter fun e => g.nodes.contains e.source && g.nodes.contains e.target)[m]? = some e ∧
        arc.Joins g.nodes e.source e.target e.layer ∧ arc.literal = ⟨index + m, true⟩ := by
  induction edges generalizing index m with
  | nil => simp only [sideArcs, List.filter_nil, List.getElem?_nil, reduceCtorEq, false_and, exists_false]
  | cons e rest ih =>
    rw [sideArcs]
    split
    · next found hfound =>
        have hinside : (g.nodes.contains e.source && g.nodes.contains e.target) = true := by
          rw [← Bool.not_eq_false, ← arc?_eq_none_iff hnodup, hfound]
          exact Option.some_ne_none found
        rw [List.filter_cons, if_pos hinside]
        cases m with
        | zero =>
          simp only [List.getElem?_cons_zero, Option.some.injEq, exists_eq_left', Nat.add_zero]
          rw [← arc?_eq_some_iff hnodup, hfound, Option.some.injEq]
        | succ m =>
          rw [List.getElem?_cons_succ, List.getElem?_cons_succ, ih, Nat.add_assoc, Nat.add_comm 1 m]
    · next hnone =>
        rw [arc?_eq_none_iff hnodup, ← Bool.not_eq_true] at hnone
        rw [List.filter_cons, if_neg hnone, ih]

end Numbering

namespace Ballot

/-- An edge of a side is there, by its number among the edges between nodes. -/
def edgeLiteral (b : Ballot) (direction : Direction) (m : Nat) : Literal :=
  match direction with
  | .forward => ⟨b.first + 2 + m, true⟩
  | .backward => ⟨b.first + 2 + b.forward.length + m, true⟩

/-- The side that a valuation picks. -/
def picked (b : Ballot) (valuation : Valuation) : Direction :=
  if valuation (b.first + 1) then .forward else .backward

theorem holds_side_iff (b : Ballot) (valuation : Valuation) (direction : Direction) :
    (b.side direction).holds valuation = true ↔ direction = b.picked valuation := by
  simp only [picked, Literal.holds, side, beq_iff_eq]
  cases valuation (b.first + 1) <;> cases direction <;> decide

theorem mem_sides_iff {b : Ballot} {arc : Arc} :
    arc ∈ b.forward ++ b.backward ↔ ∃ direction, arc ∈ b.arcs direction := by
  rw [List.mem_append]
  constructor
  · rintro (harc | harc)
    · exact ⟨.forward, harc⟩
    · exact ⟨.backward, harc⟩
  · rintro ⟨direction, harc⟩
    cases direction with
    | forward => exact Or.inl harc
    | backward => exact Or.inr harc

/-- The links are about the first two variables of the ballot and about those of the edges. -/
theorem index_of_mem_links {b : Ballot} {clause : Clause} (hclause : clause ∈ b.links) {l : Literal}
    (hl : l ∈ clause) : l.index ≤ b.first + 1 ∨
      ∃ arc ∈ b.forward ++ b.backward, l.index = arc.literal.index := by
  have hside : ∃ direction, clause ∈ b.sideLinks direction :=
    (List.mem_append.mp hclause).elim (fun hside => ⟨_, hside⟩) fun hside => ⟨_, hside⟩
  rcases hside with ⟨direction, hside⟩
  rcases List.mem_flatMap.mp hside with ⟨arc, harc, hlink⟩
  have harc := mem_sides_iff.mpr ⟨direction, harc⟩
  rcases List.mem_cons.mp hlink with rfl | hlink
  · simp only [List.mem_cons, List.not_mem_nil, or_false] at hl
    rcases hl with rfl | rfl | rfl
    · exact Or.inl (Nat.le_succ b.first)
    · exact Or.inl (Nat.le_refl _)
    · exact Or.inr ⟨arc, harc, rfl⟩
  · rw [List.mem_singleton.mp hlink] at hl
    simp only [List.mem_cons, List.not_mem_nil, or_false] at hl
    rcases hl with rfl | rfl | rfl
    · exact Or.inl (Nat.le_succ b.first)
    · exact Or.inl (Nat.le_refl _)
    · exact Or.inr ⟨arc, harc, rfl⟩

section Constraints

variable {g : Precedence κ} {first n : Nat} {cs : List (Constraint κ)} {b : Ballot}

theorem getElem?_arcs_iff (hnodup : g.nodes.Nodup) (c : Constraint κ) (direction : Direction) (m : Nat)
    (arc : Arc) : ((ofConstraint g first c).arcs direction)[m]? = some arc ↔
      ∃ e, (c.within g direction)[m]? = some e ∧ arc.Joins g.nodes e.source e.target e.layer ∧
        arc.literal = (ofConstraint g first c).edgeLiteral direction m := by
  cases direction with
  | forward => exact getElem?_sideArcs_iff hnodup c.forward (first + 2) m arc
  | backward => exact getElem?_sideArcs_iff hnodup c.backward _ m arc

theorem exists_arc (hnodup : g.nodes.Nodup) (first : Nat) {c : Constraint κ} {m : Nat} {e : SideEdge κ}
    (he : (c.within g direction)[m]? = some e) :
    ∃ arc, ((ofConstraint g first c).arcs direction)[m]? = some arc ∧
      arc.Joins g.nodes e.source e.target e.layer ∧
      arc.literal = (ofConstraint g first c).edgeLiteral direction m := by
  rcases (Constraint.mem_within_iff.mp (List.mem_of_getElem? he)).2 with ⟨hsource, htarget⟩
  rcases List.mem_iff_getElem?.mp hsource with ⟨i, hi⟩
  rcases List.mem_iff_getElem?.mp htarget with ⟨j, hj⟩
  have hjoins : (Arc.mk i j e.layer ((ofConstraint g first c).edgeLiteral direction m)).Joins g.nodes
      e.source e.target e.layer := ⟨hi, hj, rfl⟩
  exact ⟨_, (getElem?_arcs_iff hnodup c direction m _).mpr ⟨e, he, hjoins, rfl⟩, hjoins, rfl⟩

theorem edgeLiteral_lt {m : Nat} (hm : m < (b.arcs direction).length) :
    (b.edgeLiteral direction m).index < b.next := by
  cases direction with
  | forward =>
    have hm : m < b.forward.length := hm
    simp only [edgeLiteral, next]
    omega
  | backward =>
    have hm : m < b.backward.length := hm
    simp only [edgeLiteral, next]
    omega

theorem length_ofConstraints (first : Nat) (cs : List (Constraint κ)) :
    (ofConstraints g first cs).length = cs.length := by
  induction cs generalizing first with
  | nil => rfl
  | cons c rest ih => rw [ofConstraints, List.length_cons, List.length_cons, ih]

theorem exists_of_getElem?_ofConstraints (hb : (ofConstraints g first cs)[n]? = some b) :
    ∃ c, cs[n]? = some c ∧ b = ofConstraint g b.first c := by
  induction cs generalizing first n with
  | nil => exact absurd hb (by simp only [ofConstraints, List.getElem?_nil, reduceCtorEq,
      not_false_eq_true])
  | cons c rest ih =>
    cases n with
    | zero =>
      rw [ofConstraints, List.getElem?_cons_zero, Option.some.injEq] at hb
      exact ⟨c, rfl, by rw [← hb]; rfl⟩
    | succ n =>
      rw [ofConstraints, List.getElem?_cons_succ] at hb
      exact ih hb

theorem first_lt_next (b : Ballot) : b.first + 1 < b.next := by
  rw [next]
  omega

theorem le_first (hb : b ∈ ofConstraints g first cs) : first ≤ b.first := by
  induction cs generalizing first with
  | nil => exact absurd hb List.not_mem_nil
  | cons c rest ih =>
    rcases List.mem_cons.mp hb with rfl | hb
    · exact Nat.le_refl first
    · have hnext := first_lt_next (ofConstraint g first c)
      have hfirst : (ofConstraint g first c).first = first := rfl
      exact Nat.le_trans (by omega) (ih hb)

theorem pairwise_ofConstraints (first : Nat) (cs : List (Constraint κ)) :
    (ofConstraints g first cs).Pairwise fun b b' => b.next ≤ b'.first := by
  induction cs generalizing first with
  | nil => exact List.Pairwise.nil
  | cons c rest ih => exact List.Pairwise.cons (fun b hb => le_first hb) (ih _)

theorem le_foldl_next (first : Nat) (cs : List (Constraint κ)) :
    first ≤ (ofConstraints g first cs).foldl (fun _ b => b.next) first := by
  induction cs generalizing first with
  | nil => exact Nat.le_refl first
  | cons c rest ih =>
    have hnext := first_lt_next (ofConstraint g first c)
    have hfirst : (ofConstraint g first c).first = first := rfl
    exact Nat.le_trans (by omega) (ih (ofConstraint g first c).next)

theorem next_le_foldl_next (hb : b ∈ ofConstraints g first cs) :
    b.next ≤ (ofConstraints g first cs).foldl (fun _ b => b.next) first := by
  induction cs generalizing first with
  | nil => exact absurd hb List.not_mem_nil
  | cons c rest ih =>
    rcases List.mem_cons.mp hb with rfl | hb
    · exact le_foldl_next _ rest
    · exact ih hb

end Constraints

/-- The links say: if the constraint counts, the edges of a side are there exactly if it is picked. -/
theorem holds_links_iff (b : Ballot) (valuation : Valuation) :
    (∀ clause ∈ b.links, Clause.holds valuation clause = true) ↔
      (b.active.holds valuation = true → ∀ direction, ∀ arc ∈ b.arcs direction,
        (arc.literal.holds valuation = true ↔ direction = b.picked valuation)) := by
  have hside : ∀ direction, (∀ clause ∈ b.sideLinks direction, Clause.holds valuation clause = true) ↔
      ∀ arc ∈ b.arcs direction, b.active.holds valuation = true →
        (arc.literal.holds valuation = true ↔ direction = b.picked valuation) := by
    intro direction
    simp only [sideLinks, List.forall_mem_flatMap, List.forall_mem_cons, List.not_mem_nil,
      IsEmpty.forall_iff, implies_true, and_true, ← holds_side_iff, Clause.holds, List.any_cons,
      List.any_nil, Literal.holds_negate]
    refine forall₂_congr fun arc _ => ?_
    cases b.active.holds valuation <;> cases (b.side direction).holds valuation <;>
      cases arc.literal.holds valuation <;> decide
  rw [links, List.forall_mem_append, hside, hside]
  constructor
  · rintro ⟨hforward, hbackward⟩ hactive direction arc harc
    cases direction with
    | forward => exact hforward arc harc hactive
    | backward => exact hbackward arc harc hactive
  · exact fun hall => ⟨fun arc harc hactive => hall hactive .forward arc harc,
      fun arc harc hactive => hall hactive .backward arc harc⟩

/-- The value of a variable of the ballot, if a side is chosen. -/
def value (b : Ballot) (counts : Bool) (direction : Direction) (index : Nat) : Bool :=
  if index = b.first then counts
  else if index = b.first + 1 then direction = .forward
  else if index < b.first + 2 + b.forward.length then counts && direction = .forward
  else counts && direction = .backward

theorem value_edgeLiteral {b : Ballot} (counts : Bool) (choice : Direction) {m : Nat}
    (hm : m < (b.arcs direction).length) :
    b.value counts choice (b.edgeLiteral direction m).index =
      (counts && decide (direction = choice)) := by
  cases direction with
  | forward =>
    have hm : m < b.forward.length := hm
    show b.value counts choice (b.first + 2 + m) = _
    rw [value, if_neg (by omega), if_neg (by omega), if_pos (by omega)]
    cases choice <;> rfl
  | backward =>
    show b.value counts choice (b.first + 2 + b.forward.length + m) = _
    rw [value, if_neg (by omega), if_neg (by omega), if_neg (by omega)]
    cases choice <;> rfl

end Ballot

namespace Arbitration

/-- The constraint with a number, and its ballot. -/
structure BallotOf (g : Precedence κ) (cs : List (Constraint κ)) (n : Nat) (c : Constraint κ)
    (b : Ballot) : Prop where
  constraint_eq : cs[n]? = some c
  ballot_eq : (Ballot.ofConstraints g (knownEdges g).length cs)[n]? = some b

/-- The valuation that makes a choice and lets count what is to count. -/
def valuationFor (g : Precedence κ) (cs : List (Constraint κ)) (counts : Literal → Bool)
    (choice : Constraint κ → Direction) : Valuation := fun index =>
  if index < (knownEdges g).length then counts (knownLiteral index)
  else (((Ballot.ofConstraints g (knownEdges g).length cs).zip cs).find? fun p => index < p.1.next).any
    fun p => p.1.value (counts p.1.active) (choice p.2) index

section Valuation

variable {g : Precedence κ} {cs : List (Constraint κ)} {counts : Literal → Bool}
  {choice : Constraint κ → Direction} {n index : Nat} {b : Ballot} {c : Constraint κ}

theorem holds_knownLiteral_valuationFor (hn : n < (knownEdges g).length) :
    (knownLiteral n).holds (valuationFor g cs counts choice) = counts (knownLiteral n) := by
  rw [Literal.holds, knownLiteral, valuationFor, if_pos hn, beq_true, knownLiteral]

theorem exists_ballotOf (g : Precedence κ) (hc : cs[n]? = some c) : ∃ b, BallotOf g cs n c b := by
  have hlt := (List.getElem?_eq_some_iff.mp hc).1
  rw [← Ballot.length_ofConstraints (g := g) (knownEdges g).length] at hlt
  exact ⟨_, hc, List.getElem?_eq_getElem hlt⟩

variable (hb : BallotOf g cs n c b)

include hb

theorem BallotOf.eq : b = Ballot.ofConstraint g b.first c := by
  rcases Ballot.exists_of_getElem?_ofConstraints hb.ballot_eq with ⟨c', hc', hof⟩
  rw [hb.constraint_eq, Option.some.injEq] at hc'
  rw [hc']
  exact hof

/-- Every variable of a ballot has the value that its ballot gives it. -/
theorem valuationFor_eq (hle : b.first ≤ index) (hlt : index < b.next) :
    valuationFor g cs counts choice index = b.value (counts b.active) (choice c) index := by
  have hbehind := Ballot.le_first (List.mem_of_getElem? hb.ballot_eq)
  have hfound : ((Ballot.ofConstraints g (knownEdges g).length cs).zip cs).find?
      (fun p => decide (index < p.1.next)) = some (b, c) := by
    -- The ballots before this one have no variable as late.
    have hzip := (List.getElem?_zip_eq_some (z := (b, c))).mpr ⟨hb.ballot_eq, hb.constraint_eq⟩
    rcases List.getElem?_eq_some_iff.mp hzip with ⟨hlength, hentry⟩
    refine List.find?_eq_some_iff_getElem.mpr
      ⟨decide_eq_true hlt, n, hlength, hentry, fun j hj => ?_⟩
    rw [List.getElem_zip, Bool.not_eq_true', decide_eq_false_iff_not, Nat.not_lt]
    rcases List.getElem?_eq_some_iff.mp hb.ballot_eq with ⟨hn, hget⟩
    have hpair := List.pairwise_iff_getElem.mp (Ballot.pairwise_ofConstraints _ cs) j n
      (Nat.lt_trans hj hn) hn hj
    rw [hget] at hpair
    exact Nat.le_trans hpair hle
  rw [valuationFor, if_neg (by omega), hfound, Option.any_some]

theorem holds_active_valuationFor :
    b.active.holds (valuationFor g cs counts choice) = counts b.active := by
  have hlt := b.first_lt_next
  rw [Literal.holds, Ballot.active, valuationFor_eq hb (Nat.le_refl _) (by omega), Ballot.value,
    if_pos rfl, beq_true, Ballot.active]

theorem picked_valuationFor : b.picked (valuationFor g cs counts choice) = choice c := by
  rw [Ballot.picked, valuationFor_eq hb (Nat.le_succ _) b.first_lt_next, Ballot.value,
    if_neg (Nat.succ_ne_self _), if_pos rfl]
  cases choice c <;> rfl

theorem holds_edgeLiteral_valuationFor (hnodup : g.nodes.Nodup) {m : Nat} {e : SideEdge κ}
    (he : (c.within g direction)[m]? = some e) :
    (b.edgeLiteral direction m).holds (valuationFor g cs counts choice) =
      (counts b.active && decide (direction = choice c)) := by
  have hm : m < (b.arcs direction).length := by
    rcases Ballot.exists_arc hnodup b.first he with ⟨arc, harc, _⟩
    rw [← hb.eq] at harc
    exact (List.getElem?_eq_some_iff.mp harc).1
  have hvalue := Ballot.value_edgeLiteral (counts b.active) (choice c) hm
  have hlt := Ballot.edgeLiteral_lt hm
  have hsign : (b.edgeLiteral direction m).positive = true := by cases direction <;> rfl
  have hle : b.first ≤ (b.edgeLiteral direction m).index := by
    cases direction <;> simp only [Ballot.edgeLiteral] <;> omega
  rw [Literal.holds, hsign, beq_true, valuationFor_eq hb hle hlt, hvalue]

end Valuation

end Arbitration

end Isolation
