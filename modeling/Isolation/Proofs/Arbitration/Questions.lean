import Isolation.Proofs.Arbitration.Parts
import Isolation.Proofs.Arbitration.Refine
import Isolation.Proofs.Precedence.OfHistory
import Isolation.Proofs.Sat.Engine

/-!
# Questions, One After the Other

A refinement is a loop without a natural end. It asks, adds a clause, and asks again; and the clauses that
one question has led to are handed on to the next, which may be asked under other assumptions and look for
cycles in another way. `Ends` is this loop with its questions counted, and with no bound on their number.
`Learned` are the links and the clauses that questions can have led to, of whatever sort they were.

All of it rests on one fact: a learned clause forbids a cycle only. So it holds in every valuation whose
final graph has no cycle, and no question is refuted because of clauses that another one has left behind.
Every answer that shows a cycle violates the clause it leads to, so the clauses lose a valuation with every
question, and the loop ends.

## Main definitions

* `Arbitration.Learned`: Clauses that questions have led to.
* `Arbitration.Ends`: How the loop ends, and after how many questions.

## Theorems

* `Learned.safe`: Learned clauses hold in every valuation without cycles.
* `refine_exact`: Questions are answered rightly, and after finitely many calls of the engine.
-/

namespace Isolation

open Isolation.Sat

namespace Arbitration

/-- A question about a part of what could be assumed. It may take shortcuts only if all known edges are
    assumed. -/
structure Asks (a : Arbitration) (shortcuts : Bool) (assumptions : List Literal) : Prop where
  mem : ∀ l ∈ assumptions, l ∈ a.assumptions
  known : shortcuts = true → ∀ n < a.knownCount, knownLiteral n ∈ assumptions

/-- The links, and clauses that questions have led to, whichever they were. -/
inductive Learned (engine : Engine) (a : Arbitration) : List Clause → Prop
  | links : Learned engine a a.links
  | learn {clauses : List Clause} {shortcuts : Bool} {assumptions : List Literal}
      {valuation : Valuation} {clause : Clause} : Learned engine a clauses →
      a.Asks shortcuts assumptions → engine.solve clauses assumptions = .satisfied valuation →
      a.cycleClause? shortcuts valuation = some clause → Learned engine a (clause :: clauses)

/-- The loop of questions and clauses, with the number of questions it takes. -/
inductive Ends (engine : Engine) (a : Arbitration) (shortcuts : Bool) (assumptions : List Literal) :
    List Clause → Nat → Refined → Prop
  | failed {clauses : List Clause} {message : String} :
      engine.solve clauses assumptions = .failed message →
      Ends engine a shortcuts assumptions clauses 1 (.failed message)
  | refuted {clauses : List Clause} {core : List Literal} :
      engine.solve clauses assumptions = .refuted core →
      Ends engine a shortcuts assumptions clauses 1 (.refuted (namedBy core assumptions) clauses)
  | acyclic {clauses : List Clause} {valuation : Valuation} :
      engine.solve clauses assumptions = .satisfied valuation →
      a.cycleClause? shortcuts valuation = none →
      Ends engine a shortcuts assumptions clauses 1 (.acyclic valuation clauses)
  | again {clauses : List Clause} {valuation : Valuation} {clause : Clause} {calls : Nat}
      {refined : Refined} : engine.solve clauses assumptions = .satisfied valuation →
      a.cycleClause? shortcuts valuation = some clause →
      Ends engine a shortcuts assumptions (clause :: clauses) calls refined →
      Ends engine a shortcuts assumptions clauses (calls + 1) refined

/-- What is true of how a loop ends: the last answer was given on clauses that were learned. -/
def Refined.Justified (engine : Engine) (a : Arbitration) (shortcuts : Bool)
    (assumptions : List Literal) : Refined → Prop
  | .failed message => ∃ last, engine.solve last assumptions = .failed message
  | .refuted named last => Learned engine a last ∧
      ∃ core, engine.solve last assumptions = .refuted core ∧ named = namedBy core assumptions
  | .acyclic valuation last => Learned engine a last ∧
      engine.solve last assumptions = .satisfied valuation ∧
      a.cycleClause? shortcuts valuation = none

/-- Clauses about the variables of an arbitration that say no more than the links and forbid cycles only. -/
structure Safe (a : Arbitration) (clauses : List Clause) : Prop where
  index_lt : ∀ clause ∈ clauses, ∀ l ∈ clause, l.index < a.variableCount
  holds : ∀ clause ∈ clauses, ∀ valuation, a.Respects valuation →
    Acyclic (a.finalGraph valuation).Edge → Clause.holds valuation clause = true

variable {a : Arbitration} {engine : Engine} {shortcuts : Bool} {assumptions : List Literal}
  {clauses : List Clause}

/-- All known edges and all constraints may be asked about, with shortcuts or without. -/
theorem asks_assumptions (a : Arbitration) (shortcuts : Bool) : a.Asks shortcuts a.assumptions := by
  refine ⟨fun l hl => hl, fun _ n hn => ?_⟩
  exact List.mem_append_left _ (List.mem_map.mpr ⟨n, List.mem_range.mpr hn, rfl⟩)

/-- The clause that an answer leads to is violated by the answer, and forbids cycles only. -/
theorem Asks.cycleClause?_spec (ha : a.Proper) (hasks : a.Asks shortcuts assumptions)
    {valuation : Valuation} (hholds : ∀ l ∈ assumptions, l.holds valuation = true) {clause : Clause}
    (hclause : a.cycleClause? shortcuts valuation = some clause) :
    Clause.holds valuation clause = false ∧ (∀ l ∈ clause, l.index < a.variableCount) ∧
      ∀ other, Acyclic (a.finalGraph other).Edge → Clause.holds other clause = true :=
  Arbitration.cycleClause?_spec ha (fun hshort n hn => hholds _ (hasks.known hshort n hn)) hclause

/-- Learned clauses hold in every valuation that respects the links and has no cycles, whichever questions
    they come from. They say no less than the links. -/
theorem Learned.safe (ha : a.Proper) (hsound : engine.Sound) (hlearned : a.Learned engine clauses) :
    a.Safe clauses ∧ ∀ clause ∈ a.links, clause ∈ clauses := by
  induction hlearned with
  | links => exact ⟨⟨ha.links_lt, fun clause hclause _ hrespects _ => hrespects clause hclause⟩,
      fun clause hclause => hclause⟩
  | @learn clauses _ assumptions valuation clause _ hasks hanswer hclause ih =>
    rcases hasks.cycleClause?_spec ha (hsound clauses assumptions valuation hanswer).2 hclause with
      ⟨_, hindex, hother⟩
    refine ⟨⟨List.forall_mem_cons.mpr ⟨hindex, ih.1.index_lt⟩,
      List.forall_mem_cons.mpr ⟨fun other _ => hother other, ih.1.holds⟩⟩, fun link hlink => ?_⟩
    exact List.mem_cons_of_mem _ (ih.2 link hlink)

/-- The loop ends, as a refinement with a budget does: with every question the clauses lose a valuation,
    and the budget exceeds the number of those that are left. -/
theorem exists_ends (ha : a.Proper) (hsound : engine.Sound) (hasks : a.Asks shortcuts assumptions)
    (hlearned : a.Learned engine clauses) {budget : Nat}
    (hbudget : (models a.variableCount clauses).card < budget) :
    ∃ calls ≤ budget, Ends engine a shortcuts assumptions clauses calls
      (refineWithin engine a shortcuts assumptions budget clauses) := by
  induction budget generalizing clauses with
  | zero => exact absurd hbudget (Nat.not_lt_zero _)
  | succ budget ih =>
    rw [refineWithin]
    cases hanswer : engine.solve clauses assumptions with
    | failed message => exact ⟨1, Nat.le_add_left 1 budget, Ends.failed hanswer⟩
    | refuted core => exact ⟨1, Nat.le_add_left 1 budget, Ends.refuted hanswer⟩
    | satisfied valuation =>
      rcases hsound clauses assumptions valuation hanswer with ⟨hclauses, hholds⟩
      cases hclause : a.cycleClause? shortcuts valuation with
      | none =>
        refine ⟨1, Nat.le_add_left 1 budget, ?_⟩
        simp only [hclause]
        exact Ends.acyclic hanswer hclause
      | some clause =>
        have hnext := hlearned.learn hasks hanswer hclause
        -- The valuation found is excluded, so the budget still exceeds the models that are left.
        have hfewer := card_models_lt (hnext.safe ha hsound).1.index_lt hclauses
          (hasks.cycleClause?_spec ha hholds hclause).1
        rcases ih hnext (by omega) with ⟨calls, hcalls, hends⟩
        refine ⟨calls + 1, Nat.succ_le_succ hcalls, ?_⟩
        simp only [hclause]
        exact Ends.again hanswer hclause hends

theorem Ends.justified (hasks : a.Asks shortcuts assumptions) {calls : Nat} {refined : Refined}
    (hends : Ends engine a shortcuts assumptions clauses calls refined)
    (hlearned : a.Learned engine clauses) : refined.Justified engine a shortcuts assumptions := by
  induction hends with
  | failed hanswer => exact ⟨_, hanswer⟩
  | refuted hanswer => exact ⟨hlearned, _, hanswer, rfl⟩
  | acyclic hanswer hnone => exact ⟨hlearned, hanswer, hnone⟩
  | again hanswer hclause _ ih => exact ih (hlearned.learn hasks hanswer hclause)

section Refine

variable (ha : a.Proper) (hsound : engine.Sound) (hasks : a.Asks shortcuts assumptions)
  (hlearned : a.Learned engine clauses)

include ha hsound hasks hlearned

theorem refine_ends : ∃ calls ≤ 2 ^ a.variableCount + 1,
    Ends engine a shortcuts assumptions clauses calls (a.refine engine shortcuts assumptions clauses) :=
  exists_ends ha hsound hasks hlearned (Nat.lt_succ_of_le (card_models_le clauses))

theorem refine_justified :
    (a.refine engine shortcuts assumptions clauses).Justified engine a shortcuts assumptions := by
  rcases refine_ends ha hsound hasks hlearned with ⟨calls, _, hends⟩
  exact hends.justified hasks hlearned

theorem feasible_of_refine {valuation : Valuation} {last : List Clause}
    (hend : a.refine engine shortcuts assumptions clauses = .acyclic valuation last) :
    a.Feasible assumptions := by
  have hjustified := refine_justified ha hsound hasks hlearned
  rw [hend] at hjustified
  rcases hjustified with ⟨hlast, hanswer, hnone⟩
  rcases hsound _ _ _ hanswer with ⟨hclauses, hholds⟩
  exact ⟨valuation, hholds, fun clause hclause => hclauses clause ((hlast.safe ha hsound).2 clause hclause),
    acyclic_of_cycleClause?_eq_none ha hnone⟩

/-- A refinement ends without a cycle exactly if the assumptions are feasible, given an engine that always
    answers and is right when it refutes. -/
theorem exists_acyclic_iff_feasible (hrefuting : engine.Refuting) (hreliable : engine.Reliable) :
    (∃ valuation last, a.refine engine shortcuts assumptions clauses = .acyclic valuation last) ↔
      a.Feasible assumptions := by
  constructor
  · rintro ⟨valuation, last, hend⟩
    exact feasible_of_refine ha hsound hasks hlearned hend
  · rintro ⟨goal, hgoal, hrespects, hacyclic⟩
    have hjustified := refine_justified ha hsound hasks hlearned
    cases hend : a.refine engine shortcuts assumptions clauses with
    | acyclic valuation last => exact ⟨valuation, last, rfl⟩
    | failed message =>
      rw [hend] at hjustified
      rcases hjustified with ⟨last, hanswer⟩
      exact absurd hanswer (hreliable last assumptions message)
    | refuted named last =>
      rw [hend] at hjustified
      rcases hjustified with ⟨hlast, core, hanswer, _⟩
      -- The goal satisfies everything that was learned, so it cannot have been refuted.
      rcases hrefuting last assumptions core hanswer goal fun clause hclause =>
        (hlast.safe ha hsound).1.holds clause hclause goal hrespects hacyclic with ⟨l, hl, hfalse⟩
      rw [hgoal l hl] at hfalse
      exact absurd hfalse (by decide)

end Refine

/-- Questions about a history are answered rightly, and after finitely many calls of the engine. Let the
    graph be that of a history with any edges added, the constraints any, the assumptions any part of what
    can be assumed, and the clauses the links with any that were learned from questions before. Then the
    links say that a constraint that counts has the edges of the side picked and no others; the final graph
    of a valuation is the specified one, whichever edges of constraints are there; the clause that an answer
    leads to is violated by it and holds in every valuation without cycles; the loop ends, as the refinement
    does; and it ends without a cycle exactly if the edges and constraints assumed can be ordered. -/
theorem refine_exact {κ ν : Type} [DecidableEq κ] [DecidableEq ν] {h : History κ ν} (hbuilt : h.Built)
    (added : List (TransactionId × TransactionId × Label κ)) (cs : List (Constraint κ))
    (options : AuditOptions) {engine : Engine} (hsound : engine.Sound) (hrefuting : engine.Refuting) :
    let g := added.foldl (fun g e => g.addEdge e.1 e.2.1 e.2.2) (Precedence.ofHistory h)
    let a := ofPrecedence g cs options
    (∀ valuation, a.Respects valuation ↔ ∀ c b n, BallotOf g cs n c b →
      b.active.holds valuation = true → ∀ direction e m, (c.within g direction)[m]? = some e →
        ((b.edgeLiteral direction m).holds valuation = true ↔ direction = b.picked valuation)) ∧
    (∀ valuation, (a.finalGraph valuation).Names g.nodes (Computed options.level
      (InLayerUnder g cs valuation .dependency) (InLayerUnder g cs valuation .antiDependency))) ∧
    ∀ shortcuts assumptions clauses, a.Asks shortcuts assumptions → a.Learned engine clauses →
      (∀ valuation, (∀ l ∈ assumptions, l.holds valuation = true) →
        ∀ clause, a.cycleClause? shortcuts valuation = some clause →
          Clause.holds valuation clause = false ∧
          ∀ other, Acyclic (a.finalGraph other).Edge → Clause.holds other clause = true) ∧
      (∃ calls ≤ 2 ^ a.variableCount + 1, Ends engine a shortcuts assumptions clauses calls
        (a.refine engine shortcuts assumptions clauses)) ∧
      (engine.Reliable →
        ((∃ valuation last, a.refine engine shortcuts assumptions clauses = .acyclic valuation last) ↔
          g.Orderable options.level (behind g cs assumptions).edges
            (behind g cs assumptions).constraints)) := by
  intro g a
  have hnodup : g.nodes.Nodup := Precedence.nodup_nodes_foldl_addEdge hbuilt.wellFormed ..
  have ha : a.Proper := proper_ofPrecedence hnodup cs options
  refine ⟨respects_iff hnodup cs options, finalGraph_names_under hnodup cs options, ?_⟩
  intro shortcuts assumptions clauses hasks hlearned
  refine ⟨fun valuation hholds clause hclause => ?_, refine_ends ha hsound hasks hlearned, ?_⟩
  · rcases hasks.cycleClause?_spec ha hholds hclause with ⟨hviolated, _, hother⟩
    exact ⟨hviolated, hother⟩
  · intro hreliable
    exact (exists_acyclic_iff_feasible ha hsound hasks hlearned hrefuting hreliable).trans
      (feasible_iff_orderable hnodup hasks.mem)

/-- A refinement ends without a cycle. -/
def Refined.isAcyclic : Refined → Bool
  | .acyclic _ _ => true
  | _ => false

theorem Refined.isAcyclic_iff (refined : Refined) :
    refined.isAcyclic = true ↔ ∃ valuation last, refined = .acyclic valuation last := by
  cases refined with
  | acyclic valuation last => exact ⟨fun _ => ⟨valuation, last, rfl⟩, fun _ => rfl⟩
  | refuted named last =>
    simp only [isAcyclic, Bool.false_eq_true, reduceCtorEq, exists_false]
  | failed message =>
    simp only [isAcyclic, Bool.false_eq_true, reduceCtorEq, exists_false]

/-- Two transactions that overwrite a key without having seen each other cannot be ordered, and the first
    answer shows a cycle. The clause that it leads to does not stand in the way when the first known edge
    is no longer assumed; then there is an order. -/
theorem refine_exact_twoUpdates :
    let h := History.twoUpdates 0
    let cs := constraints h (Precedence.ofHistory h)
    let added := [((⟨1, 0⟩ : TransactionId), (⟨2, 0⟩ : TransactionId), Label.keyed .readWrite 0)]
    let g := added.foldl (fun g e => g.addEdge e.1 e.2.1 e.2.2) (Precedence.ofHistory h)
    let a := ofPrecedence g cs {}
    let fewer := a.assumptions.drop 1
    h.Built ∧ searchEngine.Sound ∧ searchEngine.Refuting ∧ searchEngine.Reliable ∧
    ¬ g.Orderable .snapshotIsolation (behind g cs a.assumptions).edges
      (behind g cs a.assumptions).constraints ∧
    ∃ valuation clause, searchEngine.solve a.links a.assumptions = .satisfied valuation ∧
      a.cycleClause? true valuation = some clause ∧ Clause.holds valuation clause = false ∧
      a.Learned searchEngine (clause :: a.links) ∧ a.Asks false fewer ∧
      g.Orderable .snapshotIsolation (behind g cs fewer).edges (behind g cs fewer).constraints := by
  intro h cs added g a fewer
  have hexact := (refine_exact (History.built_twoUpdates 0) added cs {} searchEngine_sound
    searchEngine_complete.refuting).2.2
  refine ⟨History.built_twoUpdates 0, searchEngine_sound, searchEngine_complete.refuting,
    searchEngine_reliable, ?_, ?_⟩
  · have hiff := (hexact true _ a.links (asks_assumptions a true) .links).2.2 searchEngine_reliable
    rw [← hiff, ← Refined.isAcyclic_iff]
    decide +kernel
  · have hfirst : (match searchEngine.solve a.links a.assumptions with
        | .satisfied valuation => (a.cycleClause? true valuation).any fun clause =>
            (a.refine searchEngine false fewer (clause :: a.links)).isAcyclic
        | _ => false) = true := by decide +kernel
    cases hanswer : searchEngine.solve a.links a.assumptions with
    | refuted core => simp only [hanswer, Bool.false_eq_true] at hfirst
    | failed message => simp only [hanswer, Bool.false_eq_true] at hfirst
    | satisfied valuation =>
      simp only [hanswer, Option.any_eq_true] at hfirst
      rcases hfirst with ⟨clause, hclause, hacyclic⟩
      have hlearned := Learned.links.learn (asks_assumptions a true) hanswer hclause
      have hfewer : a.Asks false fewer :=
        ⟨fun l hl => List.mem_of_mem_drop hl, fun hc => absurd hc Bool.false_ne_true⟩
      have hviolated := (hexact true _ a.links (asks_assumptions a true) .links).1 valuation
        (searchEngine_sound _ _ _ hanswer).2 clause hclause
      refine ⟨valuation, clause, rfl, hclause, hviolated.1, hlearned, hfewer, ?_⟩
      rw [← (hexact false fewer _ hfewer hlearned).2.2 searchEngine_reliable,
        ← Refined.isAcyclic_iff]
      exact hacyclic

end Arbitration

end Isolation
