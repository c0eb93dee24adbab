import Isolation.Proofs.Arbitration.Minimal
import Isolation.Proofs.Precedence.KnownCycles

/-!
# Shortcuts Are Exact

The first question assumes that all known edges are there. What they imply need not be looked at again, so the
search for cycles leaves it out and takes the thinned known graph in its place. The two graphs that could be
searched then lead the same ways: an edge that is left out is a path of the thinned graph, and the thinned
graph is part of the final graph because the known edges are. It does not matter which edges of constraints
are there besides them.

So a valuation in which no cycle is found with shortcuts has none without them, and its transactions can be
put in order. If it fails, then the engine has failed.

## Theorems

* `shortcuts_exact`: All of it, for the graph of a history.
-/

namespace Isolation

open Relation Isolation.Sat

namespace Arbitration

section Paths

variable {a : Arbitration} (ha : a.Proper) {valuation : Valuation}
  (hknown : ∀ n < a.knownCount, (knownLiteral n).holds valuation = true)

include ha hknown

/-- With shortcuts and without, the searched graph leads the same ways as soon as all known edges are
    there. -/
theorem path_modelGraph_iff (i j : Nat) : TransGen (a.modelGraph valuation true).graph.Edge i j ↔
    TransGen (a.modelGraph valuation false).graph.Edge i j := by
  constructor
  · exact TransGen.mono (fun x y => edge_of_modelGraph ha fun _ => hknown) i j
  · exact TransGen.closed (fun x y => path_of_finalGraph ha true) i j

theorem acyclic_modelGraph_iff : Acyclic (a.modelGraph valuation true).graph.Edge ↔
    Acyclic (a.modelGraph valuation false).graph.Edge :=
  forall_congr' fun i => not_congr (path_modelGraph_iff ha hknown i i)

omit hknown in
theorem cycleClause?_eq_none_iff (shortcuts : Bool) : a.cycleClause? shortcuts valuation = none ↔
    Acyclic (a.modelGraph valuation shortcuts).graph.Edge := by
  rw [cycleClause?, Option.map_eq_none_iff,
    TaggedGraph.findCycle?_eq_none_iff (lists_modelGraph ha valuation shortcuts).regular]

end Paths

theorem shortcut_iff_thinned {κ : Type} {g : Precedence κ} (hnodup : g.nodes.Nodup)
    (cs : List (Constraint κ)) (options : AuditOptions) (i j : Nat) :
    (ofPrecedence g cs options).Shortcut i j ↔ (thinnedGraph g options).Edge i j := by
  refine ⟨?_, shortcut_of_thinned hnodup cs options⟩
  rintro ⟨s, hs, rfl, rfl⟩
  exact (brings_of_mem_shortcutsFor hs).2

theorem exists_witness?_of_refine {a : Arbitration} (ha : a.Proper) {engine : Engine}
    (hsound : engine.Sound) {shortcuts : Bool} {assumptions : List Literal}
    {clauses last : List Clause} {valuation : Valuation}
    (hend : a.refine engine shortcuts assumptions clauses = .acyclic valuation last) :
    ∃ order, (a.finalGraph valuation).topologicalOrder? = some order ∧
      (a.finalGraph valuation).Ordered order ∧
      a.witness? valuation = some (a.witnessAlong valuation order) := by
  have hnone := (refineWithin_acyclic hsound hend).2.2
  rcases TaggedGraph.exists_topologicalOrder (acyclic_of_cycleClause?_eq_none ha hnone) with
    ⟨order, horder⟩
  have hordered := TaggedGraph.topologicalOrder?_ordered (regular_finalGraph ha valuation) horder
  refine ⟨order, horder, hordered, ?_⟩
  rw [witness?, horder, Option.map_some]

section Failures

variable {a : Arbitration} {engine : Engine} (ha : a.Proper) (hsound : engine.Sound)

include ha hsound

/-- A refinement fails only if the engine does. -/
theorem exists_failed_of_refine {shortcuts : Bool} {assumptions : List Literal} {clauses : List Clause}
    (hasks : a.Asks shortcuts assumptions) (hlearned : a.Learned engine clauses) {message : String}
    (hend : a.refine engine shortcuts assumptions clauses = .failed message) :
    ∃ clauses assumptions, engine.solve clauses assumptions = .failed message := by
  have hjustified := refine_justified ha hsound hasks hlearned
  rw [hend] at hjustified
  rcases hjustified with ⟨last, hanswer⟩
  exact ⟨last, assumptions, hanswer⟩

/-- So does the search for a minimal core. -/
theorem exists_failed_of_minimizeFrom {clauses : List Clause} {core : List Literal} {index : Nat}
    (hlearned : a.Learned engine clauses) (hcore : ∀ l ∈ core, l ∈ a.assumptions) {message : String}
    (hend : minimizeFrom engine a clauses core index = .error message) :
    ∃ clauses assumptions, engine.solve clauses assumptions = .failed message := by
  -- A part of the core is asked about without shortcuts, whatever has been learned before.
  have hasks : ∀ {core : List Literal}, (∀ l ∈ core, l ∈ a.assumptions) → ∀ index,
      a.Asks false (core.eraseIdx index) := by
    intro core hcore index
    exact ⟨fun l hl => hcore l (List.mem_of_mem_eraseIdx hl), fun hc => absurd hc Bool.false_ne_true⟩
  fun_induction minimizeFrom engine a clauses core index with
  | case1 clauses core index hlt failure hfailed =>
    rw [Except.error.injEq] at hend
    rw [← hend]
    exact exists_failed_of_refine ha hsound (hasks hcore index) hlearned hfailed
  | case2 clauses core index hlt valuation last hacyclic ih =>
    have hjustified := refine_justified ha hsound (hasks hcore index) hlearned
    rw [hacyclic] at hjustified
    exact ih hjustified.1 hcore hend
  | case3 clauses core index hlt smaller last hrefuted ih =>
    have hjustified := refine_justified ha hsound (hasks hcore index) hlearned
    rw [hrefuted] at hjustified
    rcases hjustified with ⟨hlast, named, _, rfl⟩
    refine ih hlast (fun l hl => ?_) hend
    exact hcore l (List.mem_of_mem_eraseIdx (List.mem_filter.mp hl).1)
  | case4 clauses core index hlt =>
    cases hend

end Failures

section Solve

variable {κ : Type} [Ord κ] {g : Precedence κ} (hnodup : g.nodes.Nodup)
  {cs : List (Constraint κ)} {options : AuditOptions} {engine : Engine} (hsound : engine.Sound)

include hnodup hsound

/-- If no cycle is left under all assumptions, the arbitration ends with an order. -/
theorem exists_ordered_of_refine {valuation : Valuation} {last : List Clause}
    (hend : (ofPrecedence g cs options).refine engine true (ofPrecedence g cs options).assumptions
      (ofPrecedence g cs options).links = .acyclic valuation last) :
    ∃ order, ((ofPrecedence g cs options).finalGraph valuation).topologicalOrder? = some order ∧
      ((ofPrecedence g cs options).finalGraph valuation).Ordered order ∧
      solve engine g cs options =
        .ordered ((ofPrecedence g cs options).witnessAlong valuation order) := by
  have ha := proper_ofPrecedence hnodup cs options
  rcases exists_witness?_of_refine ha hsound hend with ⟨order, horder, hordered, hwitness⟩
  refine ⟨order, horder, hordered, ?_⟩
  rw [solve]
  simp only [hend, hwitness]

/-- An arbitration fails only if the engine does. -/
theorem exists_failed_of_solve {message : String}
    (hsolve : solve engine g cs options = .failed message) :
    ∃ clauses assumptions, engine.solve clauses assumptions = .failed message := by
  have ha := proper_ofPrecedence hnodup cs options
  have hasks := asks_assumptions (ofPrecedence g cs options) true
  rw [solve] at hsolve
  split at hsolve
  · next failure hrefine =>
      rw [Decision.failed.injEq] at hsolve
      rw [← hsolve]
      exact exists_failed_of_refine ha hsound hasks .links hrefine
  · next valuation clauses hrefine =>
      rcases exists_witness?_of_refine ha hsound hrefine with ⟨order, _, _, hwitness⟩
      simp only [hwitness, reduceCtorEq] at hsolve
  · next core clauses hrefine =>
      have hjustified := refine_justified ha hsound hasks .links
      rw [hrefine] at hjustified
      rcases hjustified with ⟨hlearned, named, _, rfl⟩
      split at hsolve
      · cases hsolve
      · next failure hminimize =>
          rw [Decision.failed.injEq] at hsolve
          rw [← hsolve]
          exact exists_failed_of_minimizeFrom ha hsound hlearned
            (fun l hl => (List.mem_filter.mp hl).1) hminimize

end Solve

/-- Shortcuts are exact for the graph of a history with any edges added, and for any constraints. They are the
    edges of the thinned graph, and each has a reason among the known edges. Under every valuation in which
    the known edges are there, with whatever edges of constraints, the graphs with shortcuts and without
    lead the same ways, so they have the same cycles, and a cycle is found in the one exactly if one is
    found in the other. Hence if no cycle is left under all assumptions, the transactions are put in order
    and the order is the answer; and an arbitration fails only with what the engine reports. -/
theorem shortcuts_exact {κ ν : Type} [DecidableEq κ] [DecidableEq ν] [Ord κ] {h : History κ ν}
    (hbuilt : h.Built) (added : List (TransactionId × TransactionId × Label κ))
    (cs : List (Constraint κ)) (options : AuditOptions) :
    let g := added.foldl (fun g e => g.addEdge e.1 e.2.1 e.2.2) (Precedence.ofHistory h)
    let a := ofPrecedence g cs options
    (∀ i j, a.Shortcut i j ↔ (thinnedGraph g options).Edge i j) ∧
    (∀ s ∈ a.shortcuts, Brings a.level a.known s) ∧
    (∀ valuation, (∀ n < a.knownCount, (knownLiteral n).holds valuation = true) →
      (∀ i j, TransGen (a.modelGraph valuation true).graph.Edge i j ↔
        TransGen (a.modelGraph valuation false).graph.Edge i j) ∧
      (Acyclic (a.modelGraph valuation true).graph.Edge ↔
        Acyclic (a.modelGraph valuation false).graph.Edge) ∧
      (a.cycleClause? true valuation = none ↔ a.cycleClause? false valuation = none)) ∧
    ∀ engine : Engine, engine.Sound →
      (∀ valuation last, a.refine engine true a.assumptions a.links = .acyclic valuation last →
        ∃ order, (a.modelGraph valuation false).graph.topologicalOrder? = some order ∧
          (a.modelGraph valuation false).graph.Ordered order ∧
          solve engine g cs options = .ordered (a.witnessAlong valuation order)) ∧
      ∀ message, solve engine g cs options = .failed message →
        ∃ clauses assumptions, engine.solve clauses assumptions = .failed message := by
  intro g a
  have hnodup : g.nodes.Nodup := Precedence.nodup_nodes_foldl_addEdge hbuilt.wellFormed ..
  have ha : a.Proper := proper_ofPrecedence hnodup cs options
  refine ⟨shortcut_iff_thinned hnodup cs options, ha.shortcut, fun valuation hknown => ?_, ?_⟩
  · refine ⟨path_modelGraph_iff ha hknown, acyclic_modelGraph_iff ha hknown, ?_⟩
    rw [cycleClause?_eq_none_iff ha, cycleClause?_eq_none_iff ha, acyclic_modelGraph_iff ha hknown]
  · intro engine hsound
    refine ⟨?_, fun message => exists_failed_of_solve hnodup hsound⟩
    intro valuation last hrefine
    exact exists_ordered_of_refine hnodup hsound hrefine

/-- The init transaction is known to precede both transactions of the first client. With shortcuts, the
    edge to the second one is left out, and the way along the session stays. If both sides of the
    constraint are there, there is a cycle with shortcuts as well. If the constraint is not asked about,
    there is an order. -/
theorem shortcuts_exact_crossedReads :
    let added := [(TransactionId.init, (⟨1, 1⟩ : TransactionId), Label.keyed .writeWrite 0)]
    let g := added.foldl (fun g e => g.addEdge e.1 e.2.1 e.2.2)
      (Precedence.ofHistory History.crossedReads)
    let cs := constraints History.crossedReads g
    let options : AuditOptions := { level := .serializable }
    let a := ofPrecedence g cs options
    let all : Valuation := fun _ => true
    (History.crossedReads.Built ∧ searchEngine.Sound) ∧
    ((a.modelGraph all false).graph.Edge 0 2 ∧ ¬ (a.modelGraph all true).graph.Edge 0 2 ∧
      TransGen (a.modelGraph all true).graph.Edge 0 2) ∧
    ¬ Acyclic (a.modelGraph all true).graph.Edge ∧
    (∃ witness, solve searchEngine g [] options = .ordered witness) ∧
    ∀ message, solve searchEngine g cs options ≠ .failed message := by
  intro added g cs options a all
  rcases shortcuts_exact History.built_crossedReads added cs options with ⟨_, _, hmodels, hsolve⟩
  rcases hmodels all fun _ _ => rfl with ⟨hpaths, hcycles, _⟩
  have hedge : (a.modelGraph all false).graph.Edge 0 2 := by decide +kernel
  refine ⟨⟨History.built_crossedReads, searchEngine_sound⟩, ⟨hedge, by decide +kernel, ?_⟩, ?_, ?_, ?_⟩
  · exact (hpaths 0 2).mpr (TransGen.single hedge)
  · rw [hcycles]
    intro hacyclic
    have hforth : (a.modelGraph all false).graph.Edge 1 2 := by decide +kernel
    have hback : (a.modelGraph all false).graph.Edge 2 1 := by decide +kernel
    exact hacyclic 1 ((TransGen.single hforth).tail hback)
  · rcases shortcuts_exact History.built_crossedReads added [] options with ⟨_, _, _, hempty⟩
    have hends : ((ofPrecedence g [] options).refine searchEngine true
        (ofPrecedence g [] options).assumptions
        (ofPrecedence g [] options).links).isAcyclic = true := by decide +kernel
    rcases (Refined.isAcyclic_iff _).mp hends with ⟨valuation, last, hrefine⟩
    rcases (hempty searchEngine searchEngine_sound).1 valuation last hrefine with ⟨order, _, _, hordered⟩
    exact ⟨_, hordered⟩
  · intro message hfailed
    rcases (hsolve searchEngine searchEngine_sound).2 message hfailed with
      ⟨clauses, assumptions, hanswer⟩
    exact searchEngine_reliable clauses assumptions message hanswer

end Arbitration

end Isolation
