import Isolation.Proofs.Arbitration.Minimal
import Isolation.Proofs.Audit.Soundness

/-!
# Reported Conflicts

An audit that rejects a history after the search reports edges and constraints. They are genuine: the edges
are known, the constraints are open, and no choice of sides for these constraints leaves these edges without
a cycle. And they are irreducible: if any one of them is left out, the others can be ordered. The engine is
trusted for its valuations and for its cores up to sign, and not for small cores.

## Theorems

* `conflicts_irreducible`: Reported conflicts cannot be ordered, and all of them are needed for that.
-/

namespace Isolation

open Isolation.Sat Isolation.Arbitration

variable {κ ν : Type} [DecidableEq κ] [DecidableEq ν] [Ord κ]

/-- An audit reports a conflict if it has found no local faults, has pruned, and has found the conflict in
    what was left. -/
theorem auditWith_eq_unsatisfiable_iff {engine : Engine} {h : History κ ν} {options : AuditOptions}
    {level : IsolationLevel} {found : Conflicts κ} :
    h.auditWith engine options = .error (.unsatisfiable level found) ↔ h.validate = .ok () ∧
      options.level = level ∧ ∃ g cs,
        (Precedence.ofHistory h).pruneFor (constraints h (Precedence.ofHistory h)) options =
          .ok (g, cs) ∧ solve engine g cs options = .conflicting found := by
  unfold History.auditWith
  cases hvalid : h.validate with
  | error fault => simp only [Except.error.injEq, reduceCtorEq, false_and]
  | ok _ =>
    cases hprune : (Precedence.ofHistory h).pruneFor (constraints h (Precedence.ofHistory h)) options
      with
    | error cycle => simp only [hprune, Except.error.injEq, reduceCtorEq, false_and, exists_false,
        and_false]
    | ok left =>
      rcases left with ⟨g, cs⟩
      simp only [hprune, true_and, Except.ok.injEq, Prod.mk.injEq, and_assoc, exists_eq_left',
        exists_and_left]
      cases solve engine g cs options with
      | ordered witness => simp only [reduceCtorEq, and_false]
      | conflicting conflicts =>
        simp only [Except.error.injEq, AuditError.unsatisfiable.injEq, Decision.conflicting.injEq]
      | failed message => simp only [Except.error.injEq, reduceCtorEq, and_false]

/-- Reported conflicts are genuine and irreducible. Their edges are known and their constraints are open
    when pruning is done, they cannot be ordered together, and they can be as soon as any one edge or any
    one constraint is left out. -/
theorem conflicts_irreducible {h : History κ ν} (hbuilt : h.Built) {engine : Engine}
    (hsound : engine.Sound) (hexplaining : engine.Explaining) {options : AuditOptions}
    {level : IsolationLevel} {found : Conflicts κ}
    (haudit : h.auditWith engine options = .error (.unsatisfiable level found)) :
    options.level = level ∧ ∃ g cs,
      (Precedence.ofHistory h).pruneFor (constraints h (Precedence.ofHistory h)) options = .ok (g, cs) ∧
      g.nodes = h.transactions.map Transaction.id ∧
      found.edges.Subperm (knownEdges g) ∧ found.constraints.Subperm cs ∧
      ¬ g.Orderable level found.edges found.constraints ∧
      (∀ k < found.edges.length, g.Orderable level (found.edges.eraseIdx k) found.constraints) ∧
      ∀ k < found.constraints.length,
        g.Orderable level found.edges (found.constraints.eraseIdx k) := by
  have hw := hbuilt.wellFormed
  rcases auditWith_eq_unsatisfiable_iff.mp haudit with ⟨_, rfl, g, cs, hprune, hsolve⟩
  rcases (Precedence.pruneFor_promotes (Precedence.nodup_nodes_ofHistory hw) _ options).1 g cs hprune
    with ⟨promoted, hpromotes⟩
  have hnodup := hpromotes.nodup_nodes hw
  rcases solve_conflicting hnodup hsound hexplaining hsolve with ⟨core, hminimal, hsub, rfl⟩
  rcases subperm_sorted_behind hsub with ⟨hedges, hconstraints⟩
  refine ⟨rfl, g, cs, hprune, hpromotes.nodes_eq, hedges, hconstraints, ?_, ?_, ?_⟩
  · exact hminimal.not_orderable hnodup hsub
  · exact fun k hk => hminimal.orderable_eraseIdx_edges hnodup hk
  · exact fun k hk => hminimal.orderable_eraseIdx_constraints hnodup hk

/-- The conflict that an audit reports, with the level. -/
def reported? : Except (AuditError κ ν) Witness → Option (IsolationLevel × Conflicts κ)
  | .error (.unsatisfiable level found) => some (level, found)
  | _ => none

omit [DecidableEq κ] [DecidableEq ν] [Ord κ] in
theorem eq_of_reported? {verdict : Except (AuditError κ ν) Witness} {level : IsolationLevel}
    {found : Conflicts κ} (hreported : reported? verdict = some (level, found)) :
    verdict = .error (.unsatisfiable level found) := by
  unfold reported? at hreported
  split at hreported
  · rw [Option.some.injEq, Prod.mk.injEq] at hreported
    rw [hreported.1, hreported.2]
  · cases hreported

/-- A lost update without pruning: two edges and three constraints are in conflict, and all five are
    needed. -/
theorem conflicts_irreducible_twoUpdates :
    let h := History.twoUpdates 0
    let g := Precedence.ofHistory h
    h.Built ∧ searchEngine.Sound ∧ searchEngine.Explaining ∧
    ∃ found, h.auditWith searchEngine { pruning := .preprocessOnly } =
        .error (.unsatisfiable .snapshotIsolation found) ∧
      found.edges.length = 2 ∧ found.constraints.length = 3 ∧
      ¬ g.Orderable .snapshotIsolation found.edges found.constraints ∧
      g.Orderable .snapshotIsolation (found.edges.eraseIdx 1) found.constraints ∧
      g.Orderable .snapshotIsolation found.edges (found.constraints.eraseIdx 2) := by
  intro h g
  have hcounts : (reported? (h.auditWith searchEngine { pruning := .preprocessOnly })).map
      (fun r => (r.1, r.2.edges.length, r.2.constraints.length)) = some (.snapshotIsolation, 2, 3) := by
    decide +kernel
  rcases Option.map_eq_some_iff.mp hcounts with ⟨⟨level, found⟩, hreported, hshape⟩
  rw [Prod.mk.injEq, Prod.mk.injEq] at hshape
  rcases hshape with ⟨hlevel, hedges, hconstraints⟩
  simp only at hlevel hedges hconstraints
  have haudit := eq_of_reported? hreported
  rw [hlevel] at haudit
  rcases conflicts_irreducible (History.built_twoUpdates 0) searchEngine_sound
    searchEngine_complete.explaining haudit with ⟨_, g', cs, hprune, _, _, _, hnone, hfirst, hsecond⟩
  rcases Prod.mk.inj (Except.ok.inj hprune) with ⟨rfl, _⟩
  exact ⟨History.built_twoUpdates 0, searchEngine_sound, searchEngine_complete.explaining, found, haudit,
    hedges, hconstraints, hnone, hfirst 1 (by omega), hsecond 2 (by omega)⟩

end Isolation
