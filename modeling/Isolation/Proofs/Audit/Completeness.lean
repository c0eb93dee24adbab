import Isolation.Proofs.Arbitration.Shortcuts
import Isolation.Proofs.Audit.Soundness

/-!
# What Is Explained Is Accepted

If some order explains a history, the audit accepts it, whatever the options. The order gives moments, and
the moments pick a side for every constraint. These sides form an acyclic choice. Pruning promotes only
sides that every acyclic choice picks, so the choice survives; it is made by a valuation whose final graph
has no cycle, and that is enough for the refinement to end with some valuation without cycles.

Together with soundness, acceptance means the same for all options of one level: they change how the
answer is found, and nothing else.

## Theorems

* `audit_complete`: Explained histories are accepted, with all options alike.
-/

namespace Isolation

open Isolation.Sat
open Isolation.History (writeSkew built_writeSkew)

variable {κ ν : Type} [DecidableEq κ] {h : History κ ν} {engine : Engine} {options : AuditOptions}

theorem Arbitration.acyclic_finalGraph_valuationFor {g : Precedence κ} (hnodup : g.nodes.Nodup)
    {cs : List (Constraint κ)} (hcs : cs.Nodup) {choice : Constraint κ → Direction}
    (hacyclic : g.AcyclicChoice cs options.level choice) :
    Acyclic ((ofPrecedence g cs options).finalGraph (valuationFor g cs (fun _ => true) choice)).Edge := by
  rw [acyclic_finalGraph_iff hnodup hcs (counts_valuationFor hnodup cs options choice),
    Precedence.AcyclicChoice]
  have hsame : chosenEdges cs (picks g cs (valuationFor g cs (fun _ => true) choice)) =
      chosenEdges cs choice := by
    refine List.flatMap_congr (fun c hc => ?_)
    rw [picks_valuationFor _ choice hc]
  rw [hsame]
  exact hacyclic

theorem Arbitration.exists_ordered [Ord κ] {g : Precedence κ} (hnodup : g.nodes.Nodup)
    {cs : List (Constraint κ)} (hcs : cs.Nodup) {choice : Constraint κ → Direction}
    (hacyclic : g.AcyclicChoice cs options.level choice) (hsound : engine.Sound)
    (hrefuting : engine.Refuting) (hreliable : engine.Reliable) :
    ∃ w, solve engine g cs options = .ordered w := by
  have ha := proper_ofPrecedence hnodup cs options
  have hcounts := counts_valuationFor hnodup cs options choice
  have hfeasible : (ofPrecedence g cs options).Feasible (ofPrecedence g cs options).assumptions :=
    ⟨_, hcounts.assumed, hcounts.respects, acyclic_finalGraph_valuationFor hnodup hcs hacyclic⟩
  rcases (exists_acyclic_iff_feasible ha hsound (asks_assumptions _ true) .links hrefuting
    hreliable).mpr hfeasible with ⟨valuation, clauses, hrefine⟩
  rcases exists_ordered_of_refine hnodup hsound hrefine with ⟨order, _, _, hsolve⟩
  exact ⟨(ofPrecedence g cs options).witnessAlong valuation order, hsolve⟩

variable [DecidableEq ν] [Ord κ]

theorem exists_acyclicChoice (hw : h.WellFormed)
    (hcommitted : ∀ t ∈ h.clientTransactions, t.committed = true) {w : Witness}
    (hexplains : w.explains h = true) : h.Consistent ∧ ∃ choice, (Precedence.ofHistory h).AcyclicChoice
      (constraints h (Precedence.ofHistory h)) w.level choice := by
  cases w with
  | commitOrder order =>
    rcases (exists_commitOrder_iff hw).mp ⟨order, hexplains⟩ with ⟨s, hs, hsame⟩
    have hcons := hs.consistent hw hcommitted
    exact ⟨hcons, s.pick, acyclicChoice_pick hs hw hcons _ fun _ => hsame⟩
  | splitOrder order =>
    rcases (exists_splitOrder_iff hw).mp ⟨order, hexplains⟩ with ⟨s, hs⟩
    have hcons := hs.consistent hw hcommitted
    exact ⟨hcons, s.pick, acyclicChoice_pick hs hw hcons _
      fun hc => absurd hc (by simp [Witness.level])⟩

theorem exists_auditWith (hw : h.WellFormed)
    (hcommitted : ∀ t ∈ h.clientTransactions, t.committed = true) {w : Witness}
    (hexplains : w.explains h = true) (hsound : engine.Sound) (hrefuting : engine.Refuting)
    (hreliable : engine.Reliable) (hlevel : w.level = options.level) :
    ∃ w, h.auditWith engine options = .ok w := by
  rcases exists_acyclicChoice hw hcommitted hexplains with ⟨hcons, choice, hacyclic⟩
  rw [hlevel] at hacyclic
  have hpruned := Precedence.pruneFor_promotes (Precedence.nodup_nodes_ofHistory hw)
    (constraints h (Precedence.ofHistory h)) options
  cases hprune : (Precedence.ofHistory h).pruneFor (constraints h (Precedence.ofHistory h)) options with
  | error cycle => exact absurd hacyclic (hpruned.2 cycle hprune choice)
  | ok left =>
    rcases left with ⟨g, cs⟩
    rcases hpruned.1 g cs hprune with ⟨promoted, hpromotes⟩
    have hleft := ((hpromotes.acyclicChoice_iff choice).mp hacyclic).2
    rcases Arbitration.exists_ordered (hpromotes.nodup_nodes hw) (hpromotes.nodup_constraints hw)
      hleft hsound hrefuting hreliable with ⟨found, hsolve⟩
    exact ⟨found, auditWith_eq_ok_iff.mpr ⟨hw.validate_eq_ok_iff.mpr hcons, g, cs, hprune, hsolve⟩⟩

/-- The verdict says whether some witness of the level explains the history. -/
theorem exists_auditWith_iff (hw : h.WellFormed)
    (hcommitted : ∀ t ∈ h.clientTransactions, t.committed = true) (hsound : engine.Sound)
    (hrefuting : engine.Refuting) (hreliable : engine.Reliable) (options : AuditOptions) :
    (∃ w, h.auditWith engine options = .ok w) ↔
      ∃ w : Witness, w.level = options.level ∧ w.explains h = true := by
  constructor
  · rintro ⟨w, haccepts⟩
    exact ⟨w, auditWith_explains hw hsound haccepts⟩
  · rintro ⟨w, hlevel, hexplains⟩
    exact exists_auditWith hw hcommitted hexplains hsound hrefuting hreliable hlevel

/-- A committed history that some order explains is accepted, and options of the same level accept the
    same histories. -/
theorem audit_complete {h : History κ ν} (hbuilt : h.Built) {engine : Engine} (hsound : engine.Sound)
    (hrefuting : engine.Refuting) (hreliable : engine.Reliable) (options : AuditOptions) :
    ((∀ t ∈ h.clientTransactions, t.committed = true) →
      (∃ w : Witness, w.level = options.level ∧ w.explains h = true) →
        ∃ w, h.auditWith engine options = .ok w) ∧
    ∀ options' : AuditOptions, options'.level = options.level →
      ((∃ w, h.auditWith engine options = .ok w) ↔ ∃ w, h.auditWith engine options' = .ok w) := by
  have hw := hbuilt.wellFormed
  have hverdict := fun hcommitted => exists_auditWith_iff hw hcommitted hsound hrefuting hreliable
  refine ⟨fun hcommitted => (hverdict hcommitted options).mpr, fun options' hlevel => ?_⟩
  -- What is accepted has been validated, so it is committed.
  have hcommitted : ∀ {options}, (∃ w, h.auditWith engine options = .ok w) →
      ∀ t ∈ h.clientTransactions, t.committed = true := by
    rintro options ⟨w, haccepts⟩
    exact (hw.validate_eq_ok_iff.mp (auditWith_eq_ok_iff.mp haccepts).1).committed
  constructor
  · intro haccepts
    have hiff := hverdict (hcommitted haccepts)
    rw [hiff] at haccepts ⊢
    rwa [hlevel]
  · intro haccepts
    have hiff := hverdict (hcommitted haccepts)
    rw [hiff] at haccepts ⊢
    rwa [← hlevel]

theorem audit_complete_writeSkew :
    (writeSkew.Built ∧ searchEngine.Sound ∧ searchEngine.Refuting ∧ searchEngine.Reliable) ∧
    (∀ t ∈ writeSkew.clientTransactions, t.committed = true) ∧
    (∃ w : Witness, w.level = .snapshotIsolation ∧ w.explains writeSkew = true) ∧
    (∃ w, writeSkew.audit {} = .ok w) ∧
    ∃ w, writeSkew.audit { pruning := .preprocessOnly, strategy := .sparse, rounds := 0 } = .ok w := by
  have hcommitted : ∀ t ∈ writeSkew.clientTransactions, t.committed = true := by decide
  have hexplained : ∃ w : Witness, w.level = .snapshotIsolation ∧ w.explains writeSkew = true :=
    ⟨.splitOrder [(⟨1, 0⟩, .start), (⟨2, 0⟩, .start), (⟨1, 0⟩, .commit), (⟨2, 0⟩, .commit)], rfl,
      by decide +kernel⟩
  have hcomplete := audit_complete built_writeSkew searchEngine_sound searchEngine_complete.refuting
    searchEngine_reliable {}
  have haccepts := hcomplete.1 hcommitted hexplained
  exact ⟨⟨built_writeSkew, searchEngine_sound, searchEngine_complete.refuting, searchEngine_reliable⟩,
    hcommitted, hexplained, haccepts,
    (hcomplete.2 { pruning := .preprocessOnly, strategy := .sparse, rounds := 0 } rfl).mp haccepts⟩

end Isolation
