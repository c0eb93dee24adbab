import Isolation.Audit.Basic
import Isolation.Proofs.Arbitration.Refine
import Isolation.Proofs.Arbitration.Witness
import Isolation.Proofs.Sat.Engine

/-!
# What Is Accepted Is Explained

An audit that accepts gives a witness, and the witness explains the history. Of the engine no more is used
than that its valuations satisfy what was asked. Which of these valuations it gives does not matter, and
neither does the order in which the transactions are listed, as long as the edges of the final graph go
forward in it.

Pruning does not get in the way. Every constraint is decided by pruning or by the valuation, one way or the
other, and one side of every constraint is all that is needed to know how the writers of a key follow each
other.

## Main definitions

* `Witness.level`: The level that a witness is evidence for.

## Theorems

* `audit_sound`: Accepted histories are explained by their witnesses.
-/

namespace Isolation

open Isolation.Sat
open Isolation.History (writeSkew built_writeSkew)

/-- The level that a witness is evidence for. -/
def Witness.level : Witness → IsolationLevel
  | .commitOrder _ => .serializable
  | .splitOrder _ => .snapshotIsolation

variable {κ ν : Type} [DecidableEq κ]

/-- What pruning does, if it is asked for: sides are promoted, or there is no acyclic choice. -/
theorem Precedence.pruneFor_promotes {g : Precedence κ} (hnodup : g.nodes.Nodup)
    (cs : List (Constraint κ)) (options : AuditOptions) :
    (∀ g' cs', g.pruneFor cs options = .ok (g', cs') →
      ∃ promoted, Promotes options.level g cs promoted g' cs') ∧
    ∀ cycle, g.pruneFor cs options = .error cycle →
      ∀ choice, ¬ g.AcyclicChoice cs options.level choice := by
  unfold pruneFor
  cases options.pruning with
  | preprocessOnly =>
    refine ⟨fun g' cs' hok => ?_, fun cycle herror => ?_⟩
    · rcases Prod.mk.inj (Except.ok.inj hok) with ⟨rfl, rfl⟩
      exact ⟨[], Promotes.refl _ g cs⟩
    · cases herror
  | iterative =>
    rcases pruneWithin_promotes options options.rounds 0 0 hnodup cs with ⟨hpromotes, herror⟩
    cases houtcome : (g.prune cs options).outcome with
    | ok report =>
      simp only [houtcome, Except.map]
      refine ⟨fun g' cs' hok => ?_, fun cycle hc => ?_⟩
      · rcases Prod.mk.inj (Except.ok.inj hok) with ⟨rfl, rfl⟩
        exact hpromotes
      · cases hc
    | error cycle =>
      simp only [houtcome, Except.map]
      refine ⟨fun g' cs' hok => ?_, fun _ _ => herror cycle houtcome⟩
      cases hok

variable [DecidableEq ν] [Ord κ]

section Pruned

variable {h : History κ ν} (hw : h.WellFormed) {options : AuditOptions}
  {promoted : List (Constraint κ × Direction)} {g : Precedence κ} {cs : List (Constraint κ)}
  (hpromotes : Promotes options.level (Precedence.ofHistory h)
    (constraints h (Precedence.ofHistory h)) promoted g cs)

include hw hpromotes

omit hw in
theorem Promotes.nodes_eq : g.nodes = h.transactions.map Transaction.id :=
  hpromotes.nodes.trans (Precedence.nodes_ofHistory h)

theorem Promotes.nodup_nodes : g.nodes.Nodup := by
  rw [hpromotes.nodes_eq]
  exact hw.nodup_ids

theorem Promotes.nodup_constraints : cs.Nodup :=
  (hpromotes.perm.nodup_iff.mpr (Isolation.nodup_constraints _ hw)).of_append_right

/-- After pruning, every choice resolves what is open. -/
theorem resolves_of_promotes (hcons : h.Consistent) (choice : Constraint κ → Direction) :
    Resolves h (g.addSide (chosenEdges cs choice)).Depends
      (g.addSide (chosenEdges cs choice)).Linked := by
  rw [hpromotes.graph, Precedence.addSide_addSide]
  refine resolves_of_sides hw hcons (fun c hc => ?_)
  rcases (hpromotes.mem_iff c).mp hc with ⟨direction, hmem⟩ | hmem
  · exact ⟨direction, fun e he =>
      List.mem_append_left _ (mem_promotedEdges_iff.mpr ⟨_, hmem, he⟩)⟩
  · exact ⟨choice c, fun e he => List.mem_append_right _ (mem_chosenEdges_iff.mpr ⟨c, hmem, he⟩)⟩

/-- After pruning, the witness along any order explains the history, whatever the valuation. -/
theorem Promotes.witnessAlong_explains (hcons : h.Consistent) {valuation : Valuation}
    (hcounts : (Arbitration.ofPrecedence g cs options).Counts valuation) {order : List Nat}
    (hordered : ((Arbitration.ofPrecedence g cs options).finalGraph valuation).Ordered order) :
    ((Arbitration.ofPrecedence g cs options).witnessAlong valuation order).level = options.level ∧
      ((Arbitration.ofPrecedence g cs options).witnessAlong valuation order).explains h = true := by
  refine ⟨?_, Arbitration.witnessAlong_explains hw hpromotes.nodes_eq hordered
    (hpromotes.nodup_constraints hw) hcounts hcons (resolves_of_promotes hw hpromotes hcons _)⟩
  rw [Arbitration.witnessAlong,
    show (Arbitration.ofPrecedence g cs options).level = options.level from rfl]
  cases options.level with
  | serializable => rfl
  | snapshotIsolation => rfl

theorem Promotes.solve_explains (hcons : h.Consistent) {engine : Engine} (hsound : engine.Sound)
    {w : Witness} (hsolve : Arbitration.solve engine g cs options = .ordered w) :
    w.level = options.level ∧ w.explains h = true := by
  have hproper := Arbitration.proper_ofPrecedence (hpromotes.nodup_nodes hw) cs options
  rw [Arbitration.solve] at hsolve
  split at hsolve
  · cases hsolve
  · next valuation clauses hrefine =>
      rcases Arbitration.refineWithin_acyclic hsound hrefine with ⟨hassumed, hlinks, _⟩
      cases hwitness : (Arbitration.ofPrecedence g cs options).witness? valuation with
      | none =>
        rw [hwitness] at hsolve
        cases hsolve
      | some found =>
        rw [hwitness] at hsolve
        rw [← Arbitration.Decision.ordered.inj hsolve]
        rcases Option.map_eq_some_iff.mp hwitness with ⟨order, horder, rfl⟩
        -- Any topological order of the final graph would do.
        exact hpromotes.witnessAlong_explains hw hcons ⟨hassumed, hlinks⟩
          (TaggedGraph.topologicalOrder?_ordered
            (Arbitration.regular_finalGraph hproper valuation) horder)
  · split at hsolve
    · cases hsolve
    · cases hsolve

end Pruned

/-- An audit that accepts has found no local faults, has pruned, and has ordered what was left. -/
theorem auditWith_eq_ok_iff {engine : Engine} {h : History κ ν} {options : AuditOptions} {w : Witness} :
    h.auditWith engine options = .ok w ↔ h.validate = .ok () ∧ ∃ g cs,
      (Precedence.ofHistory h).pruneFor (constraints h (Precedence.ofHistory h)) options = .ok (g, cs) ∧
        Arbitration.solve engine g cs options = .ordered w := by
  unfold History.auditWith
  cases hvalid : h.validate with
  | error fault => simp only [reduceCtorEq, false_and]
  | ok _ =>
    cases hprune : (Precedence.ofHistory h).pruneFor (constraints h (Precedence.ofHistory h)) options
      with
    | error cycle => simp only [hprune, reduceCtorEq, false_and, exists_false, and_false]
    | ok left =>
      rcases left with ⟨g, cs⟩
      simp only [hprune, true_and, Except.ok.injEq, Prod.mk.injEq, and_assoc, exists_eq_left',
        exists_and_left]
      cases Arbitration.solve engine g cs options with
      | ordered found => simp only [Except.ok.injEq, Arbitration.Decision.ordered.injEq]
      | conflicting conflicts => simp only [reduceCtorEq]
      | failed message => simp only [reduceCtorEq]

theorem auditWith_explains {h : History κ ν} (hw : h.WellFormed) {engine : Engine}
    (hsound : engine.Sound) {options : AuditOptions} {w : Witness}
    (haccepts : h.auditWith engine options = .ok w) :
    w.level = options.level ∧ w.explains h = true := by
  rcases auditWith_eq_ok_iff.mp haccepts with ⟨hvalid, g, cs, hprune, hsolve⟩
  rcases (Precedence.pruneFor_promotes (Precedence.nodup_nodes_ofHistory hw) _ options).1 g cs hprune
    with ⟨promoted, hpromotes⟩
  exact hpromotes.solve_explains hw (hw.validate_eq_ok_iff.mp hvalid) hsound hsolve

/-- Accepted histories are explained by their witnesses, whichever engine has answered as long as its
    valuations are right; whichever valuation it has given, and whichever order is followed in which the
    edges of the final graph go forward. -/
theorem audit_sound {h : History κ ν} (hbuilt : h.Built) (options : AuditOptions) :
    (∀ w, h.audit options = .ok w → w.level = options.level ∧ w.explains h = true) ∧
    (∀ engine : Engine, engine.Sound → ∀ w, h.auditWith engine options = .ok w →
      w.level = options.level ∧ w.explains h = true) ∧
    (h.validate = .ok () → ∀ g cs,
      (Precedence.ofHistory h).pruneFor (constraints h (Precedence.ofHistory h)) options = .ok (g, cs) →
      ∀ valuation, (Arbitration.ofPrecedence g cs options).Counts valuation →
      ∀ order, ((Arbitration.ofPrecedence g cs options).finalGraph valuation).Ordered order →
        let w := (Arbitration.ofPrecedence g cs options).witnessAlong valuation order;
        w.level = options.level ∧ w.explains h = true) := by
  have hw := hbuilt.wellFormed
  refine ⟨fun w => auditWith_explains hw searchEngine_sound,
    fun engine hsound w => auditWith_explains hw hsound, ?_⟩
  intro hvalid g cs hprune valuation hcounts order hordered
  rcases (Precedence.pruneFor_promotes (Precedence.nodup_nodes_ofHistory hw) _ options).1 g cs hprune
    with ⟨promoted, hpromotes⟩
  exact hpromotes.witnessAlong_explains hw (hw.validate_eq_ok_iff.mp hvalid) hcounts hordered

theorem audit_sound_writeSkew : writeSkew.Built ∧
    (∃ w, writeSkew.audit {} = .ok w ∧ w.level = .snapshotIsolation ∧ w.explains writeSkew = true) ∧
    ∃ g cs, (Precedence.ofHistory writeSkew).pruneFor
        (constraints writeSkew (Precedence.ofHistory writeSkew)) { pruning := .preprocessOnly } =
          .ok (g, cs) ∧
      ∃ valuation, (Arbitration.ofPrecedence g cs { pruning := .preprocessOnly }).Counts valuation ∧
      ∃ order, ((Arbitration.ofPrecedence g cs { pruning := .preprocessOnly }).finalGraph
          valuation).Ordered order ∧
        ((Arbitration.ofPrecedence g cs { pruning := .preprocessOnly }).witnessAlong valuation
          order).explains writeSkew = true := by
  have hw := built_writeSkew.wellFormed
  have hcounts := Arbitration.counts_valuationFor (Precedence.nodup_nodes_ofHistory hw)
    (constraints writeSkew (Precedence.ofHistory writeSkew)) { pruning := .preprocessOnly }
    fun _ => .forward
  have hproper := Arbitration.proper_ofPrecedence (Precedence.nodup_nodes_ofHistory hw)
    (constraints writeSkew (Precedence.ofHistory writeSkew)) { pruning := .preprocessOnly }
  have hordered := TaggedGraph.topologicalOrder?_ordered (Arbitration.regular_finalGraph hproper
    (Arbitration.valuationFor (Precedence.ofHistory writeSkew)
      (constraints writeSkew (Precedence.ofHistory writeSkew)) (fun _ => true) fun _ => .forward))
    (show _ = some [0, 2, 1] by decide +kernel)
  refine ⟨built_writeSkew, ?_, _, _, rfl, _, hcounts, _, hordered,
    ((audit_sound built_writeSkew _).2.2 (by decide +kernel) _ _ rfl _ hcounts _ hordered).2⟩
  have haccepts : (writeSkew.audit {}).toOption.isSome = true := by decide +kernel
  rcases haudit : writeSkew.audit {} with error | w
  · rw [haudit] at haccepts
    exact absurd haccepts Bool.false_ne_true
  · exact ⟨w, rfl, (audit_sound built_writeSkew {}).1 w haudit⟩

end Isolation
