import Isolation.Proofs.Precedence.Choices
import Isolation.Proofs.Precedence.Constraints
import Isolation.Proofs.Precedence.OfHistory

/-!
# Pruning Is Exact

Pruning decides constraints in rounds, each round by what the rounds before have made known. Nothing is
lost by it and nothing is gained. The acyclic choices that there were before pruning are those that there
are afterwards, with the promoted sides added; and if pruning ends with a known cycle, there were none.

A choice assigns a side to every constraint.

## Main definitions

* `Precedence.KnownAcyclic`: The known graph has no cycle once the edges of a choice are added.

## Theorems

* `prune_exact`: Pruning keeps the acyclic choices.
-/

namespace Isolation

open Isolation.History (writeSkew built_writeSkew)

variable {κ : Type} [DecidableEq κ] {promoted : List (Constraint κ × Direction)}

/-- The known graph has no cycle once the edges of a choice are added. -/
def Precedence.KnownAcyclic (g : Precedence κ) (cs : List (Constraint κ)) (options : AuditOptions)
    (choice : Constraint κ → Direction) : Prop :=
  Acyclic ((g.addSide (chosenEdges cs choice)).knownGraph options.level options.strategy).Edge

theorem Precedence.knownAcyclic_iff {g : Precedence κ} (hnodup : g.nodes.Nodup)
    (cs : List (Constraint κ)) (options : AuditOptions) (choice : Constraint κ → Direction) :
    g.KnownAcyclic cs options choice ↔ g.AcyclicChoice cs options.level choice := by
  refine acyclic_knownGraph_iff ?_ options.level options.strategy
  rw [nodes_addSide]
  exact hnodup

theorem Precedence.AcyclicChoice.congr {g : Precedence κ} {cs : List (Constraint κ)}
    {level : IsolationLevel} {choice choice' : Constraint κ → Direction}
    (hacyclic : g.AcyclicChoice cs level choice) (hsame : ∀ c ∈ cs, choice c = choice' c) :
    g.AcyclicChoice cs level choice' := by
  have hedges : chosenEdges cs choice' = chosenEdges cs choice := by
    refine List.flatMap_congr (fun c hc => ?_)
    rw [hsame c hc]
  rw [AcyclicChoice, hedges]
  exact hacyclic

/-- A choice, with the promoted sides. -/
def completed (promoted : List (Constraint κ × Direction)) (choice : Constraint κ → Direction)
    (c : Constraint κ) : Direction :=
  (promoted.lookup c).getD (choice c)

theorem completed_of_mem (hnodup : (promoted.map Prod.fst).Nodup) (choice : Constraint κ → Direction)
    {p : Constraint κ × Direction} (hp : p ∈ promoted) : completed promoted choice p.1 = p.2 := by
  induction promoted with
  | nil => exact absurd hp List.not_mem_nil
  | cons first rest ih =>
    rw [List.map_cons, List.nodup_cons] at hnodup
    rcases List.mem_cons.mp hp with rfl | hp
    · rw [completed, List.lookup_cons_self, Option.getD_some]
    · have hne : p.1 ≠ first.1 := fun hc => hnodup.1 (hc ▸ List.mem_map_of_mem hp)
      rw [completed, List.lookup_cons, beq_false_of_ne hne]
      exact ih hnodup.2 hp

theorem completed_of_not_mem (choice : Constraint κ → Direction) {c : Constraint κ}
    (hc : c ∉ promoted.map Prod.fst) : completed promoted choice c = choice c := by
  have hnone : promoted.lookup c = none := by
    rw [List.lookup_eq_none_iff]
    intro p hp
    rw [bne_iff_ne]
    exact fun heq => hc (heq ▸ List.mem_map_of_mem hp)
  rw [completed, hnone, Option.getD_none]

/-- The acyclic choices of what is left are the acyclic choices that there were, restricted to it. -/
theorem Promotes.acyclicChoice_rest_iff {level : IsolationLevel} {g g' : Precedence κ}
    {cs cs' : List (Constraint κ)} (hpromotes : Promotes level g cs promoted g' cs') (hcs : cs.Nodup)
    (rest : Constraint κ → Direction) : g'.AcyclicChoice cs' level rest ↔
      ∃ choice, g.AcyclicChoice cs level choice ∧ ∀ c ∈ cs', choice c = rest c := by
  have hnodup := List.nodup_append.mp (hpromotes.perm.nodup_iff.mpr hcs)
  constructor
  · intro hacyclic
    have hrest : ∀ c ∈ cs', completed promoted rest c = rest c := fun c hc =>
      completed_of_not_mem rest fun hmem => hnodup.2.2 c hmem c hc rfl
    refine ⟨completed promoted rest, (hpromotes.acyclicChoice_iff _).mpr ⟨?_, ?_⟩, hrest⟩
    · exact fun p hp => completed_of_mem hnodup.1 rest hp
    · exact hacyclic.congr fun c hc => (hrest c hc).symm
  · rintro ⟨choice, hacyclic, hsame⟩
    exact ((hpromotes.acyclicChoice_iff choice).mp hacyclic).2.congr hsame

variable {ν : Type} [DecidableEq ν] [Ord κ]

/-- Pruning is exact. If it ends with a known cycle, no choice is acyclic. Otherwise every acyclic choice
    picks the sides that have been promoted, and the acyclic choices of what is left are the restrictions
    of the acyclic choices that there were. -/
theorem prune_exact {h : History κ ν} (hbuilt : h.Built) (options : AuditOptions) :
    let g := Precedence.ofHistory h
    let cs := constraints h g
    let pruned := g.prune cs options
    cs.Nodup ∧
    (∀ cycle, pruned.outcome = .error cycle → ∀ choice, ¬ g.KnownAcyclic cs options choice) ∧
    (∀ report, pruned.outcome = .ok report → ∃ promoted : List (Constraint κ × Direction),
      pruned.graph = g.addSide (promotedEdges promoted) ∧
      (promoted.map Prod.fst ++ pruned.constraints).Perm cs ∧
      (∀ choice, g.KnownAcyclic cs options choice → ∀ p ∈ promoted, choice p.1 = p.2) ∧
      ∀ rest, pruned.graph.KnownAcyclic pruned.constraints options rest ↔
        ∃ choice, g.KnownAcyclic cs options choice ∧ ∀ c ∈ pruned.constraints, choice c = rest c) := by
  intro g cs pruned
  have hw := hbuilt.wellFormed
  have hnodup : g.nodes.Nodup := Precedence.nodup_nodes_ofHistory hw
  have hcs : cs.Nodup := nodup_constraints g hw
  rcases Precedence.pruneWithin_promotes options options.rounds 0 0 hnodup cs with
    ⟨⟨promoted, hpromotes⟩, herror⟩
  refine ⟨hcs, ?_, ?_⟩
  · intro cycle hcycle choice hacyclic
    exact herror cycle hcycle choice ((Precedence.knownAcyclic_iff hnodup cs options choice).mp hacyclic)
  · intro report _
    refine ⟨promoted, hpromotes.graph, hpromotes.perm, ?_, ?_⟩
    · intro choice hacyclic
      exact hpromotes.forced choice
        ((Precedence.knownAcyclic_iff hnodup cs options choice).mp hacyclic)
    · intro rest
      rw [Precedence.knownAcyclic_iff (hpromotes.nodes ▸ hnodup)]
      simp only [Precedence.knownAcyclic_iff hnodup]
      exact hpromotes.acyclicChoice_rest_iff hcs rest

/-- Pruning decides everything about write skew: both constraints for snapshot isolation, and that there
    is no acyclic choice for serializability. -/
theorem prune_exact_writeSkew :
    let g := Precedence.ofHistory writeSkew
    let cs := constraints writeSkew g
    writeSkew.Built ∧
    (∃ cycle, (g.prune cs { level := .serializable }).outcome = .error cycle ∧
      ∀ choice, ¬ g.KnownAcyclic cs { level := .serializable } choice) ∧
    ∃ report, (g.prune cs {}).outcome = .ok report ∧
      ∃ promoted : List (Constraint Nat × Direction), promoted.length = 2 ∧
        ∀ choice, g.KnownAcyclic cs {} choice → ∀ p ∈ promoted, choice p.1 = p.2 := by
  intro g cs
  have hrejected : (g.prune cs { level := .serializable }).outcome.toOption.isNone = true := by
    decide +kernel
  have hpruned : (g.prune cs {}).outcome.toOption.isSome = true := by decide +kernel
  have hcount : (g.prune cs {}).constraints.length = 0 ∧ cs.length = 2 := by decide +kernel
  refine ⟨built_writeSkew, ?_, ?_⟩
  · rcases houtcome : (g.prune cs { level := .serializable }).outcome with cycle | report
    · exact ⟨cycle, rfl, (prune_exact built_writeSkew _).2.1 cycle houtcome⟩
    · rw [houtcome] at hrejected
      exact absurd hrejected Bool.false_ne_true
  · rcases houtcome : (g.prune cs {}).outcome with cycle | report
    · rw [houtcome] at hpruned
      exact absurd hpruned Bool.false_ne_true
    · rcases (prune_exact built_writeSkew {}).2.2 report houtcome with ⟨promoted, _, hperm, hforced, _⟩
      refine ⟨report, rfl, promoted, ?_, hforced⟩
      have hlength : (promoted.map Prod.fst ++ (g.prune cs {}).constraints).length = cs.length :=
        hperm.length_eq
      rw [List.length_append, List.length_map] at hlength
      omega

end Isolation
