import Isolation.Proofs.Precedence.Choices
import Isolation.Proofs.Precedence.Layers

/-!
# The Accounts of Pruning

Pruning goes in rounds, and each of them changes both the graph and the list of constraints. What a whole
run has done is accounted for here. Every constraint of the list is either *settled*, by one of its sides,
or it is still open at the end. The open ones are left as they were and in their order, the edges that the
graph has gained are those of the sides that settled the others, and the numbers in the report are those of
the list.

A run is described by a relation that has one case for each way in which a round can go: the budget is used
up, a cycle is found, nothing is settled, or something is and there are fewer constraints for the rounds
behind it. A round counts the sides that it adds and drops constraints in a second pass over the decisions,
so that the two numbers agree is a fact about every round. Since each round but the last settles something,
there is at most one round more than there are constraints.

## Main definitions

* `Precedence.Prunes`: How pruning gets to its end.

## Theorems

* `Precedence.pruneWithin_prunes`, `Precedence.prune_accounts`: How rounds go, and the accounts of
  pruning.
-/

namespace Isolation

variable {κ ν : Type}

namespace Settles

variable {cs cs' cs'' : List (Constraint κ)} {settled settled' : List (Constraint κ × Direction)}

theorem refl (cs : List (Constraint κ)) : Settles cs [] cs := by
  induction cs with
  | nil => exact nil
  | cons c rest ih => exact leave c ih

theorem sublist (hsettles : Settles cs settled cs') : cs'.Sublist cs := by
  induction hsettles with
  | nil => exact List.Sublist.slnil
  | leave c _ ih => exact ih.cons_cons c
  | settle c _ _ ih => exact ih.cons c

theorem length_add (hsettles : Settles cs settled cs') : settled.length + cs'.length = cs.length := by
  have hlength := hsettles.perm.length_eq
  rw [List.length_append, List.length_map] at hlength
  exact hlength

theorem trans (hfirst : Settles cs settled cs') (hsecond : Settles cs' settled' cs'') :
    ∃ both, Settles cs both cs'' ∧ both.Perm (settled ++ settled') := by
  induction hfirst generalizing settled' cs'' with
  | nil => exact ⟨settled', hsecond, List.Perm.refl _⟩
  | leave c _ ih =>
    cases hsecond with
    | leave _ hrest =>
      rcases ih hrest with ⟨both, hboth, hperm⟩
      exact ⟨both, leave c hboth, hperm⟩
    | settle _ direction hrest =>
      rcases ih hrest with ⟨both, hboth, hperm⟩
      exact ⟨(c, direction) :: both, settle c direction hboth,
        (hperm.cons (c, direction)).trans List.perm_middle.symm⟩
  | settle c direction _ ih =>
    rcases ih hsecond with ⟨both, hboth, hperm⟩
    exact ⟨(c, direction) :: both, settle c direction hboth, hperm.cons (c, direction)⟩

end Settles

namespace Precedence

theorem conflicts_eq_false_of_forced?_eq_none {g : Precedence κ} {level : IsolationLevel}
    {closure : TaggedGraph} {c : Constraint κ} (hnone : g.forced? level closure c = none)
    (direction : Direction) : g.conflicts level closure (c.edges direction) = false := by
  unfold forced? at hnone
  split at hnone
  · cases hnone
  · next hforward =>
      split at hnone
      · cases hnone
      · next hbackward =>
          cases direction with
          | forward => exact (Bool.not_eq_true _).mp hforward
          | backward => exact (Bool.not_eq_true _).mp hbackward

/-- A graph has gained the edges of some sides, each with its label, and nothing else. -/
def Gains (g : Precedence κ) (settled : List (Constraint κ × Direction)) (g' : Precedence κ) : Prop :=
  ∀ l a b, g'.Bears l a b ↔ g.Bears l a b ∨
    ∃ p ∈ settled, ∃ e ∈ p.1.edges p.2, (a = e.source ∧ b = e.target) ∧ l = e.label

theorem Gains.refl (g : Precedence κ) : g.Gains [] g := by
  intro l a b
  refine (or_iff_left ?_).symm
  intro hc
  rcases hc with ⟨p, hp, _⟩
  exact absurd hp List.not_mem_nil

theorem Gains.trans {g g₁ g' : Precedence κ} {settled settled' both : List (Constraint κ × Direction)}
    (hfirst : g.Gains settled g₁) (hsecond : g₁.Gains settled' g')
    (hperm : both.Perm (settled ++ settled')) : g.Gains both g' := by
  intro l a b
  simp only [hsecond l a b, hfirst l a b, or_assoc, hperm.mem_iff, List.mem_append, or_and_right,
    exists_or]

theorem gains_addSide [DecidableEq κ] (g : Precedence κ) (settled : List (Constraint κ × Direction)) :
    g.Gains settled (g.addSide (promotedEdges settled)) := by
  intro l a b
  refine (bears_addSide_iff g l a b _).trans (or_congr_right ?_)
  simp only [mem_promotedEdges_iff]
  constructor
  · intro hedge
    rcases hedge with ⟨e, ⟨p, hp, he⟩, hends⟩
    exact ⟨p, hp, e, he, hends⟩
  · intro hedge
    rcases hedge with ⟨p, hp, e, he, hends⟩
    exact ⟨e, ⟨p, hp, he⟩, hends⟩

/-- How pruning ends: the budget is used up, the last round has settled nothing, or it has found a cycle. -/
inductive Ending where
  | exhausted
  | settled
  | cyclic (cycle : KnownCycle)

/-- What is reported at the end. -/
def Ending.outcome (report : PruningReport) : Ending → Except KnownCycle PruningReport
  | .exhausted => .ok report
  | .settled => .ok report
  | .cyclic cycle => .error cycle

theorem Ending.outcome_eq_error_iff (ending : Ending) (numbers : PruningReport) (cycle : KnownCycle) :
    ending.outcome numbers = .error cycle ↔ ending = .cyclic cycle := by
  cases ending <;> simp only [outcome, reduceCtorEq, Except.error.injEq, cyclic.injEq]

theorem Ending.outcome_eq_ok_iff (ending : Ending) (numbers report : PruningReport) :
    ending.outcome numbers = .ok report ↔
      (ending = .exhausted ∨ ending = .settled) ∧ numbers = report := by
  cases ending <;> simp only [outcome, reduceCtorEq, Except.ok.injEq, true_or, or_true, true_and,
    or_self, false_and]

variable [DecidableEq κ]

/-- Rounds within a budget lead from a graph and its constraints to others. The relation also says how many
    rounds there are, how many constraints they have resolved by their own count, and how they end. -/
inductive Prunes (options : AuditOptions) : Nat → Precedence κ → List (Constraint κ) → Nat → Nat →
    Ending → Precedence κ → List (Constraint κ) → Prop where
  | exhausted (g : Precedence κ) (cs : List (Constraint κ)) :
      Prunes options 0 g cs 0 0 .exhausted g cs
  | cyclic {budget : Nat} {g : Precedence κ} {cs : List (Constraint κ)} {cycle : KnownCycle}
      (round : g.pruneRound cs options = .error cycle) :
      Prunes options (budget + 1) g cs 1 0 (.cyclic cycle) g cs
  | settled {budget : Nat} {g g' : Precedence κ} {cs cs' : List (Constraint κ)}
      (round : g.pruneRound cs options = .ok (0, g', cs')) :
      Prunes options (budget + 1) g cs 1 0 .settled g' cs'
  | further {budget newly n resolved : Nat} {ending : Ending} {g g₁ g' : Precedence κ}
      {cs cs₁ cs' : List (Constraint κ)} (round : g.pruneRound cs options = .ok (newly, g₁, cs₁))
      (some : newly ≠ 0) (rest : Prunes options budget g₁ cs₁ n resolved ending g' cs') :
      Prunes options (budget + 1) g cs (n + 1) (newly + resolved) ending g' cs'

/-- Rounds go as the relation says, and the numbers reported are those of the rounds. -/
theorem pruneWithin_prunes (options : AuditOptions) (budget rounds resolved : Nat)
    (g : Precedence κ) (cs : List (Constraint κ)) :
    let pruned := pruneWithin options budget rounds resolved g cs
    ∃ n more ending, Prunes options budget g cs n more ending pruned.graph pruned.constraints ∧
      pruned.outcome =
        ending.outcome ⟨rounds + n, resolved + more, pruned.constraints.length⟩ := by
  induction budget generalizing rounds resolved g cs with
  | zero => exact ⟨0, 0, .exhausted, Prunes.exhausted g cs, rfl⟩
  | succ budget ih =>
    rcases hround : g.pruneRound cs options with cycle | ⟨newly, g₁, cs₁⟩
    · simp only [pruneWithin, hround]
      exact ⟨1, 0, .cyclic cycle, Prunes.cyclic hround, rfl⟩
    · by_cases hnewly : newly = 0
      · rw [hnewly] at hround
        simp only [pruneWithin, hround, if_true]
        exact ⟨1, 0, .settled, Prunes.settled hround, rfl⟩
      · simp only [pruneWithin, hround, hnewly, if_false]
        rcases ih (rounds + 1) (resolved + newly) g₁ cs₁ with ⟨n, more, ending, hprunes, houtcome⟩
        refine ⟨n + 1, newly + more, ending, Prunes.further hround hnewly hprunes, ?_⟩
        rw [houtcome, Nat.add_assoc rounds, Nat.add_comm 1, Nat.add_assoc resolved]

theorem prune_prunes (g : Precedence κ) (cs : List (Constraint κ)) (options : AuditOptions) :
    let pruned := g.prune cs options
    ∃ n resolved ending,
      Prunes options options.rounds g cs n resolved ending pruned.graph pruned.constraints ∧
      pruned.outcome = ending.outcome ⟨n, resolved, pruned.constraints.length⟩ := by
  have hprunes := pruneWithin_prunes options options.rounds 0 0 g cs
  simp only [Nat.zero_add] at hprunes
  exact hprunes

namespace Prunes

variable {options : AuditOptions} {budget n resolved : Nat} {ending : Ending} {g g' : Precedence κ}
  {cs cs' : List (Constraint κ)}

/-- There are no more rounds than the budget allows, and at most one more than there are constraints. -/
theorem rounds_le (hprunes : Prunes options budget g cs n resolved ending g' cs') :
    n ≤ min budget (cs.length + 1) := by
  induction hprunes with
  | exhausted => omega
  | cyclic _ => omega
  | settled _ => omega
  | further hround hsome _ ih =>
    -- What a round counts it has taken off the list.
    rcases pruneRound_spec hround with ⟨hcount, _, hsettles, _⟩
    have hlength := hsettles.length_add
    omega

theorem eq_budget_of_exhausted (hprunes : Prunes options budget g cs n resolved .exhausted g' cs') :
    n = budget := by
  generalize hending : Ending.exhausted = ending at hprunes
  induction hprunes with
  | exhausted => rfl
  | cyclic _ => cases hending
  | settled _ => cases hending
  | further _ _ _ ih => rw [ih hending]

/-- A run settles as many of the constraints as it counts, and its graph gains the edges of the sides that
    settle them. -/
theorem exists_settles (hprunes : Prunes options budget g cs n resolved ending g' cs') :
    ∃ settled, Settles cs settled cs' ∧ g.Gains settled g' ∧ settled.length = resolved := by
  induction hprunes with
  | exhausted g cs => exact ⟨[], Settles.refl cs, Gains.refl g, rfl⟩
  | @cyclic _ g cs _ _ => exact ⟨[], Settles.refl cs, Gains.refl g, rfl⟩
  | settled hround =>
    rcases pruneRound_spec hround with ⟨hcount, rfl, hsettles, _⟩
    exact ⟨_, hsettles, gains_addSide _ _, hcount.symm⟩
  | further hround _ _ ih =>
    -- What the first round settles comes together with what the others settle.
    rcases pruneRound_spec hround with ⟨hcount, rfl, hsettles, _⟩
    rcases ih with ⟨settled, hrest, hgains, hlength⟩
    rcases hsettles.trans hrest with ⟨both, hboth, hperm⟩
    refine ⟨both, hboth, (gains_addSide _ _).trans hgains hperm, ?_⟩
    rw [hperm.length_eq, List.length_append, hcount, hlength]

/-- If the last round has settled nothing, the sides of what is open do not conflict with its closure. -/
theorem not_conflicts (hprunes : Prunes options budget g cs n resolved .settled g' cs') {c : Constraint κ}
    (hc : c ∈ cs') (direction : Direction) :
    g'.conflicts options.level (g'.roundClosure options) (c.edges direction) = false := by
  generalize hending : Ending.settled = ending at hprunes
  induction hprunes with
  | exhausted => cases hending
  | cyclic _ => cases hending
  | @settled _ g _ cs cs' hround =>
    rcases pruneRound_spec hround with ⟨hcount, hgraph, _, hopen⟩
    -- No side was counted, so none was added.
    rw [hgraph, List.length_eq_zero_iff.mp hcount.symm]
    exact conflicts_eq_false_of_forced?_eq_none (hopen c hc) direction
  | further _ _ _ ih => exact ih hc hending

theorem keepsSessions {h : History κ ν} (hprunes : Prunes options budget g cs n resolved ending g' cs')
    (hkeeps : KeepsSessions h g) : KeepsSessions h g' := by
  induction hprunes with
  | exhausted => exact hkeeps
  | cyclic _ => exact hkeeps
  | settled hround =>
    rw [(pruneRound_spec hround).2.1]
    exact hkeeps.addSide _
  | further hround _ _ ih =>
    refine ih ?_
    rw [(pruneRound_spec hround).2.1]
    exact hkeeps.addSide _

end Prunes

omit [DecidableEq κ] in
theorem KeepsSessions.conflicts_roundClosure {h : History κ ν} {g : Precedence κ} (hw : h.WellFormed)
    (hkeeps : KeepsSessions h g) (options : AuditOptions) (strategy : Strategy)
    (edges : List (SideEdge κ)) :
    g.conflicts options.level ((g.knownGraph options.level options.strategy).closure strategy) edges =
      g.conflicts options.level (g.roundClosure options) edges := by
  have hregular := (knownGraph_spec (hkeeps.nodup hw) options.level options.strategy).1
  have hsame : ∀ i j,
      ((g.knownGraph options.level options.strategy).closure strategy).hasEdge i j =
        (g.roundClosure options).hasEdge i j := by
    intro i j
    rw [Bool.eq_iff_iff]
    exact ((hkeeps.inSessions_knownGraph hw options.level options.strategy).edge_closure_thin_iff
      hregular options.strategy strategy i j).symm
  unfold conflicts
  simp only [hsame]

variable [DecidableEq ν]

/-- Pruning the graph of a history, whatever labels were added to it and whatever the constraints are, takes
    no more rounds than it may, and at most one more than there are constraints. If it reports no cycle,
    it has settled as many constraints as it reports, and together with the open ones these are all; the
    open constraints are some of the given ones in their order, and the graph has gained the edges of one
    side for each of the others and no more. If the last round has settled nothing, the closure of the
    final known graph rules out no side of an open constraint. -/
theorem prune_accounts {h : History κ ν} (hbuilt : h.Built) (calls : List (Addition κ))
    (cs : List (Constraint κ)) (options : AuditOptions) :
    let g := (ofHistory h).addAll calls
    let pruned := g.prune cs options
    ∃ n resolved ending,
      Prunes options options.rounds g cs n resolved ending pruned.graph pruned.constraints ∧
      n ≤ min options.rounds (cs.length + 1) ∧
      (∀ cycle, pruned.outcome = .error cycle ↔ ending = .cyclic cycle) ∧
      ∀ report, pruned.outcome = .ok report →
        (report.rounds = n ∧ report.resolved = resolved ∧
          report.remaining = pruned.constraints.length ∧
          report.resolved + report.remaining = cs.length) ∧
        pruned.constraints.Sublist cs ∧
        (∃ settled, Settles cs settled pruned.constraints ∧ g.Gains settled pruned.graph ∧
          settled.length = report.resolved) ∧
        (ending = .exhausted ∧ n = options.rounds ∨
          ending = .settled ∧ ∀ c ∈ pruned.constraints, ∀ direction strategy,
            pruned.graph.conflicts options.level
              ((pruned.graph.knownGraph options.level options.strategy).closure strategy)
              (c.edges direction) = false) := by
  intro g pruned
  have hw := hbuilt.wellFormed
  have hkeeps : KeepsSessions h g := (keepsSessions_ofHistory hw).foldl_addEdge Addition.source
    Addition.target Addition.label calls
  have hspec : ∃ n resolved ending, Prunes options options.rounds g cs n resolved ending pruned.graph
      pruned.constraints ∧
        pruned.outcome = ending.outcome ⟨n, resolved, pruned.constraints.length⟩ :=
    prune_prunes g cs options
  rcases hspec with ⟨n, resolved, ending, hprunes, houtcome⟩
  refine ⟨n, resolved, ending, hprunes, hprunes.rounds_le, ?_, ?_⟩
  · intro cycle
    rw [houtcome]
    exact ending.outcome_eq_error_iff _ cycle
  · intro report hreport
    rw [houtcome, Ending.outcome_eq_ok_iff] at hreport
    rcases hreport with ⟨hending, rfl⟩
    rcases hprunes.exists_settles with ⟨settled, hsettles, hgains, hcount⟩
    refine ⟨⟨rfl, rfl, rfl, ?_⟩, hsettles.sublist, ⟨settled, hsettles, hgains, hcount⟩, ?_⟩
    · rw [← hcount]
      exact hsettles.length_add
    · rcases hending with rfl | rfl
      · exact Or.inl ⟨rfl, hprunes.eq_budget_of_exhausted⟩
      · refine Or.inr ⟨rfl, fun c hc direction strategy => ?_⟩
        rw [(hprunes.keepsSessions hkeeps).conflicts_roundClosure hw]
        exact hprunes.not_conflicts hc direction

end Precedence

namespace History

/-- Two clients write the same key and read nothing. -/
def blindWrites : History Nat Nat where
  init := ⟨.init, [⟨.init, .write, 0, 0⟩], false⟩
  sessions := [
    ⟨1, [⟨⟨1, 0⟩, [⟨⟨1, 0⟩, .write, 0, 1⟩], true⟩]⟩,
    ⟨2, [⟨⟨2, 0⟩, [⟨⟨2, 0⟩, .write, 0, 2⟩], true⟩]⟩]

theorem built_blindWrites : blindWrites.Built := by
  have hinit := (Built.empty : Built (empty : History Nat Nat)).addInitialWrite
    (show addInitialWrite _ 0 0 = .ok (_, _) from rfl)
  exact hinit.loadSessions (show blindWrites.recording.foldlM loadSession _ = .ok blindWrites from rfl)

end History

open History (blindWrites built_blindWrites)

/-- An anti-dependency between the two clients. -/
def Precedence.betweenClients : List (Addition Nat) :=
  [⟨⟨1, 0⟩, ⟨2, 0⟩, .keyed .readWrite 1⟩]

/-- The first round puts both clients behind the init transaction, and the second one settles nothing. The
    anti-dependency between the clients does not decide which of them comes first. -/
theorem Precedence.prune_accounts_blindWrites :
    let g := (ofHistory blindWrites).addAll betweenClients
    let cs := constraints blindWrites g
    let pruned := g.prune cs {}
    blindWrites.Built ∧ pruned.outcome = .ok ⟨2, 2, 1⟩ ∧
      (∃ settled, Settles cs settled pruned.constraints ∧ settled.length = 2) ∧
      ∀ c ∈ pruned.constraints, ∀ direction strategy, pruned.graph.conflicts .snapshotIsolation
        ((pruned.graph.knownGraph .snapshotIsolation .dense).closure strategy)
        (c.edges direction) = false := by
  -- The terms are written out, so that no step has to compare them by running them.
  dsimp only
  rcases prune_accounts built_blindWrites betweenClients
      (constraints blindWrites ((ofHistory blindWrites).addAll betweenClients)) {} with
    ⟨n, resolved, ending, _, _, _, haccounts⟩
  have hreport : (((ofHistory blindWrites).addAll betweenClients).prune
      (constraints blindWrites ((ofHistory blindWrites).addAll betweenClients)) {}).outcome =
        .ok ⟨2, 2, 1⟩ := by
    decide +kernel
  rcases haccounts ⟨2, 2, 1⟩ hreport with
    ⟨⟨hrounds, _⟩, _, ⟨settled, hsettles, _, hcount⟩, hending⟩
  refine ⟨built_blindWrites, hreport, ⟨settled, hsettles, hcount⟩, ?_⟩
  rcases hending with ⟨_, hexhausted⟩ | ⟨_, hclear⟩
  · exact absurd (hrounds.trans hexhausted) (by decide)
  · exact hclear

end Isolation
