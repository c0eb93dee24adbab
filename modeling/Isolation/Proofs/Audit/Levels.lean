import Isolation.Proofs.Audit.Completeness

/-!
# Serializable Histories Are Snapshot Isolated

A commit order turns into a split commit order if every transaction commits right behind its start. If
the one explains a history, so does the other, and nothing has to be known about the history for that.

The two replays keep different books. The proof lets them go through the order in step: behind every
commit, those who have started are those who have committed, and the next snapshot is everything that has
been installed. That a start is new, and that it comes right behind the commit of its session predecessor,
is not read off from the history. It follows from the counting of session entries alone, since the heights
of a session have been counted up one by one.

## Main definitions

* `SplitRun.InStep`: A run in which everything that has started has committed.

## Theorems

* `serializable_snapshotIsolated`: What explains a history serially explains it under snapshot isolation,
  and what is accepted at the one level is accepted at the other.
-/

namespace Isolation

variable {id : TransactionId}

open Isolation.Sat
open Isolation.History (twoUpdates built_twoUpdates)

/-- The split commit order in which every transaction commits right behind its start. -/
def backToBack (order : List TransactionId) : List (TransactionId × Phase) :=
  order.flatMap fun id => [(id, .start), (id, .commit)]

theorem backToBack_cons (id : TransactionId) (rest : List TransactionId) :
    backToBack (id :: rest) = [(id, .start), (id, .commit)] ++ backToBack rest :=
  rfl

theorem committedIn_backToBack (order : List TransactionId) :
    committedIn (backToBack order) = order := by
  induction order with
  | nil => rfl
  | cons id rest ih =>
    rw [backToBack_cons, committedIn_append, ih]
    rfl

/-- The heights of transactions, the latest first, count up from zero in each session. -/
def Counted : List TransactionId → Prop
  | [] => True
  | id :: older =>
    id.height = older.countP (fun other => other.session == id.session) ∧ Counted older

namespace Counted

variable {seen : List TransactionId}

theorem height_lt (hcounted : Counted seen) (hmem : id ∈ seen) :
    id.height < seen.countP fun other => other.session == id.session := by
  induction seen with
  | nil => exact absurd hmem List.not_mem_nil
  | cons first older ih =>
    rcases hcounted with ⟨hfirst, holder⟩
    rw [List.countP_cons]
    rcases List.mem_cons.mp hmem with rfl | hmem
    · rw [hfirst, if_pos (beq_self_eq_true _)]
      omega
    · have := ih holder hmem
      omega

/-- The latest entry of a session has the largest height of those that were counted. -/
theorem find?_eq_some (hcounted : Counted seen) {session height : Nat}
    (hcount : seen.countP (fun other => other.session == session) = height + 1) :
    seen.find? (fun other => other.session == session) = some ⟨session, height⟩ := by
  induction seen with
  | nil => exact absurd hcount (Nat.succ_ne_zero height).symm
  | cons first older ih =>
    rcases hcounted with ⟨hfirst, holder⟩
    rw [List.countP_cons] at hcount
    by_cases hsame : (first.session == session) = true
    · rw [if_pos hsame] at hcount
      rw [List.find?_cons, hsame]
      rw [beq_iff_eq] at hsame
      subst hsame
      -- The entry was counted behind all older ones of its session.
      have hheight : first.height = height := by omega
      rw [← hheight]
    · rw [if_neg hsame, Nat.add_zero] at hcount
      rw [Bool.not_eq_true] at hsame
      rw [List.find?_cons, hsame]
      exact ih holder hcount

end Counted

variable {κ ν : Type} [DecidableEq κ] [DecidableEq ν]

/-- A run between two transactions: everything that has started has committed, and sessions have been
    counted up. -/
structure SplitRun.InStep (run : SplitRun κ ν) : Prop where
  started : run.started.map Prod.fst = run.committed
  counted : Counted run.committed

/-- What a run holds when a transaction has gone through both of its phases. -/
def SplitRun.finish (run : SplitRun κ ν) (id : TransactionId) (t : Transaction κ ν) : SplitRun κ ν :=
  ⟨t :: run.installed, (id, run.installed.length) :: run.started, id :: run.committed⟩

namespace SplitRun.InStep

variable {h : History κ ν} {run : SplitRun κ ν} (hstep : run.InStep)

include hstep

omit [DecidableEq κ] [DecidableEq ν] in
theorem finish (t : Transaction κ ν)
    (hheight : id.height = run.committed.countP fun other => other.session == id.session) :
    (run.finish id t).InStep :=
  ⟨congrArg (id :: ·) hstep.started, hheight, hstep.counted⟩

omit [DecidableEq κ] [DecidableEq ν] in
theorem notMem_committed
    (hheight : id.height = run.committed.countP fun other => other.session == id.session) :
    id ∉ run.committed := by
  intro hmem
  have := hstep.counted.height_lt hmem
  omega

omit [DecidableEq κ] [DecidableEq ν] in
theorem start?_eq_some
    (hheight : id.height = run.committed.countP fun other => other.session == id.session) :
    run.start? id = some { run with started := (id, run.installed.length) :: run.started } := by
  have hready : run.predecessorCommitted id = true := by
    rw [predecessorCommitted_iff]
    intro height hsucc
    exact hstep.counted.find?_eq_some (hheight ▸ hsucc)
  have hnew : (run.started.lookup id).isNone = true := by
    rw [Option.isNone_iff_eq_none, List.lookup_eq_none_iff]
    intro entry hentry
    rw [bne_iff_ne]
    rintro rfl
    refine hstep.notMem_committed hheight ?_
    rw [← hstep.started]
    exact List.mem_map_of_mem hentry
  rw [SplitRun.start?, hready, hnew]
  rfl

/-- A transaction that agrees with everything installed starts and commits. -/
theorem start_commit {t : Transaction κ ν} (ht : h.transaction? id = some t)
    (hheight : id.height = run.committed.countP fun other => other.session == id.session)
    (hreads : t.readsMatch (latestValue? run.installed) = true) :
    [(id, Phase.start), (id, Phase.commit)].foldlM (SplitRun.step? h) run =
      some (run.finish id t) := by
  have hstart : SplitRun.step? h run (id, .start) =
      some { run with started := (id, run.installed.length) :: run.started } := by
    rw [SplitRun.step?, ht, Option.bind_some]
    exact hstep.start?_eq_some hheight
  have hfresh : run.committed.contains id = false := by
    rw [← Bool.not_eq_true, List.contains_iff_mem]
    exact hstep.notMem_committed hheight
  -- The snapshot is everything, so nobody has committed in the meantime.
  have hcommit : SplitRun.step? h
      { run with started := (id, run.installed.length) :: run.started } (id, .commit) =
        some (run.finish id t) := by
    rw [SplitRun.step?, ht, Option.bind_some]
    have hnobody : (t.writes.all fun e => !([] : List (Transaction κ ν)).any
        (Transaction.writesKey e.key)) = true := by
      rw [List.all_eq_true]
      intro e _
      rfl
    simp only [SplitRun.commit?, List.lookup_cons_self, Option.bind_eq_bind, Option.bind_some,
      Nat.sub_self, List.take_zero, List.drop_zero, hfresh, hreads, hnobody, Bool.not_false,
      Bool.and_self, if_true]
    rfl
  rw [List.foldlM_cons, hstart]
  simp only [Option.bind_eq_bind, Option.bind_some, List.foldlM_cons, List.foldlM_nil, hcommit,
    Option.pure_def]

/-- What a serial replay accepts, a split replay accepts back to back, and in the end everything that has
    started has committed. -/
theorem foldlM_backToBack {order : List TransactionId}
    (hsessions : inSessionOrderAfter run.committed order = true)
    (hserial : replaySerial h run.installed order = true) :
    ∃ run', (backToBack order).foldlM (SplitRun.step? h) run = some run' ∧ run'.InStep := by
  -- By induction on the order; after each transaction the two replays are in step again.
  induction order generalizing run with
  | nil => exact ⟨run, rfl, hstep⟩
  | cons id rest ih =>
    simp only [inSessionOrderAfter, Bool.and_eq_true, beq_iff_eq] at hsessions
    rcases hsessions with ⟨⟨_, hheight⟩, hrest⟩
    rw [replaySerial] at hserial
    cases ht : h.transaction? id with
    | none =>
      simp only [ht, Bool.false_eq_true] at hserial
    | some t =>
      simp only [ht, Bool.and_eq_true] at hserial
      rcases ih (hstep.finish t hheight) hrest hserial.2 with ⟨run', hrun', hstep'⟩
      refine ⟨run', ?_, hstep'⟩
      rw [backToBack_cons, List.foldlM_append, hstep.start_commit ht hheight hserial.1]
      exact hrun'

end SplitRun.InStep

theorem splitOrder_backToBack_explains {h : History κ ν} {order : List TransactionId}
    (hexplains : (Witness.commitOrder order).explains h = true) :
    (Witness.splitOrder (backToBack order)).explains h = true := by
  simp only [Witness.explains_eq, Witness.replays, Bool.and_eq_true, Witness.commits] at hexplains ⊢
  rcases hexplains with ⟨hcovers, hserial⟩
  have hbegin : SplitRun.InStep (⟨[h.init], [], []⟩ : SplitRun κ ν) := ⟨rfl, trivial⟩
  have hsessions := hcovers
  rw [coversSessions, Bool.and_eq_true] at hsessions
  rcases hbegin.foldlM_backToBack hsessions.1 hserial with ⟨run, hrun, hstep⟩
  refine ⟨by rw [committedIn_backToBack]; exact hcovers, ?_⟩
  simp only [replaySplit, hrun, beq_iff_eq]
  rw [← hstep.started, List.length_map]

variable [Ord κ]

/-- What is accepted as serializable is accepted as snapshot isolated, also by another engine and with
    other options. -/
theorem auditWith_snapshotIsolation {h : History κ ν} (hw : h.WellFormed) {engine engine' : Engine}
    (hsound : engine.Sound) (hsound' : engine'.Sound) (hrefuting : engine'.Refuting)
    (hreliable : engine'.Reliable) {options options' : AuditOptions}
    (hlevel : options.level = .serializable) (hlevel' : options'.level = .snapshotIsolation)
    (haccepts : ∃ w, h.auditWith engine options = .ok w) :
    ∃ w, h.auditWith engine' options' = .ok w := by
  rcases haccepts with ⟨w, haudit⟩
  rcases auditWith_explains hw hsound haudit with ⟨hw_level, hexplains⟩
  have hcommitted := (hw.validate_eq_ok_iff.mp (auditWith_eq_ok_iff.mp haudit).1).committed
  cases w with
  | splitOrder order =>
    rw [hlevel] at hw_level
    exact absurd hw_level (by simp [Witness.level])
  | commitOrder order =>
    exact exists_auditWith hw hcommitted (splitOrder_backToBack_explains hexplains) hsound' hrefuting
      hreliable hlevel'.symm

/-- A commit order that explains a history explains it as a split commit order too, every transaction
    committing right behind its start; so what is accepted as serializable is accepted as snapshot
    isolated, whatever the other options of the two audits and whatever engines decide them. -/
theorem serializable_snapshotIsolated (h : History κ ν) :
    (∀ order, (Witness.commitOrder order).explains h = true →
      (Witness.splitOrder (backToBack order)).explains h = true) ∧
    (h.Built → ∀ options options' : AuditOptions, options.level = .serializable →
      options'.level = .snapshotIsolation →
      ((∃ w, h.audit options = .ok w) → ∃ w, h.audit options' = .ok w) ∧
      ∀ engine engine' : Engine, engine.Sound → engine'.Sound → engine'.Refuting → engine'.Reliable →
        (∃ w, h.auditWith engine options = .ok w) → ∃ w, h.auditWith engine' options' = .ok w) := by
  refine ⟨fun order => splitOrder_backToBack_explains, ?_⟩
  intro hbuilt options options' hlevel hlevel'
  have hw := hbuilt.wellFormed
  refine ⟨?_, ?_⟩
  · exact auditWith_snapshotIsolation hw searchEngine_sound searchEngine_sound
      searchEngine_complete.refuting searchEngine_reliable hlevel hlevel'
  · intro engine engine' hsound hsound' hrefuting hreliable
    exact auditWith_snapshotIsolation hw hsound hsound' hrefuting hreliable hlevel hlevel'

theorem serializable_snapshotIsolated_twoUpdates :
    ((Witness.commitOrder [⟨1, 0⟩, ⟨2, 0⟩]).explains (twoUpdates 1) = true ∧
      (Witness.splitOrder [(⟨1, 0⟩, .start), (⟨1, 0⟩, .commit), (⟨2, 0⟩, .start),
        (⟨2, 0⟩, .commit)]).explains (twoUpdates 1) = true) ∧
    ((twoUpdates 1).Built ∧ (∃ w, (twoUpdates 1).audit { level := .serializable } = .ok w) ∧
      ∃ w, (twoUpdates 1).audit { pruning := .preprocessOnly, strategy := .sparse } = .ok w) ∧
    ((searchEngine.Sound ∧ searchEngine.Refuting ∧ searchEngine.Reliable) ∧
      ∃ w, (twoUpdates 1).auditWith searchEngine { rounds := 0 } = .ok w) := by
  have hserial : (Witness.commitOrder [⟨1, 0⟩, ⟨2, 0⟩]).explains (twoUpdates 1) = true := by
    decide +kernel
  have haccepts : ∃ w, (twoUpdates 1).audit { level := .serializable } = .ok w := by
    have hsome : ((twoUpdates 1).audit { level := .serializable }).toOption.isSome = true := by
      decide +kernel
    rcases haudit : (twoUpdates 1).audit { level := .serializable } with error | w
    · rw [haudit] at hsome
      exact absurd hsome Bool.false_ne_true
    · exact ⟨w, rfl⟩
  have hlevels := serializable_snapshotIsolated (twoUpdates 1)
  have haudits := fun options' hlevel' => hlevels.2 (built_twoUpdates 1) { level := .serializable }
    options' rfl hlevel'
  exact ⟨⟨hserial, hlevels.1 _ hserial⟩,
    ⟨built_twoUpdates 1, haccepts, (haudits { pruning := .preprocessOnly, strategy := .sparse } rfl).1
      haccepts⟩,
    ⟨searchEngine_sound, searchEngine_complete.refuting, searchEngine_reliable⟩,
    (haudits { rounds := 0 } rfl).2 searchEngine searchEngine searchEngine_sound searchEngine_sound
      searchEngine_complete.refuting searchEngine_reliable haccepts⟩

end Isolation
