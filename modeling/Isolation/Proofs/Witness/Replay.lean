import Isolation.Proofs.Lists
import Isolation.Witness.Replay
import Mathlib.Data.List.Induction
import Mathlib.Data.List.TakeWhile
import Mathlib.Data.Option.Basic

/-!
# Replays Without Positions

Positions are needed only to tell what was committed before a start from what was committed after it. So a
replay can also be described by the list of what has been committed, the latest transaction first and the
init transaction at its end. A key has the value that the first member of the list writes to it last. A
snapshot is then the end of that list at the moment of the start, and the transactions that committed in the
meantime are the part in front of it. First-committer-wins says that none of them writes a key that the
committing transaction writes.

Both replays go through the same entries, and they agree at every step. The store holds, for every key, what
the listed transactions leave behind, with positions that ascend. So what a position separates in the store
is an end of the list, and its length is the number of commits before the position.

## Main definitions

* `VersionStore.Holds`: The store holds the versions of some commits.

## Theorems

* `Tracks.step`, `Witness.explains_eq`: The two replays go step by step, and agree.
-/

namespace Isolation

variable {κ ν : Type} [DecidableEq κ]

/-- The value that a transaction leaves behind under a key. -/
def Transaction.finalValue? (t : Transaction κ ν) (key : κ) : Option ν :=
  (t.events.reverse.find? (Event.writesKey key)).map Event.value

/-- The value of a key after the given commits, the latest of which comes first. -/
def latestValue? (installed : List (Transaction κ ν)) (key : κ) : Option ν :=
  installed.findSome? fun t => t.finalValue? key

variable [DecidableEq ν]

/-- Runs transactions one after the other. -/
def replaySerial (h : History κ ν) (installed : List (Transaction κ ν)) :
    List TransactionId → Bool
  | [] => true
  | id :: rest =>
    match h.transaction? id with
    | none => false
    | some t =>
      t.readsMatch (latestValue? installed) && replaySerial h (t :: installed) rest

/-- A run in which transactions start and commit at different times. -/
structure SplitRun (κ ν : Type) where
  /-- What has been committed, the latest first. -/
  installed : List (Transaction κ ν)
  /-- The started transactions with the number of commits their snapshot holds. -/
  started : List (TransactionId × Nat)
  /-- The committed transactions, the latest first. -/
  committed : List TransactionId

namespace SplitRun

/-- The session predecessor, if there is one, was the last of its session to commit. -/
def predecessorCommitted (run : SplitRun κ ν) (id : TransactionId) : Bool :=
  match id.height with
  | 0 => true
  | height + 1 =>
    run.committed.find? (fun other => other.session == id.session) == some ⟨id.session, height⟩

/-- Starts a transaction. -/
def start? (run : SplitRun κ ν) (id : TransactionId) : Option (SplitRun κ ν) :=
  if run.predecessorCommitted id && (run.started.lookup id).isNone then
    some { run with started := (id, run.installed.length) :: run.started }
  else none

/-- Commits a transaction: its reads match its snapshot, and nobody who committed since then wrote one
    of its keys. -/
def commit? (run : SplitRun κ ν) (id : TransactionId) (t : Transaction κ ν) :
    Option (SplitRun κ ν) := do
  let size ← run.started.lookup id
  -- What was installed after the start is in front of what the snapshot holds.
  let meanwhile := run.installed.take (run.installed.length - size)
  let snapshot := run.installed.drop (run.installed.length - size)
  if !run.committed.contains id && t.readsMatch (latestValue? snapshot) &&
      t.writes.all (fun e => !meanwhile.any (Transaction.writesKey e.key)) then
    some { run with installed := t :: run.installed, committed := id :: run.committed }
  else none

/-- Runs one entry of a split commit order. -/
def step? (h : History κ ν) (run : SplitRun κ ν) (entry : TransactionId × Phase) :
    Option (SplitRun κ ν) :=
  (h.transaction? entry.1).bind fun t =>
    match entry.2 with
    | .start => run.start? entry.1
    | .commit => run.commit? entry.1 t

end SplitRun

/-- Runs a split commit order; in the end everything that has started has committed. -/
def replaySplit (h : History κ ν) (order : List (TransactionId × Phase)) : Bool :=
  match order.foldlM (SplitRun.step? h) ⟨[h.init], [], []⟩ with
  | some run => run.committed.length == run.started.length
  | none => false

/-- The witness covers the history, and the replay by lists succeeds. -/
def Witness.replays (w : Witness) (h : History κ ν) : Bool :=
  coversSessions h w.commits &&
    match w with
    | .commitOrder order => replaySerial h [h.init] order
    | .splitOrder order => replaySplit h order

omit [DecidableEq ν]

/-! ### Stores and lists of commits -/

section Stores

variable {log : List (Nat × Transaction κ ν)} {store : VersionStore κ ν} {position : Nat}

/-- The versions of a key that a list of commits brings, the latest commit first. -/
def versionsOf (key : κ) : List (Nat × Transaction κ ν) → List (Nat × ν)
  | [] => []
  | commit :: log =>
    versionsOf key log ++ ((commit.2.finalValue? key).map fun value => (commit.1, value)).toList

/-- The positions of commits descend, and all of them are before a position. -/
def Descends (position : Nat) (log : List (Nat × Transaction κ ν)) : Prop :=
  (log.Pairwise fun a b => b.1 < a.1) ∧ ∀ commit ∈ log, commit.1 < position

omit [DecidableEq κ] in
theorem Descends.cons (hlog : Descends position log) (t : Transaction κ ν) :
    Descends (position + 1) ((position, t) :: log) := by
  refine ⟨List.pairwise_cons.mpr ⟨hlog.2, hlog.1⟩, List.forall_mem_cons.mpr ⟨Nat.lt_succ_self _, ?_⟩⟩
  exact fun commit hcommit => Nat.lt_succ_of_lt (hlog.2 commit hcommit)

omit [DecidableEq κ] in
theorem Descends.tail {commit : Nat × Transaction κ ν} (hlog : Descends position (commit :: log)) :
    Descends commit.1 log :=
  ⟨(List.pairwise_cons.mp hlog.1).2, (List.pairwise_cons.mp hlog.1).1⟩

theorem lt_of_mem_versionsOf {key : κ} {version : Nat × ν} (hlog : Descends position log)
    (hversion : version ∈ versionsOf key log) : version.1 < position := by
  induction log with
  | nil => exact absurd hversion List.not_mem_nil
  | cons commit log ih =>
    rcases List.mem_append.mp hversion with hversion | hversion
    · exact ih ⟨hlog.tail.1, fun c hc => hlog.2 c (List.mem_cons_of_mem _ hc)⟩ hversion
    · rw [Option.mem_toList, Option.map_eq_some_iff] at hversion
      rcases hversion with ⟨value, _, rfl⟩
      exact hlog.2 commit List.mem_cons_self

/-- The versions from before a position are those of the commits from before it. -/
theorem takeWhile_versionsOf (hlog : Descends position log) (key : κ) (moment : Nat) :
    (versionsOf key log).takeWhile (fun version => version.1 < moment) =
      versionsOf key (log.filter fun commit => commit.1 < moment) := by
  induction log generalizing position with
  | nil => rfl
  | cons commit log ih =>
    have htail := hlog.tail
    by_cases hlt : commit.1 < moment
    · -- Everything before this commit is from before the moment, and so is the commit itself.
      have hall : ∀ version ∈ versionsOf key (commit :: log), version.1 < moment := by
        intro version hversion
        refine Nat.lt_of_le_of_lt ?_ hlt
        exact Nat.le_of_lt_succ (lt_of_mem_versionsOf (htail.cons commit.2) hversion)
      have hkept : (commit :: log).filter (fun commit => commit.1 < moment) = commit :: log := by
        rw [List.filter_eq_self]
        intro c hc
        rcases List.mem_cons.mp hc with rfl | hc
        · exact decide_eq_true hlt
        · exact decide_eq_true (Nat.lt_trans (htail.2 c hc) hlt)
      rw [hkept, List.takeWhile_eq_self_iff.mpr fun version hversion =>
        decide_eq_true (hall version hversion)]
    · rw [List.filter_cons_of_neg (by simpa using hlt), ← ih htail, versionsOf, List.takeWhile_append]
      split
      · next hlength =>
          rw [(List.takeWhile_sublist _).eq_of_length hlength]
          cases commit.2.finalValue? key with
          | none => exact List.append_nil _
          | some value => simp [hlt]
      · rfl

theorem map_getLast?_versionsOf (key : κ) (log : List (Nat × Transaction κ ν)) :
    (versionsOf key log).getLast?.map Prod.snd = latestValue? (log.map Prod.snd) key := by
  induction log with
  | nil => rfl
  | cons commit log ih =>
    rw [latestValue?] at ih ⊢
    rw [versionsOf, List.map_cons, List.findSome?_cons]
    cases commit.2.finalValue? key with
    | none => simpa using ih
    | some value => simp

/-- The last commit of a key is from after a moment if some commit of the key is. -/
theorem any_getLast?_versionsOf_iff (hlog : Descends position log) (key : κ) (moment : Nat) :
    ((versionsOf key log).getLast?.map Prod.fst).any (moment < ·) = true ↔
      ∃ commit ∈ log, moment < commit.1 ∧ (commit.2.finalValue? key).isSome = true := by
  induction log generalizing position with
  | nil => simp [versionsOf]
  | cons commit log ih =>
    have htail := hlog.tail
    rw [versionsOf, List.exists_mem_cons_iff]
    cases hvalue : commit.2.finalValue? key with
    | none =>
      simpa using ih htail
    | some value =>
      simp only [Option.map_some, Option.toList_some, List.getLast?_append, List.getLast?_singleton,
        Option.some_or, Option.any_some, decide_eq_true_eq, Option.isSome_some, and_true]
      refine ⟨Or.inl, fun hc => hc.elim id ?_⟩
      rintro ⟨other, hother, hlt, _⟩
      exact Nat.lt_trans hlt (htail.2 other hother)

theorem isSome_finalValue?_iff (t : Transaction κ ν) (key : κ) :
    (t.finalValue? key).isSome = true ↔ t.writesKey key = true := by
  rw [Transaction.finalValue?, Option.isSome_map, List.find?_isSome, Transaction.writesKey,
    List.any_eq_true]
  simp only [List.mem_reverse]

/-- The store has the versions of the commits. -/
def VersionStore.Holds (store : VersionStore κ ν) (log : List (Nat × Transaction κ ν)) : Prop :=
  ∀ key, store.versions key = versionsOf key log

theorem VersionStore.versions_put (store : VersionStore κ ν) (e : Event κ ν) (key : κ) :
    (put position store e).versions key = if e.key = key then
      (if (store.versions key).getLast?.any (fun last => last.1 == position) then
        (store.versions key).dropLast else store.versions key) ++ [(position, e.value)]
    else store.versions key :=
  rfl

/-- Writes of one transaction leave one version of each key behind, that of the last one. -/
theorem VersionStore.versions_foldl_put (store : VersionStore κ ν) (events : List (Event κ ν))
    {key : κ} (hfresh : ∀ version ∈ store.versions key, version.1 ≠ position) :
    ((events.filter Event.isWrite).foldl (put position) store).versions key = store.versions key ++
      ((events.reverse.find? (Event.writesKey key)).map fun e => (position, e.value)).toList := by
  induction events using List.reverseRecOn with
  | nil => simp
  | append_singleton events e ih =>
    rw [List.filter_append, List.foldl_append, List.reverse_append, List.reverse_singleton,
      List.singleton_append, List.find?_cons]
    cases hwrite : e.isWrite with
    | false =>
      have hother : e.writesKey key = false := by rw [Event.writesKey, hwrite, Bool.false_and]
      rw [hother, List.filter_cons_of_neg (by simp [hwrite])]
      exact ih
    | true =>
      rw [List.filter_cons_of_pos hwrite, List.filter_nil, List.foldl_cons, List.foldl_nil]
      by_cases hkey : e.key = key
      · have hwrites : e.writesKey key = true := by rw [Event.writesKey, hwrite, hkey]; simp
        rw [hwrites, versions_put, if_pos hkey, ih]
        -- What the transaction has written to the key before is at the end, with its position.
        cases hlast : events.reverse.find? (Event.writesKey key) with
        | some earlier => simp
        | none =>
          have hold : ((store.versions key).getLast?.any fun last => last.1 == position) = false := by
            rw [Option.any_eq_false]
            intro last hlast
            exact beq_eq_false_iff_ne.mpr (hfresh last (List.mem_of_getLast? hlast))
          simp [hold]
      · have hother : e.writesKey key = false := by rw [Event.writesKey, hwrite]; simp [hkey]
        rw [hother, versions_put, if_neg hkey]
        exact ih

namespace VersionStore.Holds

theorem install (hholds : store.Holds log) (hlog : Descends position log) (t : Transaction κ ν) :
    (store.install t position).Holds ((position, t) :: log) := by
  intro key
  have hfresh : ∀ version ∈ store.versions key, version.1 ≠ position := by
    intro version hversion
    rw [hholds key] at hversion
    exact Nat.ne_of_lt (lt_of_mem_versionsOf hlog hversion)
  rw [VersionStore.install, Transaction.writes, versions_foldl_put store t.events hfresh, hholds key,
    versionsOf, Transaction.finalValue?, Option.map_map]
  rfl

theorem begin (init : Transaction κ ν) : (VersionStore.begin init).Holds [(0, init)] :=
  install (fun _ => rfl) ⟨List.Pairwise.nil, fun _ hc => absurd hc List.not_mem_nil⟩ init

variable (hholds : store.Holds log) (hlog : Descends position log)

include hholds hlog

theorem readAt?_eq (moment : Nat) : store.readAt? moment =
    latestValue? ((log.filter fun commit => commit.1 < moment).map Prod.snd) := by
  funext key
  rw [readAt?, hholds key, takeWhile_versionsOf hlog, map_getLast?_versionsOf]

theorem any_lastCommit?_iff (key : κ) (moment : Nat) :
    (store.lastCommit? key).any (moment < ·) = true ↔
      ∃ commit ∈ log, moment < commit.1 ∧ commit.2.writesKey key = true := by
  rw [lastCommit?, hholds key, any_getLast?_versionsOf_iff hlog]
  simp only [isSome_finalValue?_iff]

end VersionStore.Holds

omit [DecidableEq κ] in
/-- What a moment separates: the commits from after it are in front of those from before it. -/
theorem filter_append_filter (hlog : Descends position log) (moment : Nat) :
    log.filter (fun commit => ¬commit.1 < moment) ++ log.filter (fun commit => commit.1 < moment) =
      log := by
  induction log generalizing position with
  | nil => rfl
  | cons commit log ih =>
    by_cases hlt : commit.1 < moment
    · have hnone : (commit :: log).filter (fun commit => ¬commit.1 < moment) = [] := by
        rw [List.filter_eq_nil_iff]
        intro c hc
        rcases List.mem_cons.mp hc with rfl | hc
        · simpa using hlt
        · simpa using Nat.lt_trans (hlog.tail.2 c hc) hlt
      rw [hnone, List.nil_append, List.filter_eq_self]
      intro c hc
      rcases List.mem_cons.mp hc with rfl | hc
      · exact decide_eq_true hlt
      · exact decide_eq_true (Nat.lt_trans (hlog.tail.2 c hc) hlt)
    · rw [List.filter_cons_of_pos (by simpa using hlt), List.filter_cons_of_neg (by simpa using hlt),
        List.cons_append, ih hlog.tail]

end Stores

/-! ### Runs -/

section Runs

variable [DecidableEq ν] {h : History κ ν}

/-- Transactions that run one after the other find the same in the store and in the list. -/
theorem runSerial_eq {log : List (Nat × Transaction κ ν)} {store : VersionStore κ ν} {position : Nat}
    (hholds : store.Holds log) (hlog : Descends position log) (order : List TransactionId) :
    runSerial h store position order = replaySerial h (log.map Prod.snd) order := by
  induction order generalizing log store position with
  | nil => rfl
  | cons id rest ih =>
    have hall : log.filter (fun commit => commit.1 < position) = log :=
      List.filter_eq_self.mpr fun commit hcommit => decide_eq_true (hlog.2 commit hcommit)
    rw [runSerial, replaySerial, hholds.readAt?_eq hlog, hall]
    cases h.transaction? id with
    | none => rfl
    | some t =>
      simp only [ih (hholds.install hlog t) (hlog.cons t), List.map_cons]

/-- Both runs have seen the same entries. A snapshot is given by its moment in one of them, and in the other
    one by the number of commits before it. -/
structure TimedRun.Tracks (timed : TimedRun κ ν) (run : SplitRun κ ν)
    (log : List (Nat × Transaction κ ν)) : Prop where
  holds : timed.store.Holds log
  descends : Descends timed.position log
  installed : run.installed = log.map Prod.snd
  started : run.started = timed.started.map fun start =>
    (start.1, log.countP fun commit => commit.1 < start.2)
  committed : run.committed = timed.committed
  sessions : timed.lastInSession = timed.committed.map fun id => (id.session, id)
  before : ∀ start ∈ timed.started, start.2 < timed.position
  apart : ∀ start ∈ timed.started, ∀ commit ∈ log, commit.1 ≠ start.2

namespace TimedRun.Tracks

variable {timed : TimedRun κ ν} {run : SplitRun κ ν} {log : List (Nat × Transaction κ ν)}
  (htracks : timed.Tracks run log)

include htracks

omit [DecidableEq ν] in
theorem lookup_started (id : TransactionId) : run.started.lookup id =
    (timed.started.lookup id).map fun moment => log.countP fun commit => commit.1 < moment := by
  rw [htracks.started]
  induction timed.started with
  | nil => rfl
  | cons start rest ih =>
    rw [List.map_cons, List.lookup_cons, List.lookup_cons, ih]
    split <;> rfl

omit [DecidableEq ν] in
theorem predecessorCommitted_eq (id : TransactionId) : run.predecessorCommitted id =
    (id.height == 0 || timed.lastInSession.lookup id.session == some ⟨id.session, id.height - 1⟩) := by
  have hfind : ∀ ids : List TransactionId, (ids.map fun id => (id.session, id)).lookup id.session =
      ids.find? fun other => other.session == id.session := by
    intro ids
    induction ids with
    | nil => rfl
    | cons other rest ih =>
      rw [List.map_cons, List.lookup_cons, List.find?_cons, ih, BEq.comm]
  rcases id with ⟨session, height⟩
  rw [SplitRun.predecessorCommitted, htracks.sessions, hfind, htracks.committed]
  cases height with
  | zero => rfl
  | succ height => rfl

omit [DecidableEq ν] in
theorem installed_split (moment : Nat) :
    run.installed.drop (run.installed.length - log.countP fun commit => commit.1 < moment) =
        (log.filter fun commit => commit.1 < moment).map Prod.snd ∧
      run.installed.take (run.installed.length - log.countP fun commit => commit.1 < moment) =
        (log.filter fun commit => ¬commit.1 < moment).map Prod.snd := by
  have hsplit := filter_append_filter htracks.descends moment
  have hinstalled : run.installed = (log.filter fun commit => ¬commit.1 < moment).map Prod.snd ++
      (log.filter fun commit => commit.1 < moment).map Prod.snd := by
    rw [htracks.installed, ← List.map_append, hsplit]
  have hlength : run.installed.length - log.countP (fun commit => commit.1 < moment) =
      ((log.filter fun commit => ¬commit.1 < moment).map Prod.snd).length := by
    rw [hinstalled, List.length_append, List.countP_eq_length_filter, List.length_map, List.length_map,
      Nat.add_sub_cancel]
  rw [hlength, hinstalled]
  exact ⟨List.drop_left, List.take_left⟩

omit [DecidableEq ν] in
theorem start (id : TransactionId) : Option.Rel (fun timed run => ∃ log, Tracks timed run log)
    (timed.start? id) (run.start? id) := by
  have hnone : (run.started.lookup id).isNone = (timed.started.lookup id).isNone := by
    rw [htracks.lookup_started, Option.isNone_map]
  simp only [TimedRun.start?, SplitRun.start?, htracks.predecessorCommitted_eq, hnone]
  split
  · refine .some ⟨log, htracks.holds, ⟨htracks.descends.1, fun commit hcommit =>
      Nat.lt_succ_of_lt (htracks.descends.2 commit hcommit)⟩, htracks.installed, ?_, htracks.committed,
      htracks.sessions, List.forall_mem_cons.mpr ⟨Nat.lt_succ_self _, fun start hstart =>
        Nat.lt_succ_of_lt (htracks.before start hstart)⟩, List.forall_mem_cons.mpr
      ⟨fun commit hcommit => Nat.ne_of_lt (htracks.descends.2 commit hcommit), htracks.apart⟩⟩
    -- At the start, everything that has been installed is from before.
    have hall : log.countP (fun commit => commit.1 < timed.position) = run.installed.length := by
      rw [htracks.installed, List.length_map, List.countP_eq_length]
      exact fun commit hcommit => decide_eq_true (htracks.descends.2 commit hcommit)
    rw [List.map_cons, hall, htracks.started]
  · exact .none

theorem commit (id : TransactionId) (t : Transaction κ ν) :
    Option.Rel (fun timed run => ∃ log, Tracks timed run log) (timed.commit? id t) (run.commit? id t) := by
  simp only [TimedRun.commit?, SplitRun.commit?, htracks.lookup_started, Option.bind_eq_bind]
  cases hlookup : timed.started.lookup id with
  | none => exact .none
  | some moment =>
    have hmem := mem_of_lookup_eq_some hlookup
    rcases htracks.installed_split moment with ⟨hsnapshot, hmeanwhile⟩
    have hwins : ∀ e : Event κ ν, (timed.store.lastCommit? e.key).any (moment < ·) =
        ((log.filter fun commit => ¬commit.1 < moment).map Prod.snd).any
          (Transaction.writesKey e.key) := by
      intro e
      rw [Bool.eq_iff_iff, htracks.holds.any_lastCommit?_iff htracks.descends, List.any_map,
        List.any_eq_true]
      refine exists_congr fun commit => ?_
      rw [List.mem_filter, decide_eq_true_eq, and_assoc]
      refine and_congr_right fun hcommit => and_congr_left fun _ => ?_
      have hne := htracks.apart _ hmem commit hcommit
      simp only at hne
      omega
    simp only [Option.map_some, Option.bind_some, htracks.holds.readAt?_eq htracks.descends, hwins,
      hsnapshot, hmeanwhile, htracks.committed]
    split
    · refine .some ⟨(timed.position, t) :: log, htracks.holds.install htracks.descends t,
        htracks.descends.cons t, ?_, ?_, rfl, ?_, fun start hstart =>
        Nat.lt_succ_of_lt (htracks.before start hstart), fun start hstart =>
        List.forall_mem_cons.mpr ⟨(Nat.ne_of_lt (htracks.before start hstart)).symm,
          htracks.apart start hstart⟩⟩
      · rw [List.map_cons, htracks.installed]
      · rw [htracks.started]
        refine List.map_congr_left fun start hstart => ?_
        have hafter : ¬timed.position < start.2 := Nat.lt_asymm (htracks.before start hstart)
        rw [List.countP_cons_of_neg (by simpa using hafter)]
      · rw [List.map_cons, htracks.sessions]
    · exact .none

/-- One entry leads both runs to the same point, or stops both of them. -/
theorem step (entry : TransactionId × Phase) : Option.Rel (fun timed run => ∃ log, Tracks timed run log)
    (timed.step? h entry) (run.step? h entry) := by
  rcases entry with ⟨id, phase⟩
  rw [TimedRun.step?, SplitRun.step?]
  cases h.transaction? id with
  | none => exact .none
  | some t =>
    cases phase with
    | start => exact htracks.start id
    | commit => exact htracks.commit id t

theorem foldlM (order : List (TransactionId × Phase)) :
    Option.Rel (fun timed run => ∃ log, Tracks timed run log)
      (order.foldlM (TimedRun.step? h) timed) (order.foldlM (SplitRun.step? h) run) := by
  induction order generalizing timed run log with
  | nil => exact .some ⟨log, htracks⟩
  | cons entry rest ih =>
    rw [List.foldlM_cons, List.foldlM_cons]
    have hstep := htracks.step (h := h) entry
    generalize timed.step? h entry = next at hstep ⊢
    generalize run.step? h entry = next' at hstep ⊢
    cases hstep with
    | some hnext =>
      rcases hnext with ⟨log', hnext⟩
      exact ih hnext
    | none => exact .none

end TimedRun.Tracks

/-- The replay with positions and the one by lists agree. -/
theorem Witness.explains_eq (w : Witness) (h : History κ ν) : w.explains h = w.replays h := by
  have hbegin : Descends 1 [((0 : Nat), h.init)] :=
    ⟨List.pairwise_singleton _ _, List.forall_mem_singleton.mpr Nat.zero_lt_one⟩
  cases w with
  | commitOrder order =>
    rw [explains, replays, runSerial_eq (.begin h.init) hbegin]
    rfl
  | splitOrder order =>
    have htracks : TimedRun.Tracks (κ := κ) ⟨1, .begin h.init, [], [], []⟩ ⟨[h.init], [], []⟩
        [(0, h.init)] :=
      ⟨.begin h.init, hbegin, rfl, rfl, rfl, rfl, fun _ hc => absurd hc List.not_mem_nil,
        fun _ hc => absurd hc List.not_mem_nil⟩
    rw [explains, replays, runSplit, replaySplit]
    have hend := htracks.foldlM (h := h) order
    generalize order.foldlM (TimedRun.step? h) _ = timed at hend ⊢
    generalize order.foldlM (SplitRun.step? h) _ = run at hend ⊢
    cases hend with
    | some hend =>
      rcases hend with ⟨log, hend⟩
      simp only [hend.committed, hend.started, List.length_map]
    | none => rfl

end Runs

end Isolation
