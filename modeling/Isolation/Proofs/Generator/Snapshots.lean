import Isolation.Proofs.Generator.Runs
import Isolation.Proofs.Recorded.Snapshots

/-!
# Generation From Stale Snapshots

However far back a transaction takes its snapshot, what the generator makes is a recording of the size that was
asked for, and a valid one. Counting is the smaller part of it. The rest is an invariant that ties the committed
states to the log: whatever a state holds was left behind by a transaction that ran before. Which one it was, and
whether others have overwritten it since, is not part of the invariant, so it holds of old states as well as of
the latest one.

## Main definitions

* `Accounted`: What holds of a transaction while it runs.
* `WellMade`: What can be relied on in a generated recording.

## Theorems

* `recording?_wellMade`: Generated recordings are well made.
-/

namespace Isolation.Generator

open Isolation.Recorded (Log writtenValues lastWritten? readKeys)

/-- What a state holds was left behind by a transaction of the log. -/
def Grounded (bound : Nat) (log : Log UInt64 UInt64) (state : State) : Prop :=
  ∀ v < bound, ∀ value, state.lookup v = some value →
    ∃ entry ∈ log, lastWritten? (UInt64.ofNat v) entry.2.events = some (UInt64.ofNat value)

namespace Grounded

variable {bound : Nat} {log : Log UInt64 UInt64} {state : State}

theorem nil (bound : Nat) (log : Log UInt64 UInt64) : Grounded bound log [] := by
  intro v _ value hvalue
  cases hvalue

theorem mono (hstate : Grounded bound log state) (later : Log UInt64 UInt64) :
    Grounded bound (log ++ later) state := by
  intro v hv value hvalue
  rcases hstate v hv value hvalue with ⟨entry, hentry, hleft⟩
  exact ⟨entry, List.mem_append_left _ hentry, hleft⟩

end Grounded

/-- What holds of a transaction while it runs behind some others. -/
structure Accounted (bound : Nat) (earlier : Log UInt64 UInt64) (running : Running) : Prop where
  /-- Its own writes are what it has written last. -/
  own : ∀ v < bound, lastWritten? (UInt64.ofNat v) running.events.reverse =
    (running.own.lookup v).map UInt64.ofNat
  /-- It has seen own writes and what others left behind. -/
  sees : Log.Sees earlier running.events.reverse
  /-- The variables it has read are listed, none of them twice. -/
  reads : readKeys running.events.reverse = running.seen.reverse.map UInt64.ofNat
  nodup : running.seen.Nodup
  seen_lt : ∀ v ∈ running.seen, v < bound

namespace Accounted

variable {bound : Nat} {earlier : Log UInt64 UInt64} {running : Running}

theorem nil (bound : Nat) (earlier : Log UInt64 UInt64) (written : List Nat) :
    Accounted bound earlier ⟨[], [], written, []⟩ where
  own _ _ := rfl
  sees := Log.Sees.nil earlier
  reads := rfl
  nodup := List.nodup_nil
  seen_lt _ hv := absurd hv List.not_mem_nil

/-- What a read of a variable sees is an own write, or the snapshot supplies it. -/
theorem sees_lookup (haccounted : Accounted bound earlier running) {snapshot : State}
    (hsnapshot : Grounded bound earlier snapshot) {v : Nat} (hv : v < bound) :
    ((running.own ++ snapshot).lookup v).map UInt64.ofNat =
        lastWritten? (UInt64.ofNat v) running.events.reverse ∨
      lastWritten? (UInt64.ofNat v) running.events.reverse = none ∧
        ∃ entry ∈ earlier, lastWritten? (UInt64.ofNat v) entry.2.events =
          ((running.own ++ snapshot).lookup v).map UInt64.ofNat := by
  rw [haccounted.own v hv, List.lookup_append]
  -- Own writes stand in front of the snapshot.
  cases hown : running.own.lookup v with
  | some value => exact .inl rfl
  | none =>
    cases hheld : snapshot.lookup v with
    | none => exact .inl rfl
    | some value => exact .inr ⟨rfl, hsnapshot v hv value hheld⟩

theorem read (haccounted : Accounted bound earlier running) {snapshot : State}
    (hsnapshot : Grounded bound earlier snapshot) {v : Nat} (hv : v < bound) (hnew : v ∉ running.seen) :
    Accounted bound earlier
      { running with
        seen := v :: running.seen
        events := .read (UInt64.ofNat v) (((running.own ++ snapshot).lookup v).map UInt64.ofNat) ::
          running.events } where
  own u hu := by
    rw [List.reverse_cons, Recorded.lastWritten?_append]
    exact haccounted.own u hu
  sees := by
    rw [List.reverse_cons]
    refine haccounted.sees.concat fun key seen he => ?_
    cases he
    exact haccounted.sees_lookup hsnapshot hv
  reads := by
    rw [List.reverse_cons, Recorded.readKeys_concat, haccounted.reads, List.reverse_cons, List.map_append]
    rfl
  nodup := List.nodup_cons.mpr ⟨hnew, haccounted.nodup⟩
  seen_lt := by
    intro u hu
    rcases List.mem_cons.mp hu with rfl | hu
    · exact hv
    · exact haccounted.seen_lt u hu

theorem write (haccounted : Accounted bound earlier running) (hbound : bound ≤ UInt64.size) {v : Nat}
    (hv : v < bound) (value : Nat) (written : List Nat) :
    Accounted bound earlier
      { running with
        own := (v, value) :: running.own
        written := written
        events := .write (UInt64.ofNat v) (UInt64.ofNat value) :: running.events } where
  own u hu := by
    rw [List.reverse_cons, Recorded.lastWritten?_append, haccounted.own u hu, List.lookup_cons]
    -- The new write is the last one to its own variable and says nothing about the others.
    by_cases hsame : u = v
    · subst hsame
      simp [lastWritten?, writtenValues, Recorded.Event.written?]
    · have hkeys : UInt64.ofNat v ≠ UInt64.ofNat u := fun hc => hsame (eq_of_ofNat_eq hbound hv hu hc).symm
      simp [lastWritten?, writtenValues, Recorded.Event.written?, hkeys, beq_eq_false_iff_ne.mpr hsame]
  sees := by
    rw [List.reverse_cons]
    refine haccounted.sees.concat fun key seen he => ?_
    cases he
  reads := by
    rw [List.reverse_cons, Recorded.readKeys_concat, haccounted.reads]
    exact List.append_nil _
  nodup := haccounted.nodup
  seen_lt := haccounted.seen_lt

theorem event (haccounted : Accounted bound earlier running) (hbound : bound ≤ UInt64.size)
    {snapshot : State} (hsnapshot : Grounded bound earlier snapshot) {v : Nat} (hv : v < bound)
    (wantsRead : Bool) : Accounted bound earlier (running.step snapshot v wantsRead) := by
  rcases running.step_cases snapshot v wantsRead with ⟨hnew, heq⟩ | heq
  · rw [heq]
    exact haccounted.read hsnapshot hv hnew
  · rw [heq]
    exact haccounted.write hbound hv _ _

theorem nodup_readKeys (haccounted : Accounted bound earlier running) (hbound : bound ≤ UInt64.size) :
    (readKeys running.events.reverse).Nodup := by
  rw [haccounted.reads]
  refine List.Nodup.map_on (fun u hu v hv heq => ?_) (List.nodup_reverse.mpr haccounted.nodup)
  exact eq_of_ofNat_eq hbound (haccounted.seen_lt u (List.mem_reverse.mp hu))
    (haccounted.seen_lt v (List.mem_reverse.mp hv)) heq

/-- The own writes and a state that was grounded before are grounded when the transaction has run. -/
theorem grounded_append (haccounted : Accounted bound earlier running) {state : State}
    (hstate : Grounded bound earlier state) (turn : Nat) :
    Grounded bound (earlier ++ [(turn, ⟨running.events.reverse, true⟩)]) (running.own ++ state) := by
  intro v hv value hvalue
  rw [List.lookup_append, Option.or_eq_some_iff] at hvalue
  rcases hvalue with hown | ⟨_, hheld⟩
  · refine ⟨_, List.mem_append_right _ (List.mem_singleton_self _), ?_⟩
    rw [haccounted.own v hv, hown, Option.map_some]
  · exact hstate.mono _ v hv value hheld

end Accounted

section Runs

variable {p : Parameters} (hvariable : p.variableCount ≠ 0) (choices : Choices)

include hvariable

/-- A transaction that runs against a grounded snapshot keeps the account. -/
theorem accounted_transaction {earlier : Log UInt64 UInt64} {snapshot : State}
    (hsnapshot : Grounded p.variableCount.toNat earlier snapshot) (number : Nat) (written : List Nat) :
    Accounted p.variableCount.toNat earlier (transactionEvents p choices number snapshot written) := by
  have hbound : p.variableCount.toNat ≤ UInt64.size := Nat.le_of_lt p.variableCount.toNat_lt_size
  exact transactionEvents_invariant hvariable choices number snapshot written (Accounted.nil _ _ _)
    fun running v wantsRead hv haccounted => haccounted.event hbound hsnapshot hv wantsRead

omit hvariable in
theorem Run.grounded_snapshot {bound : Nat} {log : Log UInt64 UInt64} {run : Run}
    (hstates : ∀ state ∈ run.states, Grounded bound log state) (number : Nat) :
    Grounded bound log (run.snapshot p choices number) := by
  unfold Run.snapshot
  rw [List.getD_eq_getElem?_getD]
  cases hstate : run.states[choices.lag number % (min p.staleness.toNat (run.states.length - 1) + 1)]? with
  | none => exact Grounded.nil bound log
  | some state => exact hstates state (List.mem_of_getElem? hstate)

theorem grounded_runAfter {number : Nat} (hnumber : number ≤ p.transactionCount) :
    ∀ state ∈ (runAfter p choices number).states,
      Grounded p.variableCount.toNat (logAfter p choices number) state := by
  induction number with
  | zero =>
    intro state hstate
    rw [List.mem_singleton.mp hstate]
    exact Grounded.nil _ _
  | succ n ih =>
    have hbefore := ih (Nat.le_of_succ_le hnumber)
    have hdone := accounted_transaction hvariable choices
      (Run.grounded_snapshot (p := p) choices hbefore n) n (runAfter p choices n).written
    have hlatest : Grounded p.variableCount.toNat (logAfter p choices n)
        ((runAfter p choices n).states.headD []) := by
      cases hstates : (runAfter p choices n).states with
      | nil => exact Grounded.nil _ _
      | cons latest rest => exact hbefore latest (by rw [hstates]; exact List.mem_cons_self ..)
    rw [runAfter_succ hnumber, logAfter_succ]
    intro state hstate
    -- The new state is made of the own writes and the latest one; the others are as before.
    rcases List.mem_cons.mp hstate with rfl | hold
    · exact hdone.grounded_append hlatest _
    · exact (hbefore state hold).mono _

/-- What can be said of the next transaction, whatever the choices are. -/
theorem accounted_next {number : Nat} (hnumber : number ≤ p.transactionCount) :
    Accounted p.variableCount.toNat (logAfter p choices number)
      ((runAfter p choices number).next p choices number) :=
  accounted_transaction hvariable choices
    (Run.grounded_snapshot choices (grounded_runAfter hvariable choices hnumber) number) number _

theorem plausible_logAfter {number : Nat} (hnumber : number ≤ p.transactionCount) :
    Log.Plausible (logAfter p choices number) := by
  induction number with
  | zero => exact Log.Plausible.nil
  | succ n ih =>
    rw [logAfter_succ]
    exact (ih (Nat.le_of_succ_le hnumber)).concat
      (accounted_next hvariable choices (Nat.le_of_succ_le hnumber)).sees

end Runs

section Sizes

theorem count_waiting (sessions transactions index : Nat) :
    ((List.range sessions).flatMap fun session => List.replicate transactions session).count index =
      if index < sessions then transactions else 0 := by
  induction sessions with
  | zero => rfl
  | succ n ih =>
    rw [List.range_succ, List.flatMap_append, List.count_append, ih, List.flatMap_singleton,
      List.count_replicate]
    by_cases hlast : n = index
    · subst hlast
      simp
    · have hbelow : index < n + 1 ↔ index < n := by omega
      simp [hlast, hbelow]

variable {p : Parameters} (choices : Choices)

/-- In the end every session has had its turns. -/
theorem length_session_logAfter {index : Nat} (hindex : index < p.sessions.toNat) :
    (Log.session (logAfter p choices p.transactionCount) index).length = p.transactions.toNat := by
  have hperm := perm_waiting p choices (Nat.le_refl p.transactionCount)
  -- As many turns were had as there are, so nobody waits any more.
  have hnone : (runAfter p choices p.transactionCount).waiting = [] := by
    have hlength := hperm.length_eq
    rw [length_waiting_start, List.length_append, length_turns_logAfter] at hlength
    exact List.length_eq_zero_iff.mp (by omega)
  rw [hnone, List.append_nil] at hperm
  rw [Log.length_session, ← hperm.count_eq, Run.start, count_waiting, if_pos hindex]

theorem exists_next_of_mem_logAfter {number : Nat} {entry : Nat × Recorded.Transaction UInt64 UInt64}
    (hentry : entry ∈ logAfter p choices number) :
    ∃ i < number, entry.2.events = ((runAfter p choices i).next p choices i).events.reverse := by
  rcases List.mem_map.mp hentry with ⟨i, hi, rfl⟩
  exact ⟨i, List.mem_range.mp hi, rfl⟩

end Sizes

/-- What can be relied on in a generated recording. -/
structure WellMade (p : Parameters) (sessions : List (Recorded.Session UInt64 UInt64)) : Prop where
  /-- There are as many sessions, transactions and events as were asked for. -/
  sessionCount : sessions.length = p.sessions.toNat
  transactionCount : ∀ session ∈ sessions, session.length = p.transactions.toNat
  eventCount : ∀ session ∈ sessions, ∀ t ∈ session, t.events.length = p.events.toNat
  /-- Everything has committed. -/
  committed : ∀ session ∈ sessions, ∀ t ∈ session, t.committed = true
  /-- No transaction reads a variable twice. -/
  readOnce : ∀ session ∈ sessions, ∀ t ∈ session, (readKeys t.events).Nodup
  /-- The variables are those that there are. -/
  inRange : ∀ e ∈ Recorded.events sessions, e.key < p.variableCount
  /-- The values written to a variable are one, two, three and so on, each of them written once. -/
  numbered : ∀ key, ∃ count,
    ((writtenValues key (Recorded.events sessions)).map UInt64.toNat).Perm (List.range' 1 count)
  /-- The recording can be loaded, and what is loaded is valid. -/
  valid : ∃ h, History.load sessions = .ok h ∧ h.validate = .ok ()

section Recordings

variable {p : Parameters} (hvariable : p.variableCount ≠ 0) (hfeasible : p.isFeasible = true)
  (choices : Choices)

include hvariable hfeasible

theorem validate_logAfter :
    ∃ h, History.load (Log.sessions (logAfter p choices p.transactionCount) p.sessions.toNat) = .ok h ∧
      h.validate = .ok () := by
  have hcount : ∀ entry ∈ logAfter p choices p.transactionCount, entry.1 < p.sessions.toNat :=
    fun entry hentry => session_lt_of_mem_logAfter (Nat.le_refl _) hentry
  have honce := writesOnce_logAfter hvariable choices hfeasible
  have hdefault := write_default_not_mem_logAfter hvariable choices hfeasible
  have hfresh := Log.freshWrites_sessions hcount honce hdefault
  refine ⟨_, (History.load_decides _).ok hfresh, ?_⟩
  rw [(History.built_loaded hfresh).wellFormed.validate_eq_ok_iff]
  exact (plausible_logAfter hvariable choices (Nat.le_refl _)).consistent hcount honce hdefault
    fun entry hentry => committed_of_mem_logAfter hentry

theorem wellMade_logAfter :
    WellMade p (Log.sessions (logAfter p choices p.transactionCount) p.sessions.toNat) := by
  have hbound : p.variableCount.toNat ≤ UInt64.size := Nat.le_of_lt p.variableCount.toNat_lt_size
  have hnumbered := numbered_logAfter hvariable choices (Nat.le_refl p.transactionCount)
  have hcount : ∀ entry ∈ logAfter p choices p.transactionCount, entry.1 < p.sessions.toNat :=
    fun entry hentry => session_lt_of_mem_logAfter (Nat.le_refl _) hentry
  have hperm := Log.perm_events_sessions hcount
  -- What a recorded transaction is, by its place in the log.
  have hrecorded : ∀ session ∈ Log.sessions (logAfter p choices p.transactionCount) p.sessions.toNat,
      ∀ t ∈ session, ∃ i < p.transactionCount,
        t.committed = true ∧ t.events = ((runAfter p choices i).next p choices i).events.reverse := by
    intro session hsession t ht
    rcases Log.exists_mem_of_mem_sessions hsession ht with ⟨index, hentry⟩
    rcases exists_next_of_mem_logAfter choices hentry with ⟨i, hi, hevents⟩
    exact ⟨i, hi, committed_of_mem_logAfter hentry, hevents⟩
  exact {
    sessionCount := by
      unfold Log.sessions
      rw [List.length_map, List.length_range]
    transactionCount := by
      intro session hsession
      rcases List.mem_map.mp hsession with ⟨index, hindex, rfl⟩
      exact length_session_logAfter choices (List.mem_range.mp hindex)
    eventCount := by
      intro session hsession t ht
      rcases hrecorded session hsession t ht with ⟨i, _, _, hevents⟩
      rw [hevents, List.length_reverse, Run.next, length_transactionEvents]
    committed := by
      intro session hsession t ht
      rcases hrecorded session hsession t ht with ⟨i, _, hcommitted, _⟩
      exact hcommitted
    readOnce := by
      intro session hsession t ht
      rcases hrecorded session hsession t ht with ⟨i, hi, _, hevents⟩
      rw [hevents]
      exact (accounted_next hvariable choices (Nat.le_of_lt hi)).nodup_readKeys hbound
    inRange := by
      intro e he
      rcases hnumbered.keys e (hperm.mem_iff.mp he) with ⟨v, hv, hkey⟩
      rw [hkey, UInt64.lt_iff_toNat_lt, UInt64.toNat_ofNat_of_lt' (Nat.lt_of_lt_of_le hv hbound)]
      exact hv
    numbered := by
      intro key
      rcases hnumbered.map_toNat_writtenValues (length_events_lt choices hfeasible) key with ⟨count, hvalues⟩
      refine ⟨count, ?_⟩
      rw [← hvalues]
      exact (hperm.filterMap _).map _
    valid := validate_logAfter hvariable hfeasible choices }

end Recordings

/-- Generated recordings are well made, for all parameters with a variable and all choices. Nothing is generated
    only if the recording would be larger than a list can be. -/
theorem recording?_wellMade {p : Parameters} (hvariable : p.variableCount ≠ 0) (choices : Choices) :
    (p.isFeasible = false ∧ recording? p choices = none) ∨
      ∃ sessions, recording? p choices = some sessions ∧ WellMade p sessions := by
  cases hfeasible : p.isFeasible with
  | false =>
    refine .inl ⟨rfl, ?_⟩
    unfold recording?
    rw [hfeasible, Bool.not_false, Bool.or_true, if_pos rfl]
  | true => exact .inr ⟨_, recording?_eq hvariable hfeasible, wellMade_logAfter hvariable hfeasible choices⟩

/-- Two sessions of two transactions over two variables, which may miss the latest two commits. -/
def staleByTwo : Parameters where
  id := 0
  sessions := 2
  variableCount := 2
  transactions := 2
  events := 4
  staleness := 2

/-- Each transaction writes a variable, asks for it twice and then asks for the other one. All of them take the
    oldest snapshot that they may take. -/
def lookingBack : Choices where
  next number := number
  lag number := min number 2
  touched number i := number + i / 3
  wantsRead _ i := i != 0

/-- What comes of it. The first session does not see its own earlier write of the first variable, and the last
    transaction sees a value that has been overwritten. -/
def lookedBack : List (Recorded.Session UInt64 UInt64) :=
  [[⟨[.write 0 1, .read 0 (some 1), .write 0 2, .read 1 none], true⟩,
      ⟨[.write 1 1, .read 1 (some 1), .write 1 2, .read 0 none], true⟩],
    [⟨[.write 0 3, .read 0 (some 3), .write 0 4, .read 1 none], true⟩,
      ⟨[.write 1 3, .read 1 (some 3), .write 1 4, .read 0 (some 2)], true⟩]]

theorem recording?_wellMade_lookingBack :
    (staleByTwo.variableCount ≠ 0 ∧ staleByTwo.isFeasible = true) ∧
    recording? staleByTwo lookingBack = some lookedBack ∧ WellMade staleByTwo lookedBack := by
  have hfits : staleByTwo.variableCount ≠ 0 ∧ staleByTwo.isFeasible = true := by decide +kernel
  have hlooked : recording? staleByTwo lookingBack = some lookedBack := by decide +kernel
  refine ⟨hfits, hlooked, ?_⟩
  rcases recording?_wellMade hfits.1 lookingBack with ⟨hinfeasible, _⟩ | ⟨sessions, hrecording, hmade⟩
  · rw [hfits.2] at hinfeasible
    cases hinfeasible
  · rw [hlooked, Option.some.injEq] at hrecording
    rw [hrecording]
    exact hmade

end Isolation.Generator
