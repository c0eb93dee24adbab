import Isolation.Generator.Basic
import Isolation.Proofs.Recorded.Logs

/-!
# The Log of a Generated Recording

The generator picks one waiting transaction after the other, runs it and puts it at the end of its session. So
its run has a log, and the recording is this log taken apart into sessions. Two things hold however stale the
snapshots are. The turns that sessions have had and those that still wait are together the turns that there were
in the beginning, whatever was picked. And the values written to a variable are one, two, three and so on, which
makes them different from each other and from the initial value, as long as they fit into a word.

## Main definitions

* `logAfter`: The log after some number of transactions.
* `Numbered`: The writes to each variable are numbered consecutively.

## Theorems

* `numbered_logAfter`, `writesOnce_logAfter`: The writes are numbered, so no value is written twice.
-/

namespace Isolation.Generator

open Isolation.Recorded (Log writtenValues lastWritten?)

section Waiting

theorem perm_takeOut {waiting : List Nat} {place : Nat} (hplace : place < waiting.length) :
    waiting.Perm (waiting[place] :: takeOut waiting place) := by
  rcases List.eq_nil_or_concat waiting with rfl | ⟨front, last, rfl⟩
  · exact absurd hplace (Nat.not_lt_zero _)
  · simp only [List.concat_eq_append, List.length_append, List.length_singleton] at hplace ⊢
    unfold takeOut
    rw [List.getLastD_concat]
    rcases Nat.lt_or_ge place front.length with hlt | hge
    · -- The last entry replaces one of the others.
      rw [List.set_append_left _ _ hlt, List.dropLast_concat, List.getElem_append_left hlt]
      calc (front ++ [last]).Perm (last :: front) := List.perm_append_singleton last front
        _ |>.Perm (last :: front[place] :: front.eraseIdx place) :=
            ((List.getElem_cons_eraseIdx_perm hlt).symm).cons last
        _ |>.Perm (front[place] :: last :: front.eraseIdx place) := List.Perm.swap ..
        _ |>.Perm (front[place] :: front.set place last) :=
            (List.set_perm_cons_eraseIdx hlt last).symm.cons _
    · -- The last entry itself is taken out.
      have hlast : place = front.length := by omega
      subst hlast
      rw [List.set_append_right _ _ (Nat.le_refl _), Nat.sub_self, List.set_cons_zero,
        List.dropLast_concat, List.getElem_concat_length rfl]
      exact List.perm_append_singleton last front

end Waiting

section Events

/-- An event is a read of what the own writes and the snapshot hold, if the variable has not been read yet, or a
    write of the next value. -/
theorem Running.step_cases (snapshot : State) (running : Running) (v : Nat) (wantsRead : Bool) :
    (v ∉ running.seen ∧ running.step snapshot v wantsRead =
        { running with
          seen := v :: running.seen
          events := .read (UInt64.ofNat v) (((running.own ++ snapshot).lookup v).map UInt64.ofNat) ::
            running.events }) ∨
      running.step snapshot v wantsRead =
        { running with
          own := (v, running.written.count v + 1) :: running.own
          written := v :: running.written
          events := .write (UInt64.ofNat v) (UInt64.ofNat (running.written.count v + 1)) ::
            running.events } := by
  unfold Running.step
  split
  · next hread =>
      rw [Bool.and_eq_true, Bool.not_eq_true', List.contains_eq_mem, decide_eq_false_iff_not] at hread
      exact .inl ⟨hread.2, rfl⟩
  · exact .inr rfl

variable {p : Parameters} (hvariable : p.variableCount ≠ 0) (choices : Choices) (number : Nat)
  (snapshot : State) (written : List Nat)

include hvariable in
theorem transactionEvents_invariant {P : Running → Prop} (hstart : P ⟨[], [], written, []⟩)
    (hstep : ∀ running v wantsRead, v < p.variableCount.toNat → P running →
      P (running.step snapshot v wantsRead)) :
    P (transactionEvents p choices number snapshot written) := by
  have hpos : 0 < p.variableCount.toNat := by
    refine Nat.pos_of_ne_zero fun hzero => hvariable ?_
    exact UInt64.toNat_inj.mp hzero
  -- Variables are brought into range, so each event touches one that there is.
  unfold transactionEvents
  refine List.foldlRecOn _ _ hstart fun running hrunning i _ => ?_
  exact hstep running _ _ (Nat.mod_lt _ hpos) hrunning

theorem length_transactionEvents :
    (transactionEvents p choices number snapshot written).events.length = p.events.toNat := by
  have hone : ∀ running v wantsRead,
      (Running.step snapshot running v wantsRead).events.length = running.events.length + 1 := by
    intro running v wantsRead
    rcases running.step_cases snapshot v wantsRead with ⟨_, heq⟩ | heq
    · rw [heq, List.length_cons]
    · rw [heq, List.length_cons]
  unfold transactionEvents
  induction p.events.toNat with
  | zero => rfl
  | succ n ih => rw [List.range_succ, List.foldl_append, List.foldl_cons, List.foldl_nil, hone, ih]

end Events

section Steps

variable (p : Parameters) (choices : Choices)

/-- The run after some number of transactions. -/
def runAfter (number : Nat) : Run :=
  (List.range number).foldl (Run.step p choices) (Run.start p)

/-- The log after some number of transactions. -/
def logAfter (number : Nat) : Log UInt64 UInt64 :=
  (List.range number).map fun i =>
    ((runAfter p choices i).turn choices i, ⟨((runAfter p choices i).next p choices i).events.reverse, true⟩)

theorem length_waiting_start : (Run.start p).waiting.length = p.transactionCount := by
  simp [Run.start, Parameters.transactionCount, List.length_flatMap]

theorem logAfter_succ (number : Nat) :
    logAfter p choices (number + 1) = logAfter p choices number ++
      [((runAfter p choices number).turn choices number,
        ⟨((runAfter p choices number).next p choices number).events.reverse, true⟩)] := by
  unfold logAfter
  rw [List.range_succ, List.map_append, List.map_singleton]

theorem events_logAfter_succ (number : Nat) :
    Log.events (logAfter p choices (number + 1)) = Log.events (logAfter p choices number) ++
      ((runAfter p choices number).next p choices number).events.reverse := by
  rw [logAfter_succ, Log.events_append]
  exact congrArg _ (List.append_nil _)

theorem turns_logAfter_succ (number : Nat) :
    Log.turns (logAfter p choices (number + 1)) = Log.turns (logAfter p choices number) ++
      [(runAfter p choices number).turn choices number] := by
  rw [logAfter_succ, Log.turns, List.map_append]
  rfl

theorem length_events_logAfter (number : Nat) :
    (Log.events (logAfter p choices number)).length = number * p.events.toNat := by
  induction number with
  | zero => exact (Nat.zero_mul _).symm
  | succ n ih =>
    rw [events_logAfter_succ, List.length_append, List.length_reverse, ih, Run.next,
      length_transactionEvents, Nat.succ_mul]

theorem runAfter_succ_eq_step (number : Nat) :
    runAfter p choices (number + 1) = (runAfter p choices number).step p choices number := by
  unfold runAfter
  rw [List.range_succ, List.foldl_append, List.foldl_cons, List.foldl_nil]

theorem length_turns_logAfter (number : Nat) : (Log.turns (logAfter p choices number)).length = number := by
  rw [Log.turns, logAfter, List.length_map, List.length_map, List.length_range]

theorem isEmpty_waiting {number : Nat} (hnumber : number < p.transactionCount)
    (hperm : (Run.start p).waiting.Perm
      (Log.turns (logAfter p choices number) ++ (runAfter p choices number).waiting)) :
    (runAfter p choices number).waiting.isEmpty = false := by
  have hlength := hperm.length_eq
  rw [length_waiting_start, List.length_append, length_turns_logAfter] at hlength
  rw [List.isEmpty_eq_false_iff, ← List.length_pos_iff]
  omega

/-- The turns that sessions have had and those that still wait are those of the beginning. -/
theorem perm_waiting {number : Nat} (hnumber : number ≤ p.transactionCount) :
    (Run.start p).waiting.Perm
      (Log.turns (logAfter p choices number) ++ (runAfter p choices number).waiting) := by
  induction number with
  | zero => exact List.Perm.refl _
  | succ n ih =>
    have hperm := ih (Nat.le_of_succ_le hnumber)
    have hsome := isEmpty_waiting p choices hnumber hperm
    have hlt := Nat.mod_lt (choices.next n)
      (List.length_pos_iff.mpr (List.isEmpty_eq_false_iff.mp hsome))
    -- One of those that wait has its turn, and the others go on waiting.
    rw [runAfter_succ_eq_step, Run.step, hsome, if_neg Bool.false_ne_true, turns_logAfter_succ, Run.turn,
      List.getD_eq_getElem _ _ hlt, List.append_assoc]
    exact hperm.trans ((perm_takeOut hlt).append_left _)

variable {p choices}

theorem runAfter_succ {number : Nat} (hnumber : number < p.transactionCount) :
    runAfter p choices (number + 1) =
      { waiting := takeOut (runAfter p choices number).waiting
          (choices.next number % (runAfter p choices number).waiting.length)
        states := (((runAfter p choices number).next p choices number).own ++
          (runAfter p choices number).states.headD []) :: (runAfter p choices number).states
        written := ((runAfter p choices number).next p choices number).written
        sessions := (runAfter p choices number).sessions.modify
          ((runAfter p choices number).turn choices number)
          (· ++ [⟨((runAfter p choices number).next p choices number).events.reverse, true⟩]) } := by
  have hsome := isEmpty_waiting p choices hnumber (perm_waiting p choices (Nat.le_of_lt hnumber))
  rw [runAfter_succ_eq_step, Run.step, hsome, if_neg Bool.false_ne_true]

theorem session_lt_of_mem_logAfter {number : Nat} (hnumber : number ≤ p.transactionCount)
    {entry : Nat × Recorded.Transaction UInt64 UInt64} (hentry : entry ∈ logAfter p choices number) :
    entry.1 < p.sessions.toNat := by
  have hturn : entry.1 ∈ Log.turns (logAfter p choices number) := List.mem_map_of_mem hentry
  have hmem := (perm_waiting p choices hnumber).mem_iff.mpr (List.mem_append_left _ hturn)
  rcases List.mem_flatMap.mp hmem with ⟨session, hsession, hrepeated⟩
  rw [List.eq_of_mem_replicate hrepeated]
  exact List.mem_range.mp hsession

theorem committed_of_mem_logAfter {number : Nat} {entry : Nat × Recorded.Transaction UInt64 UInt64}
    (hentry : entry ∈ logAfter p choices number) : entry.2.committed = true := by
  rcases List.mem_map.mp hentry with ⟨i, _, rfl⟩
  rfl

theorem sessions_runAfter {number : Nat} (hnumber : number ≤ p.transactionCount) :
    (runAfter p choices number).sessions = Log.sessions (logAfter p choices number) p.sessions.toNat := by
  induction number with
  | zero =>
    have hempty : Log.session (logAfter p choices 0) = fun _ => [] := rfl
    rw [Log.sessions, hempty, List.map_const', List.length_range]
    rfl
  | succ n ih =>
    rw [runAfter_succ hnumber, logAfter_succ, Log.sessions_concat, ih (Nat.le_of_succ_le hnumber)]

theorem recording?_eq (hvariable : p.variableCount ≠ 0) (hfeasible : p.isFeasible = true) :
    recording? p choices =
      some (Log.sessions (logAfter p choices p.transactionCount) p.sessions.toNat) := by
  have hgood : (p.variableCount = 0 || !p.isFeasible) = false := by
    rw [hfeasible, decide_eq_false hvariable]
    rfl
  rw [← sessions_runAfter (Nat.le_refl _), runAfter, ← length_waiting_start, recording?, hgood]
  rfl

end Steps

section Values

theorem eq_of_ofNat_eq {bound u v : Nat} (hbound : bound ≤ UInt64.size) (hu : u < bound) (hv : v < bound)
    (hkeys : UInt64.ofNat u = UInt64.ofNat v) : u = v := by
  have hnat := congrArg UInt64.toNat hkeys
  rwa [UInt64.toNat_ofNat_of_lt' (Nat.lt_of_lt_of_le hu hbound),
    UInt64.toNat_ofNat_of_lt' (Nat.lt_of_lt_of_le hv hbound)] at hnat

/-- The events touch variables below a bound, and the values written to each of them are one, two, three and so
    on, one for each time that it occurs among the variables written. -/
structure Numbered (bound : Nat) (events : List (Recorded.Event UInt64 UInt64)) (written : List Nat) :
    Prop where
  keys : ∀ e ∈ events, ∃ v < bound, e.key = UInt64.ofNat v
  values : ∀ v < bound, writtenValues (UInt64.ofNat v) events =
    (List.range (written.count v)).map fun i => UInt64.ofNat (i + 1)

namespace Numbered

variable {bound : Nat} {events : List (Recorded.Event UInt64 UInt64)} {written : List Nat}

theorem nil : Numbered bound [] [] where
  keys _ he := absurd he List.not_mem_nil
  values _ _ := rfl

theorem keys_concat (hnumbered : Numbered bound events written) {v : Nat} (hv : v < bound)
    {e : Recorded.Event UInt64 UInt64} (hkey : e.key = UInt64.ofNat v) :
    ∀ other ∈ events ++ [e], ∃ u < bound, other.key = UInt64.ofNat u := by
  intro other hother
  rcases List.mem_append.mp hother with hother | hother
  · exact hnumbered.keys other hother
  · rw [List.mem_singleton.mp hother]
    exact ⟨v, hv, hkey⟩

theorem read (hnumbered : Numbered bound events written) {v : Nat} (hv : v < bound) (seen : Option UInt64) :
    Numbered bound (events ++ [.read (UInt64.ofNat v) seen]) written where
  keys := hnumbered.keys_concat hv rfl
  values u hu := by
    rw [Recorded.writtenValues_concat, hnumbered.values u hu]
    exact List.append_nil _

theorem write (hnumbered : Numbered bound events written) (hbound : bound ≤ UInt64.size) {v : Nat}
    (hv : v < bound) :
    Numbered bound (events ++ [.write (UInt64.ofNat v) (UInt64.ofNat (written.count v + 1))])
      (v :: written) where
  keys := hnumbered.keys_concat hv rfl
  values u hu := by
    rw [Recorded.writtenValues_concat, hnumbered.values u hu, List.count_cons, Recorded.Event.written?]
    by_cases hsame : v = u
    · subst hsame
      rw [if_pos rfl, if_pos (beq_self_eq_true v), List.range_succ, List.map_append]
      rfl
    · have hkeys : UInt64.ofNat v ≠ UInt64.ofNat u := fun hc => hsame (eq_of_ofNat_eq hbound hv hu hc)
      rw [if_neg hkeys, beq_eq_false_iff_ne.mpr hsame]
      exact List.append_nil _

/-- The value that was written last to a variable is the number of its writes. -/
theorem lastWritten?_eq (hnumbered : Numbered bound events written) {v : Nat} (hv : v < bound) :
    lastWritten? (UInt64.ofNat v) events =
      if written.count v = 0 then none else some (UInt64.ofNat (written.count v)) := by
  rw [lastWritten?, hnumbered.values v hv]
  cases written.count v with
  | zero => rfl
  | succ n =>
    rw [List.range_succ, List.map_append, List.map_singleton, List.getLast?_concat,
      if_neg (Nat.succ_ne_zero n)]

theorem count_lt (hnumbered : Numbered bound events written) (hsize : events.length < UInt64.size) {v : Nat}
    (hv : v < bound) : written.count v < UInt64.size := by
  have hlength := congrArg List.length (hnumbered.values v hv)
  rw [List.length_map, List.length_range] at hlength
  rw [← hlength]
  exact Nat.lt_of_le_of_lt (List.length_filterMap_le ..) hsize

/-- The values written under a key are one, two, three and so on, if all of them fit into a word. -/
theorem map_toNat_writtenValues (hnumbered : Numbered bound events written)
    (hsize : events.length < UInt64.size) (key : UInt64) :
    ∃ count, (writtenValues key events).map UInt64.toNat = List.range' 1 count := by
  by_cases hkey : ∃ v < bound, key = UInt64.ofNat v
  · rcases hkey with ⟨v, hv, rfl⟩
    have hcount := hnumbered.count_lt hsize hv
    refine ⟨written.count v, ?_⟩
    rw [hnumbered.values v hv, List.map_map, List.range'_eq_map_range]
    refine List.map_congr_left fun i hi => ?_
    rw [List.mem_range] at hi
    rw [Function.comp_apply, UInt64.toNat_ofNat_of_lt' (by omega), Nat.add_comm]
  · -- Nobody touches the key.
    have hnone : writtenValues key events = [] := by
      refine List.eq_nil_iff_forall_not_mem.mpr fun value hvalue => hkey ?_
      exact hnumbered.keys _ ((Recorded.mem_writtenValues_iff key value events).mp hvalue)
    exact ⟨0, by rw [hnone]; rfl⟩

theorem nodup (hnumbered : Numbered bound events written) (hsize : events.length < UInt64.size)
    (key : UInt64) : (writtenValues key events).Nodup := by
  rcases hnumbered.map_toNat_writtenValues hsize key with ⟨count, hvalues⟩
  refine List.Nodup.of_map UInt64.toNat ?_
  rw [hvalues]
  exact List.nodup_range'

theorem write_default_not_mem (hnumbered : Numbered bound events written)
    (hsize : events.length < UInt64.size) (key : UInt64) : .write key default ∉ events := by
  intro hmem
  rcases hnumbered.map_toNat_writtenValues hsize key with ⟨count, hvalues⟩
  rw [← Recorded.mem_writtenValues_iff] at hmem
  have hzero : 0 ∈ List.range' 1 count := hvalues ▸ List.mem_map_of_mem hmem
  rw [List.mem_range'_1] at hzero
  omega

end Numbered

/-- One more event keeps the writes numbered, whatever the snapshot is. -/
theorem Numbered.event {bound : Nat} {events : List (Recorded.Event UInt64 UInt64)} {running : Running}
    (hnumbered : Numbered bound (events ++ running.events.reverse) running.written)
    (hbound : bound ≤ UInt64.size) {v : Nat} (hv : v < bound) (snapshot : State) (wantsRead : Bool) :
    Numbered bound (events ++ (running.step snapshot v wantsRead).events.reverse)
      (running.step snapshot v wantsRead).written := by
  rcases running.step_cases snapshot v wantsRead with ⟨_, heq⟩ | heq
  · rw [heq, List.reverse_cons, ← List.append_assoc]
    exact hnumbered.read hv _
  · rw [heq, List.reverse_cons, ← List.append_assoc]
    exact hnumbered.write hbound hv

variable {p : Parameters} (hvariable : p.variableCount ≠ 0) (choices : Choices)

include hvariable

/-- The writes of a run are numbered. -/
theorem numbered_logAfter {number : Nat} (hnumber : number ≤ p.transactionCount) :
    Numbered p.variableCount.toNat (Log.events (logAfter p choices number))
      (runAfter p choices number).written := by
  induction number with
  | zero => exact Numbered.nil
  | succ n ih =>
    have hbefore := ih (Nat.le_of_succ_le hnumber)
    rw [events_logAfter_succ, runAfter_succ hnumber]
    -- The events of the transaction come behind the log, one by one.
    refine transactionEvents_invariant (P := fun running => Numbered p.variableCount.toNat
      (Log.events (logAfter p choices n) ++ running.events.reverse) running.written) hvariable choices n _ _
      ?_ fun running v wantsRead hv hrunning =>
        hrunning.event (Nat.le_of_lt p.variableCount.toNat_lt_size) hv _ wantsRead
    rw [List.reverse_nil, List.append_nil]
    exact hbefore

omit hvariable in
theorem length_events_lt (hfeasible : p.isFeasible = true) :
    (Log.events (logAfter p choices p.transactionCount)).length < UInt64.size := by
  rw [Parameters.isFeasible, Bool.and_eq_true, decide_eq_true_eq] at hfeasible
  -- An event takes up several bytes, and there are no more bytes than words.
  have hsize := hfeasible.2
  have hpos : 0 < UInt64.size := by decide
  rw [length_events_logAfter]
  omega

variable (hfeasible : p.isFeasible = true)

include hfeasible

/-- However stale the snapshots are, no value is written twice. -/
theorem writesOnce_logAfter : Recorded.WritesOnce (Log.events (logAfter p choices p.transactionCount)) :=
  Recorded.writesOnce_of_nodup
    ((numbered_logAfter hvariable choices (Nat.le_refl _)).nodup (length_events_lt choices hfeasible))

theorem write_default_not_mem_logAfter (key : UInt64) :
    .write key default ∉ Log.events (logAfter p choices p.transactionCount) :=
  (numbered_logAfter hvariable choices (Nat.le_refl _)).write_default_not_mem
    (length_events_lt choices hfeasible) key

end Values

end Isolation.Generator
