import Isolation.Proofs.Generator.Runs

/-!
# Serial Generation

With a staleness of zero every transaction sees the latest state, so the generator is a store that runs one
transaction at a time. The state it keeps agrees with its log: a variable holds the value that was written to it
last, and since values are numbers of writes, this is how often it has been written.

The log is therefore serial. The recording can be loaded, the order in which the transactions were generated
explains it, and it is accepted at every isolation level.

## Main definitions

* `InStep`: A state agrees with the events so far.

## Theorems

* `recording?_serial`: What is generated without staleness is accepted.
-/

namespace Isolation.Generator

open Isolation.Sat
open Isolation.Recorded (Log SeesLatest places)

/-- A state holds the number of writes to each variable that has been written. -/
def Current (state : State) (written : List Nat) : Prop :=
  ∀ v, state.lookup v = if written.count v = 0 then none else some (written.count v)

theorem Current.write {state : State} {written : List Nat} (hcurrent : Current state written) (v : Nat) :
    Current ((v, written.count v + 1) :: state) (v :: written) := by
  intro u
  rw [List.lookup_cons, List.count_cons]
  by_cases hsame : u = v
  · subst hsame
    simp only [beq_self_eq_true, if_true, Nat.succ_ne_zero, if_false]
  · rw [beq_eq_false_iff_ne.mpr hsame, beq_eq_false_iff_ne.mpr (Ne.symm hsame)]
    exact hcurrent u

/-- A state agrees with the events so far, each of which saw what was written last. -/
structure InStep (bound : Nat) (events : List (Recorded.Event UInt64 UInt64)) (state : State)
    (written : List Nat) : Prop where
  numbered : Numbered bound events written
  current : Current state written
  sees : SeesLatest events

namespace InStep

variable {bound : Nat} {events : List (Recorded.Event UInt64 UInt64)} {state : State} {written : List Nat}

theorem nil : InStep bound [] [] [] where
  numbered := Numbered.nil
  current _ := rfl
  sees := SeesLatest.nil

theorem lastWritten?_eq_lookup (hstep : InStep bound events state written) {v : Nat} (hv : v < bound) :
    Recorded.lastWritten? (UInt64.ofNat v) events = (state.lookup v).map UInt64.ofNat := by
  rw [hstep.numbered.lastWritten?_eq hv, hstep.current v]
  by_cases hzero : written.count v = 0
  · rw [if_pos hzero, if_pos hzero, Option.map_none]
  · rw [if_neg hzero, if_neg hzero, Option.map_some]

theorem event {snapshot : State} {running : Running}
    (hstep : InStep bound (events ++ running.events.reverse) (running.own ++ snapshot) running.written)
    (hbound : bound ≤ UInt64.size) {v : Nat} (hv : v < bound) (wantsRead : Bool) :
    InStep bound (events ++ (running.step snapshot v wantsRead).events.reverse)
      ((running.step snapshot v wantsRead).own ++ snapshot)
      (running.step snapshot v wantsRead).written := by
  have hnumbered := hstep.numbered.event hbound hv snapshot wantsRead
  rcases running.step_cases snapshot v wantsRead with ⟨_, heq⟩ | heq
  · rw [heq, List.reverse_cons, ← List.append_assoc] at hnumbered ⊢
    refine ⟨hnumbered, hstep.current, hstep.sees.concat fun key seen he => ?_⟩
    -- The read sees the state, and that is what was written last.
    cases he
    exact (hstep.lastWritten?_eq_lookup hv).symm
  · rw [heq, List.reverse_cons, ← List.append_assoc] at hnumbered ⊢
    refine ⟨hnumbered, hstep.current.write v, hstep.sees.concat fun key seen he => ?_⟩
    cases he

/-- A transaction that sees the latest state keeps it in step with the log. -/
theorem transaction {p : Parameters} (hvariable : p.variableCount ≠ 0)
    (hstep : InStep p.variableCount.toNat events state written) (choices : Choices) (number : Nat) :
    InStep p.variableCount.toNat
      (events ++ (transactionEvents p choices number state written).events.reverse)
      ((transactionEvents p choices number state written).own ++ state)
      (transactionEvents p choices number state written).written := by
  have hbound : p.variableCount.toNat ≤ UInt64.size := Nat.le_of_lt p.variableCount.toNat_lt_size
  refine transactionEvents_invariant (P := fun running => InStep p.variableCount.toNat
    (events ++ running.events.reverse) (running.own ++ state) running.written) hvariable choices number state
    written ?_ fun running v wantsRead hv hrunning => hrunning.event hbound hv wantsRead
  rw [List.reverse_nil, List.append_nil]
  exact hstep

end InStep

variable {p : Parameters} (choices : Choices)

theorem Run.snapshot_of_serial (hserial : p.staleness = 0) (run : Run) (number : Nat) :
    run.snapshot p choices number = run.states.headD [] := by
  have hreach : min p.staleness.toNat (run.states.length - 1) + 1 = 1 := by
    rw [hserial, UInt64.toNat_zero, Nat.zero_min]
  rw [Run.snapshot, hreach, Nat.mod_one]
  cases run.states with
  | nil => rfl
  | cons latest rest => rfl

theorem inStep_runAfter (hvariable : p.variableCount ≠ 0) (hserial : p.staleness = 0) {number : Nat}
    (hnumber : number ≤ p.transactionCount) :
    InStep p.variableCount.toNat (Log.events (logAfter p choices number))
      ((runAfter p choices number).states.headD []) (runAfter p choices number).written := by
  induction number with
  | zero => exact InStep.nil
  | succ n ih =>
    have hdone := (ih (Nat.le_of_succ_le hnumber)).transaction hvariable choices n
    -- The snapshot is the state that the transaction adds to, so nothing comes in between.
    rw [events_logAfter_succ, runAfter_succ hnumber, Run.next, Run.snapshot_of_serial choices hserial]
    exact hdone

/-- Without staleness the log is serial. -/
theorem serial_logAfter (hvariable : p.variableCount ≠ 0) (hfeasible : p.isFeasible = true)
    (hserial : p.staleness = 0) : Log.Serial (logAfter p choices p.transactionCount) where
  sees := (inStep_runAfter choices hvariable hserial (Nat.le_refl _)).sees
  once := writesOnce_logAfter hvariable choices hfeasible
  write_default_not_mem := write_default_not_mem_logAfter hvariable choices hfeasible

/-- The identifiers of the transactions in the order in which they are generated. -/
def generationOrder (p : Parameters) (choices : Choices) : List TransactionId :=
  places (Log.turns (logAfter p choices p.transactionCount))

/-- What is generated without staleness can be loaded, and the order of generation explains it. So it is
    accepted at every level with all options, whatever choices were made. -/
theorem recording?_serial {p : Parameters} (hvariable : p.variableCount ≠ 0) (hfeasible : p.isFeasible = true)
    (hserial : p.staleness = 0) (choices : Choices) :
    ∃ sessions h, recording? p choices = some sessions ∧ History.load sessions = .ok h ∧
      (Witness.commitOrder (generationOrder p choices)).explains h = true ∧
      ∀ options : AuditOptions, (∃ w, h.audit options = .ok w) ∧
        ∀ engine : Engine, engine.Sound → engine.Refuting → engine.Reliable →
          ∃ w, h.auditWith engine options = .ok w := by
  have hlog := serial_logAfter choices hvariable hfeasible hserial
  have hcount : ∀ entry ∈ logAfter p choices p.transactionCount, entry.1 < p.sessions.toNat :=
    fun entry hentry => session_lt_of_mem_logAfter (Nat.le_refl _) hentry
  have hfresh := Log.freshWrites_sessions hcount hlog.once hlog.write_default_not_mem
  have hexplains := hlog.explains hcount
  have hw := (History.built_loaded hfresh).wellFormed
  -- The generator commits everything, so there is nothing that validation could object to.
  have hcommitted : ∀ t ∈ (History.loaded
      (Log.sessions (logAfter p choices p.transactionCount) p.sessions.toNat)).clientTransactions,
      t.committed = true := by
    intro t ht
    rcases History.exists_recorded_of_mem_loaded ht with ⟨session, hsession, u, hu, id, rfl⟩
    rcases Log.exists_mem_of_mem_sessions hsession hu with ⟨index, hentry⟩
    exact committed_of_mem_logAfter hentry
  refine ⟨_, _, recording?_eq hvariable hfeasible, (History.load_decides _).ok hfresh, hexplains,
    fun options => ⟨?_, fun engine hsound hrefuting hreliable => ?_⟩⟩
  · exact exists_auditWith_of_commitOrder hw hcommitted hexplains searchEngine_sound
      searchEngine_complete.refuting searchEngine_reliable options
  · exact exists_auditWith_of_commitOrder hw hcommitted hexplains hsound hrefuting hreliable options

/-- Two sessions of two transactions over two variables. -/
def twoByTwo : Parameters where
  id := 0
  sessions := 2
  variableCount := 2
  transactions := 2
  events := 4
  staleness := 0

/-- Each transaction writes a variable, asks for it twice and then asks for the other one. -/
def askingTwice : Choices where
  next number := number + 1
  lag number := number
  touched number i := number + i / 3
  wantsRead _ i := i != 0

/-- What comes of it. The second question is not asked but turns into a write, and the first transaction finds
    the other variable in its initial state. -/
def askedTwice : List (Recorded.Session UInt64 UInt64) :=
  [[⟨[.write 0 1, .read 0 (some 1), .write 0 2, .read 1 none], true⟩,
      ⟨[.write 1 3, .read 1 (some 3), .write 1 4, .read 0 (some 4)], true⟩],
    [⟨[.write 1 1, .read 1 (some 1), .write 1 2, .read 0 (some 2)], true⟩,
      ⟨[.write 0 3, .read 0 (some 3), .write 0 4, .read 1 (some 2)], true⟩]]

theorem recording?_serial_askingTwice :
    (twoByTwo.variableCount ≠ 0 ∧ twoByTwo.isFeasible = true ∧ twoByTwo.staleness = 0) ∧
    recording? twoByTwo askingTwice = some askedTwice ∧
    generationOrder twoByTwo askingTwice = [⟨1, 0⟩, ⟨2, 0⟩, ⟨2, 1⟩, ⟨1, 1⟩] ∧
    ∃ h, History.load askedTwice = .ok h ∧
      (Witness.commitOrder [⟨1, 0⟩, ⟨2, 0⟩, ⟨2, 1⟩, ⟨1, 1⟩]).explains h = true ∧
      ∀ level, ∃ w, h.audit { level := level } = .ok w := by
  have hfits : twoByTwo.variableCount ≠ 0 ∧ twoByTwo.isFeasible = true ∧ twoByTwo.staleness = 0 := by
    decide +kernel
  have hasked : recording? twoByTwo askingTwice = some askedTwice := by decide +kernel
  have horder : generationOrder twoByTwo askingTwice = [⟨1, 0⟩, ⟨2, 0⟩, ⟨2, 1⟩, ⟨1, 1⟩] := by
    decide +kernel
  rcases recording?_serial hfits.1 hfits.2.1 hfits.2.2 askingTwice with
    ⟨sessions, h, hrecording, hload, hexplains, haccepts⟩
  rw [hasked, Option.some.injEq] at hrecording
  rw [← hrecording] at hload
  rw [horder] at hexplains
  exact ⟨hfits, hasked, horder, h, hload, hexplains, fun level => (haccepts _).1⟩

end Isolation.Generator
