import Isolation.Proofs.Recorded.Logs

/-!
# Logs of Runs Against Snapshots

A store may let a transaction run against a state that is no longer the latest one. What its reads see can then
be out of date, but it does not come from nowhere: a read sees the last own write of its key, or else something
that an earlier transaction left behind, or else it leaves its value open. Which of the earlier transactions it
was is not said, so nothing follows about the isolation of the recording.

This is enough for the recording to be consistent, provided that no value is written twice and the default value
never.

## Main definitions

* `Recorded.Log.Plausible`: Every transaction saw what those before it left behind.

## Theorems

* `Recorded.Log.Plausible.consistent`: The recording of a plausible log is consistent.
-/

namespace Isolation

open Isolation.History (loaded loadedTransaction loadedEvent)

variable {κ ν : Type}

namespace Recorded

/-- The key that an event reads. -/
def Event.readKey? : Event κ ν → Option κ
  | .read key _ => some key
  | .write _ _ => none

/-- The keys that are read, in order. -/
def readKeys (events : List (Event κ ν)) : List κ :=
  events.filterMap Event.readKey?

theorem readKeys_concat (events : List (Event κ ν)) (e : Event κ ν) :
    readKeys (events ++ [e]) = readKeys events ++ e.readKey?.toList := by
  unfold readKeys
  rw [List.filterMap_append, List.filterMap_cons]
  cases e.readKey? with
  | none => rfl
  | some key => rfl

variable [DecidableEq κ]

theorem mem_of_lastWritten? {key : κ} {value : ν} {events : List (Event κ ν)}
    (hlast : lastWritten? key events = some value) : .write key value ∈ events :=
  (mem_writtenValues_iff key value events).mp (List.mem_of_getLast? hlast)

namespace Log

/-- When some transactions have run, a read sees the last own write of its key. If there is none, it sees what
    one of those transactions left behind, or leaves its value open. -/
def Sees (earlier : Log κ ν) (events : List (Event κ ν)) : Prop :=
  ∀ before key seen after, events = before ++ .read key seen :: after →
    seen = lastWritten? key before ∨
      lastWritten? key before = none ∧ ∃ entry ∈ earlier, lastWritten? key entry.2.events = seen

theorem Sees.nil (earlier : Log κ ν) : Sees earlier [] := by
  intro before key seen after hsplit
  exact absurd hsplit (by simp)

theorem Sees.concat {earlier : Log κ ν} {events : List (Event κ ν)} (hsees : Sees earlier events)
    {e : Event κ ν} (hlast : ∀ key seen, e = .read key seen → seen = lastWritten? key events ∨
      lastWritten? key events = none ∧ ∃ entry ∈ earlier, lastWritten? key entry.2.events = seen) :
    Sees earlier (events ++ [e]) := by
  intro before key seen after hsplit
  rcases split_concat_cases hsplit with ⟨rfl, hread⟩ | ⟨middle, hold⟩
  · exact hlast key seen hread.symm
  · exact hsees before key seen middle hold

/-- Every transaction saw what those before it left behind. -/
def Plausible (log : Log κ ν) : Prop :=
  ∀ before index t after, log = before ++ (index, t) :: after → Sees before t.events

theorem Plausible.nil : Plausible ([] : Log κ ν) := by
  intro before index t after hsplit
  exact absurd hsplit (by simp)

theorem Plausible.concat {log : Log κ ν} (hlog : Plausible log) {index : Nat} {t : Transaction κ ν}
    (hsees : Sees log t.events) : Plausible (log ++ [(index, t)]) := by
  intro before place u after hsplit
  rcases split_concat_cases hsplit with ⟨rfl, hentry⟩ | ⟨middle, hold⟩
  · cases hentry
    exact hsees
  · exact hlog before place u middle hold

omit [DecidableEq κ] in
theorem not_mem_of_writesOnce [Inhabited ν] {before after : Log κ ν} {index : Nat} {t : Transaction κ ν}
    (honce : WritesOnce (events (before ++ (index, t) :: after))) {entry : Nat × Transaction κ ν}
    (hentry : entry ∈ before) {key : κ} {value : ν} (hwrite : .write key value ∈ entry.2.events) :
    .write key value ∉ t.events := by
  intro hagain
  rw [events_append, WritesOnce, List.pairwise_append] at honce
  exact honce.2.2 _ (List.mem_flatMap.mpr ⟨entry, hentry, hwrite⟩) _
    (List.mem_flatMap.mpr ⟨(index, t), List.mem_cons_self .., hagain⟩) key value rfl rfl

end Log

end Recorded

open Recorded (Log lastWritten? WritesOnce)

section Loaded

variable [DecidableEq κ] [DecidableEq ν] [Inhabited ν] {log : Log κ ν} {count : Nat}
  (hlog : Log.Plausible log) (hcount : ∀ entry ∈ log, entry.1 < count) (honce : WritesOnce (Log.events log))
  (hdefault : ∀ key, .write key default ∉ Log.events log)

include hcount in
theorem Recorded.Log.exists_mem_loaded {entry : Nat × Recorded.Transaction κ ν} (hentry : entry ∈ log) :
    ∃ id, loadedTransaction id entry.2 ∈ (loaded (Log.sessions log count)).clientTransactions := by
  have hsession : Log.session log entry.1 ∈ Log.sessions log count :=
    List.mem_map_of_mem (List.mem_range.mpr (hcount entry hentry))
  have hmem : entry.2 ∈ Log.session log entry.1 :=
    List.mem_map_of_mem (List.mem_filter.mpr ⟨hentry, beq_self_eq_true _⟩)
  exact History.exists_loaded_mem_of_recorded hsession hmem

include hlog hcount honce hdefault

/-- What a transaction of the log saw is supported in the recording. -/
theorem Recorded.Log.Plausible.supports {before after : Log κ ν} {index : Nat}
    {t : Recorded.Transaction κ ν} (hsplit : log = before ++ (index, t) :: after) {id : TransactionId}
    (ht : loadedTransaction id t ∈ (loaded (Log.sessions log count)).clientTransactions) {place : Nat}
    {e : Isolation.Event κ ν} (he : (loadedTransaction id t).events[place]? = some e) (hread : e.isRead = true) :
    (loaded (Log.sessions log count)).Supports (loadedTransaction id t) place e := by
  have hw := (History.built_loaded (Log.freshWrites_sessions hcount honce hdefault)).wellFormed
  rcases History.exists_recorded_read he hread with ⟨key, seen, hevent, rfl⟩
  have hevents := eq_take_append_cons_drop hevent
  have hown := ownValue?_loadedTransaction id t key place
  -- What was left open is there from the beginning.
  have hopen : seen = none → lastWritten? key (t.events.take place) = none →
      (loaded (Log.sessions log count)).Supports (loadedTransaction id t) place
        (loadedEvent id (.read key seen)) := by
    rintro rfl hnone
    refine .inr ⟨hown.trans hnone, _, List.mem_cons_self .., ?_, Log.finalValue?_init hcount honce hdefault ?_⟩
    · intro hc
      have hclient := (hw.isClient_of_mem ht).1
      rw [← hc, hw.init_id] at hclient
      exact absurd hclient (by decide)
    · rw [hsplit]
      refine List.mem_flatMap.mpr ⟨(index, t), List.mem_append_right _ List.mem_cons_self, ?_⟩
      exact List.mem_of_getElem? hevent
  rcases hlog before index t after hsplit _ key seen _ hevents with hseen | ⟨hnone, entry, hentry, hleft⟩
  · cases seen with
    | none => exact hopen rfl hseen.symm
    | some value => exact .inl (hown.trans hseen.symm)
  · cases seen with
    | none => exact hopen rfl hnone
    | some value =>
      have hmem : entry ∈ log := hsplit ▸ List.mem_append_left _ hentry
      rcases Log.exists_mem_loaded hcount hmem with ⟨writer, hwriter⟩
      refine .inr ⟨hown.trans hnone, _, History.mem_transactions_of_client hwriter, fun hc => ?_, ?_⟩
      · -- It would be the same transaction, which then had written the value after all.
        have hsame := hw.eq_of_id_eq (History.mem_transactions_of_client hwriter)
          (History.mem_transactions_of_client ht) hc
        have hfinal := finalValue?_loadedTransaction id t key
        rw [← hsame, finalValue?_loadedTransaction, hleft] at hfinal
        refine Log.not_mem_of_writesOnce (hsplit ▸ honce) hentry (Recorded.mem_of_lastWritten? hleft) ?_
        exact Recorded.mem_of_lastWritten? hfinal.symm
      · exact (finalValue?_loadedTransaction writer entry.2 key).trans hleft

/-- The recording of a plausible log is consistent if everything has committed. -/
theorem Recorded.Log.Plausible.consistent (hcommitted : ∀ entry ∈ log, entry.2.committed = true) :
    (loaded (Log.sessions log count)).Consistent := by
  have hw := (History.built_loaded (Log.freshWrites_sessions hcount honce hdefault)).wellFormed
  -- Every client transaction is one that the log has an entry for.
  have hentries : ∀ t ∈ (loaded (Log.sessions log count)).clientTransactions, ∃ index u id,
      (index, u) ∈ log ∧ t = loadedTransaction id u := by
    intro t ht
    rcases History.exists_recorded_of_mem_loaded ht with ⟨session, hsession, u, hu, id, rfl⟩
    rcases Log.exists_mem_of_mem_sessions hsession hu with ⟨index, hentry⟩
    exact ⟨index, u, id, hentry, rfl⟩
  refine hw.consistent_of_clients (fun t ht => ?_) fun t ht place e he hread => ?_
  · rcases hentries t ht with ⟨index, u, id, hentry, rfl⟩
    exact hcommitted (index, u) hentry
  · rcases hentries t ht with ⟨index, u, id, hentry, rfl⟩
    rcases List.append_of_mem hentry with ⟨before, after, hsplit⟩
    exact hlog.supports hcount honce hdefault hsplit ht he hread

end Loaded

end Isolation
