import Isolation.Proofs.History.Loading
import Isolation.Proofs.Lists

/-!
# Why Loading Fails

A recording that cannot be loaded has a write that is not new. Here the error is looked at: it names a value
and two places, and the recording has that write at the second of them. At the first one it has the same
write, or the first place is one of the init transaction and an open read has called for the value.

Loading is three loops inside each other, and the state that each of them has reached is known, since it is
the result of the part that has been replayed. So the item that fails can be taken out of each loop in turn,
until the event is found.

## Main definitions

* `Recorded.eventAt?`: The recorded event at a place.

## Theorems

* `load_eq_error`: The error of a recording that cannot be loaded.
-/

namespace Isolation

section Outcomes

variable {ε α β : Type}

theorem exists_of_foldlM_eq_error {step : β → α → Except ε β} {items : List α} {state : β} {fault : ε}
    (hfold : items.foldlM step state = .error fault) :
    ∃ seen item later reached, items = seen ++ item :: later ∧
      seen.foldlM step state = .ok reached ∧ step reached item = .error fault := by
  induction items generalizing state with
  | nil => cases hfold
  | cons item rest ih =>
    rw [List.foldlM_cons] at hfold
    cases hstep : step state item with
    | error other =>
      rw [hstep] at hfold
      cases hfold
      exact ⟨[], item, rest, state, rfl, rfl, hstep⟩
    | ok next =>
      rw [hstep] at hfold
      rcases ih hfold with ⟨seen, bad, later, reached, hitems, hseen, hbad⟩
      refine ⟨item :: seen, bad, later, reached, by rw [hitems, List.cons_append], ?_, hbad⟩
      rw [List.foldlM_cons, hstep]
      exact hseen

end Outcomes

variable {κ ν : Type}

namespace Recorded

section Places

/-- The recorded event at a place. Sessions are counted from one, so there is none in session zero. -/
def eventAt? (sessions : List (Session κ ν)) (place : EventId) : Option (Event κ ν) :=
  match place.transaction.session with
  | 0 => none
  | index + 1 => (sessions[index]?.bind fun session => session[place.transaction.height]?).bind
      fun t => t.events[place.index]?

theorem eventAt?_succ (sessions : List (Session κ ν)) (index height position : Nat) :
    eventAt? sessions ⟨⟨index + 1, height⟩, position⟩ =
      (sessions[index]?.bind fun session => session[height]?).bind fun t => t.events[position]? := rfl

theorem mem_events_iff_eventAt? (sessions : List (Session κ ν)) (e : Event κ ν) :
    e ∈ events sessions ↔ ∃ place, eventAt? sessions place = some e := by
  rw [mem_events_iff]
  constructor
  · rintro ⟨session, hsession, t, ht, he⟩
    rcases List.mem_iff_getElem?.mp hsession with ⟨index, hindex⟩
    rcases List.mem_iff_getElem?.mp ht with ⟨height, hheight⟩
    rcases List.mem_iff_getElem?.mp he with ⟨position, hposition⟩
    refine ⟨⟨⟨index + 1, height⟩, position⟩, ?_⟩
    rw [eventAt?_succ, hindex, Option.bind_some, hheight, Option.bind_some, hposition]
  · rintro ⟨⟨⟨number, height⟩, position⟩, hplace⟩
    cases number with
    | zero => cases hplace
    | succ index =>
      rw [eventAt?_succ] at hplace
      rcases Option.bind_eq_some_iff.mp hplace with ⟨t, ht, he⟩
      rcases Option.bind_eq_some_iff.mp ht with ⟨session, hsession, hheight⟩
      exact ⟨session, List.mem_of_getElem? hsession, t, List.mem_of_getElem? hheight,
        List.mem_of_getElem? he⟩

theorem eventAt?_of_running {sessions : List (Session κ ν)} {session : Session κ ν}
    {seen : List (Event κ ν)} {place : EventId} {e : Event κ ν}
    (hplace : eventAt? (running sessions session seen) place = some e) (later : List (Event κ ν))
    (committed : Bool) (others : Session κ ν) (more : List (Session κ ν)) :
    eventAt? (sessions ++ (session ++ ⟨seen ++ later, committed⟩ :: others) :: more) place =
      some e := by
  rcases place with ⟨⟨number, height⟩, position⟩
  cases number with
  | zero => cases hplace
  | succ index =>
    rw [running, eventAt?_succ] at hplace
    rw [eventAt?_succ]
    rcases Option.bind_eq_some_iff.mp hplace with ⟨t, ht, he⟩
    rcases Option.bind_eq_some_iff.mp ht with ⟨s, hs, hheight⟩
    -- Only the last transaction of the last session grows, and it grows at its end.
    rcases (getElem?_concat_eq_some_iff ..).mp hs with hs | ⟨rfl, rfl⟩
    · have hindex := (List.getElem?_eq_some_iff.mp hs).1
      rw [List.getElem?_append_left hindex, hs, Option.bind_some, hheight, Option.bind_some, he]
    · rw [getElem?_length_append, Option.bind_some]
      rcases (getElem?_concat_eq_some_iff ..).mp hheight with hheight | ⟨rfl, rfl⟩
      · have hlt := (List.getElem?_eq_some_iff.mp hheight).1
        rw [List.getElem?_append_left hlt, hheight, Option.bind_some, he]
      · have hlt := (List.getElem?_eq_some_iff.mp he).1
        rw [getElem?_length_append, Option.bind_some, List.getElem?_append_left hlt, he]

end Places

end Recorded

namespace History

open Recorded (FreshWrites openedKeys running eventAt?)

variable [DecidableEq κ] [DecidableEq ν] [Inhabited ν]

section Writers

variable (sessions : List (Recorded.Session κ ν))

theorem event?_loaded (index height position : Nat) :
    (loaded sessions).event? ⟨⟨index + 1, height⟩, position⟩ =
      (eventAt? sessions ⟨⟨index + 1, height⟩, position⟩).map (loadedEvent ⟨index + 1, height⟩) := by
  rw [event?_mk, transaction?_loaded, Recorded.eventAt?_succ]
  cases sessions[index]?.bind fun session => session[height]? with
  | none => rfl
  | some t =>
    rw [Option.map_some, Option.bind_some, Option.bind_some]
    exact List.getElem?_map ..

/-- The init transaction holds the initial values that open reads have called for. -/
theorem event?_loaded_zero_eq_some_iff (height position : Nat) (e : Event κ ν) :
    (loaded sessions).event? ⟨⟨0, height⟩, position⟩ = some e ↔ height = 0 ∧
      ∃ key, (openedKeys (Recorded.events sessions))[position]? = some key ∧
        ⟨.init, .write, key, default⟩ = e := by
  rw [event?_mk, transaction?_zero]
  by_cases hheight : height = 0
  · rw [if_pos hheight, Option.bind_some, loaded, defaultInit, List.getElem?_map,
      Option.map_eq_some_iff]
    exact (and_iff_right hheight).symm
  · rw [if_neg hheight]
    refine iff_of_false (fun hc => ?_) fun hc => hheight hc.1
    cases hc

/-- What is loaded as a write was recorded as one, or it is an initial value. -/
theorem event?_loaded_writes_iff (key : κ) (value : ν) (place : EventId) :
    (∃ e, (loaded sessions).event? place = some e ∧ e.writes key value = true) ↔
      eventAt? sessions place = some (.write key value) ∨
        place.transaction = .init ∧ value = default ∧
          (openedKeys (Recorded.events sessions))[place.index]? = some key := by
  rcases place with ⟨⟨number, height⟩, position⟩
  cases number with
  | zero =>
    simp only [event?_loaded_zero_eq_some_iff]
    constructor
    · rintro ⟨_, ⟨rfl, other, hother, rfl⟩, hwrites⟩
      rcases (writes_iff key value _).mp hwrites with ⟨_, rfl, rfl⟩
      exact Or.inr ⟨rfl, rfl, hother⟩
    · rintro (hc | ⟨hinit, rfl, hkey⟩)
      · cases hc
      · cases hinit
        exact ⟨_, ⟨rfl, key, hkey, rfl⟩, (writes_iff _ _ _).mpr ⟨rfl, rfl, rfl⟩⟩
  | succ index =>
    rw [event?_loaded]
    constructor
    · rintro ⟨e, he, hwrites⟩
      rcases Option.map_eq_some_iff.mp he with ⟨a, ha, rfl⟩
      rcases (writes_iff key value _).mp hwrites with ⟨hwrite, rfl, rfl⟩
      cases a with
      | read other seen => exact absurd hwrite Bool.false_ne_true
      | write other stored => exact Or.inl ha
    · rintro (hwrite | ⟨hc, _⟩)
      · rw [hwrite]
        exact ⟨_, rfl, (writes_iff _ _ _).mpr ⟨rfl, rfl, rfl⟩⟩
      · cases hc

variable {sessions} in
/-- The writer in a loaded history is where the recording has the write, or it is an initial value that an
    open read has called for. -/
theorem writerOf?_loaded_eq_some_iff (hfresh : FreshWrites (Recorded.events sessions)) (key : κ)
    (value : ν) (place : EventId) :
    (loaded sessions).writerOf? key value = some place ↔
      eventAt? sessions place = some (.write key value) ∨
        place.transaction = .init ∧ value = default ∧
          (openedKeys (Recorded.events sessions))[place.index]? = some key := by
  rw [(built_loaded hfresh).wellFormed.writerOf?_eq_some_iff]
  exact event?_loaded_writes_iff sessions key value place

end Writers

section Errors

/-- The events of a transaction that are taken lead to the history of a recording in which it is still
    running. -/
theorem eq_loaded_of_foldlM_loadEvent {before : List (Recorded.Session κ ν)}
    {session : Recorded.Session κ ν} (hfresh : FreshWrites (Recorded.events (before ++ [session])))
    {seen : List (Recorded.Event κ ν)} {h : History κ ν}
    (hseen : seen.foldlM (loadEvent ⟨before.length + 1, session.length⟩)
      (loaded (running before session [])) = .ok h) :
    FreshWrites (Recorded.events (running before session seen)) ∧
      h = loaded (running before session seen) := by
  have hwhole : loadTransaction (before.length + 1) (loaded (before ++ [session])) ⟨seen, false⟩ =
      .ok h := by
    rw [loadTransaction, addTransaction_loaded]
    simp only [Except.bind, hseen, Bool.false_eq_true, if_false]
  exact (loadTransaction_decides before session hfresh ⟨seen, false⟩).of_eq_ok hwhole

/-- Loading fails at an event, and up to there it is the loading of a shorter recording. -/
theorem exists_loadEvent_eq_error {sessions : List (Recorded.Session κ ν)}
    {fault : HistoryError κ ν} (hload : load sessions = .error fault) :
    ∃ before session seen e later committed others more,
      sessions = before ++ (session ++ ⟨seen ++ e :: later, committed⟩ :: others) :: more ∧
      FreshWrites (Recorded.events (running before session seen)) ∧
      loadEvent ⟨before.length + 1, session.length⟩ (loaded (running before session seen)) e =
        .error fault := by
  rcases exists_of_foldlM_eq_error hload with ⟨before, failing, more, h₁, rfl, hbefore, hsession⟩
  rcases (load_decides before).of_eq_ok hbefore with ⟨hfresh₁, rfl⟩
  rw [loadSession, addSession_loaded] at hsession
  rcases exists_of_foldlM_eq_error hsession with ⟨session, t, others, h₂, rfl, hearlier, ht⟩
  -- The part of the session that was taken is a session in its own right.
  have hpart : loadSession (loaded before) session = .ok h₂ := by
    rw [loadSession, addSession_loaded]
    exact hearlier
  rcases (loadSession_decides before hfresh₁ session).of_eq_ok hpart with ⟨hfresh₂, rfl⟩
  rcases t with ⟨events, committed⟩
  rw [loadTransaction, addTransaction_loaded] at ht
  cases hevents : events.foldlM (loadEvent ⟨before.length + 1, session.length⟩)
      (loaded (running before session [])) with
  | error other =>
    simp only [Except.bind, hevents, Except.error.injEq] at ht
    rw [ht] at hevents
    rcases exists_of_foldlM_eq_error hevents with ⟨seen, e, later, h₃, rfl, hseen, he⟩
    rcases eq_loaded_of_foldlM_loadEvent hfresh₂ hseen with ⟨hfresh₃, rfl⟩
    exact ⟨before, session, seen, e, later, committed, others, more, rfl, hfresh₃, he⟩
  | ok h₃ =>
    -- All events were taken, and a transaction that is running can be committed.
    rcases eq_loaded_of_foldlM_loadEvent hfresh₂ hevents with ⟨_, rfl⟩
    simp only [Except.bind, hevents] at ht
    rw [commit_loaded] at ht
    split_ifs at ht

omit [Inhabited ν] in
/-- A running transaction refuses a write only because its value is stored somewhere. -/
theorem addEvent_write_eq_error {h : History κ ν} {id : TransactionId} {t : Transaction κ ν}
    (ht : h.transaction? id = some t) (hrun : t.committed = false) {key : κ} {value : ν}
    {fault : HistoryError κ ν} (hadd : (h.addEvent id .write key value).map Prod.snd = .error fault) :
    ∃ place, h.writerOf? key value = some place ∧
      fault = .duplicateWrite key value place ⟨id, t.events.length⟩ := by
  cases hwriter : h.writerOf? key value with
  | none =>
    have hnew := (h.writerOf?_eq_none_iff_not_stores key value).mp hwriter
    rw [(addEvent_write_decides ht hrun key value).ok hnew] at hadd
    cases hadd
  | some place =>
    rw [addEvent_write_of_writerOf? ht hrun hwriter] at hadd
    exact ⟨place, rfl, (Except.error.inj hadd).symm⟩

/-- A recording that cannot be loaded has a write that repeats a value, and the error says which one. The
    value was written before, or it is an initial value that an open read has called for. -/
theorem load_eq_error {sessions : List (Recorded.Session κ ν)} {fault : HistoryError κ ν}
    (hload : load sessions = .error fault) :
    ∃ key value first second, fault = .duplicateWrite key value first second ∧ first ≠ second ∧
      eventAt? sessions second = some (.write key value) ∧
      (eventAt? sessions first = some (.write key value) ∨
        value = default ∧ .read key none ∈ Recorded.events sessions) := by
  rcases exists_loadEvent_eq_error hload with
    ⟨before, session, seen, e, later, committed, others, more, rfl, hfresh, he⟩
  cases e with
  | read key value =>
    rw [loadEvent_read_eq_ok] at he
    cases he
  | write key value =>
    have hlook := transaction?_loaded_running before session seen
    rcases addEvent_write_eq_error hlook rfl he with ⟨first, hwriter, hfault⟩
    have hlength : (loadedTransaction ⟨before.length + 1, session.length⟩
        ⟨seen, false⟩ : Transaction κ ν).events.length = seen.length := List.length_map ..
    rw [hlength] at hfault
    rw [writerOf?_loaded_eq_some_iff hfresh] at hwriter
    refine ⟨key, value, first, _, hfault, ?_, ?_, ?_⟩
    · -- The place of the event is still free.
      rintro rfl
      rcases hwriter with hplace | ⟨hc, _⟩
      · rw [Recorded.eventAt?_succ, running, List.getElem?_concat_length, Option.bind_some,
          List.getElem?_concat_length, Option.bind_some, List.getElem?_eq_none (Nat.le_refl _)] at hplace
        cases hplace
      · cases hc
    · rw [Recorded.eventAt?_succ, getElem?_length_append, Option.bind_some, getElem?_length_append,
        Option.bind_some, getElem?_length_append]
    · rcases hwriter with hplace | ⟨_, hvalue, hkey⟩
      · exact Or.inl (Recorded.eventAt?_of_running hplace _ committed others more)
      · have hread := Recorded.mem_of_mem_openedKeys (List.mem_of_getElem? hkey)
        rcases (Recorded.mem_events_iff_eventAt? _ _).mp hread with ⟨place, hplace⟩
        exact Or.inr ⟨hvalue, (Recorded.mem_events_iff_eventAt? _ _).mpr
          ⟨place, Recorded.eventAt?_of_running hplace _ committed others more⟩⟩

end Errors

end History

end Isolation
