import Isolation.Proofs.Audit.Levels
import Isolation.Proofs.Audit.SessionOrder

/-!
# Logs of Serial Runs

A store that runs one transaction at a time can keep a log: the transactions in the order in which they ran,
each with the session it came from. Clients do not see the log. What they record is the log taken apart, the
transactions of each session in a list of its own.

If each read in the log saw the value that was written last, the recording is serializable, and the log is the
reason: the identifiers that its entries have in the recording form a commit order, and the replay of this order
goes through the log once more. Reads of a key that nobody has written yet leave their value open. The init
transaction of the recording supplies it, provided that no client writes the default value itself.

## Main definitions

* `Recorded.Log`, `Recorded.Log.Serial`: Transactions as they ran, and logs of a store that runs one at a
  time.

## Theorems

* `Recorded.Log.Serial.explains`: The order of a serial log explains its recording.
-/

namespace Isolation

open Isolation.History (loaded loadedTransaction loadedEvent)

variable {κ ν : Type} {installed : List (Isolation.Transaction κ ν)}

namespace Recorded

section Values

variable [DecidableEq κ]

/-- The value that an event writes under a key. -/
def Event.written? (key : κ) : Event κ ν → Option ν
  | .read _ _ => none
  | .write other value => if other = key then some value else none

theorem Event.written?_eq_some_iff (key : κ) (value : ν) (e : Event κ ν) :
    e.written? key = some value ↔ e = .write key value := by
  cases e with
  | read other seen => simp [written?]
  | write other stored =>
    by_cases hkey : other = key
    · simp [written?, hkey]
    · simp [written?, hkey]

/-- The values written under a key, in order. -/
def writtenValues (key : κ) (events : List (Event κ ν)) : List ν :=
  events.filterMap (Event.written? key)

/-- The value that was written last under a key. -/
def lastWritten? (key : κ) (events : List (Event κ ν)) : Option ν :=
  (writtenValues key events).getLast?

theorem mem_writtenValues_iff (key : κ) (value : ν) (events : List (Event κ ν)) :
    value ∈ writtenValues key events ↔ .write key value ∈ events := by
  simp only [writtenValues, List.mem_filterMap, Event.written?_eq_some_iff, exists_eq_right]

theorem writtenValues_concat (key : κ) (events : List (Event κ ν)) (e : Event κ ν) :
    writtenValues key (events ++ [e]) = writtenValues key events ++ (e.written? key).toList := by
  unfold writtenValues
  rw [List.filterMap_append, List.filterMap_cons]
  cases e.written? key with
  | none => rfl
  | some value => rfl

theorem lastWritten?_append (key : κ) (events later : List (Event κ ν)) :
    lastWritten? key (events ++ later) = (lastWritten? key later).or (lastWritten? key events) := by
  unfold lastWritten? writtenValues
  rw [List.filterMap_append, List.getLast?_append]

theorem writesOnce_of_nodup [Inhabited ν] {events : List (Event κ ν)}
    (hnodup : ∀ key, (writtenValues key events).Nodup) : WritesOnce events := by
  unfold WritesOnce
  rw [List.pairwise_iff_getElem]
  intro i j hi hj hij key value hwrite hagain
  have hpairs := List.pairwise_filterMap.mp (hnodup key)
  rw [← Event.written?_eq_some_iff] at hwrite hagain
  exact List.pairwise_iff_getElem.mp hpairs i j hi hj hij value hwrite value hagain rfl

/-- Every read saw the value that was written last, and left its value open if there was none. -/
def SeesLatest (events : List (Event κ ν)) : Prop :=
  ∀ before key seen after, events = before ++ .read key seen :: after → seen = lastWritten? key before

theorem SeesLatest.nil : SeesLatest ([] : List (Event κ ν)) := by
  intro before key seen after hsplit
  exact absurd hsplit (by simp)

theorem SeesLatest.concat {events : List (Event κ ν)} (hsees : SeesLatest events) {e : Event κ ν}
    (hlast : ∀ key seen, e = .read key seen → seen = lastWritten? key events) :
    SeesLatest (events ++ [e]) := by
  intro before key seen after hsplit
  -- The read is the new event, or it is an old one.
  rcases split_concat_cases hsplit with ⟨rfl, hread⟩ | ⟨middle, hold⟩
  · exact hlast key seen hread.symm
  · exact hsees before key seen middle hold

end Values

/-- Transactions in the order in which they ran, each with the position of its session. -/
abbrev Log (κ ν : Type) : Type := List (Nat × Transaction κ ν)

/-- The identifiers of transactions, given their sessions in the order in which they ran and the sessions of
    those that ran before. -/
def placesAfter (earlier : List Nat) : List Nat → List TransactionId
  | [] => []
  | index :: rest => ⟨index + 1, earlier.count index⟩ :: placesAfter (earlier ++ [index]) rest

/-- The identifiers of transactions, given their sessions in the order in which they ran. -/
def places (turns : List Nat) : List TransactionId :=
  placesAfter [] turns

theorem inSessionOrderAfter_placesAfter {seen : List TransactionId} {earlier : List Nat}
    (hseen : ∀ index, seen.countP (fun other => other.session == index + 1) = earlier.count index)
    (turns : List Nat) : inSessionOrderAfter seen (placesAfter earlier turns) = true := by
  induction turns generalizing seen earlier with
  | nil => rfl
  | cons index rest ih =>
    rw [placesAfter, inSessionOrderAfter, hseen, beq_self_eq_true, Bool.and_true, Bool.and_eq_true]
    refine ⟨rfl, ih fun other => ?_⟩
    -- The entry counts for its own session on both sides.
    rw [List.countP_cons, hseen, List.count_append, List.count_singleton]
    simp only [beq_iff_eq, Nat.add_right_cancel_iff]

theorem countP_placesAfter (earlier turns : List Nat) (index : Nat) :
    (placesAfter earlier turns).countP (fun place => place.session == index + 1) = turns.count index := by
  induction turns generalizing earlier with
  | nil => rfl
  | cons turn rest ih =>
    rw [placesAfter, List.countP_cons, ih, List.count_cons]
    simp only [beq_iff_eq, Nat.add_right_cancel_iff]

namespace Log

/-- The events of all transactions in the order in which they happened. -/
def events (log : Log κ ν) : List (Event κ ν) :=
  log.flatMap fun entry => entry.2.events

/-- The transactions of one session. -/
def session (log : Log κ ν) (index : Nat) : Session κ ν :=
  (log.filter fun entry => entry.1 == index).map Prod.snd

/-- What the clients record: the transactions of each session. -/
def sessions (log : Log κ ν) (count : Nat) : List (Session κ ν) :=
  (List.range count).map (session log)

/-- The sessions in the order in which they had their turns. -/
def turns (log : Log κ ν) : List Nat :=
  log.map Prod.fst

theorem events_append (log later : Log κ ν) : events (log ++ later) = events log ++ events later :=
  List.flatMap_append

theorem session_append (log later : Log κ ν) (index : Nat) :
    session (log ++ later) index = session log index ++ session later index := by
  unfold session
  rw [List.filter_append, List.map_append]

theorem length_session (log : Log κ ν) (index : Nat) :
    (session log index).length = (turns log).count index := by
  unfold session turns
  rw [List.length_map, List.count, List.countP_map, ← List.countP_eq_length_filter]
  rfl

theorem getElem?_sessions {count index : Nat} (hindex : index < count) (log : Log κ ν) :
    (sessions log count)[index]? = some (session log index) := by
  unfold sessions
  rw [List.getElem?_map, List.getElem?_range hindex, Option.map_some]

/-- An entry is found in its session, behind those of the session that ran before. -/
theorem getElem?_session (before after : Log κ ν) (index : Nat) (t : Transaction κ ν) :
    (session (before ++ (index, t) :: after) index)[(turns before).count index]? = some t := by
  have hhead : session ((index, t) :: after) index = t :: session after index := by
    simp [session]
  rw [session_append, hhead, ← length_session, getElem?_length_append]

theorem exists_mem_of_mem_sessions {count : Nat} {recorded : Session κ ν}
    (hrecorded : recorded ∈ sessions log count) {t : Transaction κ ν} (ht : t ∈ recorded) :
    ∃ index, (index, t) ∈ log := by
  rcases List.mem_map.mp hrecorded with ⟨index, _, rfl⟩
  rcases List.mem_map.mp ht with ⟨entry, hentry, rfl⟩
  exact ⟨entry.1, (List.mem_filter.mp hentry).1⟩

theorem sessions_concat (log : Log κ ν) (count index : Nat) (t : Transaction κ ν) :
    sessions (log ++ [(index, t)]) count = (sessions log count).modify index (· ++ [t]) := by
  refine List.ext_getElem? fun i => ?_
  rw [List.getElem?_modify]
  -- Behind the last session there is nothing to modify.
  rcases Nat.lt_or_ge i count with hi | hi
  · rw [getElem?_sessions hi, getElem?_sessions hi, session_append]
    by_cases hsame : index = i
    · simp [session, hsame]
    · simp [session, hsame]
  · have hnone : ∀ log : Log κ ν, (sessions log count)[i]? = none := by
      intro log
      rw [List.getElem?_eq_none_iff, sessions, List.length_map, List.length_range]
      exact hi
    rw [hnone, hnone]
    rfl

/-- The sessions up to some position hold the entries up to this position. -/
theorem perm_flatten_sessions (log : Log κ ν) (count : Nat) :
    (sessions log count).flatten.Perm ((log.filter fun entry => entry.1 < count).map Prod.snd) := by
  induction count with
  | zero => simp [sessions]
  | succ count ih =>
    have hsplit : sessions log (count + 1) = sessions log count ++ [session log count] := by
      unfold sessions
      rw [List.range_succ, List.map_append, List.map_singleton]
    rw [hsplit, List.flatten_append, List.flatten_singleton]
    -- The entries below the next position are those below this one and those at it.
    have hbelow : (log.filter fun entry => entry.1 < count) =
        (log.filter fun entry => entry.1 < count + 1).filter fun entry => entry.1 < count := by
      rw [List.filter_filter]
      refine List.filter_congr fun entry _ => ?_
      grind
    have hat : (log.filter fun entry => entry.1 == count) =
        (log.filter fun entry => entry.1 < count + 1).filter fun entry => !decide (entry.1 < count) := by
      rw [List.filter_filter]
      refine List.filter_congr fun entry _ => ?_
      grind
    refine (ih.append_right _).trans ?_
    rw [session, ← List.map_append, hbelow, hat]
    exact (List.filter_append_perm _ _).map _

variable {log : Log κ ν} {count : Nat} (hcount : ∀ entry ∈ log, entry.1 < count)

include hcount

theorem perm_events_sessions : (Recorded.events (sessions log count)).Perm (events log) := by
  have hall : (log.filter fun entry => entry.1 < count) = log :=
    List.filter_eq_self.mpr fun entry hentry => decide_eq_true (hcount entry hentry)
  have hperm := perm_flatten_sessions log count
  rw [hall] at hperm
  have hevents := hperm.flatMap_right Transaction.events
  rwa [List.flatMap_map] at hevents

end Log

end Recorded

section Loaded

open Recorded (Log lastWritten? SeesLatest WritesOnce FreshWrites places placesAfter)

variable [DecidableEq κ] [DecidableEq ν] [Inhabited ν] {log : Log κ ν}

theorem Recorded.Log.coversSessions_places (log : Log κ ν) (count : Nat) :
    coversSessions (loaded (Log.sessions log count)) (places (Log.turns log)) = true := by
  rw [coversSessions, Bool.and_eq_true, List.all_eq_true]
  refine ⟨Recorded.inSessionOrderAfter_placesAfter (fun _ => rfl) _, fun s hs => ?_⟩
  rcases List.mem_iff_getElem?.mp hs with ⟨index, hindex⟩
  rw [loaded, List.getElem?_mapIdx, Option.map_eq_some_iff] at hindex
  rcases hindex with ⟨session, hsession, rfl⟩
  have hlt : index < count := by
    have := (List.getElem?_eq_some_iff.mp hsession).1
    rwa [Log.sessions, List.length_map, List.length_range] at this
  rw [Log.getElem?_sessions hlt, Option.some.injEq] at hsession
  rw [History.loadedSession, List.length_mapIdx, ← hsession, Log.length_session, beq_iff_eq]
  exact Recorded.countP_placesAfter [] _ index

omit [DecidableEq ν] in
theorem find?_loadedEvents (id : TransactionId) (key : κ) (events : List (Recorded.Event κ ν)) :
    ((events.map (loadedEvent id)).reverse.find? (Event.writesKey key)).map Event.value =
      lastWritten? key events := by
  -- From behind, since both sides ask for the last write.
  induction events using List.reverseRecOn with
  | nil => rfl
  | append_singleton events e ih =>
    rw [Recorded.lastWritten?_append, ← ih, List.map_append, List.reverse_append, List.map_singleton,
      List.reverse_singleton, List.singleton_append, List.find?_cons]
    cases e with
    | read other seen => rfl
    | write other value =>
      by_cases hkey : other = key
      · simp [loadedEvent, Event.writesKey, Event.isWrite, lastWritten?, Recorded.writtenValues,
          Recorded.Event.written?, hkey]
      · simp [loadedEvent, Event.writesKey, Event.isWrite, lastWritten?, Recorded.writtenValues,
          Recorded.Event.written?, hkey, beq_eq_false_iff_ne.mpr hkey]

omit [DecidableEq ν] in
theorem ownValue?_loadedTransaction (id : TransactionId) (t : Recorded.Transaction κ ν) (key : κ)
    (index : Nat) :
    (loadedTransaction id t).ownValue? key index = lastWritten? key (t.events.take index) := by
  rw [Transaction.ownValue?, loadedTransaction, ← List.map_take, find?_loadedEvents]

omit [DecidableEq ν] in
theorem finalValue?_loadedTransaction (id : TransactionId) (t : Recorded.Transaction κ ν) (key : κ) :
    (loadedTransaction id t).finalValue? key = lastWritten? key t.events := by
  rw [Transaction.finalValue?, loadedTransaction, find?_loadedEvents]

/-- What has been installed shows the values that the log holds so far, and those of the init transaction. -/
def Recorded.Log.Installed (init : Isolation.Transaction κ ν) (log : Log κ ν)
    (installed : List (Isolation.Transaction κ ν)) : Prop :=
  ∀ key, latestValue? installed key = (lastWritten? key (Log.events log)).or (init.finalValue? key)

omit [DecidableEq ν] [Inhabited ν] in
theorem Recorded.Log.Installed.begin (init : Isolation.Transaction κ ν) :
    Log.Installed init [] [init] := by
  intro key
  rw [latestValue?, List.findSome?_singleton]
  rfl

omit [DecidableEq ν] in
theorem Recorded.Log.Installed.concat {init : Isolation.Transaction κ ν}
    (hinstalled : Log.Installed init log installed) (id : TransactionId) (index : Nat)
    (t : Recorded.Transaction κ ν) :
    Log.Installed init (log ++ [(index, t)]) (loadedTransaction id t :: installed) := by
  intro key
  have hone : Log.events [(index, t)] = t.events := List.append_nil _
  have hrest := hinstalled key
  rw [latestValue?] at hrest
  rw [latestValue?, List.findSome?_cons, finalValue?_loadedTransaction, Log.events_append,
    Recorded.lastWritten?_append, hone, Option.or_assoc, hrest]
  cases lastWritten? key t.events with
  | none => rfl
  | some value => rfl

/-- The recording of a log can be loaded if the log writes no value twice and never the default value. -/
theorem Recorded.Log.freshWrites_sessions {count : Nat} (hcount : ∀ entry ∈ log, entry.1 < count)
    (honce : WritesOnce (Log.events log)) (hdefault : ∀ key, .write key default ∉ Log.events log) :
    FreshWrites (Recorded.events (Log.sessions log count)) := by
  have hperm := Log.perm_events_sessions hcount
  rw [Recorded.freshWrites_iff]
  constructor
  · refine (hperm.pairwise_iff fun {a b} hab key value hb ha => ?_).mpr honce
    exact hab key value ha hb
  · refine List.pairwise_of_forall_mem_list ?_
    rintro a _ b hb key _ rfl
    exact hdefault key (hperm.mem_iff.mp hb)

theorem Recorded.Log.finalValue?_init {count : Nat} (hcount : ∀ entry ∈ log, entry.1 < count)
    (honce : WritesOnce (Log.events log)) (hdefault : ∀ key, .write key default ∉ Log.events log)
    {key : κ} (hread : .read key none ∈ Log.events log) :
    (loaded (Log.sessions log count)).init.finalValue? key = some default := by
  have hperm := Log.perm_events_sessions hcount
  refine (History.finalValue?_defaultInit _ key default).mpr ⟨rfl, ?_⟩
  rw [Recorded.mem_openedKeys_iff (Log.freshWrites_sessions hcount honce hdefault), hperm.mem_iff, hperm.mem_iff]
  exact ⟨hread, hdefault key⟩

/-- A log of a store that runs one transaction at a time. Every read saw what was written last, and no value is
    written twice, nor is the default value, which a key has from the beginning. -/
structure Recorded.Log.Serial (log : Log κ ν) : Prop where
  sees : SeesLatest (Log.events log)
  once : WritesOnce (Log.events log)
  write_default_not_mem : ∀ key, .write key default ∉ Log.events log

section Serial

variable (hserial : Log.Serial log) {count : Nat} (hcount : ∀ entry ∈ log, entry.1 < count)

include hserial hcount

theorem Recorded.Log.Serial.readsMatch {before after : Log κ ν} {index : Nat}
    {t : Recorded.Transaction κ ν} (hlog : log = before ++ (index, t) :: after)
    (hinstalled : Log.Installed (loaded (Log.sessions log count)).init before installed)
    (id : TransactionId) : (loadedTransaction id t).readsMatch (latestValue? installed) = true := by
  rw [Transaction.readsMatch_iff]
  intro i e he hread
  rcases History.exists_recorded_read he hread with ⟨key, seen, hevent, rfl⟩
  have ht := eq_take_append_cons_drop hevent
  -- The log is taken apart at the read.
  have hsplit : Log.events log = (Log.events before ++ t.events.take i) ++
      .read key seen :: (t.events.drop (i + 1) ++ Log.events after) := by
    have hcons : Log.events ((index, t) :: after) = t.events ++ Log.events after := rfl
    rw [hlog, Log.events_append, hcons, List.append_assoc, List.append_cancel_left_eq,
      ← List.cons_append, ← List.append_assoc, ← ht]
  have hseen := hserial.sees _ key seen _ hsplit
  rw [Recorded.lastWritten?_append] at hseen
  change ((loadedTransaction id t).ownValue? key i).or (latestValue? installed key) =
    some (seen.getD default)
  rw [ownValue?_loadedTransaction, hinstalled key, ← Option.or_assoc, ← hseen]
  cases seen with
  | some value => rfl
  | none =>
    -- Nobody has written the key yet, so the init transaction answers.
    refine Log.finalValue?_init hcount hserial.once hserial.write_default_not_mem ?_
    rw [hsplit]
    exact List.mem_append_right _ List.mem_cons_self

theorem Recorded.Log.Serial.replaySerial_placesAfter {before after : Log κ ν}
    (hlog : log = before ++ after)
    (hinstalled : Log.Installed (loaded (Log.sessions log count)).init before installed) :
    replaySerial (loaded (Log.sessions log count)) installed
      (placesAfter (Log.turns before) (Log.turns after)) = true := by
  induction after generalizing before installed with
  | nil => rfl
  | cons entry rest ih =>
    rcases entry with ⟨index, t⟩
    have hlt : index < count := by
      refine hcount (index, t) ?_
      rw [hlog]
      exact List.mem_append_right _ List.mem_cons_self
    have hlook : (loaded (Log.sessions log count)).transaction?
        ⟨index + 1, (Log.turns before).count index⟩ =
          some (loadedTransaction ⟨index + 1, (Log.turns before).count index⟩ t) := by
      rw [History.transaction?_loaded, Log.getElem?_sessions hlt, Option.bind_some, hlog,
        Log.getElem?_session, Option.map_some]
    have hreads := hserial.readsMatch hcount hlog hinstalled
      ⟨index + 1, (Log.turns before).count index⟩
    -- The entry moves over to what came before.
    have hrest := ih (hlog.trans (List.append_cons ..)) (hinstalled.concat
      ⟨index + 1, (Log.turns before).count index⟩ index t)
    have hturns : Log.turns (before ++ [(index, t)]) = Log.turns before ++ [index] := List.map_append
    have hcons : Log.turns ((index, t) :: rest) = index :: Log.turns rest := rfl
    rw [hturns] at hrest
    rw [hcons, placesAfter, replaySerial, hlook]
    exact Bool.and_eq_true_iff.mpr ⟨hreads, hrest⟩

/-- The order of the log explains what the clients recorded. -/
theorem Recorded.Log.Serial.explains :
    (Witness.commitOrder (places (Log.turns log))).explains (loaded (Log.sessions log count)) = true := by
  -- At the beginning nothing has run and the whole log is left.
  rw [Witness.explains_eq, Witness.replays, Bool.and_eq_true]
  exact ⟨Log.coversSessions_places log count,
    hserial.replaySerial_placesAfter hcount (List.nil_append log).symm (Log.Installed.begin _)⟩

end Serial

end Loaded

/-- What a commit order explains is accepted at every level, with all options. -/
theorem exists_auditWith_of_commitOrder [DecidableEq κ] [DecidableEq ν] [Ord κ] {h : History κ ν}
    (hw : h.WellFormed) (hcommitted : ∀ t ∈ h.clientTransactions, t.committed = true)
    {order : List TransactionId} (hexplains : (Witness.commitOrder order).explains h = true)
    {engine : Sat.Engine} (hsound : engine.Sound) (hrefuting : engine.Refuting)
    (hreliable : engine.Reliable) (options : AuditOptions) : ∃ w, h.auditWith engine options = .ok w := by
  cases hlevel : options.level with
  | serializable => exact exists_auditWith hw hcommitted hexplains hsound hrefuting hreliable hlevel.symm
  | snapshotIsolation =>
    exact exists_auditWith hw hcommitted (splitOrder_backToBack_explains hexplains) hsound hrefuting
      hreliable hlevel.symm

end Isolation
