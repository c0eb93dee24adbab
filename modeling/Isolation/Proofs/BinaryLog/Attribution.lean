import Isolation.Proofs.BinaryLog.RoundTrip
import Isolation.Proofs.History.Refusals
import Isolation.Recorded.Reading

/-!
# Who Wrote What Is Read in a Log

A log is read in two steps. The reader of bytes decides of every read of zero whether it saw a write or the
initial value, and goes by the whole log; the loader stores an initial value when the first read asks for
it, and knows only what it has loaded by then. If the loader came to an initial value first and to a write
of zero later, it would take the write for a repetition. But then the reader of bytes has seen that write,
and there is no read that asks for the initial value.

So a log that was accepted is refused by the loader only if it has the same write at two places. If it is
not refused, a value has the writer that the log says, and the initial values are those that were read and
not written.

## Main definitions

* `WritesAt`: The log has a write at a place.

## Theorems

* `ofLog_attributes_reads`: Loading a log attributes every read to the right write.
-/

namespace Isolation

namespace BinaryLog

/-- The log has the write at the place. -/
def WritesAt (log : BinaryLog) (place : EventId) (key value : UInt64) : Prop :=
  Recorded.eventAt? log.sessions place = some (.write key value)

theorem exists_writesAt_iff (log : BinaryLog) (key value : UInt64) :
    (∃ place, log.WritesAt place key value) ↔ .write key value ∈ Recorded.events log.sessions :=
  (Recorded.mem_events_iff_eventAt? log.sessions (.write key value)).symm

section Zeros

variable {bytes : List UInt8} {log : BinaryLog} (hdecode : decode bytes = .ok log)

include hdecode

theorem mapEvents_settledEvent_of_decode :
    Recorded.mapEvents (settledEvent log.sessions) log.sessions = log.sessions := by
  rcases (decode_eq_ok_iff bytes log).mp hdecode with ⟨logged, _, _, hsucceeded, hsessions, _⟩
  have hcommitted : ∀ session ∈ log.sessions, ∀ t ∈ session, t.committed = true := by
    rw [hsessions, recordedSessions]
    simp only [List.forall_mem_map, implies_true]
  rw [← recordedSessions_loggedSessions hcommitted, hsessions,
    loggedSessions_recordedSessions hsucceeded]

theorem exists_settledEvent_eq {e : Recorded.Event UInt64 UInt64}
    (he : e ∈ Recorded.events log.sessions) : ∃ a, settledEvent log.sessions a = e := by
  rw [← mapEvents_settledEvent_of_decode hdecode, events_mapEvents] at he
  rcases List.mem_map.mp he with ⟨a, _, ha⟩
  exact ⟨a, ha⟩

/-- If a read asks for the initial value, nobody stores zero, neither before nor behind. -/
theorem not_mem_write_of_open_read {key : UInt64}
    (hread : .read key none ∈ Recorded.events log.sessions) :
    .write key 0 ∉ Recorded.events log.sessions := by
  rcases exists_settledEvent_eq hdecode hread with ⟨a, ha⟩
  cases a with
  | write other value => cases ha
  | read other value =>
    rw [settledEvent_read] at ha
    unfold settledRead at ha
    split_ifs at ha with hzero hwrite
    · cases (Recorded.Event.read.inj ha).2
    · rw [← (Recorded.Event.read.inj ha).1]
      exact hwrite
    · cases (Recorded.Event.read.inj ha).2

theorem mem_write_of_zero_read {key : UInt64}
    (hread : .read key (some 0) ∈ Recorded.events log.sessions) :
    .write key 0 ∈ Recorded.events log.sessions := by
  rcases exists_settledEvent_eq hdecode hread with ⟨a, ha⟩
  cases a with
  | write other value => cases ha
  | read other value =>
    rw [settledEvent_read] at ha
    unfold settledRead at ha
    split_ifs at ha with hzero hwrite
    · rw [← (Recorded.Event.read.inj ha).1]
      exact hwrite
    · cases (Recorded.Event.read.inj ha).2
    · exact absurd (Option.some.inj (Recorded.Event.read.inj ha).2) hzero

end Zeros

end BinaryLog

namespace History

open BinaryLog (WritesAt)
open Recorded (FreshWrites openedKeys)

variable {bytes : List UInt8} {log : BinaryLog}

section Outcome

variable (hdecode : BinaryLog.decode bytes = .ok log)

include hdecode

theorem ofLog_of_decode : ofLog bytes = (load log.sessions).mapError .history := by
  rw [ofLog, hdecode]
  rfl

theorem ofLog_eq_ok_iff (h : History UInt64 UInt64) :
    ofLog bytes = .ok h ↔
      FreshWrites (Recorded.events log.sessions) ∧ h = loaded log.sessions := by
  rw [ofLog_of_decode hdecode, ← load_eq_ok_iff]
  cases load log.sessions with
  | error fault => simp [Except.mapError]
  | ok loaded => simp [Except.mapError]

/-- The loader refuses a log only because of a write that is there twice. -/
theorem ofLog_eq_error {error : LoadError UInt64} (herror : ofLog bytes = .error error) :
    ∃ key value first second, error = .history (.duplicateWrite key value first second) ∧
      first ≠ second ∧ log.WritesAt first key value ∧ log.WritesAt second key value := by
  rw [ofLog_of_decode hdecode] at herror
  cases hload : load log.sessions with
  | ok h =>
    rw [hload] at herror
    cases herror
  | error fault =>
    rw [hload] at herror
    cases herror
    rcases load_eq_error hload with ⟨key, value, first, second, rfl, hne, hsecond, hfirst⟩
    refine ⟨key, value, first, second, rfl, hne, hfirst.resolve_right ?_, hsecond⟩
    -- A read that asks for the initial value is not in one log with a write of zero.
    rintro ⟨rfl, hread⟩
    exact BinaryLog.not_mem_write_of_open_read hdecode hread
      ((log.exists_writesAt_iff key 0).mp ⟨second, hsecond⟩)

end Outcome

section Loaded

/-- The history has a read of zero under the key. -/
def ReadsZero (h : History UInt64 UInt64) (key : UInt64) : Prop :=
  ∃ place e, h.event? place = some e ∧ e.isRead = true ∧ e.key = key ∧ e.value = 0

theorem readsZero_loaded_iff (sessions : BinaryLog.Sessions) (key : UInt64) :
    (loaded sessions).ReadsZero key ↔ .read key none ∈ Recorded.events sessions ∨
      .read key (some 0) ∈ Recorded.events sessions := by
  simp only [Recorded.mem_events_iff_eventAt?]
  constructor
  · rintro ⟨⟨⟨number, height⟩, position⟩, e, he, hread, rfl, hvalue⟩
    cases number with
    | zero =>
      -- The init transaction reads nothing.
      rcases (event?_loaded_zero_eq_some_iff ..).mp he with ⟨_, _, _, rfl⟩
      cases hread
    | succ index =>
      rw [event?_loaded] at he
      rcases Option.map_eq_some_iff.mp he with ⟨a, ha, rfl⟩
      cases a with
      | write other stored => cases hread
      | read other seen =>
        cases seen with
        | none => exact Or.inl ⟨_, ha⟩
        | some seen =>
          have hzero : seen = 0 := hvalue
          rw [hzero] at ha
          exact Or.inr ⟨_, ha⟩
  · have hloaded : ∀ place seen, Recorded.eventAt? sessions place = some (.read key seen) →
        seen.getD 0 = 0 → (loaded sessions).ReadsZero key := by
      rintro ⟨⟨number, height⟩, position⟩ seen hplace hzero
      cases number with
      | zero => cases hplace
      | succ index =>
        refine ⟨⟨⟨index + 1, height⟩, position⟩, loadedEvent ⟨index + 1, height⟩ (.read key seen),
          ?_, rfl, rfl, hzero⟩
        rw [event?_loaded, hplace, Option.map_some]
    rintro (⟨place, hplace⟩ | ⟨place, hplace⟩)
    · exact hloaded place none hplace rfl
    · exact hloaded place (some 0) hplace rfl

variable (hdecode : BinaryLog.decode bytes = .ok log)
  (hfresh : FreshWrites (Recorded.events log.sessions))

include hdecode hfresh

/-- Initial values are stored for the keys that are read as zero and not set to it. -/
theorem mem_openedKeys_iff_of_decode (key : UInt64) :
    key ∈ openedKeys (Recorded.events log.sessions) ↔
      (loaded log.sessions).ReadsZero key ∧ ∀ place, ¬log.WritesAt place key 0 := by
  rw [Recorded.mem_openedKeys_iff hfresh, readsZero_loaded_iff, ← not_exists,
    log.exists_writesAt_iff]
  constructor
  · rintro ⟨hread, hwrite⟩
    exact ⟨Or.inl hread, hwrite⟩
  · rintro ⟨hread | hread, hwrite⟩
    · exact ⟨hread, hwrite⟩
    · exact absurd (BinaryLog.mem_write_of_zero_read hdecode hread) hwrite

/-- A value that is not zero, or a zero that is stored, has the writer that the log says. -/
theorem writerOf?_loaded_of_decode {key value : UInt64}
    (hvalue : value ≠ 0 ∨ ∃ place, log.WritesAt place key 0) (place : EventId) :
    (loaded log.sessions).writerOf? key value = some place ↔ log.WritesAt place key value := by
  rw [writerOf?_loaded_eq_some_iff hfresh]
  refine or_iff_left ?_
  rintro ⟨_, rfl, hkey⟩
  have hopened := (mem_openedKeys_iff_of_decode hdecode hfresh key).mp (List.mem_of_getElem? hkey)
  rcases hvalue with hvalue | ⟨other, hother⟩
  · exact hvalue rfl
  · exact hopened.2 other hother

end Loaded

/-- Loading a log that was accepted. The loader refuses it exactly if it has the same write at two places,
    and the error names such a write. Otherwise the events of the log stand in the history at their places;
    a read of a value that is not zero, or of a zero that the log stores, has for a writer the event of the
    log that stores the value, or none; a read of a zero that the log does not store has the init
    transaction for a writer; and the init transaction stores zero for just these. -/
theorem ofLog_attributes_reads (hdecode : BinaryLog.decode bytes = .ok log) :
    ((∃ error, ofLog bytes = .error error) ↔ ∃ key value first second, first ≠ second ∧
      log.WritesAt first key value ∧ log.WritesAt second key value) ∧
    (∀ error, ofLog bytes = .error error → ∃ key value first second,
      error = .history (.duplicateWrite key value first second) ∧ first ≠ second ∧
        log.WritesAt first key value ∧ log.WritesAt second key value) ∧
    ∀ h, ofLog bytes = .ok h →
      (∀ index height position, h.event? ⟨⟨index + 1, height⟩, position⟩ =
        (Recorded.eventAt? log.sessions ⟨⟨index + 1, height⟩, position⟩).map
          (loadedEvent ⟨index + 1, height⟩)) ∧
      (∀ place e, h.event? place = some e → e.isRead = true →
        ((e.value ≠ 0 ∨ ∃ write, log.WritesAt write e.key 0) → ∀ write,
          h.writerOf? e.key e.value = some write ↔ log.WritesAt write e.key e.value) ∧
        (e.value = 0 → (∀ write, ¬log.WritesAt write e.key 0) → ∃ write,
          h.writerOf? e.key e.value = some write ∧ write.transaction = .init)) ∧
      ∀ e, e ∈ h.init.events ↔ ∃ key, e = ⟨.init, .write, key, 0⟩ ∧ h.ReadsZero key ∧
        ∀ write, ¬log.WritesAt write key 0 := by
  refine ⟨⟨?_, ?_⟩, fun error herror => ofLog_eq_error hdecode herror, fun h hload => ?_⟩
  · rintro ⟨error, herror⟩
    rcases ofLog_eq_error hdecode herror with ⟨key, value, first, second, _, hrepeated⟩
    exact ⟨key, value, first, second, hrepeated⟩
  · rintro ⟨key, value, first, second, hne, hfirst, hsecond⟩
    cases hload : ofLog bytes with
    | error error => exact ⟨error, rfl⟩
    | ok h =>
      -- Both places would be the writer of the value.
      rcases (ofLog_eq_ok_iff hdecode h).mp hload with ⟨hfresh, _⟩
      have hwriter := fun place => (writerOf?_loaded_eq_some_iff hfresh key value place).mpr
      have hsame := (hwriter first (Or.inl hfirst)).symm.trans (hwriter second (Or.inl hsecond))
      exact absurd (Option.some.inj hsame) hne
  · rcases (ofLog_eq_ok_iff hdecode h).mp hload with ⟨hfresh, rfl⟩
    have hopened := mem_openedKeys_iff_of_decode hdecode hfresh
    refine ⟨event?_loaded log.sessions, fun place e he hread => ⟨fun hvalue write => ?_, ?_⟩,
      fun e => ?_⟩
    · exact writerOf?_loaded_of_decode hdecode hfresh hvalue write
    · intro hzero hnone
      have hkey := (hopened e.key).mpr ⟨⟨place, e, he, hread, rfl, hzero⟩, hnone⟩
      rcases List.mem_iff_getElem?.mp hkey with ⟨position, hposition⟩
      refine ⟨⟨.init, position⟩, ?_, rfl⟩
      exact (writerOf?_loaded_eq_some_iff hfresh _ _ _).mpr (Or.inr ⟨rfl, hzero, hposition⟩)
    · constructor
      · intro he
        rcases List.mem_map.mp he with ⟨key, hkey, rfl⟩
        exact ⟨key, rfl, (hopened key).mp hkey⟩
      · rintro ⟨key, rfl, hkey⟩
        exact List.mem_map.mpr ⟨key, (hopened key).mpr hkey, rfl⟩

/-- A log with a read of an initial value, a read of a zero that is stored, and a read of a value that
    nobody stores. -/
def mixedReads : BinaryLog :=
  ⟨⟨0, 2, 3, 2, 5, "", "", ""⟩,
    [[⟨[.read 2 (some 0), .read 1 none, .write 1 4], true⟩], [⟨[.write 2 0, .read 3 (some 7)], true⟩]]⟩

/-- A log that stores zero under the same key in two sessions. -/
def repeatedZero : BinaryLog :=
  ⟨⟨0, 2, 1, 2, 2, "", "", ""⟩, [[⟨[.write 1 0], true⟩], [⟨[.write 1 0], true⟩]]⟩

theorem ofLog_attributes_reads_mixed :
    BinaryLog.decode (BinaryLog.encode mixedReads) = .ok mixedReads ∧
      (∃ h, ofLog (BinaryLog.encode mixedReads) = .ok h ∧
        h.writerOf? 2 0 = some ⟨⟨2, 0⟩, 0⟩ ∧ (∀ write, h.writerOf? 3 7 ≠ some write) ∧
        ∃ write, h.writerOf? 1 0 = some write ∧ write.transaction = .init) ∧
      BinaryLog.decode (BinaryLog.encode repeatedZero) = .ok repeatedZero ∧
      ∃ error, ofLog (BinaryLog.encode repeatedZero) = .error error := by
  have hmixed : BinaryLog.decode (BinaryLog.encode mixedReads) = .ok mixedReads := by cbv
  have hrepeated : BinaryLog.decode (BinaryLog.encode repeatedZero) = .ok repeatedZero := by rfl
  refine ⟨hmixed, ?_, hrepeated, (ofLog_attributes_reads hrepeated).1.mpr
    ⟨1, 0, ⟨⟨1, 0⟩, 0⟩, ⟨⟨2, 0⟩, 0⟩, by decide, by rfl, by rfl⟩⟩
  have haccepted : ∃ h, ofLog (BinaryLog.encode mixedReads) = .ok h := by
    rw [ofLog_of_decode hmixed]
    exact ⟨_, rfl⟩
  rcases haccepted with ⟨h, hload⟩
  rcases (ofLog_attributes_reads hmixed).2.2 h hload with ⟨hplaces, hreads, _⟩
  refine ⟨h, hload, ?_, fun write hwriter => ?_, ?_⟩
  · exact ((hreads ⟨⟨1, 0⟩, 0⟩ _ (hplaces 0 0 0) rfl).1 (Or.inr ⟨⟨⟨2, 0⟩, 0⟩, by rfl⟩) _).mpr (by rfl)
  · have hwrite := ((hreads ⟨⟨2, 0⟩, 1⟩ _ (hplaces 1 0 1) rfl).1 (Or.inl (by decide)) write).mp hwriter
    have hmem := (mixedReads.exists_writesAt_iff 3 7).mp ⟨write, hwrite⟩
    exact absurd hmem (by decide)
  · refine (hreads ⟨⟨1, 0⟩, 1⟩ _ (hplaces 0 0 1) rfl).2 rfl fun write hwrite => ?_
    have hmem := (mixedReads.exists_writesAt_iff 1 0).mp ⟨write, hwrite⟩
    exact absurd hmem (by decide)

end History

end Isolation
