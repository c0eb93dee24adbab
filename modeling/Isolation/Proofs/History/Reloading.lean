import Isolation.Proofs.History.Recorder
import Isolation.Proofs.History.Recording

/-!
# Loading What Was Written Down

Two ways lead from a history to recorded sessions, and loading leads back. The two ways differ in what they
do about initial values, so different things are lost.

`recording` leaves the init transaction out. A read of an initial value leaves its value open, and loading
calls for the value when it meets such a read. A history that was itself loaded has no other initial values
than those that are read, and they are all the default value, so all of them are called for again. What is
lost is the order in which this happens: a read that named the default value now leaves it open, and may be
the first one to call for it.

`toSessions` makes the init transaction an ordinary one, in a session in front of the others. Nothing is left
open then, so loading calls for nothing, and the sessions come back with their numbers shifted.

## Main definitions

* `Transaction.inSession`, `Session.renumbered`: A transaction and a session under another number.

## Theorems

* `load_recording_inverse`: Loading, recording and loading again.
* `load_toSessions_stable`: Writing everything down and loading it.
-/

namespace Isolation

open Isolation.Recorded (FreshWrites openedKeys)

variable {κ ν : Type} {h : History κ ν}

/-- The same transaction at the same place of the session with another number. -/
def Transaction.inSession (number : Nat) (t : Transaction κ ν) : Transaction κ ν where
  id := ⟨number, t.id.height⟩
  events := t.events.map fun e => { e with transaction := ⟨number, t.id.height⟩ }
  committed := t.committed

/-- The same session with another number. -/
def Session.renumbered (number : Nat) (s : Session κ ν) : Session κ ν :=
  ⟨number, s.transactions.map (Transaction.inSession number)⟩

/-- A transaction whose events carry its identifier stays itself in its own session. -/
theorem Transaction.inSession_self {t : Transaction κ ν} (hsigned : ∀ e ∈ t.events, e.transaction = t.id) :
    t.inSession t.id.session = t := by
  have hevents : t.events.map (fun e => { e with transaction := t.id }) = t.events := by
    refine (List.map_congr_left fun e he => ?_).trans (List.map_id t.events)
    rw [← hsigned e he]
    rfl
  calc t.inSession t.id.session
      = ⟨t.id, t.events.map fun e => { e with transaction := t.id }, t.committed⟩ := rfl
    _ = t := by rw [hevents]

/-- An open read calls for a key once only. -/
theorem Recorded.nodup_openedKeys [DecidableEq κ] [DecidableEq ν] [Inhabited ν]
    (events : List (Recorded.Event κ ν)) : (openedKeys events).Nodup := by
  induction events using List.reverseRecOn with
  | nil => exact List.nodup_nil
  | append_singleton events e ih =>
    rw [openedKeys_concat, List.nodup_append']
    refine ⟨ih, ?_, fun key hkey hagain => ?_⟩
    · unfold opened
      split
      · split
        · exact List.nodup_nil
        · exact List.nodup_singleton _
      · exact List.nodup_nil
    · -- The read that called for the key before has supplied the value.
      have hnone := ((mem_opened_iff events e key).mp hagain).2 _ (mem_of_mem_openedKeys hkey)
      rw [(Event.supplies_iff _ _ _).mpr (.inr ⟨rfl, rfl⟩)] at hnone
      exact Bool.false_ne_true hnone.symm

namespace History

section Sessions

variable {h : History κ ν} (hw : h.WellFormed)

include hw

/-- Every session keeps its transactions, if a transaction is kept by recording and loading it. -/
theorem WellFormed.mapIdx_loadedSession [Inhabited ν] {record : Transaction κ ν → Recorded.Transaction κ ν}
    (hrecord : ∀ t ∈ h.clientTransactions, ∀ number,
      loadedTransaction ⟨number, t.id.height⟩ (record t) = t.inSession number) (shift : Nat) :
    ((h.sessions.map fun s => s.transactions.map record).mapIdx fun index session =>
      loadedSession (index + 1 + shift) session) = h.sessions.map fun s => s.renumbered (s.id + shift) := by
  refine List.ext_getElem? fun index => ?_
  rw [List.getElem?_mapIdx, List.getElem?_map, List.getElem?_map]
  rcases hs : h.sessions[index]? with _ | s
  · rfl
  · have hid := hw.session_id index s hs
    have htransactions : ((s.transactions.map record).mapIdx fun height t =>
        loadedTransaction ⟨index + 1 + shift, height⟩ t) =
        s.transactions.map (Transaction.inSession (index + 1 + shift)) := by
      refine List.ext_getElem? fun height => ?_
      rw [List.getElem?_mapIdx, List.getElem?_map, List.getElem?_map]
      rcases ht : s.transactions[height]? with _ | t
      · rfl
      · -- The height is the one that the identifier gives.
        have hmem : t ∈ h.clientTransactions :=
          List.mem_flatMap.mpr ⟨s, List.mem_of_getElem? hs, List.mem_of_getElem? ht⟩
        have hkept := hrecord t hmem (index + 1 + shift)
        rw [hw.id_of_mem_session hs ht] at hkept
        exact congrArg some hkept
    simp only [Option.map_some, loadedSession, htransactions, Session.renumbered, hid]

/-- With events that carry the right identifiers, a session with its own number is the same session. -/
theorem WellFormed.renumbered_self (hsigned : h.Signed) :
    (h.sessions.map fun s => s.renumbered (s.id + 0)) = h.sessions := by
  refine (List.map_congr_left fun s hs => ?_).trans (List.map_id h.sessions)
  rcases List.mem_iff_getElem?.mp hs with ⟨index, hindex⟩
  have htransactions : s.transactions.map (Transaction.inSession s.id) = s.transactions := by
    refine (List.map_congr_left fun t ht => ?_).trans (List.map_id s.transactions)
    rcases List.mem_iff_getElem?.mp ht with ⟨height, hheight⟩
    have hmem : t ∈ h.clientTransactions := List.mem_flatMap.mpr ⟨s, hs, ht⟩
    have hself := Transaction.inSession_self
      (hsigned t.id t (hw.lookup_id (mem_transactions_of_client hmem)))
    rw [hw.id_of_mem_session hindex hheight] at hself
    rw [hw.session_id index s hindex]
    exact hself
  rw [Nat.add_zero, Session.renumbered, htransactions]
  rfl

end Sessions

section Recordings

variable [DecidableEq κ] [DecidableEq ν] [Inhabited ν]

theorem recordable_loaded {sessions : List (Recorded.Session κ ν)}
    (hfresh : FreshWrites (Recorded.events sessions)) : Recordable id id (loaded sessions) where
  wellFormed := (built_loaded hfresh).wellFormed
  keys _ _ _ _ hkey := hkey
  values _ _ _ _ _ hvalue := hvalue
  single key value value' hvalue hvalue' := by
    rw [((initially_loaded_iff sessions key value).mp hvalue).1,
      ((initially_loaded_iff sessions key value').mp hvalue').1]
  initial key value hvalue := ((initially_loaded_iff sessions key value).mp hvalue).1

omit [Inhabited ν] in
theorem renamedRecord_id (h : History κ ν) (e : Event κ ν) :
    renamedRecord id id h e = h.recordOpenEvent e := by
  unfold renamedRecord
  cases h.recordOpenEvent e with
  | read key value => exact congrArg (Recorded.Event.read key) (Option.map_id_apply)
  | write key value => rfl

omit [Inhabited ν] in
theorem renamedRecording_id (h : History κ ν) : renamedRecording id id h = h.recording := by
  unfold renamedRecording Recorded.mapEvents recording
  simp only [List.map_map, Recorded.Transaction.mapEvents, Function.comp_def]
  refine List.map_congr_left fun s _ => List.map_congr_left fun t _ => ?_
  refine congrArg (Recorded.Transaction.mk · t.committed) (List.map_congr_left fun e _ => ?_)
  exact h.renamedRecord_id e

namespace Recordable

variable {h : History κ ν} (hr : Recordable id id h)

include hr

theorem loadedTransaction_record (t : Transaction κ ν) (number : Nat) :
    loadedTransaction ⟨number, t.id.height⟩ ⟨t.events.map h.recordOpenEvent, t.committed⟩ =
      t.inSession number := by
  unfold loadedTransaction Transaction.inSession
  rw [List.map_map]
  refine congrArg (Transaction.mk _ · t.committed) (List.map_congr_left fun e _ => ?_)
  rw [Function.comp_apply, ← renamedRecord_id, hr.loadedEvent_record]
  rfl

theorem sessions_loaded_recording (hsigned : h.Signed) : (loaded h.recording).sessions = h.sessions := by
  have hrecord : ∀ t ∈ h.clientTransactions, ∀ number, loadedTransaction ⟨number, t.id.height⟩
      ⟨t.events.map h.recordOpenEvent, t.committed⟩ = t.inSession number :=
    fun t _ => hr.loadedTransaction_record t
  exact (hr.wellFormed.mapIdx_loadedSession hrecord 0).trans (hr.wellFormed.renumbered_self hsigned)

end Recordable

omit [Inhabited ν] in
/-- Histories with the same sessions and the same initial values have the same writers. -/
theorem WellFormed.writingTransaction?_congr {h h' : History κ ν} (hw : h.WellFormed)
    (hw' : h'.WellFormed) (hsessions : h'.sessions = h.sessions)
    (hinit : ∀ key value, h'.Initially key value ↔ h.Initially key value) (e : Event κ ν) :
    h'.writingTransaction? e = h.writingTransaction? e := by
  refine Option.ext fun id => ?_
  have hclient : h'.clientTransactions = h.clientTransactions := by
    rw [clientTransactions, hsessions, clientTransactions]
  rw [hw'.writingTransaction?_eq_some_iff, hw.writingTransaction?_eq_some_iff, hinit, hclient]

omit [Inhabited ν] in
theorem recording_congr {h h' : History κ ν} (hsessions : h'.sessions = h.sessions)
    (hwriting : ∀ e, h'.writingTransaction? e = h.writingTransaction? e) :
    h'.recording = h.recording := by
  have hevent : h'.recordOpenEvent = h.recordOpenEvent := by
    funext e
    have hinit : ∀ r : History κ ν, ((r.writerOf? e.key e.value).any fun write =>
        write.transaction.isInit) = (r.writingTransaction? e).any TransactionId.isInit := by
      intro r
      rw [writingTransaction?, Option.any_map]
    unfold recordOpenEvent
    rw [hinit, hinit, hwriting]
  rw [recording, hsessions, hevent, recording]

section Loaded

variable {sessions : List (Recorded.Session κ ν)} (hfresh : FreshWrites (Recorded.events sessions))

include hfresh

/-- The keys that are called for when a recording is loaded are called for again. -/
theorem mem_openedKeys_recording_iff (key : κ) :
    key ∈ openedKeys (Recorded.events (loaded sessions).recording) ↔
      key ∈ openedKeys (Recorded.events sessions) := by
  have hr := recordable_loaded hfresh
  constructor
  · intro hkey
    -- Whoever calls for the key reads an initial value.
    have hread := Recorded.mem_of_mem_openedKeys hkey
    rw [← renamedRecording_id, events_renamedRecording, List.mem_map] at hread
    rcases hread with ⟨e, _, hrecord⟩
    rcases hr.read_of_record_eq hrecord with ⟨rfl, hinit⟩
    exact ((initially_loaded_iff sessions _ _).mp hinit).2
  · intro hkey
    -- The read that has called for the key reads its initial value.
    rcases (Recorded.mem_events_iff sessions _).mp (Recorded.mem_of_mem_openedKeys hkey) with
      ⟨session, hsession, t, ht, hread⟩
    rcases exists_loaded_mem_of_recorded hsession ht with ⟨id, hmem⟩
    have he := mem_clientEvents hmem (List.mem_map_of_mem hread)
    have hinit := (initially_loaded_iff sessions key default).mpr ⟨rfl, hkey⟩
    have hagain := (hr.initially_loaded_iff he rfl).mpr hinit
    rw [renamedRecording_id] at hagain
    exact ((initially_loaded_iff _ _ _).mp hagain).2

theorem perm_init_loaded_recording :
    (loaded (loaded sessions).recording).init.events.Perm (loaded sessions).init.events := by
  have hkeys : (openedKeys (Recorded.events (loaded sessions).recording)).Perm
      (openedKeys (Recorded.events sessions)) :=
    (List.perm_ext_iff_of_nodup (Recorded.nodup_openedKeys _) (Recorded.nodup_openedKeys _)).mpr
      (mem_openedKeys_recording_iff hfresh)
  exact hkeys.map _

end Loaded

/-- What is loaded can be recorded and loaded again. The sessions are the same, with their identifiers, events
    and commits, and so are the initial values, up to their order. Every value has the writer that it had, and
    the recording of the result is no other. -/
theorem load_recording_inverse {sessions : List (Recorded.Session κ ν)} {h : History κ ν}
    (hload : load sessions = .ok h) :
    ∃ h₂, load h.recording = .ok h₂ ∧ h₂.sessions = h.sessions ∧ h₂.init.events.Perm h.init.events ∧
      (∀ key value, (h₂.writerOf? key value).map EventId.transaction =
        (h.writerOf? key value).map EventId.transaction) ∧
      h₂.recording = h.recording := by
  rcases load_eq_ok_iff.mp hload with ⟨hfresh, rfl⟩
  have hr := recordable_loaded hfresh
  have hfresh₂ : FreshWrites (Recorded.events (loaded sessions).recording) := by
    rw [← renamedRecording_id]
    exact hr.freshWrites
  have hsessions := hr.sessions_loaded_recording (built_loaded hfresh).signed
  have hinit : ∀ key value, (loaded (loaded sessions).recording).Initially key value ↔
      (loaded sessions).Initially key value := by
    intro key value
    rw [initially_loaded_iff, initially_loaded_iff, mem_openedKeys_recording_iff hfresh]
  have hwriting := hr.wellFormed.writingTransaction?_congr (built_loaded hfresh₂).wellFormed hsessions hinit
  exact ⟨_, (load_decides _).ok hfresh₂, hsessions, perm_init_loaded_recording hfresh,
    fun key value => hwriting ⟨.init, .read, key, value⟩, recording_congr hsessions hwriting⟩

/-- The first key is read with the default value named before it is left open, and the default value of the third
    key is written before it is left open. -/
def defaultReads : List (Recorded.Session Nat Nat) :=
  [[⟨[.read 0 (some 0), .read 1 none, .read 0 none], true⟩],
    [⟨[.write 2 0], true⟩, ⟨[.read 2 none], false⟩]]

theorem load_recording_inverse_defaultReads :
    load defaultReads = .ok (loaded defaultReads) ∧
    (loaded defaultReads).recording = [[⟨[.read 0 none, .read 1 none, .read 0 none], true⟩],
      [⟨[.write 2 0], true⟩, ⟨[.read 2 (some 0)], false⟩]] ∧
    ∃ h₂, load (loaded defaultReads).recording = .ok h₂ ∧ h₂.sessions = (loaded defaultReads).sessions ∧
      h₂.recording = (loaded defaultReads).recording ∧
      h₂.init.events.map Event.key = [0, 1] ∧ (loaded defaultReads).init.events.map Event.key = [1, 0] := by
  have hload : load defaultReads = .ok (loaded defaultReads) := by decide +kernel
  rcases load_recording_inverse hload with ⟨h₂, hload₂, hsessions, _, _, hrecording⟩
  refine ⟨hload, by decide +kernel, h₂, hload₂, hsessions, hrecording, ?_, by decide +kernel⟩
  rw [(load_eq_ok_iff.mp hload₂).2]
  decide +kernel

end Recordings

section Exports

/-- The sessions with the init transaction as an ordinary one: it has committed, in a session in front of the
    others, which move up. Without initial values there is nothing to add. -/
def ordinarySessions (h : History κ ν) : List (Session κ ν) :=
  if h.init.events.isEmpty then h.sessions
  else ⟨1, [{ h.init.inSession 1 with committed := true }]⟩ ::
    h.sessions.map fun s => s.renumbered (s.id + 1)

theorem events_toSessions (h : History κ ν) : Recorded.events h.toSessions = h.events.map recordEvent := by
  have hclient : Recorded.events (h.sessions.map fun s => s.transactions.map recordTransaction) =
      (h.sessions.flatMap fun s => s.transactions.flatMap Transaction.events).map recordEvent := by
    unfold Recorded.events
    rw [← List.flatMap_def, List.flatMap_assoc, List.map_flatMap]
    refine List.flatMap_congr fun s _ => ?_
    rw [List.flatMap_map, List.map_flatMap]
    rfl
  have hevents : h.events = h.init.events ++
      h.sessions.flatMap fun s => s.transactions.flatMap Transaction.events := by
    rw [events, transactions, List.flatMap_cons, List.flatMap_assoc]
  rw [hevents, List.map_append, ← hclient, toSessions]
  split
  · next hempty =>
      rw [List.isEmpty_iff.mp hempty]
      rfl
  · have hfront : Recorded.events [[recordTransaction h.init]] = h.init.events.map recordEvent :=
      List.append_nil _
    rw [← hfront]
    exact Recorded.events_append [[recordTransaction h.init]] _

theorem WellFormed.pairwise_events (hw : h.WellFormed) :
    h.events.Pairwise fun a b =>
      a.isWrite = true → b.isWrite = true → a.key = b.key → a.value ≠ b.value := by
  have hevents : h.events = h.init.events ++ h.clientEvents := List.flatMap_cons
  rw [hevents, List.pairwise_append]
  refine ⟨?_, hw.pairwise_clientEvents, fun a ha b hb _ hwrite hkey hvalue => ?_⟩
  · have hwrites := hw.pairwise_writes List.mem_cons_self
    rw [List.filter_eq_self.mpr hw.init_writes] at hwrites
    exact hwrites.imp fun {a b} hab _ _ hkey hvalue => hab ⟨hkey, hvalue⟩
  · exact hw.not_initially_of_write hb hwrite ⟨a, ha, hkey, hvalue⟩

variable [DecidableEq κ] [DecidableEq ν] [Inhabited ν]

omit [DecidableEq κ] [DecidableEq ν] [Inhabited ν] in
theorem recordEvent_ne_open (e : Event κ ν) (key : κ) : recordEvent e ≠ .read key none := by
  unfold recordEvent
  cases e.kind with
  | read => simp [Recorded.Event.read.injEq]
  | write => simp

omit [DecidableEq κ] [DecidableEq ν] [Inhabited ν] in
theorem read_none_not_mem_toSessions (h : History κ ν) (key : κ) :
    .read key none ∉ Recorded.events h.toSessions := by
  rw [events_toSessions, List.mem_map]
  rintro ⟨e, _, hopen⟩
  exact recordEvent_ne_open e key hopen

theorem WellFormed.freshWrites_toSessions (hw : h.WellFormed) :
    FreshWrites (Recorded.events h.toSessions) := by
  have hwrite : ∀ (e : Event κ ν) key value, recordEvent e = .write key value →
      e.isWrite = true ∧ e.key = key ∧ e.value = value := by
    intro e key value heq
    unfold recordEvent at heq
    cases hkind : e.kind with
    | read =>
      rw [hkind] at heq
      cases heq
    | write =>
      rw [hkind] at heq
      cases heq
      exact ⟨beq_iff_eq.mpr hkind, rfl, rfl⟩
  rw [events_toSessions, FreshWrites, List.pairwise_map]
  refine hw.pairwise_events.imp fun {a b} hab key value hb => ?_
  rw [← Bool.not_eq_true, Recorded.Event.supplies_iff]
  rintro (ha | ⟨ha, _⟩)
  · rcases hwrite a key value ha with ⟨hwa, rfl, rfl⟩
    rcases hwrite b _ _ hb with ⟨hwb, hkey, hvalue⟩
    exact hab hwa hwb hkey.symm hvalue.symm
  · exact recordEvent_ne_open a key ha

omit [DecidableEq κ] [DecidableEq ν] in
theorem loadedEvent_recordEvent (id : TransactionId) (e : Event κ ν) :
    loadedEvent id (recordEvent e) = { e with transaction := id } := by
  rcases e with ⟨owner, kind, key, value⟩
  cases kind with
  | read => rfl
  | write => rfl

omit [DecidableEq κ] [DecidableEq ν] in
theorem loadedTransaction_recordTransaction (t : Transaction κ ν) (number : Nat) :
    loadedTransaction ⟨number, t.id.height⟩ (recordTransaction t) =
      { t.inSession number with committed := t.id.isInit || t.committed } := by
  unfold loadedTransaction recordTransaction Transaction.inSession
  rw [List.map_map]
  refine congrArg (Transaction.mk _ · _) (List.map_congr_left fun e _ => ?_)
  exact loadedEvent_recordEvent _ e

/-- The init transaction is loaded as an ordinary one, and the others move up. -/
theorem WellFormed.sessions_loaded_toSessions (hw : h.WellFormed) (hsigned : h.Signed) :
    (loaded h.toSessions).sessions = h.ordinarySessions := by
  have hrecord : ∀ t ∈ h.clientTransactions, ∀ number,
      loadedTransaction ⟨number, t.id.height⟩ (recordTransaction t) = t.inSession number := by
    intro t ht number
    rw [loadedTransaction_recordTransaction, (hw.isClient_of_mem ht).1]
    rfl
  unfold ordinarySessions toSessions
  split
  · exact (hw.mapIdx_loadedSession hrecord 0).trans (hw.renumbered_self hsigned)
  · rw [loaded, List.mapIdx_cons, ← hw.mapIdx_loadedSession hrecord 1]
    refine congrArg (· :: _) ?_
    have hinit := loadedTransaction_recordTransaction h.init 1
    rw [hw.init_id] at hinit
    exact congrArg (fun t => Session.mk 1 [t]) hinit

omit [DecidableEq κ] [DecidableEq ν] in
theorem recordTransaction_loadedTransaction {t : Recorded.Transaction κ ν}
    (hclosed : ∀ key, .read key none ∉ t.events) (index height : Nat) :
    recordTransaction (loadedTransaction ⟨index + 1, height⟩ t) = t := by
  have hevents : t.events.map (recordEvent ∘ loadedEvent ⟨index + 1, height⟩) = t.events := by
    refine (List.map_congr_left fun e he => ?_).trans (List.map_id t.events)
    cases e with
    | write key value => rfl
    | read key value =>
      cases value with
      | some value => rfl
      | none => exact absurd he (hclosed key)
  calc recordTransaction (loadedTransaction ⟨index + 1, height⟩ t)
      = ⟨(t.events.map (loadedEvent ⟨index + 1, height⟩)).map recordEvent, t.committed⟩ := rfl
    _ = t := by rw [List.map_map, hevents]

section Closed

variable {sessions : List (Recorded.Session κ ν)}
  (hclosed : ∀ key, .read key none ∉ Recorded.events sessions)

include hclosed

theorem init_loaded_of_closed : (loaded sessions).init.events = [] := by
  have hempty : openedKeys (Recorded.events sessions) = [] :=
    List.eq_nil_iff_forall_not_mem.mpr fun key hkey => hclosed key (Recorded.mem_of_mem_openedKeys hkey)
  rw [loaded, hempty]
  rfl

theorem toSessions_loaded : (loaded sessions).toSessions = sessions := by
  rw [toSessions, init_loaded_of_closed hclosed, List.isEmpty_nil, if_pos rfl]
  refine List.ext_getElem? fun index => ?_
  rw [List.getElem?_map, loaded, List.getElem?_mapIdx, Option.map_map]
  rcases hsession : sessions[index]? with _ | session
  · rfl
  · refine congrArg some (List.ext_getElem? fun height => ?_)
    rw [Function.comp_apply, loadedSession, List.getElem?_map, List.getElem?_mapIdx, Option.map_map]
    rcases ht : session[height]? with _ | t
    · rfl
    · refine congrArg some (recordTransaction_loadedTransaction (fun key hread => ?_) index height)
      exact hclosed key ((Recorded.mem_events_iff sessions _).mpr
        ⟨session, List.mem_of_getElem? hsession, t, List.mem_of_getElem? ht, hread⟩)

end Closed

/-- What is written down with the init transaction in front can be loaded. Nothing is initial any more, the sessions
    are those of the history with the init transaction as an ordinary one, and they are written down as before. -/
theorem load_toSessions_stable {h : History κ ν} (hbuilt : h.Built) :
    ∃ h', load h.toSessions = .ok h' ∧ h'.init.events = [] ∧ h'.sessions = h.ordinarySessions ∧
      h'.toSessions = h.toSessions := by
  have hw := hbuilt.wellFormed
  have hclosed := h.read_none_not_mem_toSessions
  exact ⟨_, (load_decides _).ok hw.freshWrites_toSessions, init_loaded_of_closed hclosed,
    hw.sessions_loaded_toSessions hbuilt.signed, toSessions_loaded hclosed⟩

theorem load_toSessions_stable_writeSkew :
    (writeSkew.Built ∧ writeSkew.init.events ≠ []) ∧
    ∃ h', load writeSkew.toSessions = .ok h' ∧ h'.init.events = [] ∧
      h'.sessions = [
        ⟨1, [⟨⟨1, 0⟩, [⟨⟨1, 0⟩, .write, 0, 0⟩, ⟨⟨1, 0⟩, .write, 1, 0⟩], true⟩]⟩,
        ⟨2, [⟨⟨2, 0⟩, [⟨⟨2, 0⟩, .read, 0, 0⟩, ⟨⟨2, 0⟩, .read, 1, 0⟩, ⟨⟨2, 0⟩, .write, 0, 1⟩], true⟩]⟩,
        ⟨3, [⟨⟨3, 0⟩, [⟨⟨3, 0⟩, .read, 0, 0⟩, ⟨⟨3, 0⟩, .read, 1, 0⟩, ⟨⟨3, 0⟩, .write, 1, 1⟩], true⟩]⟩] ∧
      h'.toSessions = writeSkew.toSessions := by
  rcases load_toSessions_stable built_writeSkew with ⟨h', hload, hinit, hsessions, hagain⟩
  refine ⟨⟨built_writeSkew, by decide⟩, h', hload, hinit, ?_, hagain⟩
  rw [hsessions]
  decide

end Exports

end History

end Isolation
