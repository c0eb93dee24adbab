import Isolation.Proofs.History.Loading
import Isolation.Proofs.Witness.Renaming

/-!
# Recordings Under Other Names

A history can be recorded, its keys and values can be renamed in the recording, and the recording can be
loaded again. The init transaction is lost on the way: a read of an initial value leaves its value open,
and loading calls for the default value where it meets such a read. So the names may change, initial values
that nobody reads disappear, and the others have to be renamed to the default value.

`History.Recordable` says what is needed for this to lose nothing. Names are kept apart where the sessions
use them, each key has one initial value, and an initial value that is read is renamed to the default value.
Then the recording can be loaded, since no value of a session could be taken for another one or for an
initial value, and what is loaded is the history under its new names.

## Main definitions

* `History.Recordable`: When recording under other names loses nothing.

## Theorems

* `Recordable.sourceOf?_loaded`: Reads keep their sources.
-/

namespace Isolation.History

variable {κ ν κ' ν' : Type} {e : Event κ ν}

theorem WellFormed.pairwise_clientEvents {r : History κ ν} (hw : r.WellFormed) :
    r.clientEvents.Pairwise fun a b =>
      a.isWrite = true → b.isWrite = true → a.key = b.key → a.value ≠ b.value := by
  rw [clientEvents, List.pairwise_flatMap]
  constructor
  · intro t ht
    have hwrites := hw.pairwise_writes (mem_transactions_of_client ht)
    rw [List.pairwise_filter] at hwrites
    refine hwrites.imp fun {a b} hab ha hb hkey hvalue => ?_
    exact hab ha hb ⟨hkey, hvalue⟩
  · -- Two different transactions never write the same value.
    have hids := hw.nodup_clientIds
    rw [List.Nodup, List.pairwise_map] at hids
    refine hids.imp_of_mem fun {t u} ht hu hne a ha b hb hwa hwb hkey hvalue => hne ?_
    exact hw.id_eq_of_writes (mem_transactions_of_client ht) (mem_transactions_of_client hu) ha hb
      (beq_iff_eq.mp hwa) (beq_iff_eq.mp hwb) hkey hvalue

/-- The init transaction stores the value under the key. -/
def Initially (r : History κ ν) (key : κ) (value : ν) : Prop :=
  ∃ a ∈ r.init.events, a.key = key ∧ a.value = value

theorem WellFormed.not_initially_of_write {r : History κ ν} (hw : r.WellFormed)
    (he : e ∈ r.clientEvents) (hwrite : e.isWrite = true) : ¬r.Initially e.key e.value := by
  rintro ⟨a, ha, hkey, hvalue⟩
  rcases List.mem_flatMap.mp he with ⟨t, ht, hmem⟩
  have hid := hw.id_eq_of_writes List.mem_cons_self (mem_transactions_of_client ht) ha hmem
    (beq_iff_eq.mp (hw.init_writes a ha)) (beq_iff_eq.mp hwrite) hkey hvalue
  -- Both would be the same transaction, but the init transaction belongs to no session.
  have hclient := (hw.isClient_of_mem ht).1
  rw [← hid, hw.init_id] at hclient
  exact absurd hclient (by decide)

variable [DecidableEq κ] [DecidableEq ν]

/-- A read is recorded without its value if the init transaction stores it. -/
theorem WellFormed.initially_iff {r : History κ ν} (hw : r.WellFormed) (key : κ) (value : ν) :
    ((r.writerOf? key value).any fun write => write.transaction.isInit) = true ↔
      r.Initially key value := by
  constructor
  · intro hany
    rcases hwriter : r.writerOf? key value with _ | place
    · rw [hwriter] at hany
      cases hany
    · rw [hwriter] at hany
      rcases (hw.writerOf?_eq_some_iff key value place).mp hwriter with ⟨e, he, hwrites⟩
      rcases Option.bind_eq_some_iff.mp he with ⟨t, ht, hget⟩
      -- The writer stands in the init transaction, which has only one identifier.
      rw [r.eq_init_of_isInit hany ht, transaction?_init, Option.some.injEq] at ht
      rw [← ht] at hget
      exact ⟨e, List.mem_of_getElem? hget, ((writes_iff key value e).mp hwrites).2⟩
  · rintro ⟨a, ha, hkey, hvalue⟩
    rcases List.mem_iff_getElem?.mp ha with ⟨index, hget⟩
    have hwriter : r.writerOf? key value = some ⟨.init, index⟩ :=
      (hw.writerOf?_eq_some_iff key value _).mpr
        ⟨a, hget, (writes_iff key value a).mpr ⟨hw.init_writes a ha, hkey, hvalue⟩⟩
    rw [hwriter]
    rfl

section Loaded

variable [Inhabited ν]

theorem key_mem_keys {sessions : List (Recorded.Session κ ν)} (he : e ∈ (loaded sessions).clientEvents) :
    e.key ∈ Recorded.keys sessions := by
  rcases List.mem_flatMap.mp he with ⟨t, ht, het⟩
  rcases exists_recorded_of_mem_loaded ht with ⟨session, hsession, u, hu, id, rfl⟩
  rcases List.mem_map.mp het with ⟨a, ha, rfl⟩
  have hmem := (Recorded.mem_events_iff sessions a).mpr ⟨session, hsession, u, hu, ha⟩
  cases a with
  | read key seen => exact List.mem_map_of_mem hmem
  | write key stored => exact List.mem_map_of_mem hmem

/-- The initial values of a loaded history are the default values of the keys that were called for. -/
theorem initially_loaded_iff (sessions : List (Recorded.Session κ ν)) (key : κ) (value : ν) :
    (loaded sessions).Initially key value ↔
      value = default ∧ key ∈ Recorded.openedKeys (Recorded.events sessions) := by
  constructor
  · rintro ⟨a, ha, rfl, rfl⟩
    rcases List.mem_map.mp ha with ⟨key, hkey, rfl⟩
    exact ⟨rfl, hkey⟩
  · rintro ⟨rfl, hkey⟩
    exact ⟨_, List.mem_map_of_mem hkey, rfl, rfl⟩

end Loaded

/-- An event as it is recorded under other names. -/
def renamedRecord (f : κ → κ') (g : ν → ν') (r : History κ ν) (e : Event κ ν) : Recorded.Event κ' ν' :=
  ((r.recordOpenEvent e).mapKey f).mapValue g

/-- The recording of a history with keys and values renamed. -/
def renamedRecording (f : κ → κ') (g : ν → ν') (r : History κ ν) : List (Recorded.Session κ' ν') :=
  Recorded.mapEvents (fun e => (e.mapKey f).mapValue g) r.recording

section Records

variable {f : κ → κ'} {g : ν → ν'} {r : History κ ν}

/-- What is recorded for an event: a write, a read of an initial value, which is left open, or another
    read. -/
theorem renamedRecord_cases (hw : r.WellFormed) (e : Event κ ν) :
    (e.kind = .write ∧ renamedRecord f g r e = .write (f e.key) (g e.value)) ∨
    (e.kind = .read ∧ r.Initially e.key e.value ∧ renamedRecord f g r e = .read (f e.key) none) ∨
    (e.kind = .read ∧ ¬r.Initially e.key e.value ∧
      renamedRecord f g r e = .read (f e.key) (some (g e.value))) := by
  rw [← hw.initially_iff]
  cases hkind : e.kind with
  | write =>
    refine .inl ⟨rfl, ?_⟩
    simp only [renamedRecord, recordOpenEvent, hkind, Recorded.Event.mapKey, Recorded.Event.mapValue]
  | read =>
    by_cases hinit : ((r.writerOf? e.key e.value).any fun write => write.transaction.isInit) = true
    · refine .inr (.inl ⟨rfl, hinit, ?_⟩)
      simp only [renamedRecord, recordOpenEvent, hkind, hinit, if_true, Recorded.Event.mapKey,
        Recorded.Event.mapValue, Option.map_none]
    · refine .inr (.inr ⟨rfl, hinit, ?_⟩)
      simp only [renamedRecord, recordOpenEvent, hkind, hinit, if_false, Recorded.Event.mapKey,
        Recorded.Event.mapValue, Option.map_some, Bool.false_eq_true]

theorem events_renamedRecording (f : κ → κ') (g : ν → ν') (r : History κ ν) :
    Recorded.events (renamedRecording f g r) = r.clientEvents.map (renamedRecord f g r) := by
  unfold Recorded.events renamedRecording Recorded.mapEvents recording clientEvents clientTransactions
  rw [List.map_map, ← List.flatMap_def, List.flatMap_assoc, List.flatMap_assoc, List.map_flatMap]
  refine List.flatMap_congr fun session _ => ?_
  simp only [Function.comp_apply, List.flatMap_map, List.map_flatMap, Recorded.Transaction.mapEvents,
    List.map_map]
  rfl

theorem transaction?_loaded_renamedRecording [DecidableEq κ'] [DecidableEq ν'] [Inhabited ν']
    (f : κ → κ') (g : ν → ν') (r : History κ ν) (index height : Nat) :
    (loaded (renamedRecording f g r)).transaction? ⟨index + 1, height⟩ =
      (r.transaction? ⟨index + 1, height⟩).map fun t =>
        loadedTransaction ⟨index + 1, height⟩ ⟨t.events.map (renamedRecord f g r), t.committed⟩ := by
  rw [transaction?_loaded, transaction?_succ, renamedRecording, Recorded.mapEvents, recording,
    List.getElem?_map, List.getElem?_map]
  cases r.sessions[index]? with
  | none => rfl
  | some session =>
    simp only [Option.map_some, Option.bind_some, List.getElem?_map, Option.map_map]
    refine congrArg (fun change => Option.map change _) (funext fun t => ?_)
    simp only [Function.comp_apply, Recorded.Transaction.mapEvents, List.map_map]
    rfl

end Records

/-- Recording the history under these names loses nothing. -/
structure Recordable [Inhabited ν'] (f : κ → κ') (g : ν → ν') (r : History κ ν) : Prop where
  wellFormed : r.WellFormed
  keys : ∀ a ∈ r.clientEvents, ∀ b ∈ r.clientEvents, f a.key = f b.key → a.key = b.key
  values : ∀ a ∈ r.clientEvents, ∀ b ∈ r.clientEvents, a.key = b.key → g a.value = g b.value →
    a.value = b.value
  /-- A key has one initial value. -/
  single : ∀ key value value', r.Initially key value → r.Initially key value' → value = value'
  /-- An initial value is renamed to the default value. -/
  initial : ∀ key value, r.Initially key value → g value = default

namespace Recordable

variable [Inhabited ν'] {f : κ → κ'} {g : ν → ν'} {r : History κ ν} (hr : Recordable f g r)

include hr

theorem write_of_record_eq {key : κ'} {value : ν'} (heq : renamedRecord f g r e = .write key value) :
    e.isWrite = true ∧ f e.key = key ∧ g e.value = value := by
  rcases renamedRecord_cases hr.wellFormed (f := f) (g := g) e with
    ⟨hkind, hrecord⟩ | ⟨_, _, hrecord⟩ | ⟨_, _, hrecord⟩
  · rw [hrecord] at heq
    cases heq
    exact ⟨beq_iff_eq.mpr hkind, rfl, rfl⟩
  · rw [hrecord] at heq
    cases heq
  · rw [hrecord] at heq
    cases heq

theorem read_of_record_eq {key : κ'} (heq : renamedRecord f g r e = .read key none) :
    f e.key = key ∧ r.Initially e.key e.value := by
  rcases renamedRecord_cases hr.wellFormed (f := f) (g := g) e with
    ⟨_, hrecord⟩ | ⟨_, hinit, hrecord⟩ | ⟨_, _, hrecord⟩
  · rw [hrecord] at heq
    cases heq
  · rw [hrecord] at heq
    cases heq
    exact ⟨rfl, hinit⟩
  · rw [hrecord] at heq
    cases heq

theorem record_of_initially (hread : e.isRead = true) (hinit : r.Initially e.key e.value) :
    renamedRecord f g r e = .read (f e.key) none := by
  rcases renamedRecord_cases hr.wellFormed (f := f) (g := g) e with
    ⟨hkind, _⟩ | ⟨_, _, hrecord⟩ | ⟨_, hnot, _⟩
  · rw [beq_iff_eq.mp hread] at hkind
    cases hkind
  · exact hrecord
  · exact absurd hinit hnot

omit [DecidableEq κ] [DecidableEq ν] in
/-- A write never has the name of an initial value that is read. -/
theorem not_write_of_initially {a b : Event κ ν} (ha : a ∈ r.clientEvents) (hb : b ∈ r.clientEvents)
    (hinit : r.Initially a.key a.value) (hwrite : b.isWrite = true) (hkey : f b.key = f a.key) :
    g b.value ≠ default := by
  intro hvalue
  -- With the same names it would have the same key and the same value, so it would write what is stored
  -- initially.
  have hkey' := hr.keys b hb a ha hkey
  have hvalue' := hr.values b hb a ha hkey' (hvalue.trans (hr.initial _ _ hinit).symm)
  refine hr.wellFormed.not_initially_of_write hb hwrite ?_
  rw [hkey', hvalue']
  exact hinit

variable [DecidableEq κ'] [DecidableEq ν']

theorem freshWrites : Recorded.FreshWrites (Recorded.events (renamedRecording f g r)) := by
  rw [events_renamedRecording, Recorded.FreshWrites, List.pairwise_map]
  refine hr.wellFormed.pairwise_clientEvents.imp_of_mem fun {a b} ha hb hab key value hwrite => ?_
  rcases hr.write_of_record_eq hwrite with ⟨hwb, rfl, rfl⟩
  rw [← Bool.not_eq_true, Recorded.Event.supplies_iff]
  rintro (hrecord | ⟨hrecord, hdefault⟩)
  · -- Two writes with the same names would be two writes of one value.
    rcases hr.write_of_record_eq hrecord with ⟨hwa, hkey, hvalue⟩
    have hkey' := hr.keys a ha b hb hkey
    exact hab hwa hwb hkey' (hr.values a ha b hb hkey' hvalue)
  · -- A write behind an open read would be one of the initial value.
    rcases hr.read_of_record_eq hrecord with ⟨hkey, hinit⟩
    exact hr.not_write_of_initially ha hb hinit hwb hkey.symm hdefault

omit [DecidableEq κ'] [DecidableEq ν'] in
theorem loadedEvent_record (id : TransactionId) (e : Event κ ν) :
    loadedEvent id (renamedRecord f g r e) = e.renamed f (fun _ => g) id := by
  rcases renamedRecord_cases hr.wellFormed (f := f) (g := g) e with
    ⟨hkind, hrecord⟩ | ⟨hkind, hinit, hrecord⟩ | ⟨hkind, _, hrecord⟩
  · rw [hrecord]
    simp only [loadedEvent, Event.renamed, hkind]
  · rw [hrecord]
    simp only [loadedEvent, Event.renamed, hkind, Option.getD_none, hr.initial _ _ hinit]
  · rw [hrecord]
    simp only [loadedEvent, Event.renamed, hkind, Option.getD_some]

omit [DecidableEq ν] [DecidableEq κ'] [DecidableEq ν'] in
theorem finalValue?_init_eq_some_iff (key : κ) (value : ν) :
    r.init.finalValue? key = some value ↔ r.Initially key value := by
  have hstored : ∀ value, r.init.finalValue? key = some value → r.Initially key value := by
    intro value hfinal
    rcases (r.init.finalValue?_eq_some_iff key value).mp hfinal with ⟨index, a, ha, hwrites, hvalue, _⟩
    exact ⟨a, List.mem_of_getElem? ha, ((writesKey_iff key a).mp hwrites).2, hvalue⟩
  refine ⟨hstored value, fun hinit => ?_⟩
  rcases hinit with ⟨a, ha, hkey, hvalue⟩
  have hwrites : r.init.writesKey key = true :=
    List.any_eq_true.mpr ⟨a, ha, (writesKey_iff key a).mpr ⟨hr.wellFormed.init_writes a ha, hkey⟩⟩
  rcases (r.init.writesKey_eq_true_iff key).mp hwrites with ⟨last, hfinal⟩
  rw [hfinal, hr.single key last value (hstored last hfinal) ⟨a, ha, hkey, hvalue⟩]

theorem finalValue?_init_loaded_iff (he : e ∈ r.clientEvents) (hread : e.isRead = true) :
    (loaded (renamedRecording f g r)).init.finalValue? (f e.key) = some (g e.value) ↔
      r.init.finalValue? e.key = some e.value := by
  have hinit : (loaded (renamedRecording f g r)).init =
      defaultInit (Recorded.openedKeys (Recorded.events (renamedRecording f g r))) := rfl
  rw [hinit, finalValue?_defaultInit, Recorded.mem_openedKeys_iff hr.freshWrites,
    events_renamedRecording, hr.finalValue?_init_eq_some_iff]
  constructor
  · rintro ⟨hvalue, hopen, _⟩
    -- The key was called for by a read of its initial value, and the names of the two values are the same.
    rcases List.mem_map.mp hopen with ⟨a, ha, hrecord⟩
    rcases hr.read_of_record_eq hrecord with ⟨hkey, hstored⟩
    have hkey' := hr.keys a ha e he hkey
    have hvalue' := hr.values a ha e he hkey' ((hr.initial _ _ hstored).trans hvalue.symm)
    rw [hkey', hvalue'] at hstored
    exact hstored
  · intro hstored
    refine ⟨hr.initial _ _ hstored, List.mem_map.mpr ⟨e, he, hr.record_of_initially hread hstored⟩,
      fun hwritten => ?_⟩
    rcases List.mem_map.mp hwritten with ⟨b, hb, hrecord⟩
    rcases hr.write_of_record_eq hrecord with ⟨hwrite, hkey, hvalue⟩
    exact hr.not_write_of_initially he hb hstored hwrite hkey hvalue

/-- What is loaded is the history under its new names. -/
theorem renames_loaded :
    Renames (Equiv.refl Nat) f (fun _ => g) r (loaded (renamedRecording f g r)) where
  zero := rfl
  client := by
    rintro ⟨session, height⟩ hclient
    cases session with
    | zero => cases hclient
    | succ index =>
      have hlook := transaction?_loaded_renamedRecording f g r index height
      refine hlook.trans ?_
      rcases ht : r.transaction? ⟨index + 1, height⟩ with _ | t
      · rfl
      · have hid := hr.wellFormed.transaction_id _ t ht
        simp only [Option.map_some, loadedTransaction, Transaction.renamed, hid, List.map_map,
          Equiv.refl_apply]
        refine congrArg (fun events => some (Transaction.mk _ events _)) ?_
        exact List.map_congr_left fun e _ => hr.loadedEvent_record _ e
  keys := hr.keys
  values := fun a ha b hb => hr.values a ha b hb
  init := fun e he hread => hr.finalValue?_init_loaded_iff he hread

end Recordable

section Sources

/-- The transaction that stores the value of an event. -/
def writingTransaction? (h : History κ ν) (e : Event κ ν) : Option TransactionId :=
  (h.writerOf? e.key e.value).map EventId.transaction

/-- Whose write the read at a place has seen. There may be no read at the place, and there may be nobody who
    has written what it has seen. -/
def sourceOf? (h : History κ ν) (place : EventId) : Option (Option TransactionId) :=
  ((h.event? place).filter Event.isRead).map h.writingTransaction?

variable {h : History κ ν} (hw : h.WellFormed)

include hw

theorem WellFormed.writingTransaction?_eq_some_iff (e : Event κ ν) (id : TransactionId) :
    h.writingTransaction? e = some id ↔ (id = .init ∧ h.Initially e.key e.value) ∨
      ∃ t ∈ h.clientTransactions, t.id = id ∧
        ∃ a ∈ t.events, a.isWrite = true ∧ a.key = e.key ∧ a.value = e.value := by
  simp only [writingTransaction?, Option.map_eq_some_iff, hw.writerOf?_eq_some_iff, writes_iff]
  constructor
  · rintro ⟨⟨owner, index⟩, ⟨a, ha, hstores⟩, rfl⟩
    rw [event?_mk, Option.bind_eq_some_iff] at ha
    rcases ha with ⟨t, ht, hget⟩
    have hmem := List.mem_of_getElem? hget
    by_cases hinit : owner.isInit = true
    · have howner := h.eq_init_of_isInit hinit ht
      rw [howner, transaction?_init, Option.some.injEq] at ht
      exact .inl ⟨howner, a, ht ▸ hmem, hstores.2⟩
    · rw [Bool.not_eq_true] at hinit
      exact .inr ⟨t, mem_clientTransactions_of_lookup hinit ht, hw.transaction_id _ t ht, a, hmem, hstores⟩
  · rintro (⟨rfl, a, ha, hstores⟩ | ⟨t, ht, rfl, a, ha, hstores⟩)
    · rcases List.mem_iff_getElem?.mp ha with ⟨index, hget⟩
      exact ⟨⟨.init, index⟩, ⟨a, hget, hw.init_writes a ha, hstores⟩, rfl⟩
    · rcases List.mem_iff_getElem?.mp ha with ⟨index, hget⟩
      refine ⟨⟨t.id, index⟩, ⟨a, ?_, hstores⟩, rfl⟩
      rw [event?_mk, hw.lookup_id (mem_transactions_of_client ht), Option.bind_some, hget]

theorem WellFormed.sourceOf?_init (height index : Nat) : h.sourceOf? ⟨⟨0, height⟩, index⟩ = none := by
  rw [sourceOf?, Option.map_eq_none_iff, Option.filter_eq_none_iff]
  intro e he
  rw [event?_mk, Option.bind_eq_some_iff] at he
  rcases he with ⟨t, ht, hget⟩
  have hinit := h.eq_init_of_isInit rfl ht
  rw [hinit, transaction?_init, Option.some.injEq] at ht
  exact hw.not_isRead_init (ht ▸ List.mem_of_getElem? hget)

end Sources

namespace Recordable

variable [DecidableEq κ'] [DecidableEq ν'] [Inhabited ν'] {f : κ → κ'} {g : ν → ν'} {r : History κ ν}
  (hr : Recordable f g r)

include hr

theorem initially_loaded_iff (he : e ∈ r.clientEvents) (hread : e.isRead = true) :
    (loaded (renamedRecording f g r)).Initially (f e.key) (g e.value) ↔ r.Initially e.key e.value := by
  rw [← hr.finalValue?_init_eq_some_iff, ← hr.finalValue?_init_loaded_iff he hread]
  exact (History.initially_loaded_iff _ _ _).trans (finalValue?_defaultInit _ _ _).symm

theorem writingTransaction?_loaded (he : e ∈ r.clientEvents) (hread : e.isRead = true)
    (id : TransactionId) :
    (loaded (renamedRecording f g r)).writingTransaction? (e.renamed f (fun _ => g) id) =
      r.writingTransaction? e := by
  have hw' := (built_loaded hr.freshWrites).wellFormed
  refine Option.ext fun owner => ?_
  rw [hw'.writingTransaction?_eq_some_iff, hr.wellFormed.writingTransaction?_eq_some_iff]
  refine or_congr (and_congr_right fun _ => hr.initially_loaded_iff he hread) ?_
  constructor
  · rintro ⟨t', ht', rfl, a', ha', hwrite, hkey, hvalue⟩
    rcases (hr.renames_loaded.mem_clientTransactions_iff hr.wellFormed t').mp ht' with ⟨t, ht, rfl⟩
    rcases List.mem_map.mp ha' with ⟨a, ha, rfl⟩
    -- The names are those of events of the sessions, so they can be told apart.
    have hevent := mem_clientEvents ht ha
    have hkey' := hr.keys a hevent e he hkey
    exact ⟨t, ht, rfl, a, ha, hwrite, hkey', hr.values a hevent e he hkey' hvalue⟩
  · rintro ⟨t, ht, rfl, a, ha, hwrite, hkey, hvalue⟩
    refine ⟨_, (hr.renames_loaded.mem_clientTransactions_iff hr.wellFormed _).mpr ⟨t, ht, rfl⟩, rfl,
      a.renamed f (fun _ => g) t.id, List.mem_map_of_mem ha, hwrite, ?_, ?_⟩
    · exact congrArg f hkey
    · exact congrArg g hvalue

/-- Reads stand at the same places after loading, and have their values from the same transactions. -/
theorem sourceOf?_loaded (place : EventId) :
    (loaded (renamedRecording f g r)).sourceOf? place = r.sourceOf? place := by
  rcases place with ⟨⟨session, height⟩, index⟩
  cases session with
  | zero =>
    rw [(built_loaded hr.freshWrites).wellFormed.sourceOf?_init, hr.wellFormed.sourceOf?_init]
  | succ number =>
    have hlook : (loaded (renamedRecording f g r)).transaction? ⟨number + 1, height⟩ = _ :=
      hr.renames_loaded.client ⟨number + 1, height⟩ rfl
    rw [sourceOf?, sourceOf?, event?_mk, event?_mk, hlook]
    rcases ht : r.transaction? ⟨number + 1, height⟩ with _ | t
    · rfl
    · rw [Option.map_some, Option.bind_some, Option.bind_some, Transaction.getElem?_events_renamed]
      rcases he : t.events[index]? with _ | e
      · rfl
      · -- Renaming keeps the kind of an event.
        have hkind : ∀ id, (e.renamed f (fun _ => g) id).isRead = e.isRead := fun _ => rfl
        rw [Option.map_some, Option.filter_some, Option.filter_some, hkind]
        cases hread : e.isRead with
        | false => rfl
        | true =>
          have hmem := mem_clientEvents (mem_clientTransactions_of_lookup rfl ht)
            (List.mem_of_getElem? he)
          exact congrArg some (hr.writingTransaction?_loaded hmem hread _)

end Recordable

end Isolation.History
