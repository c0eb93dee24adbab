import Isolation.Proofs.Audit.SessionOrder
import Isolation.Proofs.History.Recording
import Isolation.Proofs.Reduction.Equivalence
import Isolation.Reduction.Flatten

/-!
# What the Reduced Recording Decides

A recording is reduced in four steps: it is loaded, the history is split into halves, the halves are
recorded, and conflict keys and made-up values become ordinary ones. The last step forgets what kind of key
a key is and what kind of value a value is. It can be undone as far as anything depends on it: no key of the
recording looks like a conflict key, the values under one key are all of one kind, and the two values of a
conflict key differ, being an even number and the odd one behind it, also if they are cut to the size of a
word.

So the reduced recording can be loaded, every read in it has its value from where it has it in the halves,
and it has the verdict of the halves. That is almost that of the recording itself. A read
that follows an own write of its key is dropped when the transaction is split, and the halves know nothing
about it. If it has seen something else than the own write, the recording is not snapshot isolated, but the
reduced one may be serializable. With the dropped reads checked beside it, the reduction decides snapshot
isolation.

## Main definitions

* `Recorded.OwnReadsAgree`, `History.OwnReadsAgree`: Reads behind an own write of their key have seen it.

## Theorems

* `serializableForm_verdict`: What the verdict of the reduced recording says.
* `serializableForm_faithful`: The reduced recording is the reduced history under flat names.
* `serializableForm_accepts_overwritten`: It does not say everything.
-/

namespace Isolation

open Isolation.Sat

section OwnReads

variable {κ ν : Type}

/-- A read that follows a write of its key in the same transaction, with no other one in between, has seen
    what was written. -/
def Recorded.Transaction.OwnReadsAgree [Inhabited ν] (t : Recorded.Transaction κ ν) : Prop :=
  ∀ (i j : Nat) (key : κ) (stored : ν) (seen : Option ν), i < j →
    t.events[i]? = some (.write key stored) → t.events[j]? = some (.read key seen) →
    (∀ k other, i < k → k < j → t.events[k]? ≠ some (.write key other)) → stored = seen.getD default

/-- Reads that follow an own write of their key have seen it. -/
def Recorded.OwnReadsAgree [Inhabited ν] (sessions : List (Recorded.Session κ ν)) : Prop :=
  ∀ session ∈ sessions, ∀ t ∈ session, t.OwnReadsAgree

variable [DecidableEq κ]

/-- Reads that follow an own write of their key have seen it. -/
def History.OwnReadsAgree (h : History κ ν) : Prop :=
  ∀ t ∈ h.clientTransactions, ∀ index e, t.events[index]? = some e → e.isRead = true →
    ∀ stored, t.ownValue? e.key index = some stored → stored = e.value

open History (loaded loadedTransaction loadedEvent)

variable [Inhabited ν]

theorem writesKey_loadedEvent_iff (id : TransactionId) (a : Recorded.Event κ ν) (key : κ) :
    (loadedEvent id a).writesKey key = true ↔ ∃ stored, a = .write key stored := by
  rw [writesKey_iff]
  cases a with
  | read other seen => simp [loadedEvent, Event.isWrite]
  | write other stored => simp [loadedEvent, Event.isWrite]

theorem ownValue?_loadedTransaction_iff (id : TransactionId) (t : Recorded.Transaction κ ν) (key : κ)
    {j : Nat} (hj : j ≤ t.events.length) (stored : ν) :
    (loadedTransaction id t).ownValue? key j = some stored ↔
      ∃ i, i < j ∧ t.events[i]? = some (.write key stored) ∧
        ∀ k other, i < k → k < j → t.events[k]? ≠ some (.write key other) := by
  have hlength : (loadedTransaction id t).events.length = t.events.length := List.length_map ..
  have hget : ∀ i, (loadedTransaction id t).events[i]? = t.events[i]?.map (loadedEvent id) :=
    fun i => List.getElem?_map ..
  rw [Transaction.ownValue?_eq_bind_lastWriteBefore? _ _ _ (hlength ▸ hj), Option.bind_eq_some_iff]
  constructor
  · rintro ⟨i, hlast, hstored⟩
    rcases (Transaction.lastWriteBefore?_eq_some_iff _ _ _ i (hlength ▸ hj)).mp hlast with
      ⟨hlt, ⟨e, he, hwrites⟩, hafter⟩
    rw [he, Option.map_some, Option.some.injEq] at hstored
    rw [hget, Option.map_eq_some_iff] at he
    rcases he with ⟨a, ha, rfl⟩
    rcases (writesKey_loadedEvent_iff id a key).mp hwrites with ⟨value, rfl⟩
    refine ⟨i, hlt, by rw [ha, ← hstored]; rfl, fun k other hik hkj hk => ?_⟩
    -- A write in between would have been the last one.
    have hnot := hafter k _ hik hkj (by rw [hget, hk, Option.map_some])
    rw [(writesKey_loadedEvent_iff id _ key).mpr ⟨other, rfl⟩] at hnot
    exact absurd hnot.symm Bool.false_ne_true
  · rintro ⟨i, hlt, hi, hafter⟩
    have he : (loadedTransaction id t).events[i]? = some (loadedEvent id (.write key stored)) := by
      rw [hget, hi, Option.map_some]
    refine ⟨i, (Transaction.lastWriteBefore?_eq_some_iff _ _ _ i (hlength ▸ hj)).mpr
      ⟨hlt, ⟨_, he, (writesKey_loadedEvent_iff id _ key).mpr ⟨stored, rfl⟩⟩, ?_⟩, by rw [he]; rfl⟩
    intro k e hik hkj hk
    rw [hget, Option.map_eq_some_iff] at hk
    rcases hk with ⟨a, ha, rfl⟩
    rw [← Bool.not_eq_true, writesKey_loadedEvent_iff]
    rintro ⟨other, rfl⟩
    exact hafter k other hik hkj ha

theorem ownReadsAgree_loaded_iff [DecidableEq ν] (sessions : List (Recorded.Session κ ν)) :
    (loaded sessions).OwnReadsAgree ↔ Recorded.OwnReadsAgree sessions := by
  constructor
  · intro hagree session hsession t ht i j key stored seen hij hi hj hbetween
    rcases History.exists_loaded_mem_of_recorded hsession ht with ⟨id, hmem⟩
    have hle := Nat.le_of_lt (List.getElem?_eq_some_iff.mp hj).1
    have hown := (ownValue?_loadedTransaction_iff id t key hle stored).mpr ⟨i, hij, hi, hbetween⟩
    have hget : (loadedTransaction id t).events[j]? = some (loadedEvent id (.read key seen)) :=
      (List.getElem?_map ..).trans (by rw [hj, Option.map_some])
    exact hagree _ hmem j _ hget rfl stored hown
  · intro hagree u hu index e he hread stored hown
    rcases History.exists_recorded_of_mem_loaded hu with ⟨session, hsession, t, ht, id, rfl⟩
    rcases History.exists_recorded_read he hread with ⟨key, seen, ha, rfl⟩
    have hle := Nat.le_of_lt (List.getElem?_eq_some_iff.mp ha).1
    rcases (ownValue?_loadedTransaction_iff id t key hle stored).mp hown with ⟨i, hij, hi, hbetween⟩
    exact hagree session hsession t ht i index key stored seen hij hi ha hbetween

end OwnReads

section Halves

variable {κ ν : Type} [DecidableEq κ] {h : History κ ν} (hw : h.WellFormed)

include hw

/-- If the halves are explained one after the other, the history has no local faults but for reads that do
    not agree with an own write. -/
theorem consistent_of_reduced (hcommitted : ∀ t ∈ h.clientTransactions, t.committed = true)
    (hown : h.OwnReadsAgree) {s' : Schedule} (hs : s'.Explains h.reduced)
    (hserial : ∀ id, h.reduced.IsClient id → s'.start id = s'.commit id) : h.Consistent := by
  refine hw.consistent_of_clients hcommitted fun t ht index e he hread => ?_
  rcases hvalue : t.ownValue? e.key index with _ | stored
  · -- The read is one of the read half, and what it sees was left behind before that half.
    have hid := hw.isClient_of_mem ht
    have hm := Schedule.matches_joined hserial
    have hlast := ((Schedule.shows_halves_iff hw s').mp hs.reads).1 t ht index e he hread hvalue
    rw [hm.start_reading hid, ← hm.exists_lastWriter_plain_iff hw] at hlast
    rcases hlast with ⟨w, hlast, hfinal⟩
    refine .inr ⟨hvalue, w, hlast.mem, fun hsame => ?_, hfinal⟩
    have hbefore := hlast.before
    rw [hsame] at hbefore
    have hlt := hm.start_lt_commit hs hid
    omega
  · -- This is the read that the halves do not have.
    refine .inl ?_
    rw [hvalue, hown t ht index e he hread stored hvalue]

variable [DecidableEq ν] [Ord κ] {engine : Engine} (hsound : engine.Sound) (hrefuting : engine.Refuting)
  (hreliable : engine.Reliable)

include hsound hrefuting hreliable

/-- A history is snapshot isolated exactly if its halves are serializable and reads behind own writes have
    seen these. Nothing has to be validated before. -/
theorem exists_auditWith_reduced_iff {options options' : AuditOptions}
    (hlevel : options.level = .snapshotIsolation) (hlevel' : options'.level = .serializable) :
    (∃ w, h.auditWith engine options = .ok w) ↔
      h.OwnReadsAgree ∧ ∃ w, h.reduced.auditWith engine options' = .ok w := by
  have hw' := hw.built_reduced.wellFormed
  rw [exists_auditWith_iff_schedule hsound hrefuting hreliable hw,
    exists_auditWith_iff_schedule hsound hrefuting hreliable hw']
  constructor
  · rintro ⟨hcommitted, s, hs, _⟩
    have hcons := hs.consistent hw hcommitted
    refine ⟨fun t ht index e he hread stored hstored => ?_, committed_reduced hcommitted, ?_⟩
    · rcases hs.reads t ht index e he hread with hown | ⟨hnone, _⟩
      · rw [hown] at hstored
        exact (Option.some.inj hstored).symm
      · rw [hnone] at hstored
        cases hstored
    · -- What is explained needs no validation, so the equivalence of orders applies.
      have horder := (exists_commitOrder_reduced_iff hw hcons).mp ((exists_splitOrder_iff hw).mpr ⟨s, hs⟩)
      rcases (exists_commitOrder_iff hw').mp horder with ⟨s', hs', hserial⟩
      exact ⟨s', hs', fun _ => hserial⟩
  · rintro ⟨hown, hcommitted', s', hs', hserial⟩
    have hserial := hserial hlevel'
    have hcommitted : ∀ t ∈ h.clientTransactions, t.committed = true := fun t ht =>
      hcommitted' _ ((h.mem_clientTransactions_reduced_iff _).mpr ⟨t, ht, .reading, rfl⟩)
    have hcons := consistent_of_reduced hw hcommitted hown hs' hserial
    refine ⟨hcommitted, s'.joined, (Schedule.matches_joined hserial).explains hw hs' hcons, fun hc => ?_⟩
    rw [hlevel] at hc
    cases hc

end Halves

namespace History

/-- The events of the halves are those of the history and those that were made up. -/
theorem event_reduced_cases {κ ν : Type} [DecidableEq κ] {h : History κ ν}
    {e : Event (ReducedKey κ) (ReducedValue ν)} (he : e ∈ h.reduced.clientEvents) :
    (∃ a ∈ h.clientEvents, e.key = .plain a.key ∧ e.value = .plain a.value) ∨
      ∃ n side, e.key = .conflict n ∧ e.value = .generated (stamp side n) := by
  rcases List.mem_flatMap.mp he with ⟨u, hu, heu⟩
  rcases (h.mem_clientTransactions_reduced_iff u).mp hu with ⟨t, ht, side, rfl⟩
  rcases (h.mem_half_iff side t e).mp heu with ⟨f, hf, rfl, rfl⟩
  -- A half only has events that splitting its transaction gives.
  cases hkind : f.kind with
  | write =>
    rcases halfEvents_write_cases hf hkind with ⟨a, ha, _, heq⟩ | ⟨n, _, heq⟩
    · rw [heq]
      exact .inl ⟨a, mem_clientEvents ht ha, rfl, rfl⟩
    · rw [heq]
      exact .inr ⟨n, _, rfl, rfl⟩
  | read =>
    rcases halfEvents_read_cases hf hkind with ⟨index, a, ha, _, _, heq⟩ | ⟨n, _, heq⟩
    · rw [heq]
      exact .inl ⟨a, mem_clientEvents ht (List.mem_of_getElem? ha), rfl, rfl⟩
    · rw [heq]
      exact .inr ⟨n, .reading, rfl, rfl⟩

end History

namespace Recorded

open History (loaded renamedRecording Recordable)

theorem isReserved_append (text : String) : isReserved ("_c" ++ text) = true := by
  simp [isReserved, String.toList_append]

/-- Names of keys tell keys apart, if no key of the recording looks like a conflict key. -/
theorem plain_reducedKey_inj {a b : ReducedKey String}
    (ha : ∀ key, a = .plain key → isReserved key = false)
    (hb : ∀ key, b = .plain key → isReserved key = false) (heq : Render.plain a = Render.plain b) :
    a = b := by
  cases a with
  | plain key =>
    cases b with
    | plain other => exact congrArg ReducedKey.plain heq
    | conflict n =>
      -- The name of a conflict key is reserved, and that of the other one is not.
      have hreserved := ha key rfl
      rw [show key = "_c" ++ Nat.repr n from heq, isReserved_append] at hreserved
      cases hreserved
  | conflict m =>
    cases b with
    | plain other =>
      have hreserved := hb other rfl
      rw [show other = "_c" ++ Nat.repr m from heq.symm, isReserved_append] at hreserved
      cases hreserved
    | conflict n =>
      -- Equal names have equal digits, and those can be read back.
      have htext := congrArg String.toList (show "_c" ++ Nat.repr m = "_c" ++ Nat.repr n from heq)
      rw [String.toList_append, String.toList_append, List.append_cancel_left_eq] at htext
      have hdigits : Nat.toDigits 10 m = Nat.toDigits 10 n := by
        simpa [Nat.repr] using htext
      rw [← Text.decimalValue_toDigits m, hdigits, Text.decimalValue_toDigits]

/-- The two values of a conflict key stay apart in a word, since one is even and the other odd. -/
theorem flatValue_stamp_inj {side side' : Half} {n : Nat}
    (heq : flatValue (.generated (History.stamp side n)) = flatValue (.generated (History.stamp side' n))) :
    History.stamp side n = History.stamp side' n := by
  -- The size of a word is even, so cutting a number to it keeps its parity.
  have hnat := congrArg UInt64.toNat heq
  simp only [flatValue, UInt64.toNat_ofNat'] at hnat
  cases side <;> cases side' <;> simp only [History.stamp, markerOf, overwriteOf] at hnat ⊢ <;> omega

theorem eq_default_of_initially {sessions : List (Session String UInt64)} {key : ReducedKey String}
    {value : ReducedValue UInt64} (hinit : (loaded sessions).reduced.Initially key value) :
    value = .plain default := by
  rcases hinit with ⟨a, ha, _, rfl⟩
  rcases List.mem_map.mp ha with ⟨origin, horigin, rfl⟩
  rcases List.mem_map.mp horigin with ⟨_, _, rfl⟩
  rfl

theorem recordable_reduced {sessions : List (Session String UInt64)}
    (hfresh : FreshWrites (events sessions)) (hkeys : ∀ key ∈ keys sessions, isReserved key = false) :
    Recordable Render.plain flatValue (loaded sessions).reduced where
  wellFormed := (History.built_loaded hfresh).wellFormed.built_reduced.wellFormed
  keys a ha b hb heq := by
    have hplain : ∀ e ∈ (loaded sessions).reduced.clientEvents, ∀ key, e.key = .plain key →
        isReserved key = false := by
      intro e he key hkey
      rcases History.event_reduced_cases he with ⟨origin, horigin, hsame, _⟩ | ⟨n, side, hsame, _⟩
      · rw [hsame] at hkey
        cases hkey
        exact hkeys _ (History.key_mem_keys horigin)
      · rw [hsame] at hkey
        cases hkey
    exact plain_reducedKey_inj (hplain a ha) (hplain b hb) heq
  values a ha b hb hkey heq := by
    -- Events of the two kinds never share a key.
    rcases History.event_reduced_cases ha with ⟨x, _, hakey, havalue⟩ | ⟨n, side, hakey, havalue⟩
    · rcases History.event_reduced_cases hb with ⟨y, _, _, hbvalue⟩ | ⟨m, side', hbkey, _⟩
      · rw [havalue, hbvalue] at heq ⊢
        exact congrArg ReducedValue.plain heq
      · rw [hakey, hbkey] at hkey
        cases hkey
    · rcases History.event_reduced_cases hb with ⟨y, _, hbkey, _⟩ | ⟨m, side', hbkey, hbvalue⟩
      · rw [hakey, hbkey] at hkey
        cases hkey
      · rw [hakey, hbkey, ReducedKey.conflict.injEq] at hkey
        rw [havalue, hbvalue, ← hkey] at heq ⊢
        exact congrArg ReducedValue.generated (flatValue_stamp_inj heq)
  single key value value' hvalue hvalue' :=
    (eq_default_of_initially hvalue).trans (eq_default_of_initially hvalue').symm
  initial key value hvalue := by
    rw [eq_default_of_initially hvalue]
    rfl

/-- A recording can be reduced if none of its keys looks like a conflict key and it can be loaded. -/
theorem serializableForm_eq_ok_iff (sessions form : List (Session String UInt64)) :
    serializableForm sessions = .ok form ↔
      (∀ key ∈ keys sessions, isReserved key = false) ∧ FreshWrites (events sessions) ∧
        form = renamedRecording Render.plain flatValue (loaded sessions).reduced := by
  unfold serializableForm
  rcases hfind : (keys sessions).find? isReserved with _ | key
  · have hkeys : ∀ key ∈ keys sessions, isReserved key = false := fun key hkey => by
      simpa using List.find?_eq_none.mp hfind key hkey
    rw [and_iff_right hkeys]
    by_cases hfresh : FreshWrites (events sessions)
    · have hreduce := (History.built_loaded hfresh).wellFormed.reduce_eq_ok
      simp only [(History.load_decides sessions).ok hfresh, hreduce, Except.ok.injEq, and_iff_right hfresh]
      exact eq_comm
    · rcases (History.load_decides sessions).error hfresh with ⟨fault, hfault⟩
      simp only [hfault, reduceCtorEq, hfresh, false_and]
  · -- The first key that is found is reserved, and nothing is loaded.
    have hreserved := List.find?_some hfind
    refine iff_of_false (by simp) ?_
    rintro ⟨hkeys, _⟩
    rw [hkeys key (List.mem_of_find?_eq_some hfind)] at hreserved
    cases hreserved

section Verdict

variable {engine : Engine} (hsound : engine.Sound) (hrefuting : engine.Refuting)
  (hreliable : engine.Reliable) {sessions form : List (Session String UInt64)}
  (hform : serializableForm sessions = .ok form)

include hsound hrefuting hreliable hform

theorem exists_checkWith_serializableForm_iff :
    (∃ w, checkWith engine form .serializable = .ok w) ↔
      ∃ w, (loaded sessions).reduced.auditWith engine { level := .serializable } = .ok w := by
  rcases (serializableForm_eq_ok_iff sessions form).mp hform with ⟨hkeys, hfresh, rfl⟩
  have hr := recordable_reduced hfresh hkeys
  rw [exists_checkWith_iff, and_iff_right hr.freshWrites]
  exact hr.renames_loaded.exists_auditWith_iff hsound hrefuting hreliable hr.wellFormed
    (History.built_loaded hr.freshWrites).wellFormed _

/-- A recording is snapshot isolated exactly if the reduced one is serializable and reads behind own writes
    have seen these. -/
theorem exists_checkWith_iff_serializableForm :
    (∃ w, checkWith engine sessions .snapshotIsolation = .ok w) ↔
      OwnReadsAgree sessions ∧ ∃ w, checkWith engine form .serializable = .ok w := by
  have hfresh := ((serializableForm_eq_ok_iff sessions form).mp hform).2.1
  have hw := (History.built_loaded hfresh).wellFormed
  rw [exists_checkWith_iff, and_iff_right hfresh,
    exists_checkWith_serializableForm_iff hsound hrefuting hreliable hform, ← ownReadsAgree_loaded_iff]
  exact exists_auditWith_reduced_iff hw hsound hrefuting hreliable rfl rfl

end Verdict

/-- What the verdict on the reduced recording says: the recording is snapshot isolated exactly if the reduced
    one is serializable and reads behind own writes have seen these, whichever engine decides. -/
theorem serializableForm_verdict {sessions form : List (Session String UInt64)}
    (hform : serializableForm sessions = .ok form) :
    ((∃ w, check sessions .snapshotIsolation = .ok w) ↔
      OwnReadsAgree sessions ∧ ∃ w, check form .serializable = .ok w) ∧
    ∀ engine : Engine, engine.Sound → engine.Refuting → engine.Reliable →
      ((∃ w, checkWith engine sessions .snapshotIsolation = .ok w) ↔
        OwnReadsAgree sessions ∧ ∃ w, checkWith engine form .serializable = .ok w) :=
  forall_engines id fun _ hsound hrefuting hreliable =>
    exists_checkWith_iff_serializableForm hsound hrefuting hreliable hform

/-- One session updates a key and reads it again, and another one updates it once more. -/
def repeatedUpdates : List (Session String UInt64) :=
  [[⟨[.read "x" none, .write "x" 1, .read "x" (some 1)], true⟩],
    [⟨[.read "x" (some 1), .write "x" 2], true⟩]]

/-- The halves of the two updates, with a conflict key for each of them. -/
def repeatedUpdatesForm : List (Session String UInt64) :=
  [[⟨[.read "x" none, .write "_c0" 0], true⟩,
      ⟨[.write "x" 1, .read "_c0" (some 0), .write "_c1" 3], true⟩],
    [⟨[.read "x" (some 1), .write "_c1" 2], true⟩,
      ⟨[.write "x" 2, .read "_c1" (some 2), .write "_c0" 1], true⟩]]

theorem serializableForm_verdict_repeatedUpdates :
    serializableForm repeatedUpdates = .ok repeatedUpdatesForm ∧
      (∃ w, check repeatedUpdates .snapshotIsolation = .ok w) ∧ OwnReadsAgree repeatedUpdates ∧
      ∃ w, check repeatedUpdatesForm .serializable = .ok w := by
  have hform : serializableForm repeatedUpdates = .ok repeatedUpdatesForm := by rfl
  have haccepts : ∃ w, check repeatedUpdates .snapshotIsolation = .ok w :=
    exists_ok_iff_isSome.mpr (by decide +kernel)
  exact ⟨hform, haccepts, (serializableForm_verdict hform).1.mp haccepts⟩

/-- Flattening is faithful. The reduced recording can be loaded, and the result is the reduced history under
    flat names: what stands at a place there stands at the same place here, and every read has its value
    from the same transaction, from the init transaction, or from nobody. So the two have the same verdict,
    with whatever options the reduced history is audited and whichever engine decides. -/
theorem serializableForm_faithful {sessions form : List (Session String UInt64)}
    (hform : serializableForm sessions = .ok form) :
    ∃ h r h', History.load sessions = .ok h ∧ h.reduce = .ok r ∧ History.load form = .ok h' ∧
      (∀ id : TransactionId, id.isInit = false → h'.transaction? id =
        (r.transaction? id).map (Transaction.renamed Render.plain (fun _ => flatValue) id.session)) ∧
      (∀ place, h'.sourceOf? place = r.sourceOf? place) ∧
      ∀ options : AuditOptions, options.level = .serializable →
        ((∃ w, check form .serializable = .ok w) ↔ ∃ w, r.audit options = .ok w) ∧
        ∀ engine : Engine, engine.Sound → engine.Refuting → engine.Reliable →
          ((∃ w, checkWith engine form .serializable = .ok w) ↔
            ∃ w, r.auditWith engine options = .ok w) := by
  have hverdict := fun {engine : Engine} (hsound : engine.Sound) hrefuting hreliable =>
    exists_checkWith_serializableForm_iff hsound hrefuting hreliable hform
  rcases (serializableForm_eq_ok_iff sessions form).mp hform with ⟨hkeys, hfresh, rfl⟩
  have hr := recordable_reduced hfresh hkeys
  refine ⟨loaded sessions, (loaded sessions).reduced, loaded _, (History.load_decides _).ok hfresh,
    (History.built_loaded hfresh).wellFormed.reduce_eq_ok, (History.load_decides _).ok hr.freshWrites,
    hr.renames_loaded.client, hr.sourceOf?_loaded, fun options hlevel =>
    forall_engines id fun engine hsound hrefuting hreliable =>
      (hverdict hsound hrefuting hreliable).trans ?_⟩
  -- The options that an audit is done with do not matter, as long as the level is the same.
  have hschedule := exists_auditWith_iff_schedule hsound hrefuting hreliable hr.wellFormed
  have hother := hschedule options
  rw [hlevel] at hother
  exact (hschedule _).trans hother.symm

/-- In the reduced recording, the first session still reads the initial value, and the second one what the
    write half of the first one stores. -/
theorem serializableForm_faithful_repeatedUpdates :
    serializableForm repeatedUpdates = .ok repeatedUpdatesForm ∧
    ∃ h r h', History.load repeatedUpdates = .ok h ∧ h.reduce = .ok r ∧
      History.load repeatedUpdatesForm = .ok h' ∧
      (h'.sourceOf? ⟨⟨1, 0⟩, 0⟩ = some (some .init) ∧ r.sourceOf? ⟨⟨1, 0⟩, 0⟩ = some (some .init)) ∧
      (h'.sourceOf? ⟨⟨2, 0⟩, 0⟩ = some (some ⟨1, 1⟩) ∧ r.sourceOf? ⟨⟨2, 0⟩, 0⟩ = some (some ⟨1, 1⟩)) ∧
      ∃ w, r.audit { level := .serializable, pruning := .preprocessOnly } = .ok w := by
  have hform : serializableForm repeatedUpdates = .ok repeatedUpdatesForm := by rfl
  rcases serializableForm_faithful hform with ⟨h, r, h', hload, hreduce, hload', _, hsources, hverdict⟩
  have hloaded := (History.load_eq_ok_iff.mp hload').2
  have hinitial : h'.sourceOf? ⟨⟨1, 0⟩, 0⟩ = some (some .init) := by
    rw [hloaded]
    decide +kernel
  have hwritten : h'.sourceOf? ⟨⟨2, 0⟩, 0⟩ = some (some ⟨1, 1⟩) := by
    rw [hloaded]
    decide +kernel
  refine ⟨hform, h, r, h', hload, hreduce, hload', ⟨hinitial, (hsources _).symm.trans hinitial⟩,
    ⟨hwritten, (hsources _).symm.trans hwritten⟩, (hverdict _ rfl).1.mp ?_⟩
  exact exists_ok_iff_isSome.mpr (by decide +kernel)

/-- A transaction that finds the default value where it has written something else. -/
def overwritten : List (Session String UInt64) :=
  [[⟨[.write "x" 1, .read "x" none], true⟩]]

/-- The verdict on the reduced recording alone does not decide snapshot isolation: the read that shows the
    fault is dropped, and what is left is serializable. -/
theorem serializableForm_accepts_overwritten :
    serializableForm overwritten = .ok [[⟨[], true⟩, ⟨[.write "x" 1], true⟩]] ∧
      (¬∃ w, check overwritten .snapshotIsolation = .ok w) ∧
      ∃ w, check ([[⟨[], true⟩, ⟨[.write "x" 1], true⟩]] : List (Session String UInt64)) .serializable =
        .ok w := by
  refine ⟨rfl, ?_, exists_ok_iff_isSome.mpr (by decide +kernel)⟩
  rw [exists_ok_iff_isSome]
  decide +kernel

end Recorded

end Isolation
