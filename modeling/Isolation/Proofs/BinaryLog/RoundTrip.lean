import Isolation.Proofs.BinaryLog.Format

/-!
# Reading Binary Logs Back

Whatever is accepted as a log is what the writer makes of it, byte for byte. The other way round nearly the
same log comes back. The exception is forced by the format, which has no initial values: they are written
as zeros. The reader goes by the rest of the log. A read of zero saw a write if there is one that stores
zero under its key, and otherwise it saw the initial value.

## Main definitions

* `Storable`, `settled`: Logs that can be written, and logs whose zeros are told apart from initial
  values.

## Theorems

* `decode_encode_inverse`: Reading and writing undo each other up to zeros.
-/

namespace Isolation.BinaryLog

section Acceptance

/-- All transactions of a log succeeded, and so did all their events. -/
def Succeeded (sessions : List (List LoggedTransaction)) : Prop :=
  ∀ transactions ∈ sessions, ∀ t ∈ transactions,
    t.succeeded = true ∧ ∀ e ∈ t.events, e.succeeded = true

/-- The counts of a header are those of the sessions. -/
structure Counts (header : Header) (sessions : Sessions) : Prop where
  sessionCount : header.sessionCount.toNat = sessions.length
  transactionCount : header.transactionCount.toNat = countTransactions sessions
  eventCount : header.eventCount.toNat = countEvents sessions

/-- A search that does not depend on places finds nothing exactly if no element has what is searched. -/
theorem findSome?_zipIdx_eq_none_iff {α β : Type} {found? : α × Nat → Option β} {Fine : α → Prop}
    (hfound : ∀ x index, found? (x, index) = none ↔ Fine x) (xs : List α) :
    xs.zipIdx.findSome? found? = none ↔ ∀ x ∈ xs, Fine x := by
  rw [List.findSome?_eq_none_iff]
  constructor
  · intro hnone x hx
    obtain ⟨index, hindex⟩ := List.getElem?_of_mem hx
    have hmem : (x, index) ∈ xs.zipIdx := List.mem_zipIdx_iff_getElem?.2 hindex
    exact (hfound x index).1 (hnone _ hmem)
  · intro hfine entry hentry
    have hmem : entry.1 ∈ xs := List.mem_of_getElem? (List.mem_zipIdx_iff_getElem?.1 hentry)
    exact (hfound entry.1 entry.2).2 (hfine _ hmem)

theorem failedEvent?_eq_none_iff (session index : Nat) (t : LoggedTransaction) :
    failedEvent? session index t = none ↔ ∀ e ∈ t.events, e.succeeded = true := by
  unfold failedEvent?
  simp

theorem sessionFailure?_eq_none_iff (session : Nat) (transactions : List LoggedTransaction) :
    sessionFailure? session transactions = none ↔
      ∀ t ∈ transactions, t.succeeded = true ∧ ∀ e ∈ t.events, e.succeeded = true := by
  apply findSome?_zipIdx_eq_none_iff
  intro t index
  by_cases hsucceeded : t.succeeded = true
  · simp [hsucceeded, failedEvent?_eq_none_iff]
  · simp [hsucceeded]

theorem firstFailure?_eq_none_iff (sessions : List (List LoggedTransaction)) :
    firstFailure? sessions = none ↔ Succeeded sessions := by
  apply findSome?_zipIdx_eq_none_iff
  intro transactions session
  exact sessionFailure?_eq_none_iff session transactions

theorem countMismatch?_eq_none_iff (header : Header) (sessions : Sessions) :
    countMismatch? header sessions = none ↔ Counts header sessions := by
  unfold countMismatch?
  simp only [List.findSome?_eq_none_iff, List.forall_mem_cons, List.not_mem_nil, false_imp_iff,
    implies_true, and_true, ite_eq_left_iff, reduceCtorEq, imp_false, not_not]
  constructor
  · intro hcounts
    exact ⟨hcounts.1, hcounts.2.1, hcounts.2.2⟩
  · intro hcounts
    exact ⟨hcounts.sessionCount, hcounts.transactionCount, hcounts.eventCount⟩

theorem decode_eq_ok_iff (bytes : List UInt8) (log : BinaryLog) :
    decode bytes = .ok log ↔ ∃ logged, LogFits (log.header, logged) ∧
      bytes = logBytes (log.header, logged) ∧ Succeeded logged ∧
      log.sessions = recordedSessions logged ∧ Counts log.header log.sessions := by
  unfold decode
  constructor
  · intro hread
    split at hread
    · cases hread
    · rename_i header logged rest hlog
      obtain ⟨hfits, hbytes⟩ := (exact_takeLog _ _ _).1 hlog
      split_ifs at hread with hrest
      rw [Bool.not_eq_true, Bool.not_eq_false', List.isEmpty_iff] at hrest
      rw [hrest, List.append_nil] at hbytes
      -- Each of the two checks ends the reading unless it finds nothing.
      split at hread
      · cases hread
      · rename_i hfailure
        dsimp only at hread
        split at hread
        · cases hread
        · rename_i hmismatch
          cases hread
          exact ⟨logged, hfits, hbytes, (firstFailure?_eq_none_iff _).1 hfailure, rfl,
            (countMismatch?_eq_none_iff _ _).1 hmismatch⟩
  · intro hlog
    obtain ⟨logged, hfits, hbytes, hsucceeded, hsessions, hcounts⟩ := hlog
    have hread : takeLog bytes = .ok ((log.header, logged), []) :=
      (exact_takeLog _ _ _).2 ⟨hfits, by rw [hbytes, List.append_nil]⟩
    rw [← firstFailure?_eq_none_iff] at hsucceeded
    rw [← countMismatch?_eq_none_iff] at hcounts
    simp [hread, hsucceeded, ← hsessions, hcounts]

end Acceptance

section Zeros

/-- A read that saw zero or the initial value: zero if the log stores it under the key. -/
def settledRead (sessions : Sessions) (key : UInt64) : Recorded.Event UInt64 UInt64 :=
  if .write key 0 ∈ Recorded.events sessions then .read key (some 0) else .read key none

/-- An event of the sessions as it is read back. -/
def settledEvent (sessions : Sessions) : Recorded.Event UInt64 UInt64 → Recorded.Event UInt64 UInt64
  | .read key none => settledRead sessions key
  | .read key (some value) => if value = 0 then settledRead sessions key else .read key (some value)
  | .write key value => .write key value

/-- The log with every read of zero told apart from reads of initial values. -/
def settled (log : BinaryLog) : BinaryLog :=
  { log with sessions := Recorded.mapEvents (settledEvent log.sessions) log.sessions }

theorem loggedEvent_recordedEvent (zeroed : List UInt64) {e : LoggedEvent}
    (hsucceeded : e.succeeded = true) : loggedEvent (recordedEvent zeroed e) = e := by
  obtain ⟨isWrite, key, value, succeeded⟩ := e
  subst hsucceeded
  unfold recordedEvent
  cases isWrite with
  | true => rfl
  | false =>
    by_cases hzero : value = 0 ∧ key ∉ zeroed
    · simp [hzero, loggedEvent]
    · simp [hzero, loggedEvent]

theorem map_eq_self {α : Type} {f : α → α} {xs : List α} (hf : ∀ x ∈ xs, f x = x) :
    xs.map f = xs :=
  (List.map_congr_left hf).trans (List.map_id' xs)

theorem loggedSessions_recordedSessions {sessions : List (List LoggedTransaction)}
    (hsucceeded : Succeeded sessions) : loggedSessions (recordedSessions sessions) = sessions := by
  unfold loggedSessions recordedSessions
  rw [List.map_map]
  apply map_eq_self
  intro transactions htransactions
  rw [Function.comp_apply, List.map_map]
  apply map_eq_self
  intro t ht
  obtain ⟨hcommit, hevents⟩ := hsucceeded transactions htransactions t ht
  have hsame : (t.events.map (recordedEvent (zeroedKeys sessions))).map loggedEvent = t.events := by
    rw [List.map_map]
    apply map_eq_self
    intro e he
    exact loggedEvent_recordedEvent _ (hevents e he)
  simp only [Function.comp_apply, loggedTransaction, hsame, ← hcommit]

/-- The keys under which the written log stores zero are those of the recorded sessions. -/
theorem mem_zeroedKeys_iff (sessions : Sessions) (key : UInt64) :
    key ∈ zeroedKeys (loggedSessions sessions) ↔ .write key 0 ∈ Recorded.events sessions := by
  have hevents : ((loggedSessions sessions).flatten.flatMap LoggedTransaction.events) =
      (Recorded.events sessions).map loggedEvent := by
    unfold loggedSessions Recorded.events
    rw [← List.map_flatten, List.flatMap_map, List.map_flatMap]
    rfl
  rw [zeroedKeys, hevents, List.mem_filterMap]
  constructor
  · intro hmem
    obtain ⟨logged, hlogged, hkey⟩ := hmem
    obtain ⟨e, he, rfl⟩ := List.mem_map.1 hlogged
    cases e with
    | read key value => simp [loggedEvent] at hkey
    | write key value =>
      simp only [loggedEvent, Bool.true_and, beq_iff_eq, Option.ite_none_right_eq_some,
        Option.some.injEq] at hkey
      obtain ⟨rfl, rfl⟩ := hkey
      exact he
  · intro hmem
    exact ⟨_, List.mem_map_of_mem hmem, by simp [loggedEvent]⟩

/-- Both kinds of reads are settled by the value that is written for them. -/
theorem settledEvent_read (sessions : Sessions) (key : UInt64) (value : Option UInt64) :
    settledEvent sessions (.read key value) =
      if value.getD 0 = 0 then settledRead sessions key else .read key (some (value.getD 0)) := by
  cases value with
  | none => rfl
  | some value => rfl

theorem recordedEvent_loggedEvent (sessions : Sessions) (e : Recorded.Event UInt64 UInt64) :
    recordedEvent (zeroedKeys (loggedSessions sessions)) (loggedEvent e) =
      settledEvent sessions e := by
  have hzeroed := mem_zeroedKeys_iff sessions
  generalize zeroedKeys (loggedSessions sessions) = zeroed at hzeroed ⊢
  cases e with
  | write key value => rfl
  | read key value =>
    rw [settledEvent_read, loggedEvent, recordedEvent, settledRead]
    by_cases hzero : value.getD 0 = 0
    · by_cases hkey : key ∈ zeroed
      · simp [hzero, hkey, ← hzeroed]
      · simp [hzero, hkey, ← hzeroed]
    · simp [hzero]

/-- What was written is read with its zeros settled. -/
theorem recordedSessions_loggedSessions {sessions : Sessions}
    (hcommitted : ∀ session ∈ sessions, ∀ t ∈ session, t.committed = true) :
    recordedSessions (loggedSessions sessions) =
      Recorded.mapEvents (settledEvent sessions) sessions := by
  have hevent := recordedEvent_loggedEvent sessions
  unfold recordedSessions Recorded.mapEvents
  generalize zeroedKeys (loggedSessions sessions) = zeroed at hevent ⊢
  unfold loggedSessions
  simp only [List.map_map]
  apply List.map_congr_left
  intro session hsession
  simp only [Function.comp_apply, List.map_map]
  apply List.map_congr_left
  intro t ht
  simp [loggedTransaction, Recorded.Transaction.mapEvents, hcommitted session hsession t ht, hevent]

end Zeros

section Storable

/-- Logs that can be written so that they are accepted. -/
structure Storable (log : BinaryLog) : Prop where
  committed : ∀ session ∈ log.sessions, ∀ t ∈ session, t.committed = true
  counts : Counts log.header log.sessions
  texts : HeaderFits log.header

theorem succeeded_loggedSessions {sessions : Sessions}
    (hcommitted : ∀ session ∈ sessions, ∀ t ∈ session, t.committed = true) :
    Succeeded (loggedSessions sessions) := by
  unfold Succeeded loggedSessions
  simp only [List.forall_mem_map, loggedTransaction]
  intro session hsession t ht
  refine ⟨hcommitted session hsession t ht, ?_⟩
  intro e he
  cases e <;> rfl

theorem events_mapEvents (change : Recorded.Event UInt64 UInt64 → Recorded.Event UInt64 UInt64)
    (sessions : Sessions) :
    Recorded.events (Recorded.mapEvents change sessions) = (Recorded.events sessions).map change := by
  unfold Recorded.events Recorded.mapEvents
  rw [← List.map_flatten, List.flatMap_map, List.map_flatMap]
  rfl

theorem counts_mapEvents_iff (header : Header) (sessions : Sessions)
    (change : Recorded.Event UInt64 UInt64 → Recorded.Event UInt64 UInt64) :
    Counts header (Recorded.mapEvents change sessions) ↔ Counts header sessions := by
  have hsessions : (Recorded.mapEvents change sessions).length = sessions.length := by
    simp [Recorded.mapEvents]
  have htransactions :
      countTransactions (Recorded.mapEvents change sessions) = countTransactions sessions := by
    simp only [countTransactions, Recorded.mapEvents, ← List.map_flatten, List.length_map]
  have hevents : countEvents (Recorded.mapEvents change sessions) = countEvents sessions := by
    rw [countEvents, countEvents, events_mapEvents, List.length_map]
  constructor
  · intro hcounts
    exact ⟨hcounts.1.trans hsessions, hcounts.2.trans htransactions, hcounts.3.trans hevents⟩
  · intro hcounts
    exact ⟨hcounts.1.trans hsessions.symm, hcounts.2.trans htransactions.symm,
      hcounts.3.trans hevents.symm⟩

/-- Sessions that are counted fit the format, because the counts do. -/
theorem Counts.fits {header : Header} {sessions : Sessions} (hcounts : Counts header sessions) :
    ListFits (ListFits TransactionFits) (loggedSessions sessions) := by
  have hsessions : sessions.length < UInt64.size := by
    rw [← hcounts.sessionCount]
    exact UInt64.toNat_lt _
  have htransactions : countTransactions sessions < UInt64.size := by
    rw [← hcounts.transactionCount]
    exact UInt64.toNat_lt _
  have hevents : countEvents sessions < UInt64.size := by
    rw [← hcounts.eventCount]
    exact UInt64.toNat_lt _
  unfold ListFits TransactionFits ListFits loggedSessions
  simp only [List.forall_mem_map, List.length_map, loggedTransaction, implies_true, and_true]
  refine ⟨hsessions, ?_⟩
  intro session hsession
  -- A session is a part of the list of all transactions, and the events of one are part of all events.
  refine ⟨lt_of_le_of_lt (List.sublist_flatten_of_mem hsession).length_le htransactions, ?_⟩
  intro t ht
  have hmem : t ∈ sessions.flatten := List.mem_flatten.2 ⟨session, hsession, ht⟩
  have hpart : t.events.Sublist (Recorded.events sessions) := by
    rw [Recorded.events, List.flatMap_def]
    exact List.sublist_flatten_of_mem (List.mem_map_of_mem hmem)
  exact lt_of_le_of_lt hpart.length_le hevents

end Storable

/-- Bytes that are accepted are those of the log they denote. A storable log is read back with its zeros
    settled, and is otherwise unchanged. -/
theorem decode_encode_inverse :
    (∀ (bytes : List UInt8) (log : BinaryLog), decode bytes = .ok log → encode log = bytes) ∧
      ∀ log : BinaryLog, Storable log → decode (encode log) = .ok (settled log) := by
  constructor
  · intro bytes log hread
    obtain ⟨logged, -, hbytes, hsucceeded, hsessions, -⟩ := (decode_eq_ok_iff bytes log).1 hread
    rw [encode_eq, hsessions, loggedSessions_recordedSessions hsucceeded, hbytes]
  · intro log hlog
    rw [decode_eq_ok_iff]
    refine ⟨loggedSessions log.sessions, ⟨hlog.texts, hlog.counts.fits⟩, encode_eq log,
      succeeded_loggedSessions hlog.committed, ?_, ?_⟩
    · exact (recordedSessions_loggedSessions hlog.committed).symm
    · exact (counts_mapEvents_iff _ _ _).2 hlog.counts

/-- A log with a read of an initial value under a key that is set to zero, and a read of zero under a key
    that is not. The reader takes each of the two for the other kind. -/
def zeroReads : BinaryLog :=
  { header := ⟨7, 2, 2, 1, 3, "μ", "", ""⟩
    sessions := [[], [⟨[.read 1 none, .write 1 0, .read 2 (some 0)], true⟩]] }

theorem decode_encode_inverse_zeroReads :
    Storable zeroReads ∧
      decode (encode zeroReads) = .ok ⟨zeroReads.header,
        [[], [⟨[.read 1 (some 0), .write 1 0, .read 2 none], true⟩]]⟩ ∧
      encode (settled zeroReads) = encode zeroReads := by
  have hstorable : Storable zeroReads := by
    refine ⟨by decide, ⟨by decide, by decide, by decide⟩, ?_⟩
    unfold HeaderFits TextFits
    decide
  have hread := decode_encode_inverse.2 zeroReads hstorable
  have hsettled : settled zeroReads = ⟨zeroReads.header,
      [[], [⟨[.read 1 (some 0), .write 1 0, .read 2 none], true⟩]]⟩ := by decide
  exact ⟨hstorable, hsettled ▸ hread, decode_encode_inverse.1 _ _ hread⟩

end Isolation.BinaryLog
