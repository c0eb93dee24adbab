import Isolation.Proofs.History.Recorder
import Isolation.Proofs.Reduction.Allocation
import Isolation.Proofs.Reduction.Equivalence

/-!
# The Shape of a Reduction

What the result of a reduction looks like is said here without the functions that compute it. Every transaction
has two halves, at the even and the odd place of its session, which have committed if it has. The events under
the keys of the history are the reads that no own write hides, in the read half, and the writes, in the write
half. The other events are those under the conflict keys, and they are known up to their order: a conflict key
guards one ordered pair of transactions with a common key, by a marker that is written and read back by the
halves of the first, and by the overwriting of the second. Every such pair is guarded by one key.

## Main definitions

* `History.IsReduction`: What can be relied on in the result of a reduction.

## Theorems

* `reduce_isReduction`: Every history that can be built has a reduction.
-/

namespace Isolation

/-- The key is one of the history. -/
def ReducedKey.isPlain {κ : Type} : ReducedKey κ → Bool
  | .plain _ => true
  | .conflict _ => false

namespace History

variable {κ ν : Type} [DecidableEq κ] {f : Event (ReducedKey κ) (ReducedValue ν)}

/-- The reads that no own write hides. -/
def snapshotReads (t : Transaction κ ν) : List (Event κ ν) :=
  (t.events.zipIdx.filter fun place =>
    place.1.isRead && (t.ownValue? place.1.key place.2).isNone).map Prod.fst

/-- A read of the history under its new name. -/
def plainRead (id : TransactionId) (e : Event κ ν) : Event (ReducedKey κ) (ReducedValue ν) :=
  ⟨id, .read, .plain e.key, .plain e.value⟩

/-- An ordered pair of different transactions that write a common key. -/
def Conflicting (h : History κ ν) (a b : TransactionId) : Prop :=
  a ≠ b ∧ ∃ t ∈ h.clientTransactions, ∃ u ∈ h.clientTransactions, t.id = a ∧ u.id = b ∧ t.SharesKey u

/-- All that happens under a conflict key, in some order: the read half of the first transaction writes a marker,
    its write half reads it, and the write half of the second one overwrites it. -/
def Guards (r : Reduced κ ν) (n : Nat) (a b : TransactionId) : Prop :=
  (r.events.filter fun e => e.key = .conflict n).Perm
    [⟨halfId .reading a, .write, .conflict n, .generated (markerOf n)⟩,
      ⟨halfId .writing a, .read, .conflict n, .generated (markerOf n)⟩,
      ⟨halfId .writing b, .write, .conflict n, .generated (overwriteOf n)⟩]

section Plain

variable (t : Transaction κ ν)

/-- Nothing but the reads of the snapshot comes into the read half, all of them and in their order. -/
theorem filter_reading_plainEvents :
    (plainEvents t).filter (fun e => e.half = .reading) =
      (snapshotReads t).map fun e => ⟨.reading, .read, .plain e.key, .plain e.value⟩ := by
  rw [plainEvents_eq_filterMap, List.filter_filterMap, snapshotReads, List.map_map,
    ← List.filterMap_eq_map, List.filterMap_filter]
  refine List.filterMap_congr ?_
  rintro ⟨e, index⟩ hmem
  have hle : index ≤ t.events.length := by
    have := List.snd_lt_of_mem_zipIdx hmem
    omega
  have hown := t.ownValue?_eq_none_iff e.key index hle
  cases hkind : e.kind with
  | write => simp [keptEvent?, hkind, Event.isRead]
  | read =>
    -- Hidden reads are dropped on both sides, by two accounts of the last own write.
    cases hlast : t.lastWriteBefore? e.key index with
    | none => simp [keptEvent?, hkind, hlast, hown.mpr hlast, Event.isRead]
    | some i =>
      have hsome : t.ownValue? e.key index ≠ none := by
        rw [ne_eq, hown, hlast]
        simp
      simp [keptEvent?, hkind, hlast, hsome, Event.isRead]

variable (h : History κ ν) (side : Half)

omit [DecidableEq κ] in
theorem filter_plain_conflictEvents (slots : List (Nat × Nat)) (keep : HalfEvent κ ν → Bool) :
    ((slots.flatMap fun pair => (conflictEvents pair.1 pair.2 : List (HalfEvent κ ν))).filter keep).filter
      (fun e => e.key.isPlain) = [] := by
  rw [List.filter_eq_nil_iff]
  intro e he
  simp only [List.mem_filter, List.mem_flatMap, conflictEvents, List.mem_cons, List.not_mem_nil,
    or_false] at he
  rcases he with ⟨⟨_, _, rfl | rfl | rfl⟩, _⟩ <;> exact Bool.false_ne_true

theorem filter_plain_plainEvents (keep : HalfEvent κ ν → Bool) :
    ((plainEvents t).filter keep).filter (fun e => e.key.isPlain) = (plainEvents t).filter keep := by
  rw [List.filter_eq_self]
  intro e he
  rcases (mem_plainEvents_iff t e).mp (List.mem_of_mem_filter he) with
    ⟨_, _, _, rfl⟩ | ⟨_, _, _, _, _, rfl⟩ <;> rfl

theorem filter_plain_half :
    (half h.conflictSlots side t).events.filter (fun e => e.key.isPlain) =
      ((plainEvents t).filter fun e => e.half = side).map (halfEvent (halfId side t.id)) := by
  have hkey : (fun e => e.key.isPlain) ∘ halfEvent (halfId side t.id) =
      fun e : HalfEvent κ ν => e.key.isPlain := rfl
  rw [half, List.filter_map, hkey, halfEvents_eq_append, List.filter_append, List.filter_append,
    filter_plain_conflictEvents, filter_plain_plainEvents, List.append_nil]

theorem filter_plain_reading :
    (half h.conflictSlots .reading t).events.filter (fun e => e.key.isPlain) =
      (snapshotReads t).map (plainRead (halfId .reading t.id)) := by
  rw [filter_plain_half, filter_reading_plainEvents, List.map_map]
  rfl

theorem filter_plain_writing :
    (half h.conflictSlots .writing t).events.filter (fun e => e.key.isPlain) =
      (t.events.filter Event.isWrite).map (plainWrite (halfId .writing t.id)) := by
  rw [filter_plain_half, filter_writing_plainEvents, List.map_map]
  rfl

end Plain

section Guarding

theorem nodup_conflictEvents (h : History κ ν) (id : TransactionId) :
    ((slotsOf h.conflictSlots id).flatMap fun pair =>
      (conflictEvents pair.1 pair.2 : List (HalfEvent κ ν))).Nodup := by
  rw [List.nodup_flatMap]
  refine ⟨fun pair _ => ?_, (h.pairwise_slotsOf id).imp ?_⟩
  · simp [conflictEvents]
  · rintro x y ⟨hfst, hsnd⟩ e hx hy
    simp only [conflictEvents, List.mem_cons, List.not_mem_nil, or_false] at hx hy
    -- Events of two pairs that agree in half and kind are under different numbers.
    rcases hx with rfl | rfl | rfl <;> simp [hfst, hsnd] at hy

theorem nodup_conflict_half (h : History κ ν) (side : Half) (t : Transaction κ ν) (n : Nat) :
    ((half h.conflictSlots side t).events.filter fun e => e.key = .conflict n).Nodup := by
  have hplain : ((plainEvents t).filter fun e => e.half = side).filter
      ((fun e => decide (e.key = .conflict n)) ∘ halfEvent (halfId side t.id)) = [] := by
    rw [List.filter_eq_nil_iff]
    intro e he
    rcases (mem_plainEvents_iff t e).mp (List.mem_of_mem_filter he) with
      ⟨_, _, _, rfl⟩ | ⟨_, _, _, _, _, rfl⟩ <;> simp [halfEvent]
  rw [half, List.filter_map, halfEvents_eq_append, List.filter_append, List.filter_append, hplain,
    List.nil_append]
  refine List.Nodup.map_on ?_ (((nodup_conflictEvents h t.id).filter _).filter _)
  -- Within one half an event is what it says.
  rintro ⟨half, kind, key, value⟩ he ⟨half', kind', key', value'⟩ hf heq
  simp only [List.mem_filter, decide_eq_true_eq] at he hf
  simp only [halfEvent, Event.mk.injEq, true_and] at heq
  simp [heq, he.1.2, hf.1.2]

theorem mem_half_conflict_iff (h : History κ ν) (side : Half) (t : Transaction κ ν) (n : Nat)
    (f : Event (ReducedKey κ) (ReducedValue ν)) :
    (f ∈ (half h.conflictSlots side t).events ∧ f.key = .conflict n) ↔
      (h.Stamps t.id side n ∧
        f = ⟨halfId side t.id, .write, .conflict n, .generated (stamp side n)⟩) ∨
      (side = .writing ∧ h.Stamps t.id .reading n ∧
        f = ⟨halfId .writing t.id, .read, .conflict n, .generated (markerOf n)⟩) := by
  rw [mem_half_iff]
  constructor
  · rintro ⟨⟨e, he, rfl, rfl⟩, hkey⟩
    -- Both halves write under conflict keys, but only markers are read.
    cases hkind : e.kind with
    | write =>
      rcases halfEvents_write_cases he hkind with ⟨_, _, _, rfl⟩ | ⟨m, hm, heq⟩
      · simp [halfEvent] at hkey
      · rw [heq] at hkey
        cases hkey
        exact .inl ⟨hm, by rw [halfEvent, heq]⟩
    | read =>
      rcases halfEvents_read_cases he hkind with ⟨_, _, _, _, _, rfl⟩ | ⟨m, hm, rfl⟩
      · simp [halfEvent] at hkey
      · cases hkey
        exact .inr ⟨rfl, hm, rfl⟩
  · rintro (⟨hstamps, rfl⟩ | ⟨rfl, ⟨u, hu⟩, rfl⟩)
    · exact ⟨⟨_, mem_halfEvents_of_stamps hstamps, rfl, rfl⟩, rfl⟩
    · refine ⟨⟨⟨.writing, .read, .conflict n, .generated (markerOf n)⟩, ?_, rfl, rfl⟩, rfl⟩
      exact (h.mem_halfEvents_iff t _).mpr (.inr (.inl ⟨n, u, hu, .inr rfl⟩))

theorem mem_events_conflict_iff (h : History κ ν) (n : Nat) (f : Event (ReducedKey κ) (ReducedValue ν)) :
    (f ∈ h.reduced.events ∧ f.key = .conflict n) ↔ ∃ t ∈ h.clientTransactions, ∃ side,
      f ∈ (half h.conflictSlots side t).events ∧ f.key = .conflict n := by
  simp only [events, List.mem_flatMap, mem_transactions_reduced_iff]
  constructor
  · rintro ⟨⟨u, rfl | ⟨t, ht, side, rfl⟩, hf⟩, hkey⟩
    · rcases List.mem_map.mp hf with ⟨e, _, rfl⟩
      simp [plainWrite] at hkey
    · exact ⟨t, ht, side, hf, hkey⟩
  · rintro ⟨t, ht, side, hf, hkey⟩
    exact ⟨⟨_, .inr ⟨t, ht, side, rfl⟩, hf⟩, hkey⟩

theorem exists_slot_of_conflict {h : History κ ν} {n : Nat} (hf : f ∈ h.reduced.events)
    (hkey : f.key = .conflict n) : ∃ a b, h.conflictSlots[n]? = some (a, b) := by
  rcases (h.mem_events_conflict_iff n f).mp ⟨hf, hkey⟩ with ⟨t, _, side, hmem⟩
  rcases (h.mem_half_conflict_iff side t n f).mp hmem with ⟨hstamps, _⟩ | ⟨_, ⟨u, hu⟩, _⟩
  · cases side with
    | reading => exact ⟨_, hstamps⟩
    | writing => exact hstamps.imp fun u hu => ⟨_, hu⟩
  · exact ⟨_, u, hu⟩

theorem Guards.unique {r : Reduced κ ν} {n : Nat} {a b a' b' : TransactionId} (hguards : r.Guards n a b)
    (hguards' : r.Guards n a' b') : a = a' ∧ b = b' := by
  have hsame := hguards.symm.trans hguards'
  have hother : ∀ {c d : TransactionId}, halfId .reading c ≠ halfId .writing d := fun hc =>
    absurd (halfId_inj hc).1 (by simp)
  -- The side of a half tells the first event from the last one.
  have hfirst := hsame.mem_iff.mp List.mem_cons_self
  have hlast := hsame.mem_iff.mp (List.mem_cons_of_mem _ (List.mem_cons_of_mem _ List.mem_cons_self))
  simp only [List.mem_cons, Event.mk.injEq, ReducedValue.generated.injEq, hother, hother.symm, reduceCtorEq,
    and_true, and_false, true_and, false_and, List.not_mem_nil, or_false, false_or] at hfirst hlast
  exact ⟨(halfId_inj hfirst).2, (halfId_inj hlast).2⟩

variable {h : History κ ν} (hw : h.WellFormed)

include hw

/-- The pairs that are asked for are those of transactions with a common key. -/
theorem WellFormed.conflicting_iff (a b : TransactionId) : h.Conflicting a b ↔ (a, b) ∈ h.slotTable := by
  rw [hw.slotTable_eq_conflictSlots, mem_conflictSlots_iff hw]
  constructor
  · rintro ⟨hne, t, ht, u, hu, ha, hb, hshare⟩
    exact ⟨t, ht, u, hu, ha, hb, hne, hshare⟩
  · rintro ⟨t, ht, u, hu, ha, hb, hne, hshare⟩
    exact ⟨hne, t, ht, u, hu, ha, hb, hshare⟩

variable [DecidableEq ν]

theorem WellFormed.nodup_events_conflict (n : Nat) :
    (h.reduced.events.filter fun e => e.key = .conflict n).Nodup := by
  have hr := hw.built_reduced
  have hids := hr.wellFormed.nodup_ids
  rw [List.Nodup, List.pairwise_map] at hids
  rw [events, List.filter_flatMap, List.nodup_flatMap]
  constructor
  · intro u hu
    rcases (h.mem_transactions_reduced_iff u).mp hu with rfl | ⟨t, _, side, rfl⟩
    · rw [List.filter_eq_nil_iff.mpr]
      · exact List.nodup_nil
      · intro f hf
        rcases List.mem_map.mp hf with ⟨e, _, rfl⟩
        simp [plainWrite]
    · exact nodup_conflict_half h side t n
  · -- An event tells the transaction that it is in.
    refine hids.imp_of_mem fun hu hv hne f hf hg => hne ?_
    have hsigned := hr.signed
    rw [← hsigned _ _ (hr.wellFormed.lookup_id hu) f (List.mem_of_mem_filter hf),
      ← hsigned _ _ (hr.wellFormed.lookup_id hv) f (List.mem_of_mem_filter hg)]

theorem WellFormed.guards_of_slot {n : Nat} {a b : TransactionId}
    (hslot : h.conflictSlots[n]? = some (a, b)) : h.reduced.Guards n a b := by
  rcases hw.exists_of_slot hslot with ⟨t, ht, u, hu, rfl, rfl, _, _⟩
  have hnodup : [(⟨halfId .reading t.id, .write, .conflict n, .generated (markerOf n)⟩ :
      Event (ReducedKey κ) (ReducedValue ν)),
      ⟨halfId .writing t.id, .read, .conflict n, .generated (markerOf n)⟩,
      ⟨halfId .writing u.id, .write, .conflict n, .generated (overwriteOf n)⟩].Nodup := by
    have hmarker : markerOf n ≠ overwriteOf n := by
      unfold markerOf overwriteOf
      omega
    simp [hmarker]
  refine (List.perm_ext_iff_of_nodup (hw.nodup_events_conflict n) hnodup).mpr fun f => ?_
  rw [List.mem_filter, decide_eq_true_eq, mem_events_conflict_iff]
  simp only [List.mem_cons, List.not_mem_nil, or_false]
  constructor
  · -- The number of the key tells whose half it is.
    rintro ⟨v, _, side, hmem⟩
    rcases (h.mem_half_conflict_iff side v n f).mp hmem with ⟨hstamps, rfl⟩ | ⟨rfl, hstamps, rfl⟩
    · cases side with
      | reading =>
        rw [id_eq_of_stamps hstamps ⟨u.id, hslot⟩]
        exact .inl rfl
      | writing =>
        rw [id_eq_of_stamps hstamps ⟨t.id, hslot⟩]
        exact .inr (.inr rfl)
    · rw [id_eq_of_stamps hstamps ⟨u.id, hslot⟩]
      exact .inr (.inl rfl)
  · rintro (rfl | rfl | rfl)
    · exact ⟨t, ht, .reading, (h.mem_half_conflict_iff .reading t n _).mpr (.inl ⟨⟨u.id, hslot⟩, rfl⟩)⟩
    · exact ⟨t, ht, .writing,
        (h.mem_half_conflict_iff .writing t n _).mpr (.inr ⟨rfl, ⟨u.id, hslot⟩, rfl⟩)⟩
    · exact ⟨u, hu, .writing, (h.mem_half_conflict_iff .writing u n _).mpr (.inl ⟨⟨t.id, hslot⟩, rfl⟩)⟩

theorem WellFormed.guards_reduced_iff (n : Nat) (a b : TransactionId) :
    h.reduced.Guards n a b ↔ h.slotTable[n]? = some (a, b) := by
  rw [hw.slotTable_eq_conflictSlots]
  refine ⟨fun hguards => ?_, hw.guards_of_slot⟩
  -- The marker is an event under the key, so the key has a pair, and there is only one that it guards.
  have hmarker := List.mem_filter.mp (hguards.mem_iff.mpr List.mem_cons_self)
  rcases exists_slot_of_conflict hmarker.1 rfl with ⟨a', b', hslot⟩
  rcases hguards.unique (hw.guards_of_slot hslot) with ⟨rfl, rfl⟩
  exact hslot

/-- Every conflict key guards one pair, of transactions with a common key. -/
theorem WellFormed.existsUnique_pair {n : Nat} (hf : f ∈ h.reduced.events) (hkey : f.key = .conflict n) :
    ∃! pair : TransactionId × TransactionId, h.Conflicting pair.1 pair.2 ∧
      h.reduced.Guards n pair.1 pair.2 := by
  rcases exists_slot_of_conflict hf hkey with ⟨a, b, hslot⟩
  have hguards := hw.guards_of_slot hslot
  rw [← hw.slotTable_eq_conflictSlots] at hslot
  refine ⟨(a, b), ⟨(hw.conflicting_iff a b).mpr (List.mem_of_getElem? hslot), hguards⟩, ?_⟩
  rintro ⟨a', b'⟩ ⟨_, hguards'⟩
  rcases hguards'.unique hguards with ⟨rfl, rfl⟩
  rfl

/-- Every pair of transactions with a common key is guarded by one conflict key. -/
theorem WellFormed.existsUnique_slot {a b : TransactionId} (hconflict : h.Conflicting a b) :
    ∃! n, h.reduced.Guards n a b := by
  simp only [hw.guards_reduced_iff]
  rcases List.mem_iff_getElem?.mp ((hw.conflicting_iff a b).mp hconflict) with ⟨n, hn⟩
  -- Another number would be another place of the same pair in the table.
  refine ⟨n, hn, fun m hm => ?_⟩
  have hlt := (List.getElem?_eq_some_iff.mp hm).1
  exact (List.getElem?_inj hlt h.nodup_slotTable).mp (hm.trans hn.symm)

end Guarding

section Validity

variable {h : History κ ν} (hw : h.WellFormed) (hcons : h.Consistent)

include hw hcons

/-- What the read half sees of the snapshot is left behind by some write half or from the beginning. -/
theorem WellFormed.exists_writer_of_snapshot {t : Transaction κ ν} (ht : t ∈ h.clientTransactions)
    {index : Nat} {e : Event κ ν} (he : t.events[index]? = some e) (hread : e.kind = .read)
    (hlast : t.lastWriteBefore? e.key index = none) :
    ∃ w ∈ h.reduced.transactions, w.id ≠ halfId .reading t.id ∧
      w.finalValue? (.plain e.key) = some (.plain e.value) := by
  have hle : index ≤ t.events.length := Nat.le_of_lt (List.getElem?_eq_some_iff.mp he).1
  have hown := (t.ownValue?_eq_none_iff e.key index hle).mpr hlast
  rcases hcons.supported t (mem_transactions_of_client ht) index e he (by rw [Event.isRead, hread]; rfl) with
    hself | ⟨_, w, hmem, _, hfinal⟩
  · rw [hown] at hself
    cases hself
  · rcases hw.exists_settled hmem with ⟨u, hu, hid, hvalues⟩
    refine ⟨u, hu, ?_, by rw [hvalues, hfinal, Option.map_some]⟩
    -- Writes take effect at the beginning or in a write half.
    rw [hid]
    unfold settledId
    split
    · intro hc
      -- The beginning is in no session.
      have hclient : (halfId .reading t.id).isInit = false := (hw.isClient_of_mem ht).1
      rw [← hc] at hclient
      exact absurd hclient (by decide)
    · exact fun hc => absurd (halfId_inj hc).1 (by simp)

theorem WellFormed.supports_half {t : Transaction κ ν} (ht : t ∈ h.clientTransactions) (side : Half)
    {index : Nat} (hf : (half h.conflictSlots side t).events[index]? = some f) (hread : f.isRead = true) :
    h.reduced.Supports (half h.conflictSlots side t) index f := by
  have hmem := List.mem_of_getElem? hf
  refine .inr ⟨Transaction.ownValue?_eq_none_of_writesKey (hw.writesKey_half_of_read hmem hread) index, ?_⟩
  rcases (h.mem_half_iff side t f).mp hmem with ⟨e, he, rfl, rfl⟩
  rcases halfEvents_read_cases he (beq_iff_eq.mp hread) with
    ⟨place, g, hg, hkind, hlast, rfl⟩ | ⟨n, hstamps, rfl⟩
  · exact hw.exists_writer_of_snapshot hcons ht hg hkind hlast
  · -- The marker was written by the read half.
    refine ⟨half h.conflictSlots .reading t,
      (h.mem_transactions_reduced_iff _).mpr (.inr ⟨t, ht, .reading, rfl⟩), ?_,
      (h.finalValue?_conflict_eq_some_iff .reading t n _).mpr ⟨hstamps, rfl⟩⟩
    exact fun hc : halfId .reading t.id = halfId .writing t.id => absurd (halfId_inj hc).1 (by simp)

/-- The reduction of a consistent history is consistent. -/
theorem WellFormed.consistent_reduced : h.reduced.Consistent where
  committed := committed_reduced hcons.committed
  supported := by
    intro u hu index f hf hread
    rcases (h.mem_transactions_reduced_iff u).mp hu with rfl | ⟨t, ht, side, rfl⟩
    · rcases List.mem_map.mp (List.mem_of_getElem? hf) with ⟨e, _, rfl⟩
      exact absurd hread Bool.false_ne_true
    · exact hw.supports_half hcons ht side hf hread

end Validity

/-- A session with the identifiers of its transactions and whether they have committed. -/
def sessionOutline (s : Session κ ν) : Nat × List (TransactionId × Bool) :=
  (s.id, s.transactions.map fun t => (t.id, t.committed))

/-- The same with two halves for each transaction, at consecutive heights. -/
def splitOutline (s : Session κ ν) : Nat × List (TransactionId × Bool) :=
  (s.id, s.transactions.flatMap fun t =>
    [(⟨t.id.session, 2 * t.id.height⟩, t.committed), (⟨t.id.session, 2 * t.id.height + 1⟩, t.committed)])

/-- What can be relied on in the result of a reduction. -/
structure IsReduction [DecidableEq ν] (h : History κ ν) (r : Reduced κ ν) : Prop where
  /-- It is a history of its own, in which no value is stored twice and events are signed. -/
  built : r.Built
  /-- The initial values are those of the history. -/
  init : r.init = ⟨.init, h.init.events.map (plainWrite .init), false⟩
  /-- Every transaction has two halves, with its commit status. -/
  halves : r.sessions.map sessionOutline = h.sessions.map splitOutline
  /-- The read half has the reads of the snapshot. -/
  reads : ∀ t ∈ h.clientTransactions, ∃ u, r.transaction? (halfId .reading t.id) = some u ∧
    u.events.filter (fun e => e.key.isPlain) = (snapshotReads t).map (plainRead u.id)
  /-- The write half has the writes. -/
  writes : ∀ t ∈ h.clientTransactions, ∃ u, r.transaction? (halfId .writing t.id) = some u ∧
    u.events.filter (fun e => e.key.isPlain) = (t.events.filter Event.isWrite).map (plainWrite u.id)
  /-- A conflict key guards one pair of transactions with a common key. -/
  pair : ∀ n, (∃ e ∈ r.events, e.key = .conflict n) →
    ∃! pair : TransactionId × TransactionId, h.Conflicting pair.1 pair.2 ∧ r.Guards n pair.1 pair.2
  /-- Every pair of transactions with a common key is guarded by one conflict key. -/
  slot : ∀ a b, h.Conflicting a b → ∃! n, r.Guards n a b
  /-- The conflict keys are numbered as the transactions ask for them. -/
  numbered : ∀ n a b, r.Guards n a b ↔ h.slotTable[n]? = some (a, b)
  /-- A valid history stays valid. -/
  valid : h.validate = .ok () → r.validate = .ok ()

section Result

variable (h : History κ ν)

theorem map_sessionOutline_reduced :
    h.reduced.sessions.map sessionOutline = h.sessions.map splitOutline := by
  rw [reduced, List.map_map]
  refine List.map_congr_left fun s _ => ?_
  simp only [Function.comp_apply, sessionOutline, splitOutline, splitSession, halves, List.map_flatMap]
  rfl

variable {h} [DecidableEq ν]

theorem WellFormed.transaction?_halfId (hw : h.WellFormed) {t : Transaction κ ν}
    (ht : t ∈ h.clientTransactions) (side : Half) :
    h.reduced.transaction? (halfId side t.id) = some (half h.conflictSlots side t) :=
  hw.built_reduced.wellFormed.lookup_id
    ((h.mem_transactions_reduced_iff _).mpr (.inr ⟨t, ht, side, rfl⟩))

/-- Every history that can be built has a reduction, and it is as it should be. -/
theorem reduce_isReduction (hbuilt : h.Built) : ∃ r, h.reduce = .ok r ∧ IsReduction h r := by
  have hw := hbuilt.wellFormed
  refine ⟨h.reduced, hw.reduce_eq_ok, ?_⟩
  exact {
    built := hw.built_reduced
    init := rfl
    halves := h.map_sessionOutline_reduced
    reads := fun t ht => ⟨_, hw.transaction?_halfId ht .reading, filter_plain_reading t h⟩
    writes := fun t ht => ⟨_, hw.transaction?_halfId ht .writing, filter_plain_writing t h⟩
    pair := fun n ⟨e, he, hkey⟩ => hw.existsUnique_pair he hkey
    slot := fun a b hconflict => hw.existsUnique_slot hconflict
    numbered := hw.guards_reduced_iff
    valid := fun hvalid => hw.built_reduced.wellFormed.validate_eq_ok_iff.mpr
      (hw.consistent_reduced (hw.validate_eq_ok_iff.mp hvalid)) }

theorem reduce_isReduction_twoUpdates :
    ((twoUpdates 1).Built ∧ (twoUpdates 1).validate = .ok ()) ∧
    ∃ r, (twoUpdates 1).reduce = .ok r ∧ IsReduction (twoUpdates 1) r ∧ r.validate = .ok () ∧
      r.Guards 0 ⟨1, 0⟩ ⟨2, 0⟩ ∧ r.Guards 1 ⟨2, 0⟩ ⟨1, 0⟩ ∧
      r.sessions.map sessionOutline =
        [(1, [(⟨1, 0⟩, true), (⟨1, 1⟩, true)]), (2, [(⟨2, 0⟩, true), (⟨2, 1⟩, true)])] := by
  have hvalid : (twoUpdates 1).validate = .ok () := by decide +kernel
  rcases reduce_isReduction (built_twoUpdates 1) with ⟨r, hreduce, hr⟩
  refine ⟨⟨built_twoUpdates 1, hvalid⟩, r, hreduce, hr, hr.valid hvalid, ?_, ?_, hr.halves.trans rfl⟩
  · exact (hr.numbered 0 _ _).mpr (by decide)
  · exact (hr.numbered 1 _ _).mpr (by decide)

end Result

end History

end Isolation
