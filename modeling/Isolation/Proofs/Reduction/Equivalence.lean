import Isolation.Proofs.Reduction.Result
import Isolation.Proofs.Audit.Completeness

/-!
# Snapshot Isolation as Serializability

A history is snapshot isolated exactly if the history of its halves is serializable. A schedule of the
history and a serial order of the halves are the same thing: the read half stands where the transaction
starts, and the write half where it commits. `Schedule.Matches` says this of two schedules, and the two
directions of the equivalence carry a schedule over to one that matches it.

Two things have to be compared. A read of the snapshot sees the same writer on both sides, because the writes
of a transaction take effect where its write half stands. That transactions with a common key do not overlap
is said by the markers. A marker is read back between its own half and the other one of the same transaction,
and the write half of the partner would have destroyed it. So the partner commits before the start or after
the commit, which for both orders of the pair is what `Schedule.Explains.separate` asks for.

## Main definitions

* `Schedule.Matches`: The schedules of a history and of its halves that go together.

## Theorems

* `reduce_preserves_verdict`: The reduction preserves the verdict.
-/

namespace Isolation

open Isolation.Sat
open Isolation.History (twoUpdates built_twoUpdates)

variable {κ ν : Type} [DecidableEq κ] {t : Transaction κ ν} {id : TransactionId}

theorem Transaction.ownValue?_eq_none_of_writesKey {key : κ} (hnone : t.writesKey key = false)
    (index : Nat) : t.ownValue? key index = none := by
  rw [Transaction.ownValue?, Option.map_eq_none_iff, List.find?_eq_none]
  intro e he
  exact List.any_eq_false.mp hnone e (List.mem_of_mem_take (List.mem_reverse.mp he))

namespace History

/-- Where the writes of a transaction take effect. -/
def settledId (id : TransactionId) : TransactionId :=
  if id.isInit then .init else halfId .writing id

theorem settledId_init : settledId .init = .init := rfl

theorem settledId_of_client (hid : id.isInit = false) : settledId id = halfId .writing id := by
  rw [settledId, hid, if_neg Bool.false_ne_true]

variable {h : History κ ν} (hw : h.WellFormed)

include hw

theorem WellFormed.exists_settled (ht : t ∈ h.transactions) :
    ∃ u ∈ h.reduced.transactions, u.id = settledId t.id ∧
      ∀ key, u.finalValue? (.plain key) = (t.finalValue? key).map .plain := by
  rcases List.mem_cons.mp ht with rfl | hclient
  · refine ⟨plainInit h.init.events, (h.mem_transactions_reduced_iff _).mpr (Or.inl rfl), ?_,
      hw.finalValue?_plainInit_plain⟩
    rw [hw.init_id, settledId_init]
    rfl
  · refine ⟨half h.conflictSlots .writing t,
      (h.mem_transactions_reduced_iff _).mpr (Or.inr ⟨t, hclient, .writing, rfl⟩), ?_,
      h.finalValue?_writing_plain t⟩
    rw [settledId_of_client (hw.isClient_of_mem hclient).1]
    rfl

theorem WellFormed.settled_of_finalValue? {u : Transaction (ReducedKey κ) (ReducedValue ν)}
    (hu : u ∈ h.reduced.transactions) {key : κ} {seen : ReducedValue ν}
    (hfinal : u.finalValue? (.plain key) = some seen) :
    ∃ t ∈ h.transactions, u.id = settledId t.id ∧
      ∀ key, u.finalValue? (.plain key) = (t.finalValue? key).map .plain := by
  rcases (h.mem_transactions_reduced_iff u).mp hu with rfl | ⟨t, ht, side, rfl⟩
  · refine ⟨h.init, List.mem_cons_self .., ?_, hw.finalValue?_plainInit_plain⟩
    rw [hw.init_id, settledId_init]
    rfl
  · cases side with
    | reading =>
      rw [finalValue?_reading_plain] at hfinal
      cases hfinal
    | writing =>
      refine ⟨t, mem_transactions_of_client ht, ?_, h.finalValue?_writing_plain t⟩
      rw [settledId_of_client (hw.isClient_of_mem ht).1]
      rfl

theorem WellFormed.exists_of_slot {n : Nat} {a b : TransactionId}
    (hslot : h.conflictSlots[n]? = some (a, b)) :
    ∃ t ∈ h.clientTransactions, ∃ u ∈ h.clientTransactions, t.id = a ∧ u.id = b ∧ a ≠ b ∧
      t.SharesKey u :=
  (mem_conflictSlots_iff hw a b).mp (List.mem_of_getElem? hslot)

theorem WellFormed.writesKey_half_of_read {side : Half} {f : Event (ReducedKey κ) (ReducedValue ν)}
    (hf : f ∈ (half h.conflictSlots side t).events) (hread : f.isRead = true) :
    (half h.conflictSlots side t).writesKey f.key = false := by
  rcases (h.mem_half_iff side t f).mp hf with ⟨e, he, hside, rfl⟩
  rw [← Transaction.finalValue?_eq_none_iff, Option.eq_none_iff_forall_ne_some]
  intro seen hseen
  rcases halfEvents_read_cases he (beq_iff_eq.mp hread) with ⟨_, _, _, _, _, rfl⟩ | ⟨n, ⟨u, hu⟩, rfl⟩
  · cases hside
    rw [halfEvent, finalValue?_reading_plain] at hseen
    cases hseen
  · cases hside
    rcases ((h.finalValue?_conflict_eq_some_iff .writing t n seen).mp hseen).1 with ⟨v, hv⟩
    -- The transaction would be both of the pair.
    rw [hu, Option.some.injEq, Prod.mk.injEq] at hv
    rcases hw.exists_of_slot hu with ⟨_, _, _, _, _, _, hne, _⟩
    exact hne hv.2.symm

theorem WellFormed.writes_conflict_iff {n : Nat} {t u : Transaction κ ν}
    (ht : t ∈ h.clientTransactions) (hu : u ∈ h.clientTransactions)
    (hslot : h.conflictSlots[n]? = some (t.id, u.id))
    (v : Transaction (ReducedKey κ) (ReducedValue ν)) :
    (v ∈ h.reduced.transactions ∧ v.writesKey (.conflict n) = true) ↔
      v = half h.conflictSlots .reading t ∨ v = half h.conflictSlots .writing u := by
  have heq : ∀ {x y : Transaction κ ν}, x ∈ h.clientTransactions → y ∈ h.clientTransactions →
      x.id = y.id → x = y := by
    intro x y hx hy hid
    exact hw.eq_of_id_eq (mem_transactions_of_client hx) (mem_transactions_of_client hy) hid
  rw [Transaction.writesKey_eq_true_iff, mem_transactions_reduced_iff]
  constructor
  · rintro ⟨rfl | ⟨x, hx, side, rfl⟩, seen, hseen⟩
    · rw [finalValue?_plainInit_conflict] at hseen
      cases hseen
    · have hstamps := ((h.finalValue?_conflict_eq_some_iff side x n seen).mp hseen).1
      cases side with
      | reading => exact Or.inl (by rw [heq hx ht (id_eq_of_stamps hstamps ⟨u.id, hslot⟩)])
      | writing => exact Or.inr (by rw [heq hx hu (id_eq_of_stamps hstamps ⟨t.id, hslot⟩)])
  · rintro (rfl | rfl)
    · exact ⟨Or.inr ⟨t, ht, .reading, rfl⟩, _,
        (h.finalValue?_conflict_eq_some_iff .reading t n _).mpr ⟨⟨u.id, hslot⟩, rfl⟩⟩
    · exact ⟨Or.inr ⟨u, hu, .writing, rfl⟩, _,
        (h.finalValue?_conflict_eq_some_iff .writing u n _).mpr ⟨⟨t.id, hslot⟩, rfl⟩⟩

end History

namespace Schedule

open History

variable {h : History κ ν} (hw : h.WellFormed) (s : Schedule)

include hw

/-- A marker is there unless the partner has overwritten it. -/
theorem exists_marker_iff {n : Nat} {t u : Transaction κ ν} (ht : t ∈ h.clientTransactions)
    (hu : u ∈ h.clientTransactions) (hslot : h.conflictSlots[n]? = some (t.id, u.id)) (moment : Nat) :
    (∃ w, s.LastWriter h.reduced (.conflict n) moment w ∧
      w.finalValue? (.conflict n) = some (.generated (markerOf n))) ↔
      s.commit (halfId .reading t.id) < moment ∧
        (s.commit (halfId .writing u.id) < moment →
          s.commit (halfId .writing u.id) ≤ s.commit (halfId .reading t.id)) := by
  have hwriters := hw.writes_conflict_iff ht hu hslot
  have hread := (hwriters _).mpr (Or.inl rfl)
  have hwrite := (hwriters _).mpr (Or.inr rfl)
  constructor
  · rintro ⟨w, hlast, hfinal⟩
    rcases (hwriters w).mp ⟨hlast.mem, hlast.writes⟩ with rfl | rfl
    · exact ⟨hlast.before, hlast.latest _ hwrite.1 hwrite.2⟩
    · have hvalue := ((h.finalValue?_conflict_eq_some_iff .writing u n _).mp hfinal).2
      rw [ReducedValue.generated.injEq] at hvalue
      exact absurd (stamp_inj (show stamp .reading n = stamp .writing n from hvalue)).1
        (by simp)
  · rintro ⟨hbefore, hover⟩
    refine ⟨half h.conflictSlots .reading t, ⟨hread.1, hread.2, hbefore, ?_⟩,
      (h.finalValue?_conflict_eq_some_iff .reading t n _).mpr ⟨⟨u.id, hslot⟩, rfl⟩⟩
    intro v hv hwrites hlt
    rcases (hwriters v).mp ⟨hv, hwrites⟩ with rfl | rfl
    · exact Nat.le_refl _
    · exact hover hlt

/-- What the reads of the halves ask for: those of the snapshots and those of the markers. -/
theorem shows_halves_iff :
    (∀ v ∈ h.reduced.clientTransactions, ∀ index f, v.events[index]? = some f → f.isRead = true →
      s.Shows h.reduced v index f) ↔
    (∀ t ∈ h.clientTransactions, ∀ index e, t.events[index]? = some e → e.isRead = true →
      t.ownValue? e.key index = none →
      ∃ w, s.LastWriter h.reduced (.plain e.key) (s.start (halfId .reading t.id)) w ∧
        w.finalValue? (.plain e.key) = some (.plain e.value)) ∧
    ∀ t ∈ h.clientTransactions, ∀ n u, h.conflictSlots[n]? = some (t.id, u) →
      ∃ w, s.LastWriter h.reduced (.conflict n) (s.start (halfId .writing t.id)) w ∧
        w.finalValue? (.conflict n) = some (.generated (markerOf n)) := by
  have hshows : ∀ {side t index f}, (half h.conflictSlots side t).events[index]? = some f →
      f.isRead = true → (s.Shows h.reduced (half h.conflictSlots side t) index f ↔
        ∃ w, s.LastWriter h.reduced f.key (s.start (halfId side t.id)) w ∧
          w.finalValue? f.key = some f.value) := by
    intro side t index f hget hread
    have hown := Transaction.ownValue?_eq_none_of_writesKey
      (hw.writesKey_half_of_read (List.mem_of_getElem? hget) hread) index
    rw [Shows, hown]
    simp only [reduceCtorEq, false_or, true_and]
    rfl
  have hle : ∀ {t : Transaction κ ν} {index e}, t.events[index]? = some e →
      index ≤ t.events.length := fun hget => Nat.le_of_lt (List.getElem?_eq_some_iff.mp hget).1
  constructor
  · intro hall
    have hevent : ∀ t ∈ h.clientTransactions, ∀ e ∈ halfEvents h.conflictSlots t, e.kind = .read →
        ∃ w, s.LastWriter h.reduced e.key (s.start (halfId e.half t.id)) w ∧
          w.finalValue? e.key = some e.value := by
      intro t ht e he hkind
      have hread : (halfEvent (halfId e.half t.id) e).isRead = true := beq_iff_eq.mpr hkind
      rcases List.mem_iff_getElem?.mp ((h.mem_half_iff e.half t _).mpr ⟨e, he, rfl, rfl⟩) with
        ⟨index, hindex⟩
      exact (hshows hindex hread).mp (hall _
        ((h.mem_clientTransactions_reduced_iff _).mpr ⟨t, ht, e.half, rfl⟩) index _ hindex hread)
    constructor
    · intro t ht index e he hread hown
      refine hevent t ht ⟨.reading, .read, .plain e.key, .plain e.value⟩ ?_ rfl
      refine (h.mem_halfEvents_iff t _).mpr (Or.inl ((mem_plainEvents_iff t _).mpr (Or.inr ?_)))
      exact ⟨index, e, he, beq_iff_eq.mp hread,
        (t.ownValue?_eq_none_iff e.key index (hle he)).mp hown, rfl⟩
    · intro t ht n u hslot
      refine hevent t ht ⟨.writing, .read, .conflict n, .generated (markerOf n)⟩ ?_ rfl
      exact (h.mem_halfEvents_iff t _).mpr (Or.inr (Or.inl ⟨n, u, hslot, Or.inr rfl⟩))
  · rintro ⟨hplain, hmarkers⟩ v hv index f hget hread
    rcases (h.mem_clientTransactions_reduced_iff v).mp hv with ⟨t, ht, side, rfl⟩
    rw [hshows hget hread]
    rcases (h.mem_half_iff side t f).mp (List.mem_of_getElem? hget) with ⟨e, he, rfl, rfl⟩
    rcases halfEvents_read_cases he (beq_iff_eq.mp hread) with
      ⟨i, g, hg, hkind, hlast, rfl⟩ | ⟨n, ⟨u, hslot⟩, rfl⟩
    · exact hplain t ht i g hg (beq_iff_eq.mpr hkind)
        ((t.ownValue?_eq_none_iff g.key i (hle hg)).mpr hlast)
    · exact hmarkers t ht n u hslot

omit hw in
/-- Halves that stand at the same moment are the same half of the same transaction. -/
theorem Explains.half_eq_of_commit_eq {s : Schedule} (hs : s.Explains h.reduced) {side side' : Half}
    {a b : TransactionId} (ha : h.IsClient a) (hb : h.IsClient b)
    (heq : s.commit (halfId side a) = s.commit (halfId side' b)) : side = side' ∧ a = b :=
  halfId_inj (hs.commit_inj _ _ ((h.isClient_halfId_iff side a).mpr ha)
    ((h.isClient_halfId_iff side' b).mpr hb) heq)

omit hw in
variable (h) in
/-- The schedules of a history and of its halves that go together. -/
structure Matches (s s' : Schedule) : Prop where
  init : s'.commit .init = s.commit .init
  start : ∀ id, h.IsClient id → s'.commit (halfId .reading id) = s.start id
  commit : ∀ id, h.IsClient id → s'.commit (halfId .writing id) = s.commit id
  /-- Halves stand at one moment. -/
  serial : ∀ id, h.reduced.IsClient id → s'.start id = s'.commit id

namespace Matches

variable {s} {s' : Schedule} (hm : Matches h s s')

include hm

omit hw in
theorem start_reading (hid : h.IsClient id) : s'.start (halfId .reading id) = s.start id :=
  (hm.serial _ ((h.isClient_halfId_iff .reading id).mpr hid)).trans (hm.start id hid)

omit hw in
theorem start_writing (hid : h.IsClient id) : s'.start (halfId .writing id) = s.commit id :=
  (hm.serial _ ((h.isClient_halfId_iff .writing id).mpr hid)).trans (hm.commit id hid)

theorem commit_settledId (ht : t ∈ h.transactions) : s'.commit (settledId t.id) = s.commit t.id := by
  rcases hw.id_eq_init_or_isClient ht with hid | hid
  · rw [hid, settledId_init]
    exact hm.init
  · rw [settledId_of_client hid.1]
    exact hm.commit t.id hid

theorem exists_lastWriter_plain_iff (key : κ) (moment : Nat) (value : ν) :
    (∃ w, s.LastWriter h key moment w ∧ w.finalValue? key = some value) ↔
      ∃ w, s'.LastWriter h.reduced (.plain key) moment w ∧
        w.finalValue? (.plain key) = some (.plain value) := by
  constructor
  · rintro ⟨w, hlast, hfinal⟩
    rcases hw.exists_settled hlast.mem with ⟨u, hu, hid, hvalues⟩
    have hseen : u.finalValue? (.plain key) = some (.plain value) := by
      rw [hvalues, hfinal, Option.map_some]
    refine ⟨u, ⟨hu, (u.writesKey_eq_true_iff _).mpr ⟨_, hseen⟩, ?_, ?_⟩, hseen⟩
    · rw [hid, hm.commit_settledId hw hlast.mem]
      exact hlast.before
    · intro v hv hwrites hlt
      rcases (v.writesKey_eq_true_iff _).mp hwrites with ⟨seen, hseen⟩
      rcases hw.settled_of_finalValue? hv hseen with ⟨t, ht, hvid, hvvalues⟩
      rw [hvvalues, Option.map_eq_some_iff] at hseen
      rcases hseen with ⟨stored, hstored, _⟩
      rw [hvid, hm.commit_settledId hw ht] at hlt ⊢
      rw [hid, hm.commit_settledId hw hlast.mem]
      exact hlast.latest t ht ((t.writesKey_eq_true_iff key).mpr ⟨stored, hstored⟩) hlt
  · rintro ⟨u, hlast, hfinal⟩
    rcases hw.settled_of_finalValue? hlast.mem hfinal with ⟨w, hmem, hid, hvalues⟩
    have hbefore := hlast.before
    rw [hid, hm.commit_settledId hw hmem] at hbefore
    rw [hvalues, Option.map_eq_some_iff] at hfinal
    rcases hfinal with ⟨stored, hstored, hplain⟩
    cases hplain
    refine ⟨w, ⟨hmem, (w.writesKey_eq_true_iff key).mpr ⟨_, hstored⟩, hbefore, ?_⟩, hstored⟩
    intro t ht hwrites hlt
    rcases (t.writesKey_eq_true_iff key).mp hwrites with ⟨seen, hseen⟩
    rcases hw.exists_settled ht with ⟨v, hv, hvid, hvvalues⟩
    have hvwrites : v.writesKey (.plain key) = true :=
      (v.writesKey_eq_true_iff _).mpr ⟨.plain seen, by rw [hvvalues, hseen, Option.map_some]⟩
    have hle := hlast.latest v hv hvwrites (by rw [hvid, hm.commit_settledId hw ht]; exact hlt)
    rwa [hvid, hid, hm.commit_settledId hw ht, hm.commit_settledId hw hmem] at hle

section Parting

variable (hs : s.Explains h) (hlt : ∀ id, h.IsClient id → s.start id < s.commit id)

include hs hlt

omit hw in
/-- Next in a session is the other half, or the read half of the next transaction. -/
theorem session_halves {session height : Nat} (hnext : h.reduced.IsClient ⟨session, height + 1⟩) :
    s'.commit ⟨session, height⟩ < s'.start ⟨session, height + 1⟩ := by
  rcases Nat.even_or_odd' height with ⟨k, rfl | rfl⟩
  · have hid : h.IsClient ⟨session, k⟩ :=
      (h.isClient_halfId_iff .writing ⟨session, k⟩).mp hnext
    have hstep : s'.commit (halfId .reading ⟨session, k⟩) <
        s'.start (halfId .writing ⟨session, k⟩) := by
      rw [hm.start _ hid, hm.start_writing hid]
      exact hlt _ hid
    exact hstep
  · have hid : h.IsClient ⟨session, k + 1⟩ :=
      (h.isClient_halfId_iff .reading ⟨session, k + 1⟩).mp hnext
    have hstep : s'.commit (halfId .writing ⟨session, k⟩) <
        s'.start (halfId .reading ⟨session, k + 1⟩) := by
      rw [hm.commit _ (hid.of_le (Nat.le_succ k)), hm.start_reading hid]
      exact hs.session session k hid
    exact hstep

/-- A transaction that does not overlap with its partner finds its marker. -/
theorem exists_marker_of_separate (ht : t ∈ h.clientTransactions) {n : Nat} {b : TransactionId}
    (hslot : h.conflictSlots[n]? = some (t.id, b)) :
    ∃ w, s'.LastWriter h.reduced (.conflict n) (s'.start (halfId .writing t.id)) w ∧
      w.finalValue? (.conflict n) = some (.generated (markerOf n)) := by
  rcases hw.exists_of_slot hslot with ⟨t', ht', u, hu, htid, rfl, hne, hshare⟩
  have hidt := hw.isClient_of_mem ht
  have hidu := hw.isClient_of_mem hu
  have hapart := hs.separate t' ht' u hu (by rw [htid]; exact hne) hshare
  rw [htid] at hapart
  rw [exists_marker_iff hw s' ht hu hslot, hm.start_writing hidt, hm.start _ hidt, hm.commit _ hidu]
  have hltt := hlt _ hidt
  have hltu := hlt _ hidu
  exact ⟨hltt, fun _ => by omega⟩

end Parting

/-- A schedule of the history explains the halves if no two of them stand at the same moment. -/
theorem explains_reduced (hs : s.Explains h)
    (hinj : ∀ a b, h.reduced.IsClient a → h.reduced.IsClient b → s'.commit a = s'.commit b → a = b) :
    s'.Explains h.reduced := by
  have hclient : ∀ side {id}, h.IsClient id → h.reduced.IsClient (halfId side id) :=
    fun side _ hid => (h.isClient_halfId_iff side _).mpr hid
  have hlt : ∀ id, h.IsClient id → s.start id < s.commit id := by
    intro id hid
    refine Nat.lt_of_le_of_ne (hs.start_le_commit id hid) fun heq => ?_
    rw [← hm.start id hid, ← hm.commit id hid] at heq
    exact absurd (halfId_inj (hinj _ _ (hclient _ hid) (hclient _ hid) heq)).1
      (by simp)
  refine ⟨fun id hid => Nat.le_of_eq (hm.serial id hid), ?_, hinj,
    fun _ _ => hm.session_halves hs hlt, (shows_halves_iff hw s').mpr ⟨?_, fun t ht n b hslot =>
      hm.exists_marker_of_separate hw hs hlt ht hslot⟩, ?_⟩
  · intro id hid
    rcases exists_half_of_isClient hid with ⟨side, whole, rfl, hwhole⟩
    rw [hm.init]
    cases side with
    | reading =>
      rw [hm.start_reading hwhole]
      exact hs.init_first whole hwhole
    | writing =>
      rw [hm.start_writing hwhole]
      exact hs.commit_init_lt hwhole
  · intro t ht index e he hread hown
    rw [hm.start_reading (hw.isClient_of_mem ht), ← hm.exists_lastWriter_plain_iff hw]
    rcases hs.reads t ht index e he hread with hsome | ⟨_, hlast⟩
    · rw [hown] at hsome
      cases hsome
    · exact hlast
  · intro t ht u hu hne _
    have hlisted : ∀ v ∈ h.reduced.clientTransactions, h.reduced.IsClient v.id := by
      intro v hv
      rcases (h.mem_clientTransactions_reduced_iff v).mp hv with ⟨x, hx, side, rfl⟩
      exact hclient side (hw.isClient_of_mem hx)
    rw [hm.serial _ (hlisted t ht), hm.serial _ (hlisted u hu)]
    exact Nat.lt_or_gt_of_ne fun heq => hne (hinj _ _ (hlisted t ht) (hlisted u hu) heq)

section Joining

variable (hs : s'.Explains h.reduced)

include hs

omit hw in
theorem start_lt_commit (hid : h.IsClient id) : s.start id < s.commit id := by
  rcases id with ⟨session, k⟩
  have hstep : s'.commit (halfId .reading ⟨session, k⟩) < s'.start (halfId .writing ⟨session, k⟩) :=
    hs.session session (2 * k) ((h.isClient_halfId_iff .writing _).mpr hid)
  rwa [hm.start _ hid, hm.start_writing hid] at hstep

/-- A transaction that finds its marker has started after the commit of its partner, or has committed
    before it. -/
theorem commit_lt_start_of_marker {t u : Transaction κ ν} (ht : t ∈ h.clientTransactions)
    (hu : u ∈ h.clientTransactions) (hne : t.id ≠ u.id) (hshare : t.SharesKey u)
    (hbefore : s.commit u.id < s.commit t.id) : s.commit u.id < s.start t.id := by
  have hidt := hw.isClient_of_mem ht
  have hidu := hw.isClient_of_mem hu
  rcases List.mem_iff_getElem?.mp ((mem_conflictSlots_iff hw t.id u.id).mpr
    ⟨t, ht, u, hu, rfl, rfl, hne, hshare⟩) with ⟨n, hslot⟩
  have hread := (exists_marker_iff hw s' ht hu hslot _).mp
    (((shows_halves_iff hw s').mp hs.reads).2 t ht n u.id hslot)
  rw [hm.start_writing hidt, hm.commit _ hidu, hm.start _ hidt] at hread
  refine Nat.lt_of_le_of_ne (hread.2 hbefore) fun heq => ?_
  rw [← hm.commit _ hidu, ← hm.start _ hidt] at heq
  exact absurd (hs.half_eq_of_commit_eq hidu hidt heq).1 (by simp)

/-- A serial order of the halves explains the history, whose other reads see own writes. -/
theorem explains (hcons : h.Consistent) : s.Explains h := by
  have hclient : ∀ side {id}, h.IsClient id → h.reduced.IsClient (halfId side id) :=
    fun side _ hid => (h.isClient_halfId_iff side _).mpr hid
  refine ⟨fun id hid => Nat.le_of_lt (hm.start_lt_commit hs hid), ?_, ?_, ?_, ?_, ?_⟩
  · intro id hid
    rw [← hm.init, ← hm.start_reading hid]
    exact hs.init_first _ (hclient .reading hid)
  · intro a b ha hb heq
    rw [← hm.commit a ha, ← hm.commit b hb] at heq
    exact (hs.half_eq_of_commit_eq ha hb heq).2
  · intro session height hnext
    have hstep : s'.commit (halfId .writing ⟨session, height⟩) <
        s'.start (halfId .reading ⟨session, height + 1⟩) :=
      hs.session session (2 * height + 1) (hclient .reading hnext)
    rwa [hm.commit _ (hnext.of_le (Nat.le_succ height)), hm.start_reading hnext] at hstep
  · intro t ht index e he hread
    rcases hcons.supported t (mem_transactions_of_client ht) index e he hread with
      hown | ⟨hown, _⟩
    · exact Or.inl hown
    · have hlast := ((shows_halves_iff hw s').mp hs.reads).1 t ht index e he hread hown
      rw [hm.start_reading (hw.isClient_of_mem ht), ← hm.exists_lastWriter_plain_iff hw] at hlast
      exact Or.inr ⟨hown, hlast⟩
  · -- The marker of the one that commits later is what keeps them apart.
    intro t ht u hu hne hshare
    rcases Nat.lt_trichotomy (s.commit t.id) (s.commit u.id) with htu | heq | hut
    · exact Or.inl (hm.commit_lt_start_of_marker hw hs hu ht hne.symm
        (Transaction.SharesKey.symm hshare) htu)
    · rw [← hm.commit _ (hw.isClient_of_mem ht), ← hm.commit _ (hw.isClient_of_mem hu)] at heq
      exact absurd (hs.half_eq_of_commit_eq (hw.isClient_of_mem ht) (hw.isClient_of_mem hu) heq).2 hne
    · exact Or.inr (hm.commit_lt_start_of_marker hw hs ht hu hne hshare hut)

end Joining

end Matches

omit hw in
/-- The halves at the moments of a schedule. -/
def parted (s : Schedule) : Schedule :=
  let moment := fun id : TransactionId =>
    if id.isInit then s.commit .init
    else match sideAt id.height with
      | .reading => s.start (wholeId id)
      | .writing => s.commit (wholeId id)
  ⟨moment, moment⟩

omit hw in
/-- The transactions at the moments of their halves. -/
def joined (s' : Schedule) : Schedule where
  start id := s'.commit (halfId .reading id)
  commit id := s'.commit (settledId id)

omit hw in
theorem matches_parted : Matches h s s.parted := by
  have hinit : ∀ side {id}, h.IsClient id → (halfId side id).isInit = false := fun _ _ hid => hid.1
  refine ⟨rfl, ?_, ?_, fun _ _ => rfl⟩
  · intro id hid
    simp only [parted, hinit _ hid, Bool.false_eq_true, if_false, sideAt_halfId, wholeId_halfId]
  · intro id hid
    simp only [parted, hinit _ hid, Bool.false_eq_true, if_false, sideAt_halfId, wholeId_halfId]

omit hw in
theorem matches_joined {s' : Schedule}
    (hserial : ∀ id, h.reduced.IsClient id → s'.start id = s'.commit id) : Matches h s'.joined s' :=
  ⟨rfl, fun _ _ => rfl, fun _ hid => congrArg s'.commit (settledId_of_client hid.1).symm,
    hserial⟩

omit hw in
theorem parted_splitPositions_inj {order : List (TransactionId × Phase)}
    (hmem : ∀ id phase, (id, phase) ∈ order ↔ h.IsClient id) {a b : TransactionId}
    (ha : h.reduced.IsClient a) (hb : h.reduced.IsClient b)
    (heq : (splitPositions order).parted.commit a = (splitPositions order).parted.commit b) :
    a = b := by
  have hm : Matches h (splitPositions order) (splitPositions order).parted := matches_parted _
  have hcommit : ∀ side id, h.IsClient id → (splitPositions order).parted.commit (halfId side id) =
      (fullOrder order).idxOf (id, match side with | .reading => .start | .writing => .commit) := by
    intro side id hid
    cases side with
    | reading => exact hm.start id hid
    | writing => exact hm.commit id hid
  have hlisted : ∀ id phase, h.IsClient id → (id, phase) ∈ fullOrder order := fun id phase hid =>
    List.mem_cons_of_mem _ ((hmem id phase).mpr hid)
  rcases exists_half_of_isClient ha with ⟨side, x, rfl, hx⟩
  rcases exists_half_of_isClient hb with ⟨side', y, rfl, hy⟩
  rw [hcommit side x hx, hcommit side' y hy, List.idxOf_inj (hlisted x _ hx), Prod.mk.injEq] at heq
  rcases heq with ⟨rfl, hphase⟩
  cases side with
  | reading =>
    cases side' with
    | reading => rfl
    | writing => cases hphase
  | writing =>
    cases side' with
    | reading => cases hphase
    | writing => rfl

end Schedule

section Verdict

variable [DecidableEq ν] {h : History κ ν}

/-- Split commit orders of a history and commit orders of its halves exist together. -/
theorem exists_commitOrder_reduced_iff (hw : h.WellFormed) (hcons : h.Consistent) :
    (∃ order, (Witness.splitOrder order).explains h = true) ↔
      ∃ order, (Witness.commitOrder order).explains h.reduced = true := by
  rw [exists_commitOrder_iff hw.built_reduced.wellFormed]
  constructor
  · rintro ⟨order, horder⟩
    rcases (splitOrder_explains_iff hw order).mp horder with ⟨_, hmem, hs⟩
    exact ⟨_, (Schedule.matches_parted _).explains_reduced hw hs
      (fun _ _ => Schedule.parted_splitPositions_inj hmem), fun _ _ => rfl⟩
  · rintro ⟨s', hs, hserial⟩
    exact (exists_splitOrder_iff hw).mpr ⟨_, (Schedule.matches_joined hserial).explains hw hs hcons⟩

omit [DecidableEq ν] in
theorem committed_reduced (hcommitted : ∀ t ∈ h.clientTransactions, t.committed = true) :
    ∀ u ∈ h.reduced.clientTransactions, u.committed = true := by
  intro u hu
  rcases (h.mem_clientTransactions_reduced_iff u).mp hu with ⟨t, ht, side, rfl⟩
  exact hcommitted t ht

theorem exists_level_snapshotIsolation_iff :
    (∃ w : Witness, w.level = .snapshotIsolation ∧ w.explains h = true) ↔
      ∃ order, (Witness.splitOrder order).explains h = true := by
  constructor
  · rintro ⟨w, hlevel, hexplains⟩
    cases w with
    | commitOrder order => cases hlevel
    | splitOrder order => exact ⟨order, hexplains⟩
  · rintro ⟨order, hexplains⟩
    exact ⟨_, rfl, hexplains⟩

theorem exists_level_serializable_iff :
    (∃ w : Witness, w.level = .serializable ∧ w.explains h = true) ↔
      ∃ order, (Witness.commitOrder order).explains h = true := by
  constructor
  · rintro ⟨w, hlevel, hexplains⟩
    cases w with
    | commitOrder order => exact ⟨order, hexplains⟩
    | splitOrder order => cases hlevel
  · rintro ⟨order, hexplains⟩
    exact ⟨_, rfl, hexplains⟩

/-- The reduction of a validated history gives a history that is serializable exactly if the given one is
    snapshot isolated. Audits at these levels have the same verdict, whichever engine they use. -/
theorem reduce_preserves_verdict [Ord κ] (hbuilt : h.Built) (hvalid : h.validate = .ok ()) :
    ∃ r, h.reduce = .ok r ∧ r.Built ∧
      ((∃ order, (Witness.splitOrder order).explains h = true) ↔
        ∃ order, (Witness.commitOrder order).explains r = true) ∧
      ∀ options options' : AuditOptions, options.level = .snapshotIsolation →
        options'.level = .serializable →
        ((∃ w, h.audit options = .ok w) ↔ ∃ w, r.audit options' = .ok w) ∧
        ∀ engine : Engine, engine.Sound → engine.Refuting → engine.Reliable →
          ((∃ w, h.auditWith engine options = .ok w) ↔ ∃ w, r.auditWith engine options' = .ok w) := by
  have hw := hbuilt.wellFormed
  have hcons := hw.validate_eq_ok_iff.mp hvalid
  have hiff := exists_commitOrder_reduced_iff hw hcons
  refine ⟨h.reduced, hw.reduce_eq_ok, hw.built_reduced, hiff, ?_⟩
  intro options options' hlevel hlevel'
  refine forall_engines id fun engine hsound hrefuting hreliable => ?_
  rw [exists_auditWith_iff hw hcons.committed hsound hrefuting hreliable,
    exists_auditWith_iff hw.built_reduced.wellFormed (committed_reduced hcons.committed) hsound
      hrefuting hreliable, hlevel, hlevel', exists_level_snapshotIsolation_iff,
    exists_level_serializable_iff]
  exact hiff

theorem reduce_preserves_verdict_twoUpdates :
    ((twoUpdates 1).Built ∧ (twoUpdates 1).validate = .ok () ∧ (twoUpdates 0).Built ∧
      (twoUpdates 0).validate = .ok ()) ∧
    (∃ r, (twoUpdates 1).reduce = .ok r ∧
      ∃ order, (Witness.commitOrder order).explains r = true) ∧
    ∃ r, (twoUpdates 0).reduce = .ok r ∧
      ¬∃ w, r.audit { level := .serializable } = .ok w := by
  have hvalid : (twoUpdates 1).validate = .ok () := by decide +kernel
  have hvalid' : (twoUpdates 0).validate = .ok () := by decide +kernel
  refine ⟨⟨built_twoUpdates 1, hvalid, built_twoUpdates 0, hvalid'⟩, ?_, ?_⟩
  · rcases reduce_preserves_verdict (built_twoUpdates 1) hvalid with ⟨r, hr, _, hiff, _⟩
    refine ⟨r, hr, hiff.mp ⟨[(⟨1, 0⟩, .start), (⟨1, 0⟩, .commit), (⟨2, 0⟩, .start),
      (⟨2, 0⟩, .commit)], by decide +kernel⟩⟩
  · rcases reduce_preserves_verdict (built_twoUpdates 0) hvalid' with ⟨r, hr, _, _, haudits⟩
    refine ⟨r, hr, fun haccepts => ?_⟩
    have hrejects : ((twoUpdates 0).audit {}).toOption.isSome = false := by decide +kernel
    rcases ((haudits {} { level := .serializable } rfl rfl).1).mpr haccepts with ⟨w, hw⟩
    rw [hw] at hrejects
    exact absurd hrejects.symm Bool.false_ne_true

end Verdict

end Isolation
