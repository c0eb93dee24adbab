import Isolation.Proofs.Precedence.Constraints
import Isolation.Reduction.Basic

/-!
# The Halves of a Transaction

What the two halves of a transaction read and write, and with which values. The read half reads the
snapshot and writes markers. The write half reads its markers back, makes the writes of the transaction and
overwrites the markers of its partners.

A conflict key has a number, and the number leads back to the pair of transactions that it is for. So it is
known who writes to a conflict key: the read half of the first transaction of the pair, and the write half
of the second one.

## Main definitions

* `History.halfId`, `History.half`: The halves.

## Theorems

* `finalValue?_writing_plain`, `finalValue?_reading_plain`, `finalValue?_conflict_eq_some_iff`: What the
  halves leave behind.
-/

namespace Isolation.History

variable {κ ν : Type} [DecidableEq κ]

section Slots

theorem shareKey_iff (t u : Transaction κ ν) : shareKey t u = true ↔ t.SharesKey u := by
  simp only [shareKey, Transaction.writes, Transaction.SharesKey, List.any_eq_true, List.mem_filter,
    Transaction.writesKey, writesKey_iff]
  constructor
  · rintro ⟨e, ⟨he, hwrite⟩, hu⟩
    exact ⟨e.key, ⟨e, he, hwrite, rfl⟩, hu⟩
  · rintro ⟨key, ⟨e, he, hwrite, rfl⟩, hu⟩
    exact ⟨e, ⟨he, hwrite⟩, hu⟩

/-- The pairs are those of different transactions that write a common key, both ways. -/
theorem mem_slotsAmong_iff {ts : List (Transaction κ ν)} (hnodup : (ts.map Transaction.id).Nodup)
    (a b : TransactionId) : (a, b) ∈ slotsAmong ts ↔
      ∃ t ∈ ts, ∃ u ∈ ts, t.id = a ∧ u.id = b ∧ a ≠ b ∧ t.SharesKey u := by
  induction ts with
  | nil => simp only [slotsAmong, List.not_mem_nil, false_and, exists_false]
  | cons first rest ih =>
    rw [List.map_cons, List.nodup_cons] at hnodup
    have hne : ∀ u ∈ rest, first.id ≠ u.id := fun u hu hc =>
      hnodup.1 (hc ▸ List.mem_map_of_mem hu)
    simp only [slotsAmong, List.mem_append, List.mem_flatMap, List.mem_filter, shareKey_iff,
      List.mem_cons, List.not_mem_nil, or_false, Prod.mk.injEq, ih hnodup.2]
    constructor
    · rintro (⟨u, ⟨hu, hshare⟩, ⟨rfl, rfl⟩ | ⟨rfl, rfl⟩⟩ | ⟨t, ht, u, hu, hmeaning⟩)
      · exact ⟨first, Or.inl rfl, u, Or.inr hu, rfl, rfl, hne u hu, hshare⟩
      · exact ⟨u, Or.inr hu, first, Or.inl rfl, rfl, rfl, (hne u hu).symm, hshare.symm⟩
      · exact ⟨t, Or.inr ht, u, Or.inr hu, hmeaning⟩
    · rintro ⟨t, rfl | ht, u, rfl | hu, rfl, rfl, hab, hshare⟩
      · exact absurd rfl hab
      · exact Or.inl ⟨u, ⟨hu, hshare⟩, Or.inl ⟨rfl, rfl⟩⟩
      · exact Or.inl ⟨t, ⟨ht, hshare.symm⟩, Or.inr ⟨rfl, rfl⟩⟩
      · exact Or.inr ⟨t, ht, u, hu, rfl, rfl, hab, hshare⟩

theorem mem_conflictSlots_iff {h : History κ ν} (hw : h.WellFormed) (a b : TransactionId) :
    (a, b) ∈ h.conflictSlots ↔ ∃ t ∈ h.clientTransactions, ∃ u ∈ h.clientTransactions,
      t.id = a ∧ u.id = b ∧ a ≠ b ∧ t.SharesKey u :=
  mem_slotsAmong_iff hw.nodup_clientIds a b

theorem countP_slotsAmong (ts : List (Transaction κ ν)) (id : TransactionId) :
    (slotsAmong ts).countP (fun pair => pair.1 = id) =
      (slotsAmong ts).countP fun pair => pair.2 = id := by
  have hpairs : ∀ (t : Transaction κ ν) (us : List (Transaction κ ν)),
      (us.flatMap fun u => [(t.id, u.id), (u.id, t.id)]).countP (fun pair => pair.1 = id) =
        (us.flatMap fun u => [(t.id, u.id), (u.id, t.id)]).countP fun pair => pair.2 = id := by
    intro t us
    induction us with
    | nil => rfl
    | cons u rest ih =>
      rw [List.flatMap_cons, List.countP_append, List.countP_append, ih]
      simp only [List.countP_cons, List.countP_nil, decide_eq_true_eq]
      omega
  induction ts with
  | nil => rfl
  | cons t rest ih => rw [slotsAmong, List.countP_append, List.countP_append, hpairs, ih]

variable (slots : List (TransactionId × TransactionId)) (id : TransactionId)

/-- The numbers of the conflict keys of a transaction. -/
def ownSlots : List Nat :=
  (slots.zipIdx.filter fun (pair, _) => pair.1 = id).map Prod.snd

/-- The numbers of the conflict keys of its partners against a transaction. -/
def theirSlots : List Nat :=
  (slots.zipIdx.filter fun (pair, _) => pair.2 = id).map Prod.snd

theorem mem_slots_iff (keep : TransactionId × TransactionId → Bool) (n : Nat) :
    n ∈ (slots.zipIdx.filter fun (pair, _) => keep pair).map Prod.snd ↔
      ∃ pair, slots[n]? = some pair ∧ keep pair = true := by
  simp only [List.mem_map, List.mem_filter]
  constructor
  · rintro ⟨⟨pair, m⟩, ⟨hmem, hkeep⟩, rfl⟩
    exact ⟨pair, List.mem_zipIdx_iff_getElem?.mp hmem, hkeep⟩
  · rintro ⟨pair, hget, hkeep⟩
    exact ⟨(pair, n), ⟨List.mem_zipIdx_iff_getElem?.mpr hget, hkeep⟩, rfl⟩

theorem mem_ownSlots_iff (n : Nat) : n ∈ ownSlots slots id ↔ ∃ u, slots[n]? = some (id, u) := by
  rw [ownSlots, mem_slots_iff slots fun pair => pair.1 = id]
  simp [Prod.exists]

theorem mem_theirSlots_iff (n : Nat) : n ∈ theirSlots slots id ↔ ∃ u, slots[n]? = some (u, id) := by
  rw [theirSlots, mem_slots_iff slots fun pair => pair.2 = id]
  simp [Prod.exists]

theorem nodup_slots (keep : (TransactionId × TransactionId) × Nat → Bool) :
    ((slots.zipIdx.filter keep).map Prod.snd).Nodup := by
  refine List.Nodup.sublist (List.Sublist.map _ List.filter_sublist) ?_
  rw [List.zipIdx_map_snd]
  exact List.nodup_range'

theorem length_slots (keep : TransactionId × TransactionId → Bool) :
    ((slots.zipIdx.filter fun (pair, _) => keep pair).map Prod.snd).length = slots.countP keep := by
  rw [List.length_map, ← List.countP_eq_length_filter]
  conv => rhs; rw [← List.zipIdx_map_fst 0 slots, List.countP_map]
  rfl

end Slots

section Events

variable (h : History κ ν) (id : TransactionId)

theorem length_ownSlots :
    (ownSlots h.conflictSlots id).length = (theirSlots h.conflictSlots id).length := by
  rw [ownSlots, theirSlots, length_slots _ fun pair => pair.1 = id,
    length_slots _ fun pair => pair.2 = id]
  exact countP_slotsAmong h.clientTransactions id

theorem map_fst_slotsOf :
    (slotsOf h.conflictSlots id).map Prod.fst = ownSlots h.conflictSlots id :=
  List.map_fst_zip (Nat.le_of_eq (h.length_ownSlots id))

theorem map_snd_slotsOf :
    (slotsOf h.conflictSlots id).map Prod.snd = theirSlots h.conflictSlots id :=
  List.map_snd_zip (Nat.le_of_eq (h.length_ownSlots id).symm)

theorem pairwise_slotsOf :
    (slotsOf h.conflictSlots id).Pairwise fun x y => x.1 ≠ y.1 ∧ x.2 ≠ y.2 := by
  have hown : (ownSlots h.conflictSlots id).Nodup := nodup_slots _ _
  have htheirs : (theirSlots h.conflictSlots id).Nodup := nodup_slots _ _
  rw [← map_fst_slotsOf, List.Nodup, List.pairwise_map] at hown
  rw [← map_snd_slotsOf, List.Nodup, List.pairwise_map] at htheirs
  exact hown.and htheirs

theorem exists_own_iff (n : Nat) : (∃ theirs, (n, theirs) ∈ slotsOf h.conflictSlots id) ↔
    ∃ u, h.conflictSlots[n]? = some (id, u) := by
  rw [← mem_ownSlots_iff, ← map_fst_slotsOf, List.mem_map]
  exact ⟨fun ⟨theirs, hmem⟩ => ⟨_, hmem, rfl⟩, fun ⟨⟨_, theirs⟩, hmem, heq⟩ => ⟨theirs, heq ▸ hmem⟩⟩

theorem exists_theirs_iff (n : Nat) : (∃ own, (own, n) ∈ slotsOf h.conflictSlots id) ↔
    ∃ u, h.conflictSlots[n]? = some (u, id) := by
  rw [← mem_theirSlots_iff, ← map_snd_slotsOf, List.mem_map]
  exact ⟨fun ⟨own, hmem⟩ => ⟨_, hmem, rfl⟩, fun ⟨⟨own, _⟩, hmem, heq⟩ => ⟨own, heq ▸ hmem⟩⟩

variable (t : Transaction κ ν)

/-- What becomes of an event of the transaction. -/
def keptEvent? : Event κ ν × Nat → Option (HalfEvent κ ν)
  | (e, index) =>
    match e.kind with
    | .write => some ⟨.writing, .write, .plain e.key, .plain e.value⟩
    | .read =>
      if (t.lastWriteBefore? e.key index).isSome then none
      else some ⟨.reading, .read, .plain e.key, .plain e.value⟩

theorem plainEvents_eq_filterMap :
    plainEvents t = t.events.zipIdx.filterMap (keptEvent? t) := rfl

theorem keptEvent?_of_write {e : Event κ ν} (hwrite : e.kind = .write) (index : Nat) :
    keptEvent? t (e, index) = some ⟨.writing, .write, .plain e.key, .plain e.value⟩ := by
  simp only [keptEvent?, hwrite]

theorem keptEvent?_eq_some_iff_of_read {e : Event κ ν} (hread : e.kind = .read) (index : Nat)
    (f : HalfEvent κ ν) : keptEvent? t (e, index) = some f ↔
      t.lastWriteBefore? e.key index = none ∧
        f = ⟨.reading, .read, .plain e.key, .plain e.value⟩ := by
  simp only [keptEvent?, hread]
  cases hlast : t.lastWriteBefore? e.key index with
  | none => simp only [Option.isSome_none, Bool.false_eq_true, if_false, Option.some.injEq, true_and,
      eq_comm]
  | some i => simp only [Option.isSome_some, if_true, reduceCtorEq, false_and]

theorem mem_plainEvents_iff (f : HalfEvent κ ν) : f ∈ plainEvents t ↔
    (∃ e ∈ t.events, e.kind = .write ∧ f = ⟨.writing, .write, .plain e.key, .plain e.value⟩) ∨
    ∃ (index : Nat) (e : Event κ ν), t.events[index]? = some e ∧ e.kind = .read ∧
      t.lastWriteBefore? e.key index = none ∧
      f = ⟨.reading, .read, .plain e.key, .plain e.value⟩ := by
  simp only [plainEvents_eq_filterMap, List.mem_filterMap, Prod.exists,
    List.mem_zipIdx_iff_getElem?]
  constructor
  · rintro ⟨e, index, he, hkept⟩
    cases hkind : e.kind with
    | write =>
      rw [keptEvent?_of_write t hkind, Option.some.injEq] at hkept
      exact Or.inl ⟨e, List.mem_of_getElem? he, hkind, hkept.symm⟩
    | read =>
      exact Or.inr ⟨index, e, he, hkind, (keptEvent?_eq_some_iff_of_read t hkind index f).mp hkept⟩
  · rintro (⟨e, he, hkind, rfl⟩ | ⟨index, e, he, hkind, hkept⟩)
    · rcases List.mem_iff_getElem?.mp he with ⟨index, hindex⟩
      exact ⟨e, index, hindex, keptEvent?_of_write t hkind index⟩
    · exact ⟨e, index, he, (keptEvent?_eq_some_iff_of_read t hkind index f).mpr hkept⟩

/-- Nothing but the writes comes into the write half, all of them and in their order. -/
theorem filter_writing_plainEvents :
    (plainEvents t).filter (fun e => e.half = .writing) =
      (t.events.filter Event.isWrite).map fun e =>
        ⟨.writing, .write, .plain e.key, .plain e.value⟩ := by
  rw [plainEvents_eq_filterMap]
  generalize hfirst : 0 = first
  generalize t.events = events
  clear hfirst
  induction events generalizing first with
  | nil => rfl
  | cons e rest ih =>
    rw [List.zipIdx_cons]
    cases hkind : e.kind with
    | read =>
      rw [List.filter_cons_of_neg (by rw [Event.isWrite, hkind]; exact Bool.false_ne_true),
        ← ih (first + 1)]
      -- Either the read is dropped, or it belongs to the other half.
      cases hkept : keptEvent? t (e, first) with
      | none => rw [List.filterMap_cons_none hkept]
      | some f =>
        have hside : f.half = .reading := by
          rw [((keptEvent?_eq_some_iff_of_read t hkind first f).mp hkept).2]
        rw [List.filterMap_cons_some hkept, List.filter_cons_of_neg (by
          rw [hside]
          exact of_decide_eq_false rfl)]
    | write =>
      rw [List.filterMap_cons_some (keptEvent?_of_write t hkind first),
        List.filter_cons_of_pos (by exact decide_eq_true rfl),
        List.filter_cons_of_pos (by rw [Event.isWrite, hkind]; rfl), List.map_cons,
        ih (first + 1)]

theorem halfEvents_eq_append (slots : List (TransactionId × TransactionId)) :
    halfEvents slots t = plainEvents t ++
      (slotsOf slots t.id).flatMap fun pair => conflictEvents pair.1 pair.2 := rfl

theorem mem_halfEvents_iff (e : HalfEvent κ ν) : e ∈ halfEvents h.conflictSlots t ↔
    e ∈ plainEvents t ∨
    (∃ n u, h.conflictSlots[n]? = some (t.id, u) ∧
      (e = ⟨.reading, .write, .conflict n, .generated (markerOf n)⟩ ∨
        e = ⟨.writing, .read, .conflict n, .generated (markerOf n)⟩)) ∨
    ∃ n u, h.conflictSlots[n]? = some (u, t.id) ∧
      e = ⟨.writing, .write, .conflict n, .generated (overwriteOf n)⟩ := by
  simp only [halfEvents_eq_append, conflictEvents, List.mem_append, List.mem_flatMap, List.mem_cons,
    List.not_mem_nil, or_false]
  refine or_congr_right ⟨?_, ?_⟩
  · rintro ⟨⟨own, theirs⟩, hmem, he | he | he⟩
    · rcases (h.exists_own_iff t.id own).mp ⟨theirs, hmem⟩ with ⟨u, hu⟩
      exact Or.inl ⟨own, u, hu, Or.inl he⟩
    · rcases (h.exists_own_iff t.id own).mp ⟨theirs, hmem⟩ with ⟨u, hu⟩
      exact Or.inl ⟨own, u, hu, Or.inr he⟩
    · rcases (h.exists_theirs_iff t.id theirs).mp ⟨own, hmem⟩ with ⟨u, hu⟩
      exact Or.inr ⟨theirs, u, hu, he⟩
  · rintro (⟨n, u, hu, he⟩ | ⟨n, u, hu, he⟩)
    · rcases (h.exists_own_iff t.id n).mpr ⟨u, hu⟩ with ⟨theirs, hmem⟩
      exact ⟨(n, theirs), hmem, he.imp_right Or.inl⟩
    · rcases (h.exists_theirs_iff t.id n).mpr ⟨u, hu⟩ with ⟨own, hmem⟩
      exact ⟨(own, n), hmem, Or.inr (Or.inr he)⟩

/-- A half writes this conflict key: the read half the transaction's own ones, the write half those
    against it. -/
def Stamps (side : Half) (n : Nat) : Prop :=
  match side with
  | .reading => ∃ u, h.conflictSlots[n]? = some (id, u)
  | .writing => ∃ u, h.conflictSlots[n]? = some (u, id)

/-- The value that a half writes to a conflict key. -/
def stamp : Half → Nat → Nat
  | .reading => markerOf
  | .writing => overwriteOf

theorem stamp_inj {side side' : Half} {m n : Nat} (heq : stamp side m = stamp side' n) :
    side = side' ∧ m = n := by
  cases side <;> cases side' <;> simp only [stamp, markerOf, overwriteOf] at heq
  · exact ⟨rfl, by omega⟩
  · omega
  · omega
  · exact ⟨rfl, by omega⟩

variable {h t}

/-- A write in a half is one of the transaction or goes to a conflict key. -/
theorem halfEvents_write_cases {e : HalfEvent κ ν} (he : e ∈ halfEvents h.conflictSlots t)
    (hwrite : e.kind = .write) :
    (∃ f ∈ t.events, f.kind = .write ∧ e = ⟨.writing, .write, .plain f.key, .plain f.value⟩) ∨
      ∃ n, h.Stamps t.id e.half n ∧
        e = ⟨e.half, .write, .conflict n, .generated (stamp e.half n)⟩ := by
  rcases (h.mem_halfEvents_iff t e).mp he with hplain | ⟨n, u, hu, rfl | rfl⟩ | ⟨n, u, hu, rfl⟩
  · rcases (mem_plainEvents_iff t e).mp hplain with hkept | ⟨_, _, _, _, _, rfl⟩
    · exact Or.inl hkept
    · cases hwrite
  · exact Or.inr ⟨n, ⟨u, hu⟩, rfl⟩
  · cases hwrite
  · exact Or.inr ⟨n, ⟨u, hu⟩, rfl⟩

/-- A read in a half is one of the snapshot or reads a marker back. -/
theorem halfEvents_read_cases {e : HalfEvent κ ν} (he : e ∈ halfEvents h.conflictSlots t)
    (hread : e.kind = .read) :
    (∃ (index : Nat) (f : Event κ ν), t.events[index]? = some f ∧ f.kind = .read ∧
      t.lastWriteBefore? f.key index = none ∧
      e = ⟨.reading, .read, .plain f.key, .plain f.value⟩) ∨
    ∃ n, h.Stamps t.id .reading n ∧
      e = ⟨.writing, .read, .conflict n, .generated (markerOf n)⟩ := by
  rcases (h.mem_halfEvents_iff t e).mp he with hplain | ⟨n, u, hu, rfl | rfl⟩ | ⟨n, u, hu, rfl⟩
  · rcases (mem_plainEvents_iff t e).mp hplain with ⟨_, _, _, rfl⟩ | hkept
    · cases hread
    · exact Or.inl hkept
  · cases hread
  · exact Or.inr ⟨n, ⟨u, hu⟩, rfl⟩
  · cases hread

theorem mem_halfEvents_of_stamps {side : Half} {n : Nat} (hstamps : h.Stamps t.id side n) :
    ⟨side, .write, .conflict n, .generated (stamp side n)⟩ ∈ halfEvents h.conflictSlots t := by
  rw [mem_halfEvents_iff]
  cases side with
  | reading =>
    rcases hstamps with ⟨u, hu⟩
    exact Or.inr (Or.inl ⟨n, u, hu, Or.inl rfl⟩)
  | writing =>
    rcases hstamps with ⟨u, hu⟩
    exact Or.inr (Or.inr ⟨n, u, hu, rfl⟩)

end Events

/-- The halves of a transaction stand at consecutive places of its session. -/
def halfId (side : Half) (id : TransactionId) : TransactionId :=
  ⟨id.session, 2 * id.height + match side with | .reading => 0 | .writing => 1⟩

/-- An event of a half, as an event of a transaction. -/
def halfEvent (id : TransactionId) (e : HalfEvent κ ν) : Event (ReducedKey κ) (ReducedValue ν) :=
  ⟨id, e.kind, e.key, e.value⟩

/-- A half of a transaction. -/
def half (slots : List (TransactionId × TransactionId)) (side : Half) (t : Transaction κ ν) :
    Transaction (ReducedKey κ) (ReducedValue ν) :=
  ⟨halfId side t.id,
    ((halfEvents slots t).filter fun e => e.half = side).map (halfEvent (halfId side t.id)),
    t.committed⟩

section Writes

/-- What is left behind under a key to which only one value is written. -/
theorem finalValue?_eq_some_iff_of_unique {t : Transaction κ ν} {key : κ} {value : ν}
    (hunique : ∀ e ∈ t.events, e.writesKey key = true → e.value = value) (seen : ν) :
    t.finalValue? key = some seen ↔
      (∃ e ∈ t.events, e.writesKey key = true) ∧ seen = value := by
  have hwritten : (∃ e ∈ t.events, e.writesKey key = true) ↔ ∃ v, t.finalValue? key = some v := by
    rw [← t.writesKey_eq_true_iff, Transaction.writesKey, List.any_eq_true]
  have hvalue : ∀ v, t.finalValue? key = some v → v = value := by
    intro v hv
    rcases (t.finalValue?_eq_some_iff key v).mp hv with ⟨i, e, he, hwrites, rfl, _⟩
    exact hunique e (List.mem_of_getElem? he) hwrites
  rw [hwritten]
  constructor
  · intro hseen
    exact ⟨⟨seen, hseen⟩, hvalue seen hseen⟩
  · rintro ⟨⟨v, hv⟩, rfl⟩
    rw [hv, hvalue v hv]

theorem finalValue?_eq_getLast? (t : Transaction κ ν) (key : κ) :
    t.finalValue? key = ((t.events.filter (Event.writesKey key)).getLast?).map Event.value := by
  rw [Transaction.finalValue?, ← List.head?_filter, List.filter_reverse, List.head?_reverse]

/-- A write of the history under its new name. -/
def plainWrite (id : TransactionId) (e : Event κ ν) : Event (ReducedKey κ) (ReducedValue ν) :=
  ⟨id, .write, .plain e.key, .plain e.value⟩

theorem getLast?_plainWrite {es : List (Event κ ν)} (hes : ∀ e ∈ es, e.isWrite = true)
    (id : TransactionId) (key : κ) :
    (((es.map (plainWrite id)).filter (Event.writesKey (.plain key))).getLast?).map Event.value =
      (((es.filter (Event.writesKey key)).getLast?).map Event.value).map .plain := by
  have hkey : ∀ e ∈ es, (Event.writesKey (.plain key) ∘ plainWrite id) e = e.writesKey key := by
    intro e he
    rw [Function.comp_apply, Bool.eq_iff_iff, writesKey_iff, writesKey_iff, hes e he, plainWrite,
      ReducedKey.plain.injEq]
    exact and_congr_left' (iff_of_true rfl rfl)
  rw [List.filter_map, List.filter_congr hkey, List.getLast?_map, Option.map_map, Option.map_map]
  rfl

theorem filter_isWrite_writesKey (es : List (Event κ ν)) (key : κ) :
    (es.filter Event.isWrite).filter (Event.writesKey key) = es.filter (Event.writesKey key) := by
  rw [List.filter_filter]
  refine List.filter_congr fun e _ => ?_
  rw [Event.writesKey]
  cases e.isWrite <;> simp only [Bool.false_and, Bool.and_false, Bool.true_and, Bool.and_true]

variable (h : History κ ν) (side : Half) (t : Transaction κ ν)

theorem mem_half_iff (f : Event (ReducedKey κ) (ReducedValue ν)) :
    f ∈ (half h.conflictSlots side t).events ↔
      ∃ e ∈ halfEvents h.conflictSlots t, e.half = side ∧ halfEvent (halfId side t.id) e = f := by
  simp only [half, List.mem_map, List.mem_filter, decide_eq_true_eq, and_assoc]

/-- The write half leaves behind what the transaction did. -/
theorem finalValue?_writing_plain (key : κ) :
    (half h.conflictSlots .writing t).finalValue? (.plain key) =
      (t.finalValue? key).map .plain := by
  have hnone : (((slotsOf h.conflictSlots t.id).flatMap fun pair =>
      (conflictEvents pair.1 pair.2 : List (HalfEvent κ ν))).filter (fun e => e.half = .writing)
        |>.map (halfEvent (halfId .writing t.id))).filter (Event.writesKey (.plain key)) = [] := by
    rw [List.filter_eq_nil_iff]
    intro f hf hwrites
    simp only [List.mem_map, List.mem_filter, List.mem_flatMap, conflictEvents, List.mem_cons,
      List.not_mem_nil, or_false] at hf
    rcases hf with ⟨e, ⟨⟨_, _, rfl | rfl | rfl⟩, _⟩, rfl⟩ <;>
      exact absurd ((writesKey_iff _ _).mp hwrites).2 (by simp [halfEvent])
  rw [finalValue?_eq_getLast?, finalValue?_eq_getLast?, half, halfEvents_eq_append, List.filter_append,
    List.map_append, List.filter_append, hnone, List.append_nil, filter_writing_plainEvents,
    List.map_map, ← filter_isWrite_writesKey t.events]
  exact getLast?_plainWrite (fun e he => List.of_mem_filter he) _ key

/-- The read half writes markers only. -/
theorem finalValue?_reading_plain (key : κ) :
    (half h.conflictSlots .reading t).finalValue? (.plain key) = none := by
  rw [Transaction.finalValue?_eq_none_iff, Transaction.writesKey, List.any_eq_false]
  intro f hf hwrites
  rcases (h.mem_half_iff .reading t f).mp hf with ⟨e, he, hside, rfl⟩
  rcases (writesKey_iff _ _).mp hwrites with ⟨hwrite, hkey⟩
  rcases halfEvents_write_cases he (beq_iff_eq.mp hwrite) with ⟨_, _, _, rfl⟩ | ⟨n, _, heq⟩
  · cases hside
  · rw [heq] at hkey
    exact absurd hkey (by simp [halfEvent])

/-- What a half leaves behind under a conflict key. -/
theorem finalValue?_conflict_eq_some_iff (n : Nat) (seen : ReducedValue ν) :
    (half h.conflictSlots side t).finalValue? (.conflict n) = some seen ↔
      h.Stamps t.id side n ∧ seen = .generated (stamp side n) := by
  have hwrite : ∀ f ∈ (half h.conflictSlots side t).events, f.writesKey (.conflict n) = true →
      h.Stamps t.id side n ∧ f.value = .generated (stamp side n) := by
    intro f hf hwrites
    rcases (h.mem_half_iff side t f).mp hf with ⟨e, he, rfl, rfl⟩
    rcases (writesKey_iff _ _).mp hwrites with ⟨hwrite, hkey⟩
    rcases halfEvents_write_cases he (beq_iff_eq.mp hwrite) with ⟨_, _, _, rfl⟩ | ⟨m, hm, heq⟩
    · exact absurd hkey (by simp [halfEvent])
    · rw [heq] at hkey
      cases hkey
      exact ⟨hm, by rw [halfEvent, heq]⟩
  rw [finalValue?_eq_some_iff_of_unique (fun f hf hwrites => (hwrite f hf hwrites).2)]
  refine and_congr_left' ⟨fun ⟨f, hf, hwrites⟩ => (hwrite f hf hwrites).1, fun hstamps => ?_⟩
  exact ⟨_, (h.mem_half_iff side t _).mpr ⟨_, mem_halfEvents_of_stamps hstamps, rfl, rfl⟩,
    (writesKey_iff _ _).mpr ⟨rfl, rfl⟩⟩

end Writes

end Isolation.History
