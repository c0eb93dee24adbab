import Isolation.Proofs.History.WellFormed
import Isolation.Proofs.Witness.Replay

/-!
# What Reads Can See

A read sees the latest write of its key that its own transaction made before it. Only if there is none
does it see what another transaction left behind, and then what it sees is the *final* value of that
transaction: earlier ones are gone when it commits.

The scan for local faults and the replay of a witness look for own writes in two different ways, the one
by positions counted downwards, the other in a list of events kept in reverse. Both are tied to
`Transaction.ownValue?` here, so that later arguments know one notion only.

## Main definitions

* `History.Consistent`: What the scan for local faults looks for, said of all reads at once.

## Theorems

* `validate_eq_ok_iff`: The scan accepts exactly the consistent histories.
-/

namespace Isolation

variable {κ ν : Type} {e : Event κ ν} {h : History κ ν}

theorem writesKey_iff [DecidableEq κ] (key : κ) (e : Event κ ν) :
    e.writesKey key = true ↔ e.isWrite = true ∧ e.key = key := by
  simp only [Event.writesKey, Bool.and_eq_true, beq_iff_eq]

theorem isWrite_eq_false_of_isRead (hread : e.isRead = true) : e.isWrite = false := by
  have hkind : e.kind = .read := by simpa only [Event.isRead, beq_iff_eq] using hread
  rw [Event.isWrite, hkind]
  rfl

theorem History.WellFormed.not_isRead_init (hw : h.WellFormed) (he : e ∈ h.init.events) :
    ¬ e.isRead = true := by
  intro hread
  have hwrite := hw.init_writes e he
  rw [isWrite_eq_false_of_isRead hread] at hwrite
  exact Bool.false_ne_true hwrite

namespace Transaction

variable [DecidableEq κ] (t : Transaction κ ν)

/-- The value of the latest own write of a key before a position. -/
def ownValue? (t : Transaction κ ν) (key : κ) (index : Nat) : Option ν :=
  ((t.events.take index).reverse.find? (Event.writesKey key)).map Event.value

theorem ownValue?_zero (key : κ) : t.ownValue? key 0 = none := rfl

theorem ownValue?_succ (key : κ) {index : Nat} (he : t.events[index]? = some e) :
    t.ownValue? key (index + 1) =
      if e.writesKey key then some e.value else t.ownValue? key index := by
  rw [ownValue?, List.take_add_one, he, Option.toList_some, List.reverse_append,
    List.reverse_singleton, List.singleton_append, List.find?_cons]
  by_cases hw : e.writesKey key = true
  · rw [hw, if_pos rfl, Option.map_some]
  · rw [Bool.not_eq_true] at hw
    rw [hw, if_neg (by simp), ownValue?]

theorem lastWriteBefore?_zero (key : κ) : t.lastWriteBefore? key 0 = none := by
  rw [lastWriteBefore?, Nat.zero_min]
  rfl

theorem lastWriteBefore?_succ (key : κ) {index : Nat} (he : t.events[index]? = some e) :
    t.lastWriteBefore? key (index + 1) =
      if e.writesKey key then some index else t.lastWriteBefore? key index := by
  have hlt : index < t.events.length := (List.getElem?_eq_some_iff.mp he).1
  rw [lastWriteBefore?, Nat.min_eq_left hlt, List.range_succ, List.reverse_append,
    List.reverse_singleton, List.singleton_append, List.find?_cons, he]
  by_cases hw : e.writesKey key = true
  · simp only [Option.any_some, hw, if_true]
  · rw [Bool.not_eq_true] at hw
    simp only [Option.any_some, hw, Bool.false_eq_true, if_false, lastWriteBefore?,
      Nat.min_eq_left (Nat.le_of_lt hlt)]

theorem ownValue?_eq_bind_lastWriteBefore? (key : κ) (index : Nat) (hle : index ≤ t.events.length) :
    t.ownValue? key index =
      (t.lastWriteBefore? key index).bind fun i => (t.events[i]?).map Event.value := by
  induction index with
  | zero => rw [ownValue?_zero, lastWriteBefore?_zero, Option.bind_none]
  | succ i ih =>
    have he := List.getElem?_eq_getElem (show i < t.events.length by omega)
    rw [t.ownValue?_succ key he, t.lastWriteBefore?_succ key he]
    by_cases hw : t.events[i].writesKey key = true
    · rw [if_pos hw, if_pos hw, Option.bind_some, he, Option.map_some]
    · rw [if_neg hw, if_neg hw]
      exact ih (by omega)

/-- What the scan finds is a write of the key before the position, with no other one in between. -/
theorem lastWriteBefore?_eq_some_iff (key : κ) (index i : Nat) (hle : index ≤ t.events.length) :
    t.lastWriteBefore? key index = some i ↔
      i < index ∧ (∃ e, t.events[i]? = some e ∧ e.writesKey key = true) ∧
        ∀ j e, i < j → j < index → t.events[j]? = some e → e.writesKey key = false := by
  induction index with
  | zero =>
    rw [lastWriteBefore?_zero]
    constructor
    · intro hc
      cases hc
    · rintro ⟨hlt, _⟩
      exact absurd hlt (Nat.not_lt_zero i)
  | succ k ih =>
    have he := List.getElem?_eq_getElem (show k < t.events.length by omega)
    rw [t.lastWriteBefore?_succ key he]
    by_cases hw : t.events[k].writesKey key = true
    · rw [if_pos hw, Option.some.injEq]
      constructor
      · rintro rfl
        exact ⟨by omega, ⟨_, he, hw⟩, fun j e hj hj' => by omega⟩
      · rintro ⟨hlt, _, hafter⟩
        by_contra hne
        have := hafter k _ (by omega) (by omega) he
        rw [hw] at this
        exact absurd this (by simp)
    · rw [if_neg hw, ih (by omega)]
      rw [Bool.not_eq_true] at hw
      constructor
      · rintro ⟨hlt, hwrite, hafter⟩
        refine ⟨by omega, hwrite, fun j e hj hj' hget => ?_⟩
        by_cases hjk : j = k
        · subst hjk
          rw [he, Option.some.injEq] at hget
          rw [← hget]
          exact hw
        · exact hafter j e hj (by omega) hget
      · rintro ⟨hlt, ⟨e, hget, hwrite⟩, hafter⟩
        refine ⟨?_, ⟨e, hget, hwrite⟩, fun j f hj hj' => hafter j f hj (by omega)⟩
        by_contra hc
        have hik : i = k := by omega
        subst hik
        rw [he, Option.some.injEq] at hget
        rw [← hget, hw] at hwrite
        exact absurd hwrite (by simp)

theorem lastWriteBefore?_eq_none_iff (key : κ) (index : Nat) :
    t.lastWriteBefore? key index = none ↔
      ∀ i e, i < index → t.events[i]? = some e → e.writesKey key = false := by
  simp only [lastWriteBefore?, List.find?_eq_none, List.mem_reverse, List.mem_range, Nat.lt_min]
  constructor
  · intro hnone i e hi he
    have hno := hnone i ⟨hi, (List.getElem?_eq_some_iff.mp he).1⟩
    rwa [he, Option.any_some, Bool.not_eq_true] at hno
  · rintro hnone i ⟨hi, hlt⟩
    have he := List.getElem?_eq_getElem hlt
    rw [he, Option.any_some, hnone i _ hi he]
    exact Bool.false_ne_true

theorem ownValue?_eq_none_iff (key : κ) (index : Nat) (hle : index ≤ t.events.length) :
    t.ownValue? key index = none ↔ t.lastWriteBefore? key index = none := by
  rw [t.ownValue?_eq_bind_lastWriteBefore? key index hle]
  cases hlast : t.lastWriteBefore? key index with
  | none => simp only [Option.bind_none]
  | some i =>
    rcases (t.lastWriteBefore?_eq_some_iff key index i hle).mp hlast with ⟨_, ⟨e, he, _⟩, _⟩
    rw [Option.bind_some, he, Option.map_some]
    simp only [reduceCtorEq]

theorem finalValue?_eq_ownValue? (key : κ) : t.finalValue? key = t.ownValue? key t.events.length := by
  rw [finalValue?, ownValue?, List.take_length]

theorem overwritesAfter_eq_false_iff (key : κ) (index : Nat) :
    t.overwritesAfter key index = false ↔
      ∀ j e, index < j → t.events[j]? = some e → e.writesKey key = false := by
  rw [overwritesAfter, List.any_eq_false]
  constructor
  · intro hall j e hj hget
    rw [← Bool.not_eq_true]
    refine hall e (List.mem_iff_getElem?.mpr ⟨j - (index + 1), ?_⟩)
    rw [List.getElem?_drop, show index + 1 + (j - (index + 1)) = j by omega]
    exact hget
  · intro hall e he
    rcases List.mem_iff_getElem?.mp he with ⟨k, hk⟩
    rw [List.getElem?_drop] at hk
    rw [Bool.not_eq_true]
    exact hall (index + 1 + k) e (by omega) hk

theorem finalValue?_eq_some_iff (key : κ) (value : ν) :
    t.finalValue? key = some value ↔
      ∃ i e, t.events[i]? = some e ∧ e.writesKey key = true ∧ e.value = value ∧
        t.overwritesAfter key i = false := by
  rw [finalValue?_eq_ownValue?, t.ownValue?_eq_bind_lastWriteBefore? key _ (Nat.le_refl _),
    Option.bind_eq_some_iff]
  constructor
  · rintro ⟨i, hlast, hmap⟩
    rcases (t.lastWriteBefore?_eq_some_iff key _ i (Nat.le_refl _)).mp hlast with
      ⟨_, ⟨e, he, hwrite⟩, hafter⟩
    rw [he, Option.map_some, Option.some.injEq] at hmap
    refine ⟨i, e, he, hwrite, hmap, (t.overwritesAfter_eq_false_iff key i).mpr ?_⟩
    intro j f hj hget
    exact hafter j f hj (List.getElem?_eq_some_iff.mp hget).1 hget
  · rintro ⟨i, e, he, hwrite, hvalue, hafter⟩
    have hafter := (t.overwritesAfter_eq_false_iff key i).mp hafter
    refine ⟨i, (t.lastWriteBefore?_eq_some_iff key _ i (Nat.le_refl _)).mpr
      ⟨(List.getElem?_eq_some_iff.mp he).1, ⟨e, he, hwrite⟩, fun j f hj _ => hafter j f hj⟩, ?_⟩
    rw [he, Option.map_some, hvalue]

theorem writesKey_eq_true_iff (key : κ) :
    t.writesKey key = true ↔ ∃ value, t.finalValue? key = some value := by
  rw [writesKey, List.any_eq_true, finalValue?]
  constructor
  · rintro ⟨e, he, hwrite⟩
    cases hfind : t.events.reverse.find? (Event.writesKey key) with
    | none =>
      exact absurd hwrite (List.find?_eq_none.mp hfind e (List.mem_reverse.mpr he))
    | some f => exact ⟨f.value, rfl⟩
  · rintro ⟨value, hvalue⟩
    rcases Option.map_eq_some_iff.mp hvalue with ⟨e, he, _⟩
    exact ⟨e, List.mem_reverse.mp (List.mem_of_find?_eq_some he), List.find?_some he⟩

theorem finalValue?_eq_none_iff (key : κ) : t.finalValue? key = none ↔ t.writesKey key = false := by
  rw [← Bool.not_eq_true, t.writesKey_eq_true_iff, Option.eq_none_iff_forall_ne_some, not_exists]

/-- The events behind some others agree with a snapshot if each read among them does. -/
theorem readsMatchAfter_iff [DecidableEq ν] (snapshot : κ → Option ν) (events earlier : List (Event κ ν)) :
    readsMatchAfter snapshot earlier events = true ↔
      ∀ i e, events[i]? = some e → e.isRead = true →
        ((((events.take i).reverse ++ earlier).find? (Event.writesKey e.key)).map Event.value).or
          (snapshot e.key) = some e.value := by
  induction events generalizing earlier with
  | nil => exact ⟨fun _ i e he => absurd he (by simp), fun _ => rfl⟩
  | cons first rest ih =>
    rw [readsMatchAfter, Bool.and_eq_true, Bool.or_eq_true, beq_iff_eq, ih]
    constructor
    · rintro ⟨hfirst, hrest⟩ i e he hread
      cases i with
      | zero =>
        rw [List.getElem?_cons_zero, Option.some.injEq] at he
        subst he
        rcases hfirst with hwrite | hmatch
        · rw [isWrite_eq_false_of_isRead hread] at hwrite
          exact absurd hwrite (by simp)
        · simpa only [List.take_zero, List.reverse_nil, List.nil_append] using hmatch
      | succ j =>
        rw [List.getElem?_cons_succ] at he
        have hm := hrest j e he hread
        rw [List.take_succ_cons, List.reverse_cons, List.append_assoc, List.singleton_append]
        exact hm
    · intro hall
      refine ⟨?_, ?_⟩
      · cases hkind : first.kind with
        | read =>
          have hm := hall 0 first rfl (by rw [Event.isRead, hkind]; rfl)
          exact Or.inr (by simpa only [List.take_zero, List.reverse_nil,
            List.nil_append] using hm)
        | write => exact Or.inl (by rw [Event.isWrite, hkind]; rfl)
      · intro j e he hread
        have hm := hall (j + 1) e (by rw [List.getElem?_cons_succ]; exact he) hread
        rw [List.take_succ_cons, List.reverse_cons, List.append_assoc,
          List.singleton_append] at hm
        exact hm

/-- A transaction agrees with a snapshot if every read sees its own latest write, or else the
    snapshot. -/
theorem readsMatch_iff [DecidableEq ν] (snapshot : κ → Option ν) :
    t.readsMatch snapshot = true ↔
      ∀ i e, t.events[i]? = some e → e.isRead = true →
        (t.ownValue? e.key i).or (snapshot e.key) = some e.value := by
  rw [readsMatch, readsMatchAfter_iff]
  simp only [List.append_nil, ownValue?]

end Transaction

namespace History

variable [DecidableEq κ]

/-- A read sees its own latest write, or else what some other transaction left behind. -/
def Supports (h : History κ ν) (t : Transaction κ ν) (index : Nat) (e : Event κ ν) : Prop :=
  t.ownValue? e.key index = some e.value ∨
    t.ownValue? e.key index = none ∧
      ∃ w ∈ h.transactions, w.id ≠ t.id ∧ w.finalValue? e.key = some e.value

/-- Everything committed, and every read is supported. -/
structure Consistent (h : History κ ν) : Prop where
  committed : ∀ t ∈ h.clientTransactions, t.committed = true
  supported : ∀ t ∈ h.transactions, ∀ index e, t.events[index]? = some e → e.isRead = true →
    h.Supports t index e

/-- Only the reads of clients have to be supported, since the init transaction has none. -/
theorem WellFormed.consistent_of_clients (hw : h.WellFormed)
    (hcommitted : ∀ t ∈ h.clientTransactions, t.committed = true)
    (hreads : ∀ t ∈ h.clientTransactions, ∀ index e, t.events[index]? = some e → e.isRead = true →
      h.Supports t index e) : h.Consistent where
  committed := hcommitted
  supported t ht index e he hread := by
    rcases List.mem_cons.mp ht with rfl | hclient
    · exact absurd hread (hw.not_isRead_init (List.mem_of_getElem? he))
    · exact hreads t hclient index e he hread

/-- One transaction reads a key, and what it sees is what another one left behind. -/
def ReadsFrom (h : History κ ν) (key : κ) (writer reader : TransactionId) : Prop :=
  writer ≠ reader ∧ ∃ t index e w, h.transaction? reader = some t ∧ t.events[index]? = some e ∧
    e.isRead = true ∧ e.key = key ∧ t.ownValue? key index = none ∧
    h.transaction? writer = some w ∧ w.finalValue? key = some e.value

variable [DecidableEq ν]

theorem WellFormed.writerOf?_of_finalValue? (hw : h.WellFormed) {w : Transaction κ ν}
    (hmem : w ∈ h.transactions) {key : κ} {value : ν} (hfinal : w.finalValue? key = some value) :
    ∃ i, h.writerOf? key value = some ⟨w.id, i⟩ ∧ w.overwritesAfter key i = false := by
  rcases (w.finalValue?_eq_some_iff key value).mp hfinal with ⟨i, e, he, hwrite, hvalue, hafter⟩
  rcases (writesKey_iff key e).mp hwrite with ⟨hisWrite, hkey⟩
  refine ⟨i, (hw.writerOf?_eq_some_iff key value _).mpr ⟨e, ?_, ?_⟩, hafter⟩
  · rw [event?_mk, hw.lookup_id hmem, Option.bind_some, he]
  · exact (writes_iff key value e).mpr ⟨hisWrite, hkey, hvalue⟩

theorem WellFormed.id_eq_of_finalValue? (hw : h.WellFormed) {w u : Transaction κ ν}
    (hmemw : w ∈ h.transactions) (hmemu : u ∈ h.transactions) {key : κ} {value : ν}
    (hfw : w.finalValue? key = some value) (hfu : u.finalValue? key = some value) : w.id = u.id := by
  rcases hw.writerOf?_of_finalValue? hmemw hfw with ⟨i, hi, _⟩
  rcases hw.writerOf?_of_finalValue? hmemu hfu with ⟨j, hj, _⟩
  rw [hi, Option.some.injEq, EventId.mk.injEq] at hj
  exact hj.1

/-- A read has no fault if its value is stored somewhere and, after an own write of the key, by the latest
    one; otherwise not behind the read, and where another transaction stores it, it is not overwritten
    there. -/
theorem readFault?_eq_none_unfold (h : History κ ν) (t : Transaction κ ν) (index : Nat)
    (e : Event κ ν) : h.readFault? t index e = none ↔
      ∃ write, h.writerOf? e.key e.value = some write ∧
        ¬(write.transaction = t.id ∧ index < write.index) ∧
        ((∃ own, t.lastWriteBefore? e.key index = some own ∧ write = ⟨t.id, own⟩) ∨
          t.lastWriteBefore? e.key index = none ∧
            (write.transaction ≠ t.id → h.overwritten write e.key = false)) := by
  unfold readFault?
  cases hwriter : h.writerOf? e.key e.value with
  | none => simp only [reduceCtorEq, false_and, exists_false]
  | some write =>
    simp only [Option.some.injEq, exists_eq_left']
    by_cases hpast : write.transaction = t.id ∧ index < write.index
    · simp only [hpast, and_self, if_true, reduceCtorEq, not_true_eq_false, false_and]
    · simp only [hpast, if_false, not_false_eq_true, true_and]
      cases hlast : t.lastWriteBefore? e.key index with
      | some own =>
        rcases write with ⟨wid, windex⟩
        simp only [Option.some.injEq, exists_eq_left', reduceCtorEq, false_and, or_false,
          EventId.mk.injEq, ite_eq_right_iff, imp_false, not_or, not_not]
      | none =>
        simp only [reduceCtorEq, false_and, exists_false, false_or, true_and, ite_eq_right_iff,
          imp_false, not_and, Bool.not_eq_true]

omit [DecidableEq ν] in
/-- A value that is read without an own write before, and not stored behind the read, is stored by another
    transaction. -/
theorem WellFormed.writer_ne_of_read (hw : h.WellFormed) {t : Transaction κ ν} (ht : t ∈ h.transactions)
    {index : Nat} {e f : Event κ ν} (he : t.events[index]? = some e) (hread : e.isRead = true)
    {write : EventId} (hf : h.event? write = some f) (hwrites : f.writesKey e.key = true)
    (hpast : ¬(write.transaction = t.id ∧ index < write.index))
    (hown : t.lastWriteBefore? e.key index = none) : write.transaction ≠ t.id := by
  intro hc
  rcases write with ⟨wid, windex⟩
  simp only at hc hpast
  subst hc
  rw [event?_mk, hw.lookup_id ht, Option.bind_some] at hf
  have hle : index ≤ t.events.length := Nat.le_of_lt (List.getElem?_eq_some_iff.mp he).1
  rcases Nat.lt_trichotomy windex index with hlt | rfl | hgt
  · have hnone := (t.lastWriteBefore?_eq_none_iff e.key index).mp hown windex f hlt hf
    rw [hwrites] at hnone
    exact absurd hnone (by simp)
  · rw [he, Option.some.injEq] at hf
    have hwrite := ((writesKey_iff e.key f).mp hwrites).1
    rw [← hf, isWrite_eq_false_of_isRead hread] at hwrite
    exact absurd hwrite (by simp)
  · exact hpast ⟨rfl, hgt⟩

/-- The scan finds no fault in a read exactly if the read is supported. -/
theorem WellFormed.readFault?_eq_none_iff (hw : h.WellFormed) {t : Transaction κ ν}
    (ht : t ∈ h.transactions) {index : Nat} (he : t.events[index]? = some e) (hread : e.isRead = true) :
    h.readFault? t index e = none ↔ h.Supports t index e := by
  have hlook := hw.lookup_id ht
  have hle : index ≤ t.events.length := Nat.le_of_lt (List.getElem?_eq_some_iff.mp he).1
  rw [readFault?_eq_none_unfold]
  constructor
  · rintro ⟨write, hwriter, hpast, hsource⟩
    rcases (hw.writerOf?_eq_some_iff e.key e.value write).mp hwriter with ⟨f, hf, hfw⟩
    rcases (writes_iff e.key e.value f).mp hfw with ⟨hfwrite, hfkey, hfvalue⟩
    have hwrites := (writesKey_iff e.key f).mpr ⟨hfwrite, hfkey⟩
    rcases hsource with ⟨own, hown, rfl⟩ | ⟨hown, hkept⟩
    · refine Or.inl ?_
      rw [event?_mk, hlook, Option.bind_some] at hf
      rw [t.ownValue?_eq_bind_lastWriteBefore? e.key index hle, hown, Option.bind_some, hf,
        Option.map_some, hfvalue]
    · have hother := hw.writer_ne_of_read ht he hread hf hwrites hpast hown
      refine Or.inr ⟨(t.ownValue?_eq_none_iff e.key index hle).mpr hown, ?_⟩
      rcases write with ⟨wid, windex⟩
      rw [event?_mk, Option.bind_eq_some_iff] at hf
      rcases hf with ⟨w, hlookw, hgetw⟩
      have hover := hkept hother
      rw [overwritten, hlookw, Option.any_some] at hover
      exact ⟨w, h.mem_transactions_of_lookup hlookw, by rwa [hw.transaction_id wid w hlookw],
        (w.finalValue?_eq_some_iff e.key e.value).mpr ⟨windex, f, hgetw, hwrites, hfvalue, hover⟩⟩
  · rintro (hown | ⟨hown, w, hmem, hne, hfinal⟩)
    · rw [t.ownValue?_eq_bind_lastWriteBefore? e.key index hle, Option.bind_eq_some_iff] at hown
      rcases hown with ⟨own, hlast, hvalue⟩
      rcases (t.lastWriteBefore?_eq_some_iff e.key index own hle).mp hlast with
        ⟨hlt, ⟨f, hf, hfw⟩, _⟩
      rw [hf, Option.map_some, Option.some.injEq] at hvalue
      rcases (writesKey_iff e.key f).mp hfw with ⟨hfwrite, hfkey⟩
      refine ⟨⟨t.id, own⟩, (hw.writerOf?_eq_some_iff e.key e.value _).mpr ⟨f, ?_,
        (writes_iff e.key e.value f).mpr ⟨hfwrite, hfkey, hvalue⟩⟩,
        fun hc => Nat.lt_asymm hlt hc.2, Or.inl ⟨own, hlast, rfl⟩⟩
      rw [event?_mk, hlook, Option.bind_some, hf]
    · rcases hw.writerOf?_of_finalValue? hmem hfinal with ⟨i, hwriter, hafter⟩
      refine ⟨⟨w.id, i⟩, hwriter, fun hc => hne hc.1,
        Or.inr ⟨(t.ownValue?_eq_none_iff e.key index hle).mp hown, fun _ => ?_⟩⟩
      rw [overwritten, hw.lookup_id hmem, Option.any_some, hafter]

/-- A transaction without faults has committed, and its reads are supported. -/
theorem WellFormed.transactionFault?_eq_none_iff (hw : h.WellFormed) {t : Transaction κ ν}
    (ht : t ∈ h.transactions) :
    h.transactionFault? t = none ↔ (t.id.isInit = false → t.committed = true) ∧
      ∀ index e, t.events[index]? = some e → e.isRead = true → h.Supports t index e := by
  unfold transactionFault?
  by_cases hc : (!t.id.isInit && !t.committed) = true
  · rw [if_pos hc]
    simp only [Bool.and_eq_true, Bool.not_eq_true'] at hc
    constructor
    · intro habs
      cases habs
    · rintro ⟨hcommit, _⟩
      have := hcommit hc.1
      rw [hc.2] at this
      exact absurd this (by simp)
  · rw [if_neg hc, List.findSome?_eq_none_iff]
    simp only [Bool.and_eq_true, Bool.not_eq_true', not_and, Bool.not_eq_false] at hc
    constructor
    · intro hall
      refine ⟨hc, fun index e he hread => ?_⟩
      have hnone := hall (e, index) (List.mem_zipIdx_iff_getElem?.mpr he)
      simp only [if_pos hread] at hnone
      exact (hw.readFault?_eq_none_iff ht he hread).mp hnone
    · rintro ⟨_, hall⟩ ⟨e, index⟩ hmem
      have he := List.mem_zipIdx_iff_getElem?.mp hmem
      by_cases hread : e.isRead = true
      · simp only [if_pos hread]
        exact (hw.readFault?_eq_none_iff ht he hread).mpr (hall index e he hread)
      · simp only [if_neg hread]

/-- The scan accepts exactly the consistent histories. -/
theorem WellFormed.validate_eq_ok_iff (hw : h.WellFormed) : h.validate = .ok () ↔ h.Consistent := by
  have hnone : h.validate = .ok () ↔ ∀ t ∈ h.transactions, h.transactionFault? t = none := by
    rw [← List.findSome?_eq_none_iff, validate]
    cases h.transactions.findSome? h.transactionFault? with
    | none => simp only
    | some fault => simp only [reduceCtorEq]
  rw [hnone]
  constructor
  · intro hall
    refine ⟨?_, fun t ht => ((hw.transactionFault?_eq_none_iff ht).mp (hall t ht)).2⟩
    intro t ht
    rcases (h.mem_clientTransactions_iff t).mp ht with ⟨index, height, hlook⟩
    have hmem := h.mem_transactions_of_lookup hlook
    refine ((hw.transactionFault?_eq_none_iff hmem).mp (hall t hmem)).1 ?_
    rw [hw.transaction_id _ t hlook]
    rfl
  · intro hcons t ht
    refine (hw.transactionFault?_eq_none_iff ht).mpr ⟨?_, hcons.supported t ht⟩
    intro hinit
    exact hcons.committed t (mem_clientTransactions_of_lookup hinit (hw.lookup_id ht))

end History

end Isolation
