import Isolation.Proofs.History.Reads

/-!
# The First Fault of a History

The scan for local faults either accepts a history or names one fault. Both answers can be said without the
scan, by looking at positions of events only.

A read is *justified* by a write that comes before it. If its own transaction has written the key already,
that is the latest such write; if not, it is the last write of the key that some other transaction makes.
A history is accepted exactly if all its transactions have committed and all its reads are justified.

A fault says more than that a read is not justified: it says in which of four ways, and it points to a write
that shows it. The four ways exclude each other. This is `FirstFault`, and `validate_exact` says that the
scan reports it and nothing else.

## Main definitions

* `History.Justified`: A read has seen what it had to see.
* `History.FirstFault`: The first fault of a history.

## Theorems

* `validate_exact`: What the scan accepts, and what it reports.
-/

namespace Isolation

variable {κ ν : Type} [DecidableEq κ]

namespace Transaction

/-- The event at a position is the latest write of a key before another position. -/
def LatestWriteAt (t : Transaction κ ν) (key : κ) (index i : Nat) : Prop :=
  i < index ∧ (∃ e, t.events[i]? = some e ∧ e.writesKey key = true) ∧
    ∀ j e, i < j → j < index → t.events[j]? = some e → e.writesKey key = false

/-- No event before a position writes the key. -/
def NoWriteBefore (t : Transaction κ ν) (key : κ) (index : Nat) : Prop :=
  ∀ i e, i < index → t.events[i]? = some e → e.writesKey key = false

theorem ownValue?_eq_some_iff (t : Transaction κ ν) (key : κ) {index : Nat}
    (hle : index ≤ t.events.length) (value : ν) : t.ownValue? key index = some value ↔
      ∃ i e, t.LatestWriteAt key index i ∧ t.events[i]? = some e ∧ e.value = value := by
  rw [t.ownValue?_eq_bind_lastWriteBefore? key index hle, Option.bind_eq_some_iff]
  simp only [t.lastWriteBefore?_eq_some_iff key index _ hle, Option.map_eq_some_iff, LatestWriteAt]
  constructor
  · intro h
    rcases h with ⟨i, hlatest, e, he, hvalue⟩
    exact ⟨i, e, hlatest, he, hvalue⟩
  · intro h
    rcases h with ⟨i, e, hlatest, he, hvalue⟩
    exact ⟨i, hlatest, e, he, hvalue⟩

theorem LatestWriteAt.unique {t : Transaction κ ν} {key : κ} {index i j : Nat}
    (hi : t.LatestWriteAt key index i) (hj : t.LatestWriteAt key index j) : i = j := by
  rcases hi with ⟨hlt, ⟨e, he, hwrite⟩, hafter⟩
  rcases hj with ⟨hlt', ⟨e', he', hwrite'⟩, hafter'⟩
  rcases Nat.lt_trichotomy i j with hij | hij | hij
  · have hfalse := hafter j e' hij hlt' he'
    simp only [hwrite', Bool.true_eq_false] at hfalse
  · exact hij
  · have hfalse := hafter' i e hij hlt he
    simp only [hwrite, Bool.true_eq_false] at hfalse

theorem LatestWriteAt.not_noWriteBefore {t : Transaction κ ν} {key : κ} {index i : Nat}
    (hi : t.LatestWriteAt key index i) : ¬ t.NoWriteBefore key index := by
  intro hnone
  rcases hi with ⟨hlt, ⟨e, he, hwrite⟩, _⟩
  have hfalse := hnone i e hlt he
  simp only [hwrite, Bool.true_eq_false] at hfalse

end Transaction

namespace History

/-- A read has seen what it had to see: its own latest write of the key if there is one before it, and
    otherwise the last write of the key in some other transaction. -/
structure Justified (h : History κ ν) (t : Transaction κ ν) (index : Nat) (e : Event κ ν) : Prop where
  own : ∀ i f, t.LatestWriteAt e.key index i → t.events[i]? = some f → f.value = e.value
  other : t.NoWriteBefore e.key index → ∃ w ∈ h.transactions, w.id ≠ t.id ∧
    ∃ i f, w.LatestWriteAt e.key w.events.length i ∧ w.events[i]? = some f ∧ f.value = e.value

/-- The transaction has committed, unless it is the init transaction, and all its reads are justified. -/
structure Clean (h : History κ ν) (t : Transaction κ ν) : Prop where
  committed : t.id.isInit = false → t.committed = true
  justified : ∀ index e, t.events[index]? = some e → e.isRead = true → h.Justified t index e

/-- A read is justified if it is supported by an own value or by a final one. -/
theorem justified_iff_supports (h : History κ ν) {t : Transaction κ ν} {index : Nat} {e : Event κ ν}
    (he : t.events[index]? = some e) : h.Justified t index e ↔ h.Supports t index e := by
  have hle : index ≤ t.events.length := Nat.le_of_lt (List.getElem?_eq_some_iff.mp he).1
  have hfinal : ∀ w : Transaction κ ν, w.finalValue? e.key = some e.value ↔
      ∃ i f, w.LatestWriteAt e.key w.events.length i ∧ w.events[i]? = some f ∧ f.value = e.value := by
    intro w
    rw [w.finalValue?_eq_ownValue?, w.ownValue?_eq_some_iff e.key (Nat.le_refl _)]
  have hnone : t.ownValue? e.key index = none ↔ t.NoWriteBefore e.key index := by
    rw [t.ownValue?_eq_none_iff e.key index hle, t.lastWriteBefore?_eq_none_iff e.key index,
      Transaction.NoWriteBefore]
  unfold Supports
  simp only [hfinal, hnone, t.ownValue?_eq_some_iff e.key hle]
  constructor
  · intro hjustified
    by_cases hwrites : t.NoWriteBefore e.key index
    · exact Or.inr ⟨hwrites, hjustified.other hwrites⟩
    · -- There is an own write, and the latest of them has the value.
      refine Or.inl ?_
      rw [← hnone] at hwrites
      rcases Option.ne_none_iff_exists'.mp hwrites with ⟨value, hvalue⟩
      rcases (t.ownValue?_eq_some_iff e.key hle value).mp hvalue with ⟨i, f, hlatest, hf, _⟩
      exact ⟨i, f, hlatest, hf, hjustified.own i f hlatest hf⟩
  · intro hsupports
    rcases hsupports with ⟨i, f, hlatest, hf, hvalue⟩ | ⟨hwrites, hother⟩
    · refine ⟨fun j g hlatest' hg => ?_, fun hc => absurd hc hlatest.not_noWriteBefore⟩
      rw [hlatest'.unique hlatest, hf, Option.some.injEq] at hg
      rw [← hg]
      exact hvalue
    · exact ⟨fun j g hlatest _ => absurd hwrites hlatest.not_noWriteBefore, fun _ => hother⟩

variable [DecidableEq ν]

/-- In which way a read is not justified. Every fault names the read, its key and its value, and points to
    a write that is in the history. -/
inductive ReadFault (h : History κ ν) (t : Transaction κ ν) (index : Nat) (e : Event κ ν) :
    Malformed κ ν → Prop where
  /-- Nobody stores the value. -/
  | missing (nowhere : ∀ place f, h.event? place = some f → f.writes e.key e.value = false) :
      ReadFault h t index e (.missingWrite ⟨t.id, index⟩ e.key e.value)
  /-- The transaction stores the value itself, but behind the read. -/
  | future (place : EventId) (f : Event κ ν) (stored : h.event? place = some f)
      (writes : f.writes e.key e.value = true) (own : place.transaction = t.id)
      (behind : index < place.index) :
      ReadFault h t index e (.futureRead ⟨t.id, index⟩ place e.key e.value)
  /-- The transaction has written the key before, and the value is stored at another place, though not
      behind the read. -/
  | notOwn (place : EventId) (f : Event κ ν) (stored : h.event? place = some f)
      (writes : f.writes e.key e.value = true)
      (past : ¬(place.transaction = t.id ∧ index < place.index)) (i : Nat)
      (latest : t.LatestWriteAt e.key index i) (elsewhere : place ≠ ⟨t.id, i⟩) :
      ReadFault h t index e (.notOwnWrite ⟨t.id, index⟩ ⟨t.id, i⟩ e.key e.value)
  /-- Another transaction stores the value, and later overwrites it. -/
  | intermediate (place : EventId) (f : Event κ ν) (stored : h.event? place = some f)
      (writes : f.writes e.key e.value = true) (none : t.NoWriteBefore e.key index)
      (other : place.transaction ≠ t.id) (later : EventId) (g : Event κ ν)
      (overwritten : h.event? later = some g) (same : later.transaction = place.transaction)
      (behind : place.index < later.index) (again : g.writesKey e.key = true) :
      ReadFault h t index e (.intermediateRead ⟨t.id, index⟩ place e.key e.value)

/-- The first fault of a transaction: that it has not committed, and otherwise that of the first read that
    is not justified. -/
inductive TransactionFault (h : History κ ν) (t : Transaction κ ν) : Malformed κ ν → Prop where
  | uncommitted (client : t.id.isInit = false) (running : t.committed = false) :
      TransactionFault h t (.uncommitted t.id)
  | read (committed : t.id.isInit = false → t.committed = true) (index : Nat) (e : Event κ ν)
      (found : t.events[index]? = some e) (read : e.isRead = true)
      (before : ∀ j f, j < index → t.events[j]? = some f → f.isRead = true → h.Justified t j f)
      (fault : Malformed κ ν) (bad : h.ReadFault t index e fault) : TransactionFault h t fault

/-- The first fault of a history: that of a transaction before which all are clean. -/
def FirstFault (h : History κ ν) (fault : Malformed κ ν) : Prop :=
  ∃ earlier t later, h.transactions = earlier ++ t :: later ∧ (∀ u ∈ earlier, h.Clean u) ∧
    h.TransactionFault t fault

/-- What is found first in a list with positions is found at a position, and nothing before it. -/
theorem findSome?_zipIdx_eq_some_iff {α β : Type} (find : α → Nat → Option β) (l : List α) (b : β) :
    (l.zipIdx.findSome? fun p => find p.1 p.2) = some b ↔
      ∃ (i : Nat) (a : α), l[i]? = some a ∧ find a i = some b ∧
        ∀ j c, j < i → l[j]? = some c → find c j = none := by
  have hget : ∀ i : Nat, l.zipIdx[i]? = l[i]?.map fun a => (a, i) := by
    intro i
    simp only [List.getElem?_zipIdx, Nat.zero_add]
  rw [List.findSome?_eq_some_iff]
  constructor
  · intro hsplit
    rcases hsplit with ⟨before, p, after, hl, hfound, hnone⟩
    -- The position of what is found is the number of entries before it.
    have hp := hget before.length
    rw [hl, getElem?_length_append, eq_comm, Option.map_eq_some_iff] at hp
    rcases hp with ⟨a, ha, rfl⟩
    refine ⟨before.length, a, ha, hfound, fun j c hj hc => ?_⟩
    have hmem := hget j
    rw [hl, List.getElem?_append_left hj, hc, Option.map_some] at hmem
    exact hnone (c, j) (List.mem_of_getElem? hmem)
  · intro hfirst
    rcases hfirst with ⟨i, a, ha, hfound, hnone⟩
    have hp : l.zipIdx[i]? = some (a, i) := by rw [hget, ha, Option.map_some]
    refine ⟨_, (a, i), _, eq_take_append_cons_drop hp, hfound, fun p hp => ?_⟩
    rcases List.mem_iff_getElem?.mp hp with ⟨j, hj⟩
    rw [List.getElem?_take] at hj
    by_cases hji : j < i
    · rw [if_pos hji, hget, Option.map_eq_some_iff] at hj
      rcases hj with ⟨c, hc, rfl⟩
      exact hnone j c hji hc
    · rw [if_neg hji] at hj
      cases hj

section Scan

variable {h : History κ ν} (hw : h.WellFormed) {t : Transaction κ ν} (ht : t ∈ h.transactions)

omit [DecidableEq ν] in
/-- A write is overwritten if its transaction writes the key at a later place. -/
theorem overwritten_iff (h : History κ ν) (place : EventId) (key : κ) :
    h.overwritten place key = true ↔ ∃ later g, h.event? later = some g ∧
      later.transaction = place.transaction ∧ place.index < later.index ∧ g.writesKey key = true := by
  unfold overwritten
  cases hlook : h.transaction? place.transaction with
  | none =>
    simp only [Option.any_none, Bool.false_eq_true, false_iff, not_exists]
    intro later g hc
    rw [event?, hc.2.1, hlook, Option.bind_none] at hc
    exact absurd hc.1 (by simp)
  | some w =>
    rw [Option.any_some, ← Bool.not_eq_false, w.overwritesAfter_eq_false_iff]
    push Not
    constructor
    · intro hover
      rcases hover with ⟨j, g, hj, hg, hwrites⟩
      rw [ne_eq, Bool.not_eq_false] at hwrites
      exact ⟨⟨place.transaction, j⟩, g, by rw [event?_mk, hlook, Option.bind_some, hg], rfl, hj, hwrites⟩
    · intro hover
      rcases hover with ⟨later, g, hg, hsame, hj, hwrites⟩
      rw [event?, hsame, hlook, Option.bind_some] at hg
      exact ⟨later.index, g, hj, hg, by rw [ne_eq, Bool.not_eq_false]; exact hwrites⟩

include hw ht

/-- A transaction is clean exactly if the scan finds no fault in it. -/
theorem WellFormed.clean_iff : h.Clean t ↔ h.transactionFault? t = none := by
  rw [hw.transactionFault?_eq_none_iff ht]
  constructor
  · intro hclean
    refine ⟨hclean.committed, fun index e he hread => ?_⟩
    exact (h.justified_iff_supports he).mp (hclean.justified index e he hread)
  · intro hnone
    refine ⟨hnone.1, fun index e he hread => ?_⟩
    exact (h.justified_iff_supports he).mpr (hnone.2 index e he hread)

omit ht in
theorem WellFormed.readFault?_eq_some_iff {index : Nat} {e : Event κ ν}
    (he : t.events[index]? = some e) (fault : Malformed κ ν) :
    h.readFault? t index e = some fault ↔ h.ReadFault t index e fault := by
  have hle : index ≤ t.events.length := Nat.le_of_lt (List.getElem?_eq_some_iff.mp he).1
  have hlatest : ∀ i, t.lastWriteBefore? e.key index = some i ↔ t.LatestWriteAt e.key index i :=
    fun i => t.lastWriteBefore?_eq_some_iff e.key index i hle
  have hnever : t.lastWriteBefore? e.key index = none ↔ t.NoWriteBefore e.key index :=
    t.lastWriteBefore?_eq_none_iff e.key index
  constructor
  · intro hfault
    unfold readFault? at hfault
    cases hwriter : h.writerOf? e.key e.value with
    | none =>
      simp only [hwriter, Option.some.injEq] at hfault
      rw [← hfault]
      exact .missing ((h.writerOf?_eq_none_iff e.key e.value).mp hwriter)
    | some place =>
      rcases (hw.writerOf?_eq_some_iff e.key e.value place).mp hwriter with ⟨f, hf, hwrites⟩
      simp only [hwriter] at hfault
      by_cases hpast : place.transaction = t.id ∧ index < place.index
      · rw [if_pos hpast, Option.some.injEq] at hfault
        rw [← hfault]
        exact .future place f hf hwrites hpast.1 hpast.2
      · rw [if_neg hpast] at hfault
        cases hlast : t.lastWriteBefore? e.key index with
        | some i =>
          simp only [hlast, Option.ite_none_right_eq_some, Option.some.injEq] at hfault
          rw [← hfault.2]
          refine .notOwn place f hf hwrites hpast i ((hlatest i).mp hlast) ?_
          intro hc
          rw [hc] at hfault
          simp only [ne_eq, not_true_eq_false, or_self, false_and] at hfault
        | none =>
          simp only [hlast, Option.ite_none_right_eq_some, Option.some.injEq] at hfault
          rcases (h.overwritten_iff place e.key).mp hfault.1.2 with
            ⟨later, g, hg, hsame, hbehind, hagain⟩
          rw [← hfault.2]
          exact .intermediate place f hf hwrites (hnever.mp hlast) hfault.1.1 later g hg hsame hbehind
            hagain
  · -- The place of the value is the one that the scan looks up, and it decides which test is met first.
    intro hfault
    have hwriter : ∀ place f, h.event? place = some f → f.writes e.key e.value = true →
        h.writerOf? e.key e.value = some place := by
      intro place f hf hwrites
      exact (hw.writerOf?_eq_some_iff e.key e.value place).mpr ⟨f, hf, hwrites⟩
    unfold readFault?
    cases hfault with
    | missing nowhere =>
      simp only [(h.writerOf?_eq_none_iff e.key e.value).mpr nowhere]
    | future place f stored writes own behind =>
      simp only [hwriter place f stored writes, if_pos (And.intro own behind)]
    | notOwn place f stored writes past i latest elsewhere =>
      simp only [hwriter place f stored writes, if_neg past, (hlatest i).mpr latest]
      rw [if_pos]
      by_contra hc
      push Not at hc
      exact elsewhere (by rw [← hc.1, ← hc.2])
    | intermediate place f stored writes none other later g overwritten same behind again =>
      have hpast : ¬(place.transaction = t.id ∧ index < place.index) := fun hc => other hc.1
      have hover := (h.overwritten_iff place e.key).mpr ⟨later, g, overwritten, same, behind, again⟩
      simp only [hwriter place f stored writes, if_neg hpast, hnever.mpr none,
        if_pos (And.intro other hover)]

theorem WellFormed.transactionFault?_eq_some_iff (fault : Malformed κ ν) :
    h.transactionFault? t = some fault ↔ h.TransactionFault t fault := by
  unfold transactionFault?
  by_cases hrunning : (!t.id.isInit && !t.committed) = true
  · rw [if_pos hrunning, Option.some.injEq]
    simp only [Bool.and_eq_true, Bool.not_eq_true'] at hrunning
    constructor
    · intro heq
      rw [← heq]
      exact .uncommitted hrunning.1 hrunning.2
    · intro hfault
      cases hfault with
      | uncommitted client running => rfl
      | read committed =>
        have hcommitted := committed hrunning.1
        simp only [hrunning.2, Bool.false_eq_true] at hcommitted
  · rw [if_neg hrunning]
    refine (findSome?_zipIdx_eq_some_iff
      (fun e index => if e.isRead then h.readFault? t index e else none) t.events fault).trans ?_
    simp only [Bool.and_eq_true, Bool.not_eq_true', not_and, Bool.not_eq_false] at hrunning
    have hjustified : ∀ {index e}, t.events[index]? = some e → e.isRead = true →
        (h.Justified t index e ↔ h.readFault? t index e = none) := by
      intro index e he hread
      rw [h.justified_iff_supports he, hw.readFault?_eq_none_iff ht he hread]
    constructor
    · intro hfound
      rcases hfound with ⟨index, e, he, hfault, hbefore⟩
      rw [Option.ite_none_right_eq_some] at hfault
      refine .read hrunning index e he hfault.1 (fun j f hj hf hread => ?_) fault
        ((hw.readFault?_eq_some_iff he fault).mp hfault.2)
      have hnone := hbefore j f hj hf
      rw [if_pos hread] at hnone
      exact (hjustified hf hread).mpr hnone
    · intro hfault
      cases hfault with
      | uncommitted client running =>
        have hcommitted := hrunning client
        simp only [running, Bool.false_eq_true] at hcommitted
      | read committed index e found read before _ bad =>
        refine ⟨index, e, found, ?_, fun j f hj hf => ?_⟩
        · rw [if_pos read]
          exact (hw.readFault?_eq_some_iff found fault).mpr bad
        · by_cases hread : f.isRead = true
          · rw [if_pos hread]
            exact (hjustified hf hread).mp (before j f hj hf hread)
          · rw [if_neg hread]

omit ht in
/-- The fault that the scan reports is the first one. -/
theorem WellFormed.validate_eq_error_iff (fault : Malformed κ ν) :
    h.validate = .error fault ↔ h.FirstFault fault := by
  have hscan : h.validate = .error fault ↔
      h.transactions.findSome? h.transactionFault? = some fault := by
    unfold validate
    cases h.transactions.findSome? h.transactionFault? with
    | none => simp only [reduceCtorEq]
    | some found => simp only [Except.error.injEq, Option.some.injEq]
  rw [hscan, List.findSome?_eq_some_iff]
  refine exists_congr fun earlier => exists_congr fun t => exists_congr fun later =>
    and_congr_right fun hsplit => ?_
  have hmem : ∀ u ∈ earlier ++ t :: later, u ∈ h.transactions := by
    rw [hsplit]
    exact fun u hu => hu
  have hfault := hw.transactionFault?_eq_some_iff
    (hmem t (List.mem_append_right _ List.mem_cons_self)) fault
  have hclean : ∀ u ∈ earlier, (h.Clean u ↔ h.transactionFault? u = none) :=
    fun u hu => hw.clean_iff (hmem u (List.mem_append_left _ hu))
  rw [hfault, and_comm]
  exact and_congr_left fun _ => forall₂_congr fun u hu => (hclean u hu).symm

end Scan

/-- The scan for local faults is exact. It accepts a history exactly if every transaction of a session has
    committed and every read is justified: by the latest own write before it, or else by what another
    transaction wrote last. And it reports a fault exactly if that is the first one, in the order of the
    init transaction and then the sessions; an open transaction comes before its own reads. -/
theorem validate_exact {h : History κ ν} (hbuilt : h.Built) :
    (h.validate = .ok () ↔ (∀ t ∈ h.clientTransactions, t.committed = true) ∧
      ∀ t ∈ h.transactions, ∀ index e, t.events[index]? = some e → e.isRead = true →
        h.Justified t index e) ∧
    ∀ fault, h.validate = .error fault ↔ h.FirstFault fault := by
  have hw := hbuilt.wellFormed
  refine ⟨?_, hw.validate_eq_error_iff⟩
  rw [hw.validate_eq_ok_iff]
  constructor
  · intro hcons
    refine ⟨hcons.committed, fun t ht index e he hread => ?_⟩
    exact (h.justified_iff_supports he).mpr (hcons.supported t ht index e he hread)
  · intro hclean
    refine ⟨hclean.1, fun t ht index e he hread => ?_⟩
    exact (h.justified_iff_supports he).mp (hclean.2 t ht index e he hread)

/-- One transaction overwrites its own value, a second one reads that value behind a write of its own, and a
    third one reads it without a commit. -/
def severalFaults : History Nat Nat where
  init := ⟨.init, [⟨.init, .write, 0, 0⟩], false⟩
  sessions := [
    ⟨1, [⟨⟨1, 0⟩, [⟨⟨1, 0⟩, .write, 0, 1⟩, ⟨⟨1, 0⟩, .write, 0, 2⟩], true⟩]⟩,
    ⟨2, [⟨⟨2, 0⟩, [⟨⟨2, 0⟩, .read, 0, 0⟩, ⟨⟨2, 0⟩, .write, 0, 3⟩, ⟨⟨2, 0⟩, .read, 0, 3⟩,
      ⟨⟨2, 0⟩, .read, 0, 1⟩], true⟩]⟩,
    ⟨3, [⟨⟨3, 0⟩, [⟨⟨3, 0⟩, .read, 0, 1⟩], false⟩]⟩]

theorem built_severalFaults : severalFaults.Built :=
  Built.load (show load severalFaults.recording = .ok severalFaults from rfl)

/-- The read behind the own write is reported, and neither the open transaction behind it nor the value that
    was overwritten. In write skew there is nothing to report. -/
theorem validate_exact_severalFaults :
    (severalFaults.Built ∧
      severalFaults.FirstFault (.notOwnWrite ⟨⟨2, 0⟩, 3⟩ ⟨⟨2, 0⟩, 1⟩ 0 1) ∧
      ¬ severalFaults.FirstFault (.uncommitted ⟨3, 0⟩)) ∧
    writeSkew.Built ∧ ∀ t ∈ writeSkew.transactions, ∀ index e, t.events[index]? = some e →
      e.isRead = true → writeSkew.Justified t index e := by
  have hreported : severalFaults.validate = .error (.notOwnWrite ⟨⟨2, 0⟩, 3⟩ ⟨⟨2, 0⟩, 1⟩ 0 1) := rfl
  have hfaults := (validate_exact built_severalFaults).2
  refine ⟨⟨built_severalFaults, (hfaults _).mp hreported, fun hc => ?_⟩, built_writeSkew, ?_⟩
  · have hother := (hfaults _).mpr hc
    rw [hreported, Except.error.injEq] at hother
    cases hother
  · exact ((validate_exact built_writeSkew).1.mp rfl).2

end History

end Isolation
