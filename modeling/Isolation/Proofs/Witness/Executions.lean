import Isolation.Proofs.Witness.Split

/-!
# What a Witness Says

A replay keeps lists of what has been installed, counts session entries and compares numbers. What a
witness says can be put without any of that: an order is an execution of a history if it lists what there
is to list, keeps to the order of the sessions, and every read returns what it should.

The statements speak about events, places in lists and which entry stands before which, and about nothing
that a replay computes. "Before" is said as a sublist of two entries. Since an execution lists every
entry once, this is the same as comparing positions, and so the schedules of the other modules apply.

The init transaction is never listed. Where a read looks for the last transaction that stored its key, it
stands in front of the list.

## Main definitions

* `History.SerialExecution`, `History.SplitExecution`: The two kinds of executions.

## Theorems

* `explains_iff_execution`: A replay accepts the executions of a history and nothing else.
-/

namespace Isolation

open Isolation.History (writeSkew built_writeSkew)

variable {κ ν : Type}

namespace Transaction

/-- The latest write of a key among the first events of a transaction stores this value. -/
def LatestWrite (t : Transaction κ ν) (key : κ) (index : Nat) (value : ν) : Prop :=
  ∃ i e, i < index ∧ t.events[i]? = some e ∧ e.kind = .write ∧ e.key = key ∧ e.value = value ∧
    ∀ j later, i < j → j < index → t.events[j]? = some later → later.kind = .write → later.key ≠ key

/-- The final write of a key stores this value. -/
def FinalWrite (t : Transaction κ ν) (key : κ) (value : ν) : Prop :=
  t.LatestWrite key t.events.length value

/-- The transaction writes the key. -/
def Stores (t : Transaction κ ν) (key : κ) : Prop :=
  ∃ e ∈ t.events, e.kind = .write ∧ e.key = key

end Transaction

namespace History

/-- Of the listed transactions, the last one that stores the key leaves this value behind. -/
def LastStored (h : History κ ν) (listed : List TransactionId) (key : κ) (value : ν) : Prop :=
  ∃ older w newer, listed = older ++ w.id :: newer ∧ w ∈ h.transactions ∧ w.FinalWrite key value ∧
    ∀ u ∈ h.transactions, u.id ∈ newer → ¬ u.Stores key

/-- A read returns the latest earlier write of its own transaction, or else what the last of the listed
    transactions to store the key left behind. -/
def Sees (h : History κ ν) (listed : List TransactionId) (t : Transaction κ ν) (index : Nat)
    (e : Event κ ν) : Prop :=
  t.LatestWrite e.key index e.value ∨
    (∀ value, ¬ t.LatestWrite e.key index value) ∧ h.LastStored listed e.key e.value

/-- The transactions run one after the other. -/
structure SerialExecution (h : History κ ν) (order : List TransactionId) : Prop where
  once : ∀ t ∈ h.clientTransactions, order.count t.id = 1
  only : ∀ id ∈ order, ∃ t ∈ h.clientTransactions, t.id = id
  session : ∀ t ∈ h.clientTransactions, ∀ u ∈ h.clientTransactions, t.id.session = u.id.session →
    t.id.height < u.id.height → [t.id, u.id].Sublist order
  reads : ∀ t ∈ h.clientTransactions, ∀ before after, order = before ++ t.id :: after →
    ∀ index e, t.events[index]? = some e → e.kind = .read → h.Sees (.init :: before) t index e

/-- The transactions run in intervals from a start to a commit. -/
structure SplitExecution (h : History κ ν) (order : List (TransactionId × Phase)) : Prop where
  once : ∀ t ∈ h.clientTransactions, ∀ phase, order.count (t.id, phase) = 1
  only : ∀ entry ∈ order, ∃ t ∈ h.clientTransactions, t.id = entry.1
  phases : ∀ t ∈ h.clientTransactions, [(t.id, Phase.start), (t.id, Phase.commit)].Sublist order
  /-- A transaction starts behind the commit of its session predecessor. -/
  session : ∀ t ∈ h.clientTransactions, ∀ u ∈ h.clientTransactions, t.id.session = u.id.session →
    t.id.height + 1 = u.id.height → [(t.id, Phase.commit), (u.id, Phase.start)].Sublist order
  reads : ∀ t ∈ h.clientTransactions, ∀ before after, order = before ++ (t.id, .start) :: after →
    ∀ index e, t.events[index]? = some e → e.kind = .read →
      h.Sees (.init :: committedIn before) t index e
  /-- The intervals of transactions that store a common key do not overlap. -/
  separate : ∀ t ∈ h.clientTransactions, ∀ u ∈ h.clientTransactions, t.id ≠ u.id →
    (∃ key, t.Stores key ∧ u.Stores key) →
    [(t.id, Phase.commit), (u.id, Phase.start)].Sublist order ∨
      [(u.id, Phase.commit), (t.id, Phase.start)].Sublist order

end History

section Lists

variable {α : Type} [BEq α] [LawfulBEq α] {l : List α}

/-- In a list without repeats, an entry stands before another one if its position is smaller, also when
    something is put in front of the list. -/
theorem pair_sublist_iff_idxOf_lt {first a b : α} (hnodup : (first :: l).Nodup) (ha : a ∈ l)
    (hb : b ∈ l) : [a, b].Sublist l ↔ (first :: l).idxOf a < (first :: l).idxOf b := by
  rcases List.nodup_cons.mp hnodup with ⟨hfirst, hl⟩
  have hne : ∀ {x}, x ∈ l → first ≠ x := by
    rintro x hx rfl
    exact hfirst hx
  rw [List.idxOf_cons_ne _ (hne ha), List.idxOf_cons_ne _ (hne hb), Nat.succ_lt_succ_iff]
  constructor
  · intro hsub
    exact List.pairwise_iff_forall_sublist.mp (pairwise_idxOf_lt hl) hsub
  · intro hlt
    rcases List.append_of_mem hb with ⟨before, after, hsplit⟩
    have hbefore : a ∈ before := (mem_prefix_iff_idxOf_lt hl hsplit a).mpr hlt
    rw [hsplit]
    exact (List.singleton_sublist.mpr hbefore).append
      (List.singleton_sublist.mpr List.mem_cons_self)

/-- The members are exactly the things with a property, each listed once. -/
theorem count_eq_one_iff_nodup (P : α → Prop) :
    ((∀ x, P x → l.count x = 1) ∧ ∀ x ∈ l, P x) ↔ l.Nodup ∧ ∀ x, x ∈ l ↔ P x := by
  constructor
  · rintro ⟨honce, honly⟩
    refine ⟨List.nodup_iff_count.mpr (fun x => ?_), fun x => ⟨honly x, fun hx => ?_⟩⟩
    · by_cases hx : x ∈ l
      · exact Nat.le_of_eq (honce x (honly x hx))
      · rw [List.count_eq_zero_of_not_mem hx]
        exact Nat.zero_le 1
    · exact List.count_pos_iff.mp (by rw [honce x hx]; exact Nat.one_pos)
  · rintro ⟨hnodup, hmem⟩
    refine ⟨fun x hx => ?_, fun x hx => (hmem x).mp hx⟩
    exact List.count_eq_one_of_mem hnodup ((hmem x).mpr hx)

end Lists

variable [DecidableEq κ]

theorem Event.writesKey_eq_true_iff_kind (e : Event κ ν) (key : κ) :
    e.writesKey key = true ↔ e.kind = .write ∧ e.key = key := by
  rw [writesKey_iff, isWrite, beq_iff_eq]

theorem Event.writesKey_eq_false_iff_kind (e : Event κ ν) (key : κ) :
    e.writesKey key = false ↔ (e.kind = .write → e.key ≠ key) := by
  rw [← Bool.not_eq_true, e.writesKey_eq_true_iff_kind, not_and]

namespace Transaction

variable (t : Transaction κ ν) (key : κ)

/-- The latest write among the first events is found by looking back from there. -/
theorem latestWrite_iff {index : Nat} (hle : index ≤ t.events.length) (value : ν) :
    t.LatestWrite key index value ↔ t.ownValue? key index = some value := by
  rw [t.ownValue?_eq_bind_lastWriteBefore? key index hle, Option.bind_eq_some_iff]
  simp only [t.lastWriteBefore?_eq_some_iff key index _ hle, Option.map_eq_some_iff,
    Event.writesKey_eq_true_iff_kind, Event.writesKey_eq_false_iff_kind]
  constructor
  · rintro ⟨i, e, hlt, he, hkind, hkey, hvalue, hlast⟩
    exact ⟨i, ⟨hlt, ⟨e, he, hkind, hkey⟩, hlast⟩, e, he, hvalue⟩
  · rintro ⟨i, ⟨hlt, ⟨e, he, hkind, hkey⟩, hlast⟩, e', he', hvalue⟩
    rw [he, Option.some.injEq] at he'
    subst he'
    exact ⟨i, e, hlt, he, hkind, hkey, hvalue, hlast⟩

theorem finalWrite_iff (value : ν) : t.FinalWrite key value ↔ t.finalValue? key = some value := by
  rw [FinalWrite, t.latestWrite_iff key (Nat.le_refl _), finalValue?_eq_ownValue?]

theorem stores_iff : t.Stores key ↔ t.writesKey key = true := by
  simp only [Stores, writesKey, List.any_eq_true, Event.writesKey_eq_true_iff_kind]

end Transaction

namespace History.WellFormed

variable {h : History κ ν} (hw : h.WellFormed)

include hw

/-- What was last stored is the first thing that is found looking back over the listed transactions. -/
theorem lastStored_iff (listed : List TransactionId) (key : κ) (value : ν) :
    h.LastStored listed key value ↔ latestValue? (h.installedBy listed) key = some value := by
  have hreverse : latestValue? (h.installedBy listed) key =
      listed.reverse.findSome? fun id => (h.transaction? id).bind fun t => t.finalValue? key := by
    rw [latestValue?, History.installedBy, ← List.filterMap_reverse, ← List.head?_filterMap,
      List.filterMap_filterMap, List.head?_filterMap]
  rw [hreverse, List.findSome?_eq_some_iff]
  constructor
  · rintro ⟨older, w, newer, rfl, hmem, hfinal, hnone⟩
    refine ⟨newer.reverse, w.id, older.reverse, ?_, ?_, ?_⟩
    · rw [List.reverse_append, List.reverse_cons, List.append_assoc, List.singleton_append]
    · rw [hw.lookup_id hmem, Option.bind_some]
      exact (w.finalWrite_iff key value).mp hfinal
    · intro id hid
      rw [Option.bind_eq_none_iff]
      intro u hu
      have hstores := hnone u (h.mem_transactions_of_lookup hu)
        (by rw [hw.transaction_id id u hu]; exact List.mem_reverse.mp hid)
      rwa [u.stores_iff, Bool.not_eq_true, ← u.finalValue?_eq_none_iff] at hstores
  · rintro ⟨newer, id, older, hsplit, hfound, hnone⟩
    rcases Option.bind_eq_some_iff.mp hfound with ⟨w, hlook, hfinal⟩
    refine ⟨older.reverse, w, newer.reverse, ?_, h.mem_transactions_of_lookup hlook,
      (w.finalWrite_iff key value).mpr hfinal, ?_⟩
    · rw [hw.transaction_id id w hlook, ← List.reverse_reverse listed, hsplit, List.reverse_append,
        List.reverse_cons, List.append_assoc, List.singleton_append]
    · intro u hu hid
      have hstores := hnone u.id (List.mem_reverse.mp hid)
      rw [hw.lookup_id hu, Option.bind_some, u.finalValue?_eq_none_iff] at hstores
      rw [u.stores_iff, hstores]
      exact Bool.false_ne_true

theorem sees_iff (listed : List TransactionId) {t : Transaction κ ν} {index : Nat} {e : Event κ ν}
    (he : t.events[index]? = some e) :
    h.Sees listed t index e ↔
      (t.ownValue? e.key index).or (latestValue? (h.installedBy listed) e.key) = some e.value := by
  have hle : index ≤ t.events.length := Nat.le_of_lt (List.getElem?_eq_some_iff.mp he).1
  have hnone : (∀ value, ¬ t.LatestWrite e.key index value) ↔ t.ownValue? e.key index = none := by
    simp only [t.latestWrite_iff e.key hle, Option.eq_none_iff_forall_ne_some, ne_eq]
  rw [Sees, hnone, t.latestWrite_iff e.key hle, hw.lastStored_iff, Option.or_eq_some_iff]

/-- The reads of a transaction match what the listed transactions have installed if they see it. -/
theorem readsMatch_iff_sees [DecidableEq ν] (listed : List TransactionId) (t : Transaction κ ν) :
    t.readsMatch (latestValue? (h.installedBy listed)) = true ↔
      ∀ index e, t.events[index]? = some e → e.kind = .read → h.Sees listed t index e := by
  rw [t.readsMatch_iff]
  constructor
  · intro hmatch index e he hread
    rw [hw.sees_iff listed he]
    exact hmatch index e he (by rw [Event.isRead, hread]; rfl)
  · intro hsees index e he hread
    rw [Event.isRead, beq_iff_eq] at hread
    exact (hw.sees_iff listed he).mp (hsees index e he hread)

omit [DecidableEq κ] in
theorem forall_client_iff (P : TransactionId → Prop) :
    (∀ t ∈ h.clientTransactions, P t.id) ↔ ∀ id, h.IsClient id → P id := by
  constructor
  · intro hall id hid
    rcases List.mem_map.mp ((hw.mem_clientIds_iff id).mpr hid) with ⟨t, ht, rfl⟩
    exact hall t ht
  · intro hall t ht
    exact hall t.id (hw.isClient_of_mem ht)

omit [DecidableEq κ] in
theorem exists_client_iff (id : TransactionId) :
    (∃ t ∈ h.clientTransactions, t.id = id) ↔ h.IsClient id := by
  rw [← hw.mem_clientIds_iff, List.mem_map]

end History.WellFormed

theorem Schedule.Explains.commit_lt_start_of_session {s : Schedule} {h : History κ ν}
    (hs : s.Explains h) {a b : TransactionId} (hb : h.IsClient b) (hsame : a.session = b.session)
    (hlt : a.height < b.height) : s.commit a < s.start b := by
  rcases a with ⟨session, height⟩
  rcases b with ⟨session', height'⟩
  simp only at hsame
  subst hsame
  exact hs.commit_lt_start hb hlt

section Serial

variable [DecidableEq ν] {h : History κ ν} {order : List TransactionId}

omit [DecidableEq κ] [DecidableEq ν] in
/-- Sessions ascend if earlier transactions of a session stand before later ones. -/
theorem ascending_of_sublist (hw : h.WellFormed) (hnodup : order.Nodup)
    (hmem : ∀ id, id ∈ order ↔ h.IsClient id)
    (hsession : ∀ t ∈ h.clientTransactions, ∀ u ∈ h.clientTransactions,
      t.id.session = u.id.session → t.id.height < u.id.height → [t.id, u.id].Sublist order) :
    Ascending order := by
  rw [Ascending, List.pairwise_iff_forall_sublist]
  intro a b hsub hsame
  have ha : a ∈ order := hsub.subset List.mem_cons_self
  have hb : b ∈ order := hsub.subset (List.mem_cons_of_mem _ List.mem_cons_self)
  have hlt := (pair_sublist_iff_idxOf_lt (nodup_init_cons hnodup hmem) ha hb).mp hsub
  rcases Nat.lt_trichotomy a.height b.height with hless | hequal | hgreater
  · exact hless
  · -- Equal heights make the entries equal, and no entry stands before itself.
    have heq : a = b := by
      rcases a with ⟨session, height⟩
      rcases b with ⟨session', height'⟩
      rw [TransactionId.mk.injEq]
      exact ⟨hsame, hequal⟩
    rw [heq] at hlt
    exact absurd hlt (Nat.lt_irrefl _)
  · -- The later transaction of the session would stand on both sides.
    rcases (hw.exists_client_iff a).mpr ((hmem a).mp ha) with ⟨t, ht, rfl⟩
    rcases (hw.exists_client_iff b).mpr ((hmem b).mp hb) with ⟨u, hu, rfl⟩
    have hback := (pair_sublist_iff_idxOf_lt (nodup_init_cons hnodup hmem) hb ha).mp
      (hsession u hu t ht hsame.symm hgreater)
    omega

theorem commitOrder_explains_iff_execution (hw : h.WellFormed) (order : List TransactionId) :
    (Witness.commitOrder order).explains h = true ↔ h.SerialExecution order := by
  have hlisted := count_eq_one_iff_nodup (l := order) fun id => h.IsClient id
  rw [commitOrder_explains_iff hw order]
  constructor
  · rintro ⟨hnodup, hmem, hs⟩
    rcases hlisted.mpr ⟨hnodup, hmem⟩ with ⟨honce, honly⟩
    refine ⟨(hw.forall_client_iff _).mpr honce,
      fun id hid => (hw.exists_client_iff id).mpr (honly id hid), ?_, ?_⟩
    · intro t ht u hu hsame hlt
      have hid := hw.isClient_of_mem ht
      have hid' := hw.isClient_of_mem hu
      rw [pair_sublist_iff_idxOf_lt (nodup_init_cons hnodup hmem) ((hmem _).mpr hid)
        ((hmem _).mpr hid')]
      exact hs.commit_lt_start_of_session hid' hsame hlt
    · intro t ht before after hsplit
      rcases replay_of_explains hnodup hmem hw hs hsplit with ⟨u, hu, hmatch⟩
      rw [hw.lookup_id (History.mem_transactions_of_client ht), Option.some.injEq] at hu
      rwa [← hu, ← History.installedBy_init_cons, hw.readsMatch_iff_sees] at hmatch
  · rintro ⟨honce, honly, hsession, hreads⟩
    rcases hlisted.mp ⟨(hw.forall_client_iff _).mp honce,
      fun id hid => (hw.exists_client_iff id).mp (honly id hid)⟩ with ⟨hnodup, hmem⟩
    refine ⟨hnodup, hmem, explains_of_replay hnodup hmem hw
      (ascending_of_sublist hw hnodup hmem hsession) ?_⟩
    intro before id after hsplit
    have hid : id ∈ order := by
      rw [hsplit]
      exact List.mem_append_right _ List.mem_cons_self
    rcases (hw.exists_client_iff id).mpr ((hmem id).mp hid) with ⟨t, ht, rfl⟩
    refine ⟨t, hw.lookup_id (History.mem_transactions_of_client ht), ?_⟩
    rw [← History.installedBy_init_cons, hw.readsMatch_iff_sees]
    exact hreads t ht before after hsplit

end Serial

section Split

variable [DecidableEq ν] {h : History κ ν} {order : List (TransactionId × Phase)}

omit [DecidableEq κ] [DecidableEq ν] in
theorem pair_sublist_iff_fullOrder (hnodup : order.Nodup)
    (hmem : ∀ id phase, (id, phase) ∈ order ↔ h.IsClient id) {a b : TransactionId} {p q : Phase}
    (ha : h.IsClient a) (hb : h.IsClient b) : [(a, p), (b, q)].Sublist order ↔
      (fullOrder order).idxOf (a, p) < (fullOrder order).idxOf (b, q) :=
  pair_sublist_iff_idxOf_lt (nodup_fullOrder hnodup hmem) ((hmem _ _).mpr ha) ((hmem _ _).mpr hb)

/-- The replay of a split commit order accepts the executions in intervals. -/
theorem splitOrder_explains_iff_execution (hw : h.WellFormed)
    (order : List (TransactionId × Phase)) :
    (Witness.splitOrder order).explains h = true ↔ h.SplitExecution order := by
  have hlisted := count_eq_one_iff_nodup (l := order) fun entry => h.IsClient entry.1
  rw [splitOrder_explains_iff hw order]
  constructor
  · rintro ⟨hnodup, hmem, hs⟩
    rcases hlisted.mpr ⟨hnodup, fun entry => hmem entry.1 entry.2⟩ with ⟨honce, honly⟩
    refine ⟨fun t ht phase => honce _ (hw.isClient_of_mem ht),
      fun entry hentry => (hw.exists_client_iff _).mpr (honly entry hentry), ?_, ?_, ?_, ?_⟩
    · intro t ht
      have hid := hw.isClient_of_mem ht
      rw [pair_sublist_iff_fullOrder hnodup hmem hid hid]
      exact Nat.lt_of_le_of_ne (hs.start_le_commit t.id hid)
        (splitPositions_start_ne_commit hmem hid)
    · intro t ht u hu hsame hnext
      have hid' := hw.isClient_of_mem hu
      rw [pair_sublist_iff_fullOrder hnodup hmem (hw.isClient_of_mem ht) hid']
      exact hs.commit_lt_start_of_session hid' hsame (by omega)
    · intro t ht before after hsplit
      rw [← hw.readsMatch_iff_sees, readsMatch_splitPositions_iff hnodup hmem hw hsplit]
      exact hs.reads t ht
    · intro t ht u hu hne hshare
      have hid := hw.isClient_of_mem ht
      have hid' := hw.isClient_of_mem hu
      rw [pair_sublist_iff_fullOrder hnodup hmem hid hid',
        pair_sublist_iff_fullOrder hnodup hmem hid' hid]
      simp only [Transaction.stores_iff] at hshare
      exact hs.separate t ht u hu hne hshare
  · rintro ⟨honce, honly, hphases, hsession, hreads, hseparate⟩
    have hcount : ∀ entry : TransactionId × Phase, h.IsClient entry.1 → order.count entry = 1 := by
      rintro ⟨id, phase⟩ hid
      exact (hw.forall_client_iff fun id => order.count (id, phase) = 1).mp
        (fun t ht => honce t ht phase) id hid
    rcases hlisted.mp ⟨hcount, fun entry hentry => (hw.exists_client_iff _).mp (honly entry hentry)⟩
      with ⟨hnodup, hentries⟩
    have hmem : ∀ id phase, (id, phase) ∈ order ↔ h.IsClient id := fun id phase => hentries (id, phase)
    refine ⟨hnodup, hmem, ?_, fun id _ => splitPositions_commit_init_lt order id,
      fun a b ha _ => splitPositions_commit_inj hmem ha, ?_, ?_, ?_⟩
    · intro id hid
      rcases (hw.exists_client_iff id).mpr hid with ⟨t, ht, rfl⟩
      exact Nat.le_of_lt ((pair_sublist_iff_fullOrder hnodup hmem hid hid).mp (hphases t ht))
    · intro session height hnext
      have hthis := hnext.of_le (Nat.le_succ height)
      rcases (hw.exists_client_iff _).mpr hthis with ⟨t, ht, htid⟩
      rcases (hw.exists_client_iff _).mpr hnext with ⟨u, hu, huid⟩
      have hsub := hsession t ht u hu (by rw [htid, huid]) (by rw [htid, huid])
      rw [htid, huid] at hsub
      exact (pair_sublist_iff_fullOrder hnodup hmem hthis hnext).mp hsub
    · intro t ht
      rcases List.append_of_mem ((hmem t.id .start).mpr (hw.isClient_of_mem ht)) with
        ⟨before, after, hsplit⟩
      rw [← readsMatch_splitPositions_iff hnodup hmem hw hsplit, hw.readsMatch_iff_sees]
      exact hreads t ht before after hsplit
    · intro t ht u hu hne hshare
      simp only [← Transaction.stores_iff] at hshare
      have hid := hw.isClient_of_mem ht
      have hid' := hw.isClient_of_mem hu
      have hapart := hseparate t ht u hu hne hshare
      rwa [pair_sublist_iff_fullOrder hnodup hmem hid hid',
        pair_sublist_iff_fullOrder hnodup hmem hid' hid] at hapart

end Split

/-- A replay accepts the executions of a history and nothing else, whatever list it is given. -/
theorem explains_iff_execution [DecidableEq ν] {h : History κ ν} (hbuilt : h.Built) :
    (∀ order, (Witness.commitOrder order).explains h = true ↔ h.SerialExecution order) ∧
      ∀ order, (Witness.splitOrder order).explains h = true ↔ h.SplitExecution order :=
  ⟨commitOrder_explains_iff_execution hbuilt.wellFormed,
    splitOrder_explains_iff_execution hbuilt.wellFormed⟩

/-- Two transactions that each overwrite what the other has read cannot run one after the other, but they
    can run at the same time. -/
theorem explains_iff_execution_writeSkew : writeSkew.Built ∧
    (¬ writeSkew.SerialExecution [⟨1, 0⟩, ⟨2, 0⟩] ∧ ¬ writeSkew.SerialExecution [⟨2, 0⟩, ⟨1, 0⟩]) ∧
    writeSkew.SplitExecution
      [(⟨1, 0⟩, .start), (⟨2, 0⟩, .start), (⟨1, 0⟩, .commit), (⟨2, 0⟩, .commit)] := by
  have hreplay := explains_iff_execution built_writeSkew
  refine ⟨built_writeSkew, ⟨?_, ?_⟩, (hreplay.2 _).mp (by decide +kernel)⟩
  · rw [← hreplay.1]
    decide +kernel
  · rw [← hreplay.1]
    decide +kernel

end Isolation
