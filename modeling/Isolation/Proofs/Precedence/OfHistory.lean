import Isolation.Proofs.History.Reads
import Isolation.Proofs.Precedence.Orders

/-!
# What is Known About a History

Two things are known about the order of the transactions of a history before anything is decided. The
transactions of a session come one after the other, the first one behind the init transaction. And a
transaction that reads a value comes after the one that wrote it.

For a history without local faults the reads across transactions are those of `History.ReadsFrom`: the
value read is the last one that the writer has left behind, and the reader has not overwritten it itself.

## Main definitions

* `History.SessionStep`: One transaction is the next one behind another in its session.

## Theorems

* `depends_ofHistory_iff`, `linked_ofHistory_iff`: What is known are session steps and reads.
-/

namespace Isolation

variable {κ ν : Type}

namespace History

/-- One transaction is the next one behind another in its session; the first one of a session is behind
    the init transaction. -/
def SessionStep (h : History κ ν) (a b : TransactionId) : Prop :=
  h.IsClient b ∧ (b.height = 0 ∧ a = .init ∨ ∃ height, b.height = height + 1 ∧ a = ⟨b.session, height⟩)

theorem WellFormed.mem_sessionPairs_iff {h : History κ ν} (hw : h.WellFormed) (a b : TransactionId) :
    (a, b) ∈ h.sessions.flatMap Precedence.sessionPairs ↔ h.SessionStep a b := by
  have hids : ∀ {index : Nat} {s : Session κ ν}, h.sessions[index]? = some s → ∀ height id,
      (s.transactions.map Transaction.id)[height]? = some id ↔
        height < s.transactions.length ∧ id = ⟨index + 1, height⟩ := by
    intro index s hs height id
    rw [List.getElem?_map, Option.map_eq_some_iff]
    constructor
    · rintro ⟨t, ht, rfl⟩
      exact ⟨(List.getElem?_eq_some_iff.mp ht).1, hw.id_of_mem_session hs ht⟩
    · rintro ⟨hlt, rfl⟩
      have ht := List.getElem?_eq_getElem hlt
      exact ⟨_, ht, hw.id_of_mem_session hs ht⟩
  rw [List.mem_flatMap]
  constructor
  · rintro ⟨s, hs, hpair⟩
    rcases List.mem_iff_getElem?.mp hs with ⟨index, hindex⟩
    rcases List.mem_iff_getElem?.mp hpair with ⟨i, hi⟩
    rw [Precedence.sessionPairs, List.getElem?_zip_eq_some] at hi
    rcases (hids hindex i b).mp hi.2 with ⟨hlt, rfl⟩
    refine ⟨(isClient_succ_iff hindex i).mpr hlt, ?_⟩
    cases i with
    | zero =>
      rw [List.getElem?_cons_zero, Option.some.injEq] at hi
      exact Or.inl ⟨rfl, hi.1.symm⟩
    | succ i =>
      rw [List.getElem?_cons_succ] at hi
      exact Or.inr ⟨i, rfl, ((hids hindex i a).mp hi.1).2⟩
  · rintro ⟨hclient, hstep⟩
    rcases hclient.exists_session with ⟨index, s, hs, hid, hlt⟩
    refine ⟨s, List.mem_of_getElem? hs, List.mem_iff_getElem?.mpr ⟨b.height, ?_⟩⟩
    rw [Precedence.sessionPairs, List.getElem?_zip_eq_some]
    refine ⟨?_, (hids hs b.height _).mpr ⟨hlt, hid⟩⟩
    rcases hstep with ⟨hzero, rfl⟩ | ⟨k, hk, rfl⟩
    · rw [hzero, List.getElem?_cons_zero]
    · rw [hk, List.getElem?_cons_succ]
      exact (hids hs k _).mpr ⟨by omega, by rw [hid]⟩

variable [DecidableEq κ] [DecidableEq ν]

theorem WellFormed.writerOf?_of_ownValue? {h : History κ ν} (hw : h.WellFormed) {t : Transaction κ ν}
    (ht : t ∈ h.transactions) {key : κ} {index : Nat} {value : ν}
    (hown : t.ownValue? key index = some value) :
    ∃ i, h.writerOf? key value = some ⟨t.id, i⟩ := by
  rcases Option.map_eq_some_iff.mp hown with ⟨e, hfind, hvalue⟩
  have hmem := List.mem_of_mem_take (List.mem_reverse.mp (List.mem_of_find?_eq_some hfind))
  rcases (writesKey_iff key e).mp (List.find?_some hfind) with ⟨hwrite, hkey⟩
  rcases List.mem_iff_getElem?.mp hmem with ⟨i, hi⟩
  refine ⟨i, (hw.writerOf?_eq_some_iff key value _).mpr ⟨e, ?_, ?_⟩⟩
  · rw [event?_mk, hw.lookup_id ht, Option.bind_some, hi]
  · exact (writes_iff key value e).mpr ⟨hwrite, hkey, hvalue⟩

theorem WellFormed.mem_readsOf_iff {h : History κ ν} (hw : h.WellFormed) (hcons : h.Consistent)
    (r : ReadFrom κ) :
    r ∈ h.transactions.flatMap (Precedence.readsOf h) ↔ h.ReadsFrom r.key r.writer r.reader := by
  simp only [List.mem_flatMap, Precedence.readsOf, List.mem_filterMap, Option.bind_eq_some_iff,
    Option.ite_none_left_eq_some, Option.some.injEq, Transaction.reads, List.mem_filter]
  constructor
  · rintro ⟨t, ht, e, ⟨he, hread⟩, write, hwriter, hother, rfl⟩
    rcases List.mem_iff_getElem?.mp he with ⟨index, hindex⟩
    rcases hcons.supported t ht index e hindex hread with hown | ⟨hown, w, hmem, _, hfinal⟩
    · rcases hw.writerOf?_of_ownValue? ht hown with ⟨i, hi⟩
      rw [hi, Option.some.injEq] at hwriter
      exact absurd (by rw [← hwriter]) hother
    · rcases hw.writerOf?_of_finalValue? hmem hfinal with ⟨i, hi, _⟩
      rw [hi, Option.some.injEq] at hwriter
      refine ⟨hother, t, index, e, w, hw.lookup_id ht, hindex, hread, rfl, hown, ?_, hfinal⟩
      rw [← hwriter]
      exact hw.lookup_id hmem
  · rintro ⟨hne, t, index, e, w, ht, he, hread, hkey, hown, hlookw, hfinal⟩
    have hmem := h.mem_transactions_of_lookup hlookw
    rcases hw.writerOf?_of_finalValue? hmem hfinal with ⟨i, hi, _⟩
    have htid := hw.transaction_id _ t ht
    have hwid := hw.transaction_id _ w hlookw
    refine ⟨t, h.mem_transactions_of_lookup ht, e, ⟨List.mem_of_getElem? he, hread⟩, ⟨w.id, i⟩,
      by rw [hkey]; exact hi, ?_, ?_⟩
    · rw [htid, hwid]
      exact hne
    · rw [htid, hwid, hkey]

end History

namespace Precedence

variable [DecidableEq κ] [DecidableEq ν] {h : History κ ν} (hw : h.WellFormed)

omit [DecidableEq κ] [DecidableEq ν] in
theorem HasEdge.not_nil {sort : LabelledEdge κ → Prop} {a b : TransactionId} :
    ¬ HasEdge [] sort a b := by
  rintro ⟨e, he, _⟩
  exact absurd he List.not_mem_nil

theorem ofHistory_spec (h : History κ ν) (a b : TransactionId) :
    (ofHistory h).nodes = h.transactions.map Transaction.id ∧
    (ofHistory h).reads = h.transactions.flatMap (readsOf h) ∧
    ((ofHistory h).Depends a b ↔ (a ∈ (ofHistory h).nodes ∧ b ∈ (ofHistory h).nodes) ∧
      ((a, b) ∈ h.sessions.flatMap sessionPairs ∨
        ∃ r ∈ h.transactions.flatMap (readsOf h), a = r.writer ∧ b = r.reader)) ∧
    ((ofHistory h).Linked a b ↔ (ofHistory h).Depends a b) := by
  let start : Precedence κ :=
    ⟨h.transactions.map Transaction.id, [], h.transactions.flatMap (readsOf h)⟩
  rcases foldl_addEdge_spec start Prod.fst Prod.snd (fun _ => .session)
    (h.sessions.flatMap sessionPairs) a b with ⟨hnodes, hreads, hdepends, hlinked⟩
  rcases foldl_addEdge_spec ((h.sessions.flatMap sessionPairs).foldl
      (fun g p => g.addEdge p.1 p.2 .session) start) ReadFrom.writer ReadFrom.reader
    (fun r => .keyed .writeRead r.key) (h.transactions.flatMap (readsOf h)) a b with
    ⟨hnodes', hreads', hdepends', hlinked'⟩
  have hnone : ¬ start.Depends a b := fun hc => HasEdge.not_nil hc.2
  have hnone' : ¬ start.Linked a b := fun hc => HasEdge.not_nil hc.2
  have hpair : ∀ {p : TransactionId × TransactionId}, (a = p.1 ∧ b = p.2) ↔ p = (a, b) := by
    intro p
    rw [Prod.ext_iff, eq_comm, eq_comm (a := b)]
  rw [hdepends, or_iff_right hnone, hnodes, ← and_or_left] at hdepends'
  rw [hlinked, or_iff_right hnone', hnodes, ← and_or_left] at hlinked'
  simp only [Label.session, Label.keyed, Label.isAnti, beq_eq_false_iff_ne, ne_eq, reduceCtorEq,
    not_false_eq_true, and_true, hpair, exists_eq_right] at hdepends' hlinked'
  refine ⟨hnodes'.trans hnodes, hreads'.trans hreads, ?_, hlinked'.trans hdepends'.symm⟩
  rw [show (ofHistory h).nodes = start.nodes from hnodes'.trans hnodes]
  exact hdepends'

theorem nodes_ofHistory (h : History κ ν) :
    (ofHistory h).nodes = h.transactions.map Transaction.id :=
  (ofHistory_spec h .init .init).1

include hw

theorem nodup_nodes_ofHistory : (ofHistory h).nodes.Nodup := by
  rw [nodes_ofHistory]
  exact hw.nodup_ids

theorem nodup_nodes_foldl_addEdge {γ : Type} (source target : γ → TransactionId) (label : γ → Label κ)
    (l : List γ) :
    (l.foldl (fun g x => g.addEdge (source x) (target x) (label x)) (ofHistory h)).nodes.Nodup := by
  rw [(foldl_addEdge_spec (ofHistory h) source target label l .init .init).1]
  exact nodup_nodes_ofHistory hw

theorem mem_reads_ofHistory_iff (hcons : h.Consistent) (r : ReadFrom κ) :
    r ∈ (ofHistory h).reads ↔ h.ReadsFrom r.key r.writer r.reader := by
  rw [(ofHistory_spec h .init .init).2.1]
  exact hw.mem_readsOf_iff hcons r

theorem mem_readers_ofHistory_iff (hcons : h.Consistent) (key : κ) (writer reader : TransactionId) :
    reader ∈ (ofHistory h).readers key writer ↔ h.ReadsFrom key writer reader := by
  simp only [readers, List.mem_eraseDups, List.mem_map, List.mem_filter, Bool.and_eq_true,
    decide_eq_true_eq, mem_reads_ofHistory_iff hw hcons]
  constructor
  · rintro ⟨r, ⟨hr, rfl, rfl⟩, rfl⟩
    exact hr
  · intro hr
    exact ⟨⟨key, writer, reader⟩, ⟨hr, rfl, rfl⟩, rfl⟩

/-- What is known are session steps and reads. -/
theorem depends_ofHistory_iff (hcons : h.Consistent) (a b : TransactionId) :
    (ofHistory h).Depends a b ↔ h.SessionStep a b ∨ ∃ key, h.ReadsFrom key a b := by
  have hmem : ∀ {id t}, h.transaction? id = some t → id ∈ (ofHistory h).nodes := by
    intro id t ht
    rw [nodes_ofHistory, hw.mem_ids_iff]
    exact ⟨t, ht⟩
  rw [(ofHistory_spec h a b).2.2.1, hw.mem_sessionPairs_iff]
  constructor
  · rintro ⟨_, hstep | ⟨r, hr, rfl, rfl⟩⟩
    · exact Or.inl hstep
    · exact Or.inr ⟨r.key, (hw.mem_readsOf_iff hcons r).mp hr⟩
  · rintro (hstep | ⟨key, hread⟩)
    · refine ⟨⟨?_, ?_⟩, Or.inl hstep⟩
      · rcases hstep with ⟨hclient, ⟨_, rfl⟩ | ⟨height, hheight, rfl⟩⟩
        · exact hmem h.transaction?_init
        · rcases b with ⟨session, top⟩
          simp only at hheight
          rw [hheight] at hclient
          rcases (hclient.of_le (Nat.le_succ height)).2 with ⟨t, ht⟩
          exact hmem ht
      · rcases hstep.1.2 with ⟨t, ht⟩
        exact hmem ht
    · refine ⟨?_, Or.inr ⟨⟨key, a, b⟩, (hw.mem_readsOf_iff hcons _).mpr hread, rfl, rfl⟩⟩
      rcases hread with ⟨_, t, _, _, w, ht, _, _, _, _, hlookw, _⟩
      exact ⟨hmem hlookw, hmem ht⟩

theorem linked_ofHistory_iff (hcons : h.Consistent) (a b : TransactionId) :
    (ofHistory h).Linked a b ↔ h.SessionStep a b ∨ ∃ key, h.ReadsFrom key a b :=
  (ofHistory_spec h a b).2.2.2.trans (depends_ofHistory_iff hw hcons a b)

end Precedence

end Isolation
