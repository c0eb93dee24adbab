import Mathlib
import Isolation.History.Consistency
import Isolation.Proofs.Lists
import Isolation.Proofs.Text.Reading
import Isolation.Recorded.Load

/-!
# Well-Formed Histories

What every history has in common that the five building steps can produce, whatever the order in which
they are taken. The steps refuse what would break it, so it is an invariant of building and not a
condition on the recording.

Three things are kept. The init transaction holds nothing but writes and has its own identifier. A
transaction is found under the identifier that it carries, so a transaction and its identifier are
interchangeable. No value is stored twice under the same key, at any two places of the history, so a value
read is as good as a place of the history: `writerOf?_eq_some_iff` says which.

## Main definitions

* `History.Built`, `History.WellFormed`: The histories that can be built, and the invariant.

## Theorems

* `Built.wellFormed`: Every history that was built is well-formed.
-/

namespace Isolation.History

variable {κ ν : Type} {id : TransactionId} {t : Transaction κ ν}

/-- The histories that the building steps produce. -/
inductive Built [DecidableEq κ] [DecidableEq ν] : History κ ν → Prop where
  | empty : Built .empty
  | addSession {h : History κ ν} : Built h → Built h.addSession.2
  | addTransaction {h h' : History κ ν} {session : Nat} {id : TransactionId} :
      Built h → h.addTransaction session = .ok (id, h') → Built h'
  | addEvent {h h' : History κ ν} {id : TransactionId} {kind : EventKind} {key : κ} {value : ν}
      {event : EventId} : Built h → h.addEvent id kind key value = .ok (event, h') → Built h'
  | addInitialWrite {h h' : History κ ν} {key : κ} {value : ν} {event : EventId} :
      Built h → h.addInitialWrite key value = .ok (event, h') → Built h'
  | commit {h h' : History κ ν} {id : TransactionId} :
      Built h → h.commit id = .ok h' → Built h'

/-- The event at a place of a history. -/
def event? (h : History κ ν) (id : EventId) : Option (Event κ ν) :=
  (h.transaction? id.transaction).bind fun t => t.events[id.index]?

/-- What the building steps keep. -/
structure WellFormed (h : History κ ν) : Prop where
  init_id : h.init.id = .init
  init_writes : ∀ e ∈ h.init.events, e.isWrite = true
  session_id : ∀ index s, h.sessions[index]? = some s → s.id = index + 1
  transaction_id : ∀ id t, h.transaction? id = some t → t.id = id
  /-- No value is stored twice under the same key. -/
  written_once : ∀ a b e f, h.event? a = some e → h.event? b = some f → e.isWrite = true →
    f.isWrite = true → e.key = f.key → e.value = f.value → a = b

/-- The identifier belongs to a transaction of a session. -/
def IsClient (h : History κ ν) (id : TransactionId) : Prop :=
  id.isInit = false ∧ ∃ t, h.transaction? id = some t

theorem IsClient.ne_init {h : History κ ν} (hid : h.IsClient id) : id ≠ .init := by
  rintro rfl
  exact absurd hid.1 (by decide)

section Lookup

variable (h : History κ ν)

@[simp]
theorem transaction?_init : h.transaction? .init = some h.init := rfl

theorem transaction?_zero (height : Nat) :
    h.transaction? ⟨0, height⟩ = if height = 0 then some h.init else none := rfl

theorem transaction?_succ (index height : Nat) :
    h.transaction? ⟨index + 1, height⟩ =
      h.sessions[index]?.bind fun s => s.transactions[height]? := rfl

theorem event?_mk (id : TransactionId) (index : Nat) :
    h.event? ⟨id, index⟩ = (h.transaction? id).bind fun t => t.events[index]? := rfl

theorem eq_init_of_isInit (hid : id.isInit = true) (ht : h.transaction? id = some t) : id = .init := by
  rcases id with ⟨session, height⟩
  have hs : session = 0 := by simpa only [TransactionId.isInit, beq_iff_eq] using hid
  subst hs
  rw [transaction?_zero] at ht
  by_cases hh : height = 0
  · rw [hh, TransactionId.init]
  · rw [if_neg hh] at ht
    cases ht

theorem mem_clientTransactions_iff (t : Transaction κ ν) :
    t ∈ h.clientTransactions ↔ ∃ index height, h.transaction? ⟨index + 1, height⟩ = some t := by
  simp only [clientTransactions, List.mem_flatMap, transaction?_succ, Option.bind_eq_some_iff]
  constructor
  · rintro ⟨s, hs, ht⟩
    rcases List.mem_iff_getElem?.mp hs with ⟨index, hindex⟩
    rcases List.mem_iff_getElem?.mp ht with ⟨height, hheight⟩
    exact ⟨index, height, s, hindex, hheight⟩
  · rintro ⟨index, height, s, hindex, hheight⟩
    exact ⟨s, List.mem_of_getElem? hindex, List.mem_of_getElem? hheight⟩

theorem mem_transactions_iff (t : Transaction κ ν) :
    t ∈ h.transactions ↔ ∃ id, h.transaction? id = some t := by
  have hcons : t ∈ h.transactions ↔ t = h.init ∨ t ∈ h.clientTransactions := List.mem_cons
  rw [hcons, mem_clientTransactions_iff]
  constructor
  · rintro (rfl | ⟨index, height, ht⟩)
    · exact ⟨.init, rfl⟩
    · exact ⟨⟨index + 1, height⟩, ht⟩
  · rintro ⟨⟨session, height⟩, ht⟩
    cases session with
    | zero =>
      have hinit := h.eq_init_of_isInit rfl ht
      rw [hinit, transaction?_init, Option.some.injEq] at ht
      exact Or.inl ht.symm
    | succ index => exact Or.inr ⟨index, height, ht⟩

variable {h} in
theorem mem_transactions_of_client (ht : t ∈ h.clientTransactions) : t ∈ h.transactions :=
  List.mem_cons_of_mem h.init ht

theorem mem_transactions_of_lookup (ht : h.transaction? id = some t) : t ∈ h.transactions :=
  (h.mem_transactions_iff t).mpr ⟨id, ht⟩

end Lookup

section Modify

variable (h : History κ ν)

/-- A change of one transaction shows in its own lookup and in no other. -/
theorem transaction?_modifyTransaction (change : Transaction κ ν → Transaction κ ν)
    (ht : h.transaction? id = some t) (other : TransactionId) :
    (h.modifyTransaction id change).transaction? other =
      if other = id then some (change t) else h.transaction? other := by
  rcases id with ⟨session, height⟩
  rcases other with ⟨session', height'⟩
  cases session with
  | zero =>
    have hinit := h.eq_init_of_isInit rfl ht
    rw [hinit, transaction?_init, Option.some.injEq] at ht
    have hh : height = 0 := congrArg TransactionId.height hinit
    subst hh ht
    cases session' with
    | zero =>
      simp only [modifyTransaction, transaction?_zero, TransactionId.mk.injEq, true_and]
      by_cases hh : height' = 0
      · rw [if_pos hh, if_pos hh]
      · rw [if_neg hh, if_neg hh, if_neg hh]
    | succ index =>
      rw [if_neg (by simp)]
      rfl
  | succ index =>
    rw [transaction?_succ, Option.bind_eq_some_iff] at ht
    rcases ht with ⟨s, hs, hheight⟩
    cases session' with
    | zero =>
      rw [if_neg (by simp)]
      rfl
    | succ index' =>
      simp only [modifyTransaction, transaction?_succ, List.getElem?_modify,
        TransactionId.mk.injEq, Nat.add_right_cancel_iff]
      by_cases hindex : index = index'
      · subst hindex
        rw [hs]
        simp only [if_true, Option.map_eq_map, Option.map_some, Option.bind_some,
          List.getElem?_modify, true_and]
        by_cases hh : height = height'
        · subst hh
          rw [hheight]
          simp only [if_true, Option.map_some]
        · rw [if_neg (fun hc => hh hc.symm)]
          cases s.transactions[height']? <;> simp only [if_neg hh, Option.map_none,
            Option.map_some]
      · rw [if_neg (fun hc => hindex hc.1.symm)]
        cases h.sessions[index']? <;> simp only [if_neg hindex, Option.map_eq_map,
          Option.map_none, Option.map_some]

theorem session_id_modifyTransaction (id : TransactionId)
    (change : Transaction κ ν → Transaction κ ν)
    (hs : ∀ index s, h.sessions[index]? = some s → s.id = index + 1) :
    ∀ index s, (h.modifyTransaction id change).sessions[index]? = some s → s.id = index + 1 := by
  intro index s hget
  rcases id with ⟨session, height⟩
  cases session with
  | zero => exact hs index s hget
  | succ k =>
    simp only [modifyTransaction, List.getElem?_modify, Option.map_eq_map,
      Option.map_eq_some_iff] at hget
    rcases hget with ⟨s', hs', heq⟩
    have hid := hs index s' hs'
    by_cases hk : k = index
    · rw [if_pos hk] at heq
      rw [← heq]
      exact hid
    · rw [if_neg hk] at heq
      rw [← heq]
      exact hid

/-- What remains to be shown of a change of one transaction: what it does to the transaction itself. -/
theorem WellFormed.modifyTransaction {h : History κ ν} (hw : h.WellFormed)
    (change : Transaction κ ν → Transaction κ ν)
    (ht : h.transaction? id = some t) (hid : ∀ t, (change t).id = t.id)
    (hinit : id.isInit = true → ∀ e ∈ (change t).events, e.isWrite = true)
    (honce : ∀ a b e f, (h.modifyTransaction id change).event? a = some e →
      (h.modifyTransaction id change).event? b = some f → e.isWrite = true → f.isWrite = true →
      e.key = f.key → e.value = f.value → a = b) :
    (h.modifyTransaction id change).WellFormed := by
  have hlook := h.transaction?_modifyTransaction change ht
  have hself : (h.modifyTransaction id change).init = if TransactionId.init = id then change t
      else h.init := by
    have hl := hlook .init
    rw [transaction?_init, transaction?_init] at hl
    by_cases hc : TransactionId.init = id
    · rw [if_pos hc] at hl ⊢
      exact Option.some.inj hl
    · rw [if_neg hc] at hl ⊢
      exact Option.some.inj hl
  have htid := hw.transaction_id id t ht
  refine ⟨?_, ?_, session_id_modifyTransaction h id change hw.session_id, ?_, honce⟩
  · rw [hself]
    by_cases hc : TransactionId.init = id
    · rw [if_pos hc, hid, htid, hc]
    · rw [if_neg hc]
      exact hw.init_id
  · rw [hself]
    by_cases hc : TransactionId.init = id
    · rw [if_pos hc]
      exact hinit (by rw [← hc]; rfl)
    · rw [if_neg hc]
      exact hw.init_writes
  · intro other u hu
    rw [hlook] at hu
    by_cases hc : other = id
    · rw [if_pos hc, Option.some.injEq] at hu
      rw [← hu, hid, htid, hc]
    · rw [if_neg hc] at hu
      exact hw.transaction_id other u hu

end Modify

theorem WellFormed.lookup_id {h : History κ ν} (hw : h.WellFormed) (ht : t ∈ h.transactions) :
    h.transaction? t.id = some t := by
  rcases (h.mem_transactions_iff t).mp ht with ⟨id, hid⟩
  rw [hw.transaction_id id t hid]
  exact hid

section Writers

variable [DecidableEq κ] [DecidableEq ν]

theorem writes_iff (key : κ) (value : ν) (e : Event κ ν) :
    e.writes key value = true ↔ e.isWrite = true ∧ e.key = key ∧ e.value = value := by
  simp only [Event.writes, Bool.and_eq_true, beq_iff_eq, and_assoc]

/-- Nobody is the writer of a value that is stored nowhere. -/
theorem writerOf?_eq_none_iff (h : History κ ν) (key : κ) (value : ν) :
    h.writerOf? key value = none ↔
      ∀ place e, h.event? place = some e → e.writes key value = false := by
  simp only [writerOf?, List.findSome?_eq_none_iff, Option.map_eq_none_iff,
    List.findIdx?_eq_none_iff]
  constructor
  · rintro hnone ⟨id, index⟩ e he
    rw [event?_mk, Option.bind_eq_some_iff] at he
    rcases he with ⟨t, ht, hget⟩
    exact hnone t (h.mem_transactions_of_lookup ht) e (List.mem_of_getElem? hget)
  · intro hnone t ht e he
    rcases (h.mem_transactions_iff t).mp ht with ⟨id, hid⟩
    rcases List.mem_iff_getElem?.mp he with ⟨index, hget⟩
    refine hnone ⟨id, index⟩ e ?_
    rw [event?_mk, hid, Option.bind_some, hget]

/-- The writer of a value is where the value is stored. -/
theorem WellFormed.writerOf?_eq_some_iff {h : History κ ν} (hw : h.WellFormed) (key : κ) (value : ν)
    (place : EventId) :
    h.writerOf? key value = some place ↔
      ∃ e, h.event? place = some e ∧ e.writes key value = true := by
  have hsound : ∀ place, h.writerOf? key value = some place →
      ∃ e, h.event? place = some e ∧ e.writes key value = true := by
    intro place hplace
    rcases List.exists_of_findSome?_eq_some hplace with ⟨t, ht, hfind⟩
    rcases Option.map_eq_some_iff.mp hfind with ⟨index, hindex, rfl⟩
    rcases List.findIdx?_eq_some_iff_getElem.mp hindex with ⟨hlt, hwrites, _⟩
    refine ⟨t.events[index], ?_, hwrites⟩
    rw [event?_mk, hw.lookup_id ht, Option.bind_some, List.getElem?_eq_getElem hlt]
  constructor
  · exact hsound place
  · rintro ⟨e, he, hwrites⟩
    cases hfound : h.writerOf? key value with
    | none =>
      have := (h.writerOf?_eq_none_iff key value).mp hfound place e he
      rw [this] at hwrites
      exact absurd hwrites (by simp)
    | some place' =>
      -- Both places store the value, and it is stored only once.
      rcases hsound place' hfound with ⟨f, hf, hwrites'⟩
      rcases (writes_iff key value e).mp hwrites with ⟨he1, he2, he3⟩
      rcases (writes_iff key value f).mp hwrites' with ⟨hf1, hf2, hf3⟩
      rw [hw.written_once place' place f e hf he hf1 he1 (hf2.trans he2.symm)
        (hf3.trans he3.symm)]

end Writers

section Steps

theorem empty_wellFormed : (empty : History κ ν).WellFormed := by
  have hnone : ∀ place : EventId, (empty : History κ ν).event? place = none := by
    rintro ⟨⟨session, height⟩, index⟩
    cases session with
    | zero => cases height <;> rfl
    | succ s => rfl
  refine ⟨rfl, ?_, ?_, ?_, ?_⟩
  · intro e he
    exact absurd he List.not_mem_nil
  · intro index s hs
    exact absurd hs (by simp [empty])
  · rintro ⟨session, height⟩ t ht
    cases session with
    | zero =>
      have hinit := empty.eq_init_of_isInit rfl ht
      rw [hinit, transaction?_init, Option.some.injEq] at ht
      rw [hinit, ← ht]
      rfl
    | succ s => exact absurd ht (by simp [transaction?_succ, empty, Option.bind_none])
  · intro a b e f he
    rw [hnone a] at he
    cases he

theorem transaction?_addSession (h : History κ ν) (id : TransactionId) :
    h.addSession.2.transaction? id = h.transaction? id := by
  rcases id with ⟨session, height⟩
  cases session with
  | zero => rfl
  | succ index =>
    simp only [addSession, transaction?_succ]
    rw [getElem?_concat]
    by_cases hlast : index = h.sessions.length
    · rw [if_pos hlast, List.getElem?_eq_none (Nat.le_of_eq hlast.symm)]
      rfl
    · rw [if_neg hlast]

/-- Two histories in which the same transactions are found are well-formed together, if their sessions
    are numbered. -/
theorem WellFormed.of_lookup {h h' : History κ ν} (hw : h.WellFormed)
    (hs : ∀ index s, h'.sessions[index]? = some s → s.id = index + 1)
    (hlook : ∀ id, h'.transaction? id = h.transaction? id) : h'.WellFormed := by
  have hevent : ∀ place, h'.event? place = h.event? place := by
    intro place
    rw [event?, event?, hlook]
  have hinit : h'.init = h.init := Option.some.inj (hlook .init)
  refine ⟨by rw [hinit]; exact hw.init_id, by rw [hinit]; exact hw.init_writes, hs, ?_, ?_⟩
  · intro id t ht
    rw [hlook] at ht
    exact hw.transaction_id id t ht
  · intro a b e f he hf
    rw [hevent] at he hf
    exact hw.written_once a b e f he hf

theorem WellFormed.addSession {h : History κ ν} (hw : h.WellFormed) : h.addSession.2.WellFormed := by
  refine hw.of_lookup ?_ h.transaction?_addSession
  intro index s hs
  rcases (getElem?_concat_eq_some_iff ..).mp hs with hs | ⟨rfl, rfl⟩
  · exact hw.session_id index s hs
  · rfl

theorem transaction?_addTransaction {h h' : History κ ν} {session : Nat}
    (hadd : h.addTransaction session = .ok (id, h')) (other : TransactionId) :
    h.transaction? id = none ∧ h'.transaction? other =
      if other = id then some (.start id) else h.transaction? other := by
  cases session with
  | zero => exact absurd hadd (by simp [addTransaction])
  | succ index =>
    cases hs : h.sessions[index]? with
    | none => exact absurd hadd (by simp [addTransaction, session?, hs])
    | some s =>
      simp only [addTransaction, session?, hs, Except.ok.injEq, Prod.mk.injEq] at hadd
      rcases hadd with ⟨rfl, rfl⟩
      rw [transaction?_succ, hs, Option.bind_some, List.getElem?_eq_none (Nat.le_refl _)]
      refine ⟨rfl, ?_⟩
      rcases other with ⟨session', height'⟩
      cases session' with
      | zero =>
        rw [if_neg (by simp)]
        rfl
      | succ index' =>
        simp only [transaction?_succ, List.getElem?_modify, TransactionId.mk.injEq,
          Nat.add_right_cancel_iff]
        by_cases hindex : index = index'
        · subst hindex
          rw [hs]
          simp only [if_true, Option.map_eq_map, Option.map_some, Option.bind_some, true_and]
          exact getElem?_concat ..
        · rw [if_neg (fun hc => hindex hc.1.symm)]
          cases h.sessions[index']? <;> simp only [if_neg hindex, Option.map_eq_map,
            Option.map_none, Option.map_some]

theorem WellFormed.addTransaction {h h' : History κ ν} (hw : h.WellFormed) {session : Nat}
    (hadd : h.addTransaction session = .ok (id, h')) : h'.WellFormed := by
  have hlook := fun other => (transaction?_addTransaction hadd other).2
  have hnone := (transaction?_addTransaction hadd id).1
  have hinit : h'.init = h.init := by
    have hl := hlook .init
    have hne : TransactionId.init ≠ id := by
      intro hc
      rw [← hc, transaction?_init] at hnone
      cases hnone
    rw [if_neg hne, transaction?_init, transaction?_init, Option.some.injEq] at hl
    exact hl
  -- The new transaction has no events, so the places of the history are the old ones.
  have hevent : ∀ place, h'.event? place = h.event? place := by
    intro place
    rw [event?, event?, hlook]
    by_cases hc : place.transaction = id
    · rw [if_pos hc, hc, hnone]
      rfl
    · rw [if_neg hc]
  refine ⟨by rw [hinit]; exact hw.init_id, by rw [hinit]; exact hw.init_writes, ?_, ?_, ?_⟩
  · intro index s hs
    cases session with
    | zero => exact absurd hadd (by simp [History.addTransaction])
    | succ k =>
      cases hk : h.sessions[k]? with
      | none => exact absurd hadd (by simp [History.addTransaction, session?, hk])
      | some s' =>
        simp only [History.addTransaction, session?, hk, Except.ok.injEq,
          Prod.mk.injEq] at hadd
        rw [← hadd.2] at hs
        simp only [List.getElem?_modify, Option.map_eq_map, Option.map_eq_some_iff] at hs
        rcases hs with ⟨s'', hs'', heq⟩
        have hid := hw.session_id index s'' hs''
        by_cases hc : k = index
        · rw [if_pos hc] at heq
          rw [← heq]
          exact hid
        · rw [if_neg hc] at heq
          rw [← heq]
          exact hid
  · intro other t ht
    rw [hlook] at ht
    by_cases hc : other = id
    · rw [if_pos hc, Option.some.injEq] at ht
      rw [← ht, hc]
      rfl
    · rw [if_neg hc] at ht
      exact hw.transaction_id other t ht
  · intro a b e f he hf
    rw [hevent] at he hf
    exact hw.written_once a b e f he hf

theorem WellFormed.commit {h h' : History κ ν} (hw : h.WellFormed) (hcommit : h.commit id = .ok h') :
    h'.WellFormed := by
  unfold History.commit at hcommit
  split at hcommit
  · cases hcommit
  · rename_i hinit
    split at hcommit
    · cases hcommit
    · rename_i t ht
      split at hcommit
      · cases hcommit
      · rw [Except.ok.injEq] at hcommit
        subst hcommit
        refine hw.modifyTransaction _ ht (fun _ => rfl) (fun hc => absurd hc hinit) ?_
        have hevent : ∀ place, (h.modifyTransaction id
            fun t => { t with committed := true }).event? place = h.event? place := by
          intro place
          rw [event?, event?, h.transaction?_modifyTransaction _ ht]
          by_cases hc : place.transaction = id
          · rw [if_pos hc, hc, ht]
            rfl
          · rw [if_neg hc]
        intro a b e f he hf
        rw [hevent] at he hf
        exact hw.written_once a b e f he hf

/-- The places of a history after an event has been appended: one more, at the end of its
    transaction. -/
theorem event?_append (h : History κ ν) (ht : h.transaction? id = some t) (new : Event κ ν)
    (place : EventId) : (h.modifyTransaction id fun t => { t with events := t.events ++ [new] }).event? place =
      if place = ⟨id, t.events.length⟩ then some new else h.event? place := by
  rcases place with ⟨other, index⟩
  rw [event?_mk, event?_mk, h.transaction?_modifyTransaction _ ht]
  by_cases hc : other = id
  · subst hc
    rw [if_pos rfl, ht, Option.bind_some, Option.bind_some]
    simp only [getElem?_concat, EventId.mk.injEq, true_and]
  · rw [if_neg hc, if_neg (fun hc' => hc (congrArg EventId.transaction hc'))]

section Events

variable [DecidableEq κ] [DecidableEq ν]

/-- An accepted event goes to a running transaction, and if it is a write, its value is new. -/
theorem addEvent_cases {h h' : History κ ν} {kind : EventKind} {key : κ} {value : ν} {place : EventId}
    (hadd : h.addEvent id kind key value = .ok (place, h')) :
    ∃ t, h.transaction? id = some t ∧ t.committed = false ∧
      (id.isInit = true → kind = .write) ∧
      (kind = .write → h.writerOf? key value = none) ∧
      place = ⟨id, t.events.length⟩ ∧
      h' = h.modifyTransaction id fun t => { t with events := t.events ++ [⟨id, kind, key, value⟩] } := by
  unfold History.addEvent at hadd
  split at hadd
  · cases hadd
  · rename_i hguard
    have hkind : id.isInit = true → kind = .write := by
      intro hinit
      cases kind with
      | read => exact absurd (by rw [hinit]; rfl) hguard
      | write => rfl
    split at hadd
    · cases hadd
    · rename_i t ht
      split at hadd
      · cases hadd
      · rename_i hrun
        refine ⟨t, ht, by simpa only [Bool.not_eq_true] using hrun, hkind, ?_⟩
        cases kind with
        | read =>
          simp only [Except.ok.injEq, Prod.mk.injEq] at hadd
          exact ⟨fun hc => absurd hc (by simp),
            hadd.1.symm, hadd.2.symm⟩
        | write =>
          simp only at hadd
          split at hadd
          · cases hadd
          · rename_i hnone
            simp only [Except.ok.injEq, Prod.mk.injEq] at hadd
            exact ⟨fun _ => hnone, hadd.1.symm, hadd.2.symm⟩

theorem WellFormed.addEvent {h h' : History κ ν} (hw : h.WellFormed) {kind : EventKind} {key : κ}
    {value : ν} {place : EventId} (hadd : h.addEvent id kind key value = .ok (place, h')) :
    h'.WellFormed := by
  rcases addEvent_cases hadd with ⟨t, ht, _, hkind, hfresh, _, rfl⟩
  refine hw.modifyTransaction _ ht (fun _ => rfl) ?_ ?_
  · intro hinit e he
    rcases List.mem_append.mp he with he | he
    · have hid := h.eq_init_of_isInit hinit ht
      rw [hid, transaction?_init, Option.some.injEq] at ht
      rw [← ht] at he
      exact hw.init_writes e he
    · rw [List.mem_singleton] at he
      rw [he, Event.isWrite, hkind hinit]
      rfl
  · -- The new place is the only one with its value, since nobody wrote the value before.
    have hnew : ∀ b f, h.event? b = some f → kind = .write → f.isWrite = true → f.key = key →
        f.value = value → False := by
      intro b f hf hk hfw hfk hfv
      have hno := (h.writerOf?_eq_none_iff key value).mp (hfresh hk) b f hf
      rw [(writes_iff key value f).mpr ⟨hfw, hfk, hfv⟩] at hno
      exact absurd hno (by simp)
    have hwrite : ∀ k, ((⟨id, k, key, value⟩ : Event κ ν).isWrite = true) → k = .write := by
      intro k hk
      simpa only [Event.isWrite, beq_iff_eq] using hk
    intro a b e f he hf hew hfw hkey hvalue
    rw [event?_append h ht] at he hf
    by_cases ha : a = ⟨id, t.events.length⟩
    · by_cases hb : b = ⟨id, t.events.length⟩
      · rw [ha, hb]
      · rw [if_pos ha, Option.some.injEq] at he
        rw [if_neg hb] at hf
        subst he
        exact (hnew b f hf (hwrite kind hew) hfw hkey.symm hvalue.symm).elim
    · rw [if_neg ha] at he
      by_cases hb : b = ⟨id, t.events.length⟩
      · rw [if_pos hb, Option.some.injEq] at hf
        subst hf
        exact (hnew a e he (hwrite kind hfw) hew hkey hvalue).elim
      · rw [if_neg hb] at hf
        exact hw.written_once a b e f he hf hew hfw hkey hvalue

theorem Built.wellFormed {h : History κ ν} (hb : h.Built) : h.WellFormed := by
  induction hb with
  | empty => exact empty_wellFormed
  | addSession _ ih => exact ih.addSession
  | addTransaction _ hadd ih => exact ih.addTransaction hadd
  | addEvent _ hadd ih => exact ih.addEvent hadd
  | addInitialWrite _ hadd ih => exact ih.addEvent hadd
  | commit _ hcommit ih => exact ih.commit hcommit

end Events

end Steps

section Identifiers

variable {h : History κ ν} (hw : h.WellFormed)

include hw

theorem WellFormed.id_of_mem_session {index : Nat} {s : Session κ ν} {height : Nat}
    (hs : h.sessions[index]? = some s) (ht : s.transactions[height]? = some t) :
    t.id = ⟨index + 1, height⟩ := by
  refine hw.transaction_id ⟨index + 1, height⟩ t ?_
  rw [transaction?_succ, hs, Option.bind_some, ht]

theorem WellFormed.isClient_of_mem (ht : t ∈ h.clientTransactions) : h.IsClient t.id := by
  rcases (h.mem_clientTransactions_iff t).mp ht with ⟨index, height, hlook⟩
  rw [hw.transaction_id _ t hlook]
  exact ⟨rfl, t, hlook⟩

theorem WellFormed.eq_of_id_eq {t u : Transaction κ ν} (ht : t ∈ h.transactions)
    (hu : u ∈ h.transactions) (hid : t.id = u.id) : t = u := by
  have hsame := hw.lookup_id ht
  rw [hid, hw.lookup_id hu, Option.some.injEq] at hsame
  exact hsame.symm

theorem WellFormed.nodup_clientIds : (h.clientTransactions.map Transaction.id).Nodup := by
  rw [clientTransactions, List.map_flatMap, List.nodup_flatMap]
  constructor
  · intro s hs
    rcases List.mem_iff_getElem?.mp hs with ⟨index, hindex⟩
    rw [List.nodup_iff_pairwise_ne, List.pairwise_map, List.pairwise_iff_getElem]
    intro i j hi hj hij hc
    rw [hw.id_of_mem_session hindex (List.getElem?_eq_getElem hi),
      hw.id_of_mem_session hindex (List.getElem?_eq_getElem hj), TransactionId.mk.injEq] at hc
    omega
  · rw [List.pairwise_iff_getElem]
    -- Identifiers of different sessions differ in the number of the session.
    intro i j hi hj hij id hid hid'
    rcases List.mem_map.mp hid with ⟨t, ht, rfl⟩
    rcases List.mem_map.mp hid' with ⟨u, hu, heq⟩
    rcases List.mem_iff_getElem?.mp ht with ⟨k, hk⟩
    rcases List.mem_iff_getElem?.mp hu with ⟨l, hl⟩
    rw [hw.id_of_mem_session (List.getElem?_eq_getElem hi) hk,
      hw.id_of_mem_session (List.getElem?_eq_getElem hj) hl, TransactionId.mk.injEq] at heq
    omega

omit hw in
theorem mem_clientTransactions_of_lookup (hinit : id.isInit = false) (ht : h.transaction? id = some t) :
    t ∈ h.clientTransactions := by
  rcases id with ⟨session, height⟩
  cases session with
  | zero => exact absurd hinit (by simp [TransactionId.isInit])
  | succ index => exact (h.mem_clientTransactions_iff t).mpr ⟨index, height, ht⟩

theorem WellFormed.mem_clientIds_iff (id : TransactionId) :
    id ∈ h.clientTransactions.map Transaction.id ↔ h.IsClient id := by
  rw [List.mem_map]
  constructor
  · rintro ⟨t, ht, rfl⟩
    exact hw.isClient_of_mem ht
  · rintro ⟨hinit, t, ht⟩
    exact ⟨t, mem_clientTransactions_of_lookup hinit ht, hw.transaction_id _ t ht⟩

theorem WellFormed.id_eq_init_or_isClient (ht : t ∈ h.transactions) :
    t.id = .init ∨ h.IsClient t.id := by
  by_cases hinit : t.id.isInit = true
  · exact Or.inl (h.eq_init_of_isInit hinit (hw.lookup_id ht))
  · exact Or.inr ⟨by simpa only [Bool.not_eq_true] using hinit, t, hw.lookup_id ht⟩

/-- No two transactions have the same identifier. -/
theorem WellFormed.nodup_ids : (h.transactions.map Transaction.id).Nodup := by
  have hcons : h.transactions.map Transaction.id =
      .init :: h.clientTransactions.map Transaction.id := by
    rw [transactions, List.map_cons, hw.init_id, clientTransactions]
  rw [hcons, List.nodup_cons]
  refine ⟨?_, hw.nodup_clientIds⟩
  intro hmem
  have hclient := (hw.mem_clientIds_iff .init).mp hmem
  exact absurd hclient.1 (by decide)

/-- The identifiers of a history are those under which a transaction is found. -/
theorem WellFormed.mem_ids_iff (id : TransactionId) :
    id ∈ h.transactions.map Transaction.id ↔ ∃ t, h.transaction? id = some t := by
  rw [List.mem_map]
  constructor
  · rintro ⟨t, ht, rfl⟩
    exact ⟨t, hw.lookup_id ht⟩
  · rintro ⟨t, ht⟩
    exact ⟨t, h.mem_transactions_of_lookup ht, hw.transaction_id id t ht⟩

theorem WellFormed.pairwise_writes (ht : t ∈ h.transactions) :
    (t.events.filter Event.isWrite).Pairwise fun e f => ¬(e.key = f.key ∧ e.value = f.value) := by
  rw [List.pairwise_filter, List.pairwise_iff_getElem]
  rintro i j hi hj hij he hf ⟨hkey, hvalue⟩
  have hevent : ∀ k (hk : k < t.events.length), h.event? ⟨t.id, k⟩ = some (t.events[k]) := by
    intro k hk
    rw [event?_mk, hw.lookup_id ht, Option.bind_some, List.getElem?_eq_getElem hk]
  have := hw.written_once _ _ _ _ (hevent i hi) (hevent j hj) he hf hkey hvalue
  rw [EventId.mk.injEq] at this
  omega

/-- A value is stored by one transaction only. -/
theorem WellFormed.id_eq_of_writes {t u : Transaction κ ν} (ht : t ∈ h.transactions)
    (hu : u ∈ h.transactions) {e f : Event κ ν} (he : e ∈ t.events) (hf : f ∈ u.events)
    (hwe : e.kind = .write) (hwf : f.kind = .write) (hkey : e.key = f.key)
    (hvalue : e.value = f.value) : t.id = u.id := by
  rcases List.mem_iff_getElem?.mp he with ⟨i, hi⟩
  rcases List.mem_iff_getElem?.mp hf with ⟨j, hj⟩
  have := hw.written_once ⟨t.id, i⟩ ⟨u.id, j⟩ e f
    (by rw [event?_mk, hw.lookup_id ht, Option.bind_some, hi])
    (by rw [event?_mk, hw.lookup_id hu, Option.bind_some, hj])
    (by rw [Event.isWrite, hwe]; rfl) (by rw [Event.isWrite, hwf]; rfl) hkey hvalue
  exact congrArg EventId.transaction this

end Identifiers

theorem IsClient.of_le {h : History κ ν} {session height height' : Nat}
    (hclient : h.IsClient ⟨session, height'⟩) (hle : height ≤ height') :
    h.IsClient ⟨session, height⟩ := by
  rcases hclient with ⟨hinit, t, ht⟩
  refine ⟨hinit, ?_⟩
  cases session with
  | zero => exact absurd hinit (by simp [TransactionId.isInit])
  | succ index =>
    rw [transaction?_succ, Option.bind_eq_some_iff] at ht
    rcases ht with ⟨s, hs, hheight'⟩
    have hlt : height' < s.transactions.length := (List.getElem?_eq_some_iff.mp hheight').1
    refine ⟨s.transactions[height], ?_⟩
    rw [transaction?_succ, hs, Option.bind_some, List.getElem?_eq_getElem (by omega)]

theorem isClient_succ_iff {h : History κ ν} {index : Nat} {s : Session κ ν}
    (hs : h.sessions[index]? = some s) (height : Nat) :
    h.IsClient ⟨index + 1, height⟩ ↔ height < s.transactions.length := by
  rw [IsClient, transaction?_succ, hs, Option.bind_some]
  constructor
  · rintro ⟨_, t, ht⟩
    exact (List.getElem?_eq_some_iff.mp ht).1
  · intro hlt
    exact ⟨rfl, s.transactions[height], List.getElem?_eq_getElem hlt⟩

theorem IsClient.exists_session {h : History κ ν} (hclient : h.IsClient id) :
    ∃ index s, h.sessions[index]? = some s ∧ id = ⟨index + 1, id.height⟩ ∧
      id.height < s.transactions.length := by
  rcases hclient with ⟨hinit, t, ht⟩
  rcases id with ⟨_ | index, height⟩
  · simp [TransactionId.isInit] at hinit
  · rw [transaction?_succ, Option.bind_eq_some_iff] at ht
    rcases ht with ⟨s, hs, hget⟩
    exact ⟨index, s, hs, rfl, (List.getElem?_eq_some_iff.mp hget).1⟩

section Loading

variable [DecidableEq κ] [DecidableEq ν]

theorem Built.foldlM {α ε : Type} {step : History κ ν → α → Except ε (History κ ν)}
    (hstep : ∀ r a r', r.Built → step r a = .ok r' → r'.Built) (items : List α) {r r' : History κ ν}
    (hbuilt : r.Built) (hfold : items.foldlM step r = .ok r') : r'.Built := by
  induction items generalizing r with
  | nil =>
    cases hfold
    exact hbuilt
  | cons a rest ih =>
    rw [List.foldlM_cons] at hfold
    cases hfirst : step r a with
    | error e =>
      rw [hfirst] at hfold
      exact absurd hfold (by simp [bind, Except.bind])
    | ok next =>
      rw [hfirst] at hfold
      exact ih (hstep r a next hbuilt hfirst) hfold

theorem Built.of_addEvent {r r' : History κ ν} (hbuilt : r.Built) {kind : EventKind} {key : κ}
    {value : ν} (hadd : (r.addEvent id kind key value).map Prod.snd = .ok r') : r'.Built := by
  cases hfirst : r.addEvent id kind key value with
  | error e =>
    rw [hfirst] at hadd
    exact absurd hadd (by simp [Except.map])
  | ok pair =>
    rw [hfirst] at hadd
    cases hadd
    exact hbuilt.addEvent hfirst

theorem Built.loadSession [Inhabited ν] {r r' : History κ ν} {session : Recorded.Session κ ν}
    (hr : r.Built) (hsession : loadSession r session = .ok r') : r'.Built := by
  refine Built.foldlM ?_ session hr.addSession hsession
  intro r t r' hr ht
  rcases Text.bind_eq_ok_iff.mp ht with ⟨⟨id, begun⟩, hbegun, hrest⟩
  rcases Text.bind_eq_ok_iff.mp hrest with ⟨filled, hfilled, hlast⟩
  have hevents : filled.Built := by
    refine Built.foldlM ?_ t.events (hr.addTransaction hbegun) hfilled
    intro r e r' hr he
    cases e with
    | write key value => exact hr.of_addEvent he
    | read key value =>
      cases value with
      | some value => exact hr.of_addEvent he
      | none =>
        rcases Text.bind_eq_ok_iff.mp he with ⟨ensured, hensured, hread⟩
        refine Built.of_addEvent ?_ hread
        -- The default value is there, or the init transaction takes it.
        unfold ensureInitial at hensured
        split at hensured
        · cases hensured
          exact hr
        · exact hr.of_addEvent hensured
  split at hlast
  · exact hevents.commit hlast
  · cases hlast
    exact hevents

theorem Built.loadSessions [Inhabited ν] {sessions : List (Recorded.Session κ ν)} {r r' : History κ ν}
    (hr : r.Built) (hload : sessions.foldlM History.loadSession r = .ok r') : r'.Built :=
  Built.foldlM (fun _ _ _ hr => hr.loadSession) sessions hr hload

theorem Built.load [Inhabited ν] {sessions : List (Recorded.Session κ ν)} {h : History κ ν}
    (hload : load sessions = .ok h) : h.Built :=
  Built.empty.loadSessions hload

end Loading

/-- Two transactions read the same two keys, and each writes one of them. -/
def writeSkew : History Nat Nat where
  init := ⟨.init, [⟨.init, .write, 0, 0⟩, ⟨.init, .write, 1, 0⟩], false⟩
  sessions := [
    ⟨1, [⟨⟨1, 0⟩, [⟨⟨1, 0⟩, .read, 0, 0⟩, ⟨⟨1, 0⟩, .read, 1, 0⟩, ⟨⟨1, 0⟩, .write, 0, 1⟩], true⟩]⟩,
    ⟨2, [⟨⟨2, 0⟩, [⟨⟨2, 0⟩, .read, 0, 0⟩, ⟨⟨2, 0⟩, .read, 1, 0⟩, ⟨⟨2, 0⟩, .write, 1, 1⟩], true⟩]⟩]

theorem built_writeSkew : writeSkew.Built :=
  Built.load (show load writeSkew.recording = .ok writeSkew from rfl)

/-- Two transactions that read and overwrite a key. The second one has seen the given value: that of the
    first one, or the initial value, so that an update is lost. -/
def twoUpdates (seen : Nat) : History Nat Nat where
  init := ⟨.init, [⟨.init, .write, 0, 0⟩], false⟩
  sessions := [
    ⟨1, [⟨⟨1, 0⟩, [⟨⟨1, 0⟩, .read, 0, 0⟩, ⟨⟨1, 0⟩, .write, 0, 1⟩, ⟨⟨1, 0⟩, .read, 0, 1⟩], true⟩]⟩,
    ⟨2, [⟨⟨2, 0⟩, [⟨⟨2, 0⟩, .read, 0, seen⟩, ⟨⟨2, 0⟩, .write, 0, 2⟩], true⟩]⟩]

theorem built_twoUpdates (seen : Nat) : (twoUpdates seen).Built :=
  Built.load (show load [[⟨[.read 0 none, .write 0 1, .read 0 (some 1)], true⟩],
    [⟨[.read 0 (some seen), .write 0 2], true⟩]] = .ok (twoUpdates seen) from rfl)

end Isolation.History
