import Isolation.History.Recorder
import Isolation.Proofs.History.WellFormed

/-!
# The Recorder Under Any Steps

A recorder is what remains of a list of building steps, and nothing is known about the list: the steps may
come in any order, name sessions and transactions that do not exist, repeat writes, or commit twice. What
can be relied on afterwards is stated once, as `Intact`.

The argument goes through what a single step can do. To the history, seen through the lookups, there are only
four things, and they are listed in `Change`: nothing, a transaction begins, an event is appended to a running
transaction, or a running transaction of a session commits. To the index there are two: nothing, or the place
of a write is entered. That the index and the events agree is what makes the two fit together: a write is
refused by the index exactly if the history would refuse it, and it is refused before anything has changed.

## Main definitions

* `Recorder.Intact`: What can be relied on in every recorder.

## Theorems

* `run_intact`: The recorder is intact after any steps.
-/

namespace Isolation

namespace History

variable {κ ν : Type} {id : TransactionId}

/-- What one step can do to a history, as far as lookups show it. -/
inductive Change (h next : History κ ν) : Prop where
  | nothing (look : ∀ other, next.transaction? other = h.transaction? other)
  | begun (id : TransactionId) (fresh : h.transaction? id = none)
      (look : ∀ other, next.transaction? other =
        if other = id then some (.start id) else h.transaction? other)
  | grown (id : TransactionId) (t : Transaction κ ν) (event : Event κ ν)
      (found : h.transaction? id = some t) (running : t.committed = false)
      (own : event.transaction = id)
      (look : ∀ other, next.transaction? other =
        if other = id then some { t with events := t.events ++ [event] } else h.transaction? other)
  | settled (id : TransactionId) (t : Transaction κ ν) (client : id.isInit = false)
      (found : h.transaction? id = some t) (running : t.committed = false)
      (look : ∀ other, next.transaction? other =
        if other = id then some { t with committed := true } else h.transaction? other)

/-- Events carry the identifier under which their transaction is found. -/
def Signed (h : History κ ν) : Prop :=
  ∀ id t, h.transaction? id = some t → ∀ e ∈ t.events, e.transaction = id

theorem ne_of_running {h : History κ ν} {id other : TransactionId} {t u : Transaction κ ν}
    (ht : h.transaction? id = some t) (hcommitted : t.committed = true)
    (found : h.transaction? other = some u) (running : u.committed = false) : id ≠ other := by
  rintro rfl
  rw [found, Option.some.injEq] at ht
  rw [← ht, running] at hcommitted
  exact absurd hcommitted Bool.false_ne_true

namespace Change

variable {h next : History κ ν} (hchange : Change h next)

include hchange

/-- Only running transactions change, so one that has committed does not. -/
theorem frozen {t : Transaction κ ν} (ht : h.transaction? id = some t) (hcommitted : t.committed = true) :
    next.transaction? id = some t := by
  cases hchange with
  | nothing look =>
    rw [look]
    exact ht
  | begun other fresh look =>
    have hne : id ≠ other := by
      intro hc
      rw [hc, fresh] at ht
      cases ht
    rw [look, if_neg hne]
    exact ht
  | grown other u event found running own look =>
    rw [look, if_neg (ne_of_running ht hcommitted found running)]
    exact ht
  | settled other u client found running look =>
    rw [look, if_neg (ne_of_running ht hcommitted found running)]
    exact ht

theorem signed (hsigned : h.Signed) : next.Signed := by
  intro id t ht e he
  cases hchange with
  | nothing look =>
    rw [look] at ht
    exact hsigned id t ht e he
  | begun other fresh look =>
    rw [look] at ht
    by_cases hc : id = other
    · -- A transaction that has just begun has no events.
      rw [if_pos hc, Option.some.injEq] at ht
      rw [← ht] at he
      exact absurd he List.not_mem_nil
    · rw [if_neg hc] at ht
      exact hsigned id t ht e he
  | grown other u event found running own look =>
    rw [look] at ht
    by_cases hc : id = other
    · rw [if_pos hc, Option.some.injEq] at ht
      rw [← ht, List.mem_append, List.mem_singleton] at he
      rw [hc]
      rcases he with he | he
      · exact hsigned other u found e he
      · rw [he]
        exact own
    · rw [if_neg hc] at ht
      exact hsigned id t ht e he
  | settled other u client found running look =>
    rw [look] at ht
    by_cases hc : id = other
    · rw [if_pos hc, Option.some.injEq] at ht
      rw [← ht] at he
      rw [hc]
      exact hsigned other u found e he
    · rw [if_neg hc] at ht
      exact hsigned id t ht e he

theorem init_running (hrunning : h.init.committed = false) : next.init.committed = false := by
  have hinit : next.transaction? .init = some next.init := rfl
  cases hchange with
  | nothing look =>
    rw [look, transaction?_init, Option.some.injEq] at hinit
    rw [← hinit]
    exact hrunning
  | begun id fresh look =>
    have hne : TransactionId.init ≠ id := by
      intro hc
      rw [← hc, transaction?_init] at fresh
      cases fresh
    rw [look, if_neg hne, transaction?_init, Option.some.injEq] at hinit
    rw [← hinit]
    exact hrunning
  | grown id t event found running own look =>
    rw [look] at hinit
    by_cases hc : TransactionId.init = id
    · rw [if_pos hc, Option.some.injEq] at hinit
      rw [← hinit]
      exact running
    · rw [if_neg hc, transaction?_init, Option.some.injEq] at hinit
      rw [← hinit]
      exact hrunning
  | settled id t client found running look =>
    have hne : TransactionId.init ≠ id := by
      intro hc
      rw [← hc] at client
      exact absurd client (by decide)
    rw [look, if_neg hne, transaction?_init, Option.some.injEq] at hinit
    rw [← hinit]
    exact hrunning

end Change

theorem commit_cases {h next : History κ ν} (hcommit : h.commit id = .ok next) :
    ∃ t, id.isInit = false ∧ h.transaction? id = some t ∧ t.committed = false ∧
      next = h.modifyTransaction id fun t => { t with committed := true } := by
  unfold History.commit at hcommit
  split at hcommit
  · cases hcommit
  · next hinit =>
      split at hcommit
      · cases hcommit
      · next t ht =>
          split at hcommit
          · cases hcommit
          · next hrunning =>
              rw [Except.ok.injEq] at hcommit
              rw [Bool.not_eq_true] at hinit hrunning
              exact ⟨t, hinit, ht, hrunning, hcommit.symm⟩

/-- Where no event is appended, the places of the history are the old ones. -/
theorem event?_eq_of_events {h next : History κ ν}
    (hsame : ∀ id, (next.transaction? id).elim [] Transaction.events =
      (h.transaction? id).elim [] Transaction.events) (place : EventId) :
    next.event? place = h.event? place := by
  have hevent : ∀ h : History κ ν, h.event? place =
      ((h.transaction? place.transaction).elim [] Transaction.events)[place.index]? := by
    intro h
    rw [event?]
    cases h.transaction? place.transaction with
    | none => rfl
    | some t => rfl
  rw [hevent, hevent, hsame]

section Events

variable [DecidableEq κ] [DecidableEq ν]

theorem change_of_addEvent {h next : History κ ν} {kind : EventKind} {key : κ} {value : ν}
    {place : EventId} (hadd : h.addEvent id kind key value = .ok (place, next)) : Change h next := by
  rcases addEvent_cases hadd with ⟨t, ht, hrunning, _, _, _, rfl⟩
  exact .grown id t ⟨id, kind, key, value⟩ ht hrunning rfl
    (h.transaction?_modifyTransaction (fun t => { t with events := t.events ++ [_] }) ht)

theorem Built.signed {h : History κ ν} (hbuilt : h.Built) : h.Signed := by
  induction hbuilt with
  | empty =>
    intro id t ht e he
    rw [List.mem_singleton.mp (mem_transactions_of_lookup _ ht)] at he
    exact absurd he List.not_mem_nil
  | addSession _ ih => exact (Change.nothing (transaction?_addSession _)).signed ih
  | addTransaction _ hadd ih =>
    have hlook := transaction?_addTransaction hadd
    exact (Change.begun _ (hlook .init).1 fun other => (hlook other).2).signed ih
  | addEvent _ hadd ih => exact (change_of_addEvent hadd).signed ih
  | addInitialWrite _ hadd ih => exact (change_of_addEvent hadd).signed ih
  | commit _ hcommit ih =>
    rcases commit_cases hcommit with ⟨t, hclient, ht, hrunning, rfl⟩
    exact (Change.settled _ t hclient ht hrunning (transaction?_modifyTransaction _
      (fun t => { t with committed := true }) ht)).signed ih

end Events

end History

namespace Recorder

open History (Change Signed)

variable {κ ν : Type}

/-- What a step makes of a recorder, given what it makes of the history: nothing if it is refused, and
    otherwise the new history, with an index that may depend on the answer. -/
def outcome {α : Type} (r : Recorder κ ν) (index : α → List (κ × ν × EventId)) :
    Except (HistoryError κ ν) (α × History κ ν) →
      EStateM.Result (HistoryError κ ν) (Recorder κ ν) α
  | .error error => .error error r
  | .ok p => .ok p.1 ⟨p.2, index p.1⟩

theorem apply_run {α : Type} (change : History κ ν → Except (HistoryError κ ν) (α × History κ ν))
    (r : Recorder κ ν) :
    (apply change).run r = r.outcome (fun _ => r.index) (change r.history) := by
  unfold apply
  simp only [EStateM.run_bind, EStateM.run_get]
  cases change r.history with
  | error error => rfl
  | ok p => rfl

variable [DecidableEq κ] [DecidableEq ν]

/-- The index knows the places of the writes, and nothing else. -/
def Indexed (r : Recorder κ ν) : Prop :=
  ∀ key value place, r.writerOf? key value = some place ↔
    ∃ e, r.history.event? place = some e ∧ e.writes key value = true

/-- What an accepted step does. -/
structure Accepted (r next : Recorder κ ν) : Prop where
  built : r.history.Built → next.history.Built
  change : Change r.history next.history
  indexed : next.Indexed

/-- A step is refused and changes nothing, or it is accepted. -/
def Atomic (r : Recorder κ ν) (s : Step κ ν) : Prop :=
  (∃ error, r.step s = (.error error, r)) ∨
    ∃ reply next, r.step s = (.ok reply, next) ∧ Accepted r next

/-- What can be relied on in every recorder. -/
structure Intact (r : Recorder κ ν) : Prop where
  /-- The index gives the place that stores a value. -/
  writer_iff : ∀ key value place, r.writerOf? key value = some place ↔
    ∃ e, r.history.event? place = some e ∧ e.isWrite = true ∧ e.key = key ∧ e.value = value
  /-- No two places store the same value under the same key. -/
  written_once : ∀ a b e f, r.history.event? a = some e → r.history.event? b = some f →
    e.isWrite = true → f.isWrite = true → e.key = f.key → e.value = f.value → a = b
  /-- Sessions are numbered from one, and transactions by their places in them. -/
  placed : ∀ (index : Nat) (s : Session κ ν), r.history.sessions[index]? = some s →
    s.id = index + 1 ∧ ∀ (height : Nat) (t : Transaction κ ν), s.transactions[height]? = some t →
      t.id = ⟨index + 1, height⟩
  /-- A lookup finds the transaction that carries the identifier, and nothing else. -/
  lookup_iff : ∀ id t, r.history.transaction? id = some t ↔ t ∈ r.history.transactions ∧ t.id = id
  /-- Events carry the identifier of their transaction. -/
  signed : ∀ t ∈ r.history.transactions, ∀ e ∈ t.events, e.transaction = t.id
  /-- The init transaction has its own identifier, holds only writes, and never commits. -/
  init_id : r.history.init.id = .init
  init_writes : ∀ e ∈ r.history.init.events, e.isWrite = true
  init_running : r.history.init.committed = false

/-- What every step keeps: enough to make the recorder intact. -/
structure Sound (r : Recorder κ ν) : Prop where
  built : r.history.Built
  indexed : r.Indexed
  signed : r.history.Signed
  running : r.history.init.committed = false

section AddEvent

variable {r : Recorder κ ν} {id : TransactionId} {kind : EventKind} {key : κ} {value : ν}

theorem Indexed.writerOf?_eq (hindexed : r.Indexed) (hw : r.history.WellFormed) (key : κ) (value : ν) :
    r.writerOf? key value = r.history.writerOf? key value := by
  refine Option.ext fun place => ?_
  rw [hindexed, hw.writerOf?_eq_some_iff]

/-- An event is appended as the history would append it, and the place of a write is entered in the
    index. If it is refused, nothing has been changed yet. -/
theorem addEvent_run (hindexed : r.Indexed) (hw : r.history.WellFormed) (id : TransactionId)
    (kind : EventKind) (key : κ) (value : ν) :
    (addEvent id kind key value).run r = r.outcome
      (fun place => if kind = .write then (key, value, place) :: r.index else r.index)
      (r.history.addEvent id kind key value) := by
  have hsame := hindexed.writerOf?_eq hw key value
  unfold addEvent History.addEvent
  by_cases hguard : (id.isInit && kind == .read) = true
  · simp only [hguard, if_true]
    rfl
  · simp only [hguard, if_false, Bool.false_eq_true, EStateM.run_bind, EStateM.run_get]
    cases ht : r.history.transaction? id with
    | none => rfl
    | some t =>
      by_cases hcommitted : t.committed = true
      · simp only [hcommitted, if_true]
        rfl
      · simp only [hcommitted, if_false, Bool.false_eq_true]
        cases kind with
        | read => rfl
        | write =>
          -- The index is asked here, and the history searches; they agree.
          cases hwriter : r.history.writerOf? key value with
          | none =>
            rw [hwriter] at hsame
            simp only [BEq.rfl, if_true, EStateM.run_bind, EStateM.run_get, hsame]
            rfl
          | some existing =>
            rw [hwriter] at hsame
            simp only [BEq.rfl, if_true, EStateM.run_bind, EStateM.run_get, hsame]
            rfl

theorem writerOf?_cons (history : History κ ν) (index : List (κ × ν × EventId)) (key key' : κ)
    (value value' : ν) (place : EventId) :
    (Recorder.mk history ((key, value, place) :: index)).writerOf? key' value' =
      if key = key' ∧ value = value' then some place
      else (Recorder.mk history index).writerOf? key' value' := by
  unfold writerOf?
  rw [List.find?_cons]
  by_cases hsame : key = key' ∧ value = value'
  · simp only [hsame, decide_true, Bool.and_self, and_self, if_true, Option.map_some]
  · have hfalse : (decide (key = key') && decide (value = value')) = false := by
      rw [← Bool.decide_and, decide_eq_false hsame]
    simp only [hfalse, if_neg hsame]

/-- After an event has been appended, what is stored is what was stored before and the event. -/
theorem exists_stored_append_iff {h : History κ ν} {t : Transaction κ ν}
    (ht : h.transaction? id = some t) (new : Event κ ν) (key : κ) (value : ν) (place : EventId) :
    (∃ e, (h.modifyTransaction id fun t => { t with events := t.events ++ [new] }).event? place =
      some e ∧ e.writes key value = true) ↔
      (place = ⟨id, t.events.length⟩ ∧ new.writes key value = true) ∨
        ∃ e, h.event? place = some e ∧ e.writes key value = true := by
  rw [History.event?_append h ht]
  by_cases hplace : place = ⟨id, t.events.length⟩
  · -- The place is new: nothing was stored there before.
    have hnone : h.event? place = none := by
      rw [hplace, History.event?_mk, ht, Option.bind_some, List.getElem?_eq_none (Nat.le_refl _)]
    rw [if_pos hplace, hnone]
    simp only [hplace, Option.some.injEq, exists_eq_left', reduceCtorEq, false_and, exists_false,
      or_false, true_and]
  · rw [if_neg hplace]
    simp only [hplace, false_and, false_or]

theorem Indexed.addEvent (hindexed : r.Indexed) (hw : r.history.WellFormed) {place : EventId}
    {next : History κ ν} (hadd : r.history.addEvent id kind key value = .ok (place, next)) :
    (Recorder.mk next (if kind = .write then (key, value, place) :: r.index else r.index)).Indexed := by
  rcases History.addEvent_cases hadd with ⟨t, ht, _, _, hfresh, rfl, rfl⟩
  intro key' value' other
  refine Iff.trans ?_ (exists_stored_append_iff ht _ key' value' other).symm
  cases kind with
  | read =>
    have hread : (⟨id, .read, key, value⟩ : Event κ ν).writes key' value' = false := rfl
    rw [if_neg (by decide), hread]
    simp only [Bool.false_eq_true, and_false, false_or]
    exact hindexed key' value' other
  | write =>
    rw [if_pos rfl, writerOf?_cons, History.writes_iff]
    by_cases hsame : key = key' ∧ value = value'
    · -- The value was stored nowhere, or the write would have been refused.
      have hnowhere : ¬ ∃ e, r.history.event? other = some e ∧ e.writes key' value' = true := by
        rw [← hindexed, ← hsame.1, ← hsame.2, hindexed.writerOf?_eq hw, hfresh rfl]
        exact fun hc => absurd hc (by simp)
      rw [if_pos hsame, Option.some.injEq, or_iff_left hnowhere, eq_comm]
      exact (and_iff_left ⟨rfl, hsame⟩).symm
    · rw [if_neg hsame]
      refine (hindexed key' value' other).trans (or_iff_right ?_).symm
      exact fun hc => hsame hc.2.2

end AddEvent

section Steps

variable {r : Recorder κ ν} {s : Step κ ν}

theorem step_of_run_error {α : Type} {x : Recording κ ν α} {f : α → Reply}
    (hs : perform s = x >>= fun a => pure (f a)) {error : HistoryError κ ν} {next : Recorder κ ν}
    (hrun : x.run r = .error error next) : r.step s = (.error error, next) := by
  rw [step, hs, EStateM.run_bind, hrun]

theorem step_of_run_ok {α : Type} {x : Recording κ ν α} {f : α → Reply}
    (hs : perform s = x >>= fun a => pure (f a)) {a : α} {next : Recorder κ ν}
    (hrun : x.run r = .ok a next) : r.step s = (.ok (f a), next) := by
  rw [step, hs, EStateM.run_bind, hrun]
  rfl

/-- A step that is carried out by the history, with its places of events left as they are, keeps the
    index in step. -/
theorem step_apply {α : Type} {f : α → Reply}
    (change : History κ ν → Except (HistoryError κ ν) (α × History κ ν))
    (hs : perform s = apply change >>= fun a => pure (f a)) (hindexed : r.Indexed)
    (hkeep : ∀ a next, change r.history = .ok (a, next) → (r.history.Built → next.Built) ∧
      Change r.history next ∧ ∀ place, next.event? place = r.history.event? place) :
    r.Atomic s := by
  cases hchange : change r.history with
  | error error =>
    refine Or.inl ⟨error, step_of_run_error hs ?_⟩
    rw [apply_run, hchange]
    rfl
  | ok p =>
    rcases p with ⟨a, next⟩
    rcases hkeep a next hchange with ⟨hbuilt, hlook, hevents⟩
    refine Or.inr ⟨f a, ⟨next, r.index⟩, step_of_run_ok hs ?_, hbuilt, hlook, ?_⟩
    · rw [apply_run, hchange]
      rfl
    · intro key value place
      rw [hevents]
      exact hindexed key value place

theorem step_addEvent {id : TransactionId} {kind : EventKind} {key : κ} {value : ν}
    (hs : perform s = Recorder.addEvent id kind key value >>= fun a => pure (.event a))
    (hindexed : r.Indexed) (hw : r.history.WellFormed) : r.Atomic s := by
  have hrun := addEvent_run hindexed hw id kind key value
  cases hadd : r.history.addEvent id kind key value with
  | error error =>
    rw [hadd] at hrun
    exact Or.inl ⟨error, step_of_run_error hs hrun⟩
  | ok p =>
    rcases p with ⟨place, next⟩
    rw [hadd] at hrun
    exact Or.inr ⟨_, _, step_of_run_ok hs hrun, fun hbuilt => hbuilt.addEvent hadd,
      History.change_of_addEvent hadd, hindexed.addEvent hw hadd⟩

/-- Every step is atomic, as long as the index is in step with the events. -/
theorem step_atomic (hindexed : r.Indexed) (hw : r.history.WellFormed) (s : Step κ ν) :
    r.Atomic s := by
  cases s with
  | addSession =>
    refine step_apply (fun h => .ok h.addSession) rfl hindexed fun a next hok => ?_
    have hnext : r.history.addSession.2 = next := congrArg Prod.snd (Except.ok.inj hok)
    have hlook := r.history.transaction?_addSession
    rw [← hnext]
    refine ⟨History.Built.addSession, .nothing hlook, ?_⟩
    exact History.event?_eq_of_events fun id => by rw [hlook]
  | addTransaction session =>
    refine step_apply (fun h => h.addTransaction session) rfl hindexed fun id next hok => ?_
    have hfresh := (History.transaction?_addTransaction hok id).1
    have hlook := fun other => (History.transaction?_addTransaction hok other).2
    refine ⟨fun hbuilt => hbuilt.addTransaction hok, .begun id hfresh hlook, ?_⟩
    refine History.event?_eq_of_events fun other => ?_
    rw [hlook]
    by_cases hc : other = id
    · -- A transaction that has just begun has no events.
      rw [if_pos hc, hc, hfresh]
      rfl
    · rw [if_neg hc]
  | addEvent id kind key value => exact step_addEvent rfl hindexed hw
  | addInitialWrite key value => exact step_addEvent rfl hindexed hw
  | commit id =>
    refine step_apply (fun h => (h.commit id).map fun next => ((), next)) rfl hindexed
      fun _ next hok => ?_
    have hcommit : r.history.commit id = .ok next := by
      cases hresult : r.history.commit id with
      | error error =>
        rw [hresult] at hok
        exact absurd hok (by simp [Except.map])
      | ok found =>
        rw [hresult] at hok
        rw [(Prod.mk.inj (Except.ok.inj hok)).2]
    rcases History.commit_cases hcommit with ⟨t, hclient, ht, hrunning, rfl⟩
    have hlook := r.history.transaction?_modifyTransaction (fun t => { t with committed := true }) ht
    refine ⟨fun hbuilt => hbuilt.commit hcommit, .settled id t hclient ht hrunning hlook, ?_⟩
    refine History.event?_eq_of_events fun other => ?_
    rw [hlook]
    by_cases hc : other = id
    · rw [if_pos hc, hc, ht]
      rfl
    · rw [if_neg hc]

theorem Sound.step_of_error (hr : r.Sound) {error : HistoryError κ ν}
    (herror : (r.step s).1 = .error error) : (r.step s).2 = r := by
  rcases step_atomic hr.indexed hr.built.wellFormed s with ⟨found, hstep⟩ | ⟨reply, next, hstep, _⟩
  · rw [hstep]
  · rw [hstep] at herror
    cases herror

theorem Sound.accepted (hr : r.Sound) {next : Recorder κ ν} (haccepted : Accepted r next) :
    next.Sound where
  built := haccepted.built hr.built
  indexed := haccepted.indexed
  signed := haccepted.change.signed hr.signed
  running := haccepted.change.init_running hr.running

/-- What can be lost only by an accepted step, and is kept by those, is kept by every step. -/
theorem Sound.step_induction {P : Recorder κ ν → Prop} (hr : r.Sound)
    (haccepted : ∀ next, Accepted r next → P next) (hstart : P r) (s : Step κ ν) :
    P (r.step s).2 := by
  rcases step_atomic hr.indexed hr.built.wellFormed s with ⟨error, hstep⟩ | ⟨reply, next, hstep, hnext⟩
  · rw [hstep]
    exact hstart
  · rw [hstep]
    exact haccepted next hnext

theorem Sound.step (hr : r.Sound) (s : Step κ ν) : (r.step s).2.Sound :=
  hr.step_induction (fun _ hnext => hr.accepted hnext) hr s

theorem Sound.run_induction {P : Recorder κ ν → Prop}
    (hstep : ∀ r s, r.Sound → P r → P (Recorder.step r s).2) (hr : r.Sound) (hstart : P r)
    (steps : List (Step κ ν)) : P (r.run steps) := by
  induction steps generalizing r with
  | nil => exact hstart
  | cons s rest ih => exact ih (hr.step s) (hstep r s hr hstart)

/-- Committed transactions stay as they are. -/
theorem Sound.run_frozen (hr : r.Sound) {id : TransactionId} {t : Transaction κ ν}
    (ht : r.history.transaction? id = some t) (hcommitted : t.committed = true)
    (steps : List (Step κ ν)) : (r.run steps).history.transaction? id = some t := by
  refine run_induction (P := fun r => r.history.transaction? id = some t) ?_ hr ht steps
  intro r s hr ht
  exact hr.step_induction (P := fun r => r.history.transaction? id = some t)
    (fun next hnext => hnext.change.frozen ht hcommitted) ht s

theorem sound_empty : (empty : Recorder κ ν).Sound where
  built := .empty
  indexed key value place := by
    have hunknown : (empty : Recorder κ ν).writerOf? key value = none := rfl
    rw [hunknown]
    refine iff_of_false (by simp) ?_
    rintro ⟨e, he, _⟩
    -- The only transaction there is has no events.
    rcases Option.bind_eq_some_iff.mp he with ⟨t, ht, hget⟩
    rw [List.mem_singleton.mp (History.mem_transactions_of_lookup _ ht)] at hget
    exact absurd (List.mem_of_getElem? hget) List.not_mem_nil
  signed id t ht e he := by
    rw [List.mem_singleton.mp (History.mem_transactions_of_lookup _ ht)] at he
    exact absurd he List.not_mem_nil
  running := rfl

theorem Sound.intact (hr : r.Sound) : r.Intact where
  writer_iff key value place := by
    rw [hr.indexed]
    simp only [History.writes_iff]
  written_once := hr.built.wellFormed.written_once
  placed index s hs := ⟨hr.built.wellFormed.session_id index s hs,
    fun _ _ => hr.built.wellFormed.id_of_mem_session hs⟩
  lookup_iff id t := by
    constructor
    · intro ht
      exact ⟨r.history.mem_transactions_of_lookup ht, hr.built.wellFormed.transaction_id id t ht⟩
    · rintro ⟨ht, rfl⟩
      exact hr.built.wellFormed.lookup_id ht
  signed t ht := hr.signed t.id t (hr.built.wellFormed.lookup_id ht)
  init_id := hr.built.wellFormed.init_id
  init_writes := hr.built.wellFormed.init_writes
  init_running := hr.running

/-- After any steps, accepted or refused, the recorder is intact. What is refused from here on changes
    nothing, and what has committed stays as it is. -/
theorem run_intact (steps : List (Step κ ν)) :
    let r := (empty : Recorder κ ν).run steps
    r.Intact ∧
    (∀ s error, (r.step s).1 = .error error → (r.step s).2 = r) ∧
    ∀ id t, r.history.transaction? id = some t → t.committed = true →
      ∀ more, (r.run more).history.transaction? id = some t := by
  intro r
  have hr : r.Sound := Sound.run_induction (fun r s hr _ => hr.step s) sound_empty sound_empty steps
  exact ⟨hr.intact, fun s error => hr.step_of_error,
    fun id t ht hcommitted more => hr.run_frozen ht hcommitted more⟩

-- The second write, the read of the init transaction and the commits of nobody are refused and leave
-- no trace, in the history or in the index.
example : (empty : Recorder Nat Nat).run [.addSession, .addTransaction 1, .addTransaction 0,
      .addEvent ⟨1, 0⟩ .write 5 7, .addInitialWrite 5 7, .addEvent ⟨0, 0⟩ .read 5 7, .commit ⟨0, 0⟩,
      .commit ⟨0, 3⟩, .commit ⟨1, 0⟩, .addEvent ⟨1, 0⟩ .write 5 8] =
    ⟨⟨.start .init, [⟨1, [⟨⟨1, 0⟩, [⟨⟨1, 0⟩, .write, 5, 7⟩], true⟩]⟩]⟩, [(5, 7, ⟨⟨1, 0⟩, 0⟩)]⟩ := by
  decide

end Steps

end Recorder

end Isolation
