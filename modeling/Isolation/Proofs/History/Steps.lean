import Isolation.Proofs.History.WellFormed

/-!
# Building Steps at the End of a History

A loop that builds a history works at its end: it opens a session behind the others, begins a transaction
behind those of this session, and appends events to that one. With the state written out as what has been
done and the session that is being filled, such a step changes the end of a list, and the loop can be
followed without looking anything up.

## Main definitions

* `History.ending`: A history with its last session in view.

## Theorems

* `addEvent_eq_ok`: When an event is taken.
-/

namespace Isolation.History

variable {κ ν : Type}

section Ending

theorem modify_length_append {α : Type} (earlier later : List α) (x : α) (change : α → α) :
    (earlier ++ x :: later).modify earlier.length change = earlier ++ change x :: later := by
  rw [List.modify_eq_take_drop, List.take_left, List.drop_left]
  rfl

variable (init : Transaction κ ν) (done : List (Session κ ν))

/-- The history whose last session has these transactions. -/
def ending (ts : List (Transaction κ ν)) : History κ ν :=
  ⟨init, done ++ [⟨done.length + 1, ts⟩]⟩

theorem mem_transactions_ending_iff (earlier later : List (Transaction κ ν)) (t : Transaction κ ν) :
    t ∈ (ending init done (earlier ++ later)).transactions ↔
      t ∈ (ending init done earlier).transactions ∨ t ∈ later := by
  simp only [ending, transactions, List.flatMap_append, List.flatMap_cons, List.flatMap_nil,
    List.append_nil, List.mem_cons, List.mem_append, or_assoc]

theorem transaction?_ending (earlier later : List (Transaction κ ν)) (t : Transaction κ ν) :
    (ending init done (earlier ++ t :: later)).transaction? ⟨done.length + 1, earlier.length⟩ =
      some t := by
  rw [transaction?_succ, ending, List.getElem?_concat_length, Option.bind_some,
    getElem?_length_append]

theorem modifyTransaction_ending (earlier later : List (Transaction κ ν)) (t : Transaction κ ν)
    (change : Transaction κ ν → Transaction κ ν) :
    (ending init done (earlier ++ t :: later)).modifyTransaction ⟨done.length + 1, earlier.length⟩
      change = ending init done (earlier ++ change t :: later) := by
  simp only [ending, modifyTransaction, modify_length_append]

theorem addTransaction_ending (ts : List (Transaction κ ν)) :
    (ending init done ts).addTransaction (done.length + 1) =
      .ok (⟨done.length + 1, ts.length⟩,
        ending init done (ts ++ [.start ⟨done.length + 1, ts.length⟩])) := by
  simp only [ending, addTransaction, session?, List.getElem?_concat_length, modify_length_append]

theorem commit_ending (earlier later : List (Transaction κ ν)) {t : Transaction κ ν}
    (hrun : t.committed = false) :
    (ending init done (earlier ++ t :: later)).commit ⟨done.length + 1, earlier.length⟩ =
      .ok (ending init done (earlier ++ { t with committed := true } :: later)) := by
  have hid : (⟨done.length + 1, earlier.length⟩ : TransactionId).isInit = false := rfl
  simp only [commit, hid, Bool.false_eq_true, if_false, transaction?_ending, hrun,
    modifyTransaction_ending]

section Second

variable (ts : List (Transaction κ ν)) (first second : Transaction κ ν)

theorem transaction?_ending_second :
    (ending init done (ts ++ [first, second])).transaction? ⟨done.length + 1, ts.length + 1⟩ =
      some second := by
  have hlook := transaction?_ending init done (ts ++ [first]) [] second
  rwa [List.length_append, List.length_singleton, ← List.append_cons] at hlook

theorem modifyTransaction_ending_second (change : Transaction κ ν → Transaction κ ν) :
    (ending init done (ts ++ [first, second])).modifyTransaction ⟨done.length + 1, ts.length + 1⟩
      change = ending init done (ts ++ [first, change second]) := by
  have hmodify := modifyTransaction_ending init done (ts ++ [first]) [] second change
  rwa [List.length_append, List.length_singleton, ← List.append_cons, ← List.append_cons] at hmodify

theorem commit_ending_second {second : Transaction κ ν} (hrun : second.committed = false) :
    (ending init done (ts ++ [first, second])).commit ⟨done.length + 1, ts.length + 1⟩ =
      .ok (ending init done (ts ++ [first, { second with committed := true }])) := by
  have hcommit := commit_ending init done (ts ++ [first]) [] hrun
  rwa [List.length_append, List.length_singleton, ← List.append_cons, ← List.append_cons] at hcommit

end Second

end Ending

variable [DecidableEq κ] [DecidableEq ν]

/-- An event goes to a running transaction if it is a read, or if its value is new. -/
theorem addEvent_eq_ok {h : History κ ν} {id : TransactionId} {t : Transaction κ ν}
    (ht : h.transaction? id = some t) (hrun : t.committed = false) {kind : EventKind}
    (hinit : id.isInit = true → kind = .write) {key : κ} {value : ν}
    (hnew : kind = .write → ∀ u ∈ h.transactions, ∀ e ∈ u.events, e.isWrite = true →
      (e.key, e.value) ≠ (key, value)) :
    (h.addEvent id kind key value).map Prod.snd = .ok (h.modifyTransaction id fun t =>
      { t with events := t.events ++ [⟨id, kind, key, value⟩] }) := by
  cases kind with
  | read =>
    -- Reads are only refused by the init transaction.
    have hid : id.isInit = false := by
      rw [← Bool.not_eq_true]
      exact fun hc => absurd (hinit hc) (by simp)
    simp only [addEvent, hid, Bool.false_and, Bool.false_eq_true, if_false, ht, hrun, Except.map]
  | write =>
    -- A write is refused for one reason only: its value has a writer.
    have hnone : h.writerOf? key value = none := by
      rw [writerOf?_eq_none_iff]
      rintro ⟨other, index⟩ e he
      rw [event?_mk, Option.bind_eq_some_iff] at he
      rcases he with ⟨u, hu, hget⟩
      rw [← Bool.not_eq_true, writes_iff]
      rintro ⟨hwrite, hkey, hvalue⟩
      exact hnew rfl u (h.mem_transactions_of_lookup hu) e (List.mem_of_getElem? hget) hwrite
        (Prod.ext hkey hvalue)
    have hkind : (EventKind.write == EventKind.read) = false := rfl
    simp only [addEvent, hkind, Bool.and_false, Bool.false_eq_true, if_false, ht, hrun, hnone,
      Except.map]

end Isolation.History
