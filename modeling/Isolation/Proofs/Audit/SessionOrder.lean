import Isolation.Proofs.Audit.Renaming
import Isolation.Proofs.History.Loading

/-!
# The Order of Recorded Sessions

Sessions run side by side, so nothing should depend on the order in which a recording lists them. For a
history this holds: its audit does not depend on how sessions are numbered. But loading goes through the
sessions one after the other, and it treats an open read differently from a read of the default value. If
somebody has written the default value so far, the open read sees that write. If not, the init transaction
stores the value, and a write that comes later is refused as a repetition. So the same sessions can be
accepted in one order and refused in another.

What remains true is said here. Among the orders in which no write of the default value follows an open
read of its key, the verdict is the same, at every level. All other orders are refused when they are loaded.
If open reads and writes of the default value never meet in two different sessions, the order does not
matter.

## Main definitions

* `Recorded.OpenReadsLast`: No write of the default value follows an open read of its key.

## Theorems

* `check_sessionOrder`: How the verdict depends on the order.
* `check_depends_on_order`: It does depend on it.
-/

namespace Isolation

open Isolation.Sat
open Isolation.History (loaded loadedTransaction load_decides load_eq_ok_iff built_loaded)

variable {κ ν : Type}

namespace Recorded

variable [Inhabited ν]

/-- No write of the default value follows an open read of its key. -/
def OpenReadsLast (events : List (Event κ ν)) : Prop :=
  events.Pairwise fun a b => ∀ key, a = .read key none → b ≠ .write key default

/-- No value is written twice under the same key. -/
def WritesOnce (events : List (Event κ ν)) : Prop :=
  events.Pairwise fun a b => ∀ key value, a = .write key value → b ≠ .write key value

/-- If one session leaves a key open, no other one writes its default value. -/
def OpenReadsApart (sessions : List (Session κ ν)) : Prop :=
  sessions.Pairwise fun a b => ∀ key,
    (.read key none ∈ events [a] → .write key default ∉ events [b]) ∧
    (.read key none ∈ events [b] → .write key default ∉ events [a])

/-- A recording is loadable if no value is written twice, and if no write of the default value follows an
    open read. Only the second part depends on the order. -/
theorem freshWrites_iff [DecidableEq κ] [DecidableEq ν] (events : List (Event κ ν)) :
    FreshWrites events ↔ WritesOnce events ∧ OpenReadsLast events := by
  unfold FreshWrites WritesOnce OpenReadsLast
  rw [← List.pairwise_and_iff]
  refine List.Pairwise.iff fun a b => ?_
  constructor
  · intro hfresh
    refine ⟨fun key value ha hb => ?_, fun key ha hb => ?_⟩
    · have hsupplies := hfresh key value hb
      rw [(Event.supplies_iff _ _ _).mpr (.inl ha)] at hsupplies
      exact absurd hsupplies.symm Bool.false_ne_true
    · have hsupplies := hfresh key default hb
      rw [(Event.supplies_iff _ _ _).mpr (.inr ⟨ha, rfl⟩)] at hsupplies
      exact absurd hsupplies.symm Bool.false_ne_true
  · rintro ⟨hwrites, hopen⟩ key value hb
    rw [← Bool.not_eq_true, Event.supplies_iff]
    rintro (ha | ⟨ha, rfl⟩)
    · exact hwrites key value ha hb
    · exact hopen key ha hb

omit [Inhabited ν] in
theorem events_eq_flatMap (sessions : List (Session κ ν)) :
    events sessions = sessions.flatMap fun session => events [session] := by
  unfold events
  rw [List.flatten_eq_flatMap, List.flatMap_assoc]
  simp only [List.flatten_singleton, id]

/-- Where sessions keep out of each other's open reads, what is left to check stands within a session. -/
theorem openReadsLast_iff_of_apart {sessions : List (Session κ ν)} (hapart : OpenReadsApart sessions) :
    OpenReadsLast (events sessions) ↔ ∀ session ∈ sessions, OpenReadsLast (events [session]) := by
  -- Between sessions there is nothing left to check.
  have hcross : sessions.Pairwise fun a b => ∀ e ∈ events [a], ∀ f ∈ events [b],
      ∀ key, e = .read key none → f ≠ .write key default := by
    refine hapart.imp fun {a b} hab e he f hf key => ?_
    rintro rfl rfl
    exact (hab key).1 he hf
  rw [events_eq_flatMap, OpenReadsLast, List.pairwise_flatMap]
  exact and_iff_left hcross

section Order

variable {sessions arranged : List (Session κ ν)} (hperm : sessions.Perm arranged)

include hperm

omit [Inhabited ν] in
theorem perm_events : (events sessions).Perm (events arranged) :=
  hperm.flatten.flatMap_right _

omit [Inhabited ν] in
theorem writesOnce_perm_iff : WritesOnce (events sessions) ↔ WritesOnce (events arranged) := by
  -- The condition is symmetric, so the order of the events does not matter to it.
  refine (perm_events hperm).pairwise_iff fun {a b} hab key value hb ha => ?_
  exact hab key value ha hb

theorem openReadsLast_perm_iff (hapart : OpenReadsApart sessions) :
    OpenReadsLast (events sessions) ↔ OpenReadsLast (events arranged) := by
  have hapart' : OpenReadsApart arranged :=
    (hperm.pairwise_iff fun {a b} hab key => (hab key).symm).mp hapart
  rw [openReadsLast_iff_of_apart hapart, openReadsLast_iff_of_apart hapart']
  simp only [hperm.mem_iff]

end Order

end Recorded

section Renumbered

variable [DecidableEq κ] [DecidableEq ν] [Inhabited ν]

omit [DecidableEq κ] [DecidableEq ν] in
theorem renamed_loadedTransaction (number number' height : Nat) (t : Recorded.Transaction κ ν) :
    (loadedTransaction ⟨number, height⟩ t).renamed id (fun _ => id) number' =
      loadedTransaction ⟨number', height⟩ t := by
  unfold Transaction.renamed loadedTransaction
  rw [List.map_map]
  congr 1
  refine List.map_congr_left fun e _ => ?_
  cases e with
  | read key value => rfl
  | write key value => rfl

/-- Histories of the same sessions in different orders differ in the numbers of the sessions, if the open
    reads call for the same keys. -/
theorem renames_loaded {sessions arranged : List (Recorded.Session κ ν)} {σ : Equiv.Perm Nat}
    (hσ : ∀ i, arranged[σ i]? = sessions[i]?)
    (hkeys : ∀ key, key ∈ Recorded.openedKeys (Recorded.events arranged) ↔
      key ∈ Recorded.openedKeys (Recorded.events sessions)) :
    History.Renames (shiftedRenumbering σ) id (fun _ => id) (loaded sessions) (loaded arranged) where
  zero := rfl
  client := by
    rintro ⟨session, height⟩ hclient
    cases session with
    | zero => cases hclient
    | succ index =>
      have hlook : (loaded arranged).transaction? ⟨σ index + 1, height⟩ = _ :=
        History.transaction?_loaded arranged (σ index) height
      rw [hσ] at hlook
      rw [History.transaction?_loaded, Option.map_map]
      refine hlook.trans (congrArg (fun f => Option.map f _) (funext fun t => ?_))
      exact (renamed_loadedTransaction _ _ _ t).symm
  keys _ _ _ _ hkey := hkey
  values _ _ _ _ _ hvalue := hvalue
  init e _ _ := by
    have hinit : ∀ s : List (Recorded.Session κ ν),
        (loaded s).init = History.defaultInit (Recorded.openedKeys (Recorded.events s)) := fun _ => rfl
    simp only [hinit, id_eq, History.finalValue?_defaultInit, hkeys]

end Renumbered

section Verdict

variable [DecidableEq κ] [DecidableEq ν] [Inhabited ν] [Ord κ]

open Recorded (FreshWrites OpenReadsLast OpenReadsApart)

/-- Sessions are accepted if they can be loaded and the audit accepts their history. -/
theorem exists_checkWith_iff (engine : Engine) (sessions : List (Recorded.Session κ ν))
    (level : IsolationLevel) :
    (∃ w, checkWith engine sessions level = .ok w) ↔ FreshWrites (Recorded.events sessions) ∧
      ∃ w, (loaded sessions).auditWith engine { level := level } = .ok w := by
  unfold checkWith
  by_cases hfresh : FreshWrites (Recorded.events sessions)
  · rw [(load_decides sessions).ok hfresh]
    exact (and_iff_right hfresh).symm
  · rcases (load_decides sessions).error hfresh with ⟨fault, hfault⟩
    rw [hfault]
    simp only [reduceCtorEq, exists_false, hfresh, false_and]

theorem checkWith_of_not_freshWrites {sessions : List (Recorded.Session κ ν)}
    (hnot : ¬FreshWrites (Recorded.events sessions)) (level : IsolationLevel) :
    ∃ fault, ∀ engine, checkWith engine sessions level = .error (.history fault) := by
  rcases (load_decides sessions).error hnot with ⟨fault, hfault⟩
  refine ⟨fault, fun engine => ?_⟩
  rw [checkWith, hfault]

/-- The same sessions have the same verdict, if both orders keep open reads last. -/
theorem exists_checkWith_perm_iff {engine : Engine} (hsound : engine.Sound)
    (hrefuting : engine.Refuting) (hreliable : engine.Reliable)
    {sessions arranged : List (Recorded.Session κ ν)} (hperm : sessions.Perm arranged)
    (hlast : OpenReadsLast (Recorded.events sessions))
    (hlast' : OpenReadsLast (Recorded.events arranged)) (level : IsolationLevel) :
    (∃ w, checkWith engine arranged level = .ok w) ↔ ∃ w, checkWith engine sessions level = .ok w := by
  have hfresh : FreshWrites (Recorded.events sessions) ↔ FreshWrites (Recorded.events arranged) := by
    rw [Recorded.freshWrites_iff, Recorded.freshWrites_iff, Recorded.writesOnce_perm_iff hperm,
      and_iff_left hlast, and_iff_left hlast']
  rw [exists_checkWith_iff, exists_checkWith_iff, ← hfresh]
  refine and_congr_right fun hsessions => ?_
  have harranged := hfresh.mp hsessions
  have hevents := Recorded.perm_events hperm
  rcases exists_renumbering hperm with ⟨σ, hσ⟩
  -- In both orders the same keys are called for, since which ones they are is a matter of membership.
  have hr := renames_loaded hσ fun key => by
    rw [Recorded.mem_openedKeys_iff harranged, Recorded.mem_openedKeys_iff hsessions, hevents.mem_iff,
      hevents.mem_iff]
  exact hr.exists_auditWith_iff hsound hrefuting hreliable (built_loaded hsessions).wellFormed
    (built_loaded harranged).wellFormed _

/-- How the verdict on recorded sessions depends on their order, with the own engine and with any other one
    that keeps its promises: orders that keep open reads last have the same verdict, and the others cannot be
    loaded. If no session writes the default value of a key that another one leaves open, the order does not
    matter. -/
theorem check_sessionOrder {sessions arranged : List (Recorded.Session κ ν)}
    (hperm : sessions.Perm arranged) (level : IsolationLevel) :
    (OpenReadsLast (Recorded.events sessions) → OpenReadsLast (Recorded.events arranged) →
      ((∃ w, check arranged level = .ok w) ↔ ∃ w, check sessions level = .ok w) ∧
      ∀ engine : Engine, engine.Sound → engine.Refuting → engine.Reliable →
        ((∃ w, checkWith engine arranged level = .ok w) ↔
          ∃ w, checkWith engine sessions level = .ok w)) ∧
    (¬OpenReadsLast (Recorded.events arranged) →
      ∃ fault, check arranged level = .error (.history fault) ∧
        ∀ engine, checkWith engine arranged level = .error (.history fault)) ∧
    (OpenReadsApart sessions →
      ((∃ w, check arranged level = .ok w) ↔ ∃ w, check sessions level = .ok w) ∧
      ∀ engine : Engine, engine.Sound → engine.Refuting → engine.Reliable →
        ((∃ w, checkWith engine arranged level = .ok w) ↔
          ∃ w, checkWith engine sessions level = .ok w)) := by
  have hrefused : ∀ {order : List (Recorded.Session κ ν)}, ¬OpenReadsLast (Recorded.events order) →
      ∃ fault, ∀ engine, checkWith engine order level = .error (.history fault) := fun hnot =>
    checkWith_of_not_freshWrites (fun hfresh => hnot ((Recorded.freshWrites_iff _).mp hfresh).2) level
  refine ⟨fun hlast hlast' => forall_engines id fun engine hsound hrefuting hreliable =>
    exists_checkWith_perm_iff hsound hrefuting hreliable hperm hlast hlast' level,
    fun hnot => ?_, fun hapart => forall_engines id fun engine hsound hrefuting hreliable => ?_⟩
  · rcases hrefused hnot with ⟨fault, hfault⟩
    exact ⟨fault, hfault searchEngine, hfault⟩
  have hsame := Recorded.openReadsLast_perm_iff hperm hapart
  -- Either both orders can be loaded as far as open reads are concerned, or neither can.
  by_cases hlast : OpenReadsLast (Recorded.events sessions)
  · exact exists_checkWith_perm_iff hsound hrefuting hreliable hperm hlast (hsame.mp hlast) level
  · rcases hrefused hlast with ⟨fault, hfault⟩
    rcases hrefused (fun hc => hlast (hsame.mpr hc)) with ⟨fault', hfault'⟩
    simp only [hfault, hfault', reduceCtorEq, exists_false]

end Verdict

/-- One session writes the default value of a key, and another one leaves the key open. -/
def defaultWritten : List (Recorded.Session Nat Nat) :=
  [[⟨[.write 0 0], true⟩], [⟨[.read 0 none], true⟩]]

/-- One session leaves a key open and updates it, and another one updates it again. -/
def openUpdates : List (Recorded.Session Nat Nat) :=
  [[⟨[.read 0 none, .write 0 1], true⟩], [⟨[.read 0 (some 1), .write 0 2], true⟩]]

theorem check_sessionOrder_openUpdates :
    (openUpdates.Perm openUpdates.reverse ∧ Recorded.OpenReadsLast (Recorded.events openUpdates) ∧
      Recorded.OpenReadsLast (Recorded.events openUpdates.reverse) ∧
      Recorded.OpenReadsApart openUpdates ∧
      ¬Recorded.OpenReadsLast (Recorded.events defaultWritten.reverse)) ∧
    (∃ w, check openUpdates .serializable = .ok w) ∧
    (∃ w, check openUpdates.reverse .serializable = .ok w) ∧
    ∃ fault, check defaultWritten.reverse .snapshotIsolation = .error (.history fault) ∧
      ∀ engine, checkWith engine defaultWritten.reverse .snapshotIsolation =
        .error (.history fault) := by
  have hperm := openUpdates.reverse_perm.symm
  have hlast : Recorded.OpenReadsLast (Recorded.events openUpdates) := by
    simp [Recorded.OpenReadsLast, Recorded.events, openUpdates]
  have hlast' : Recorded.OpenReadsLast (Recorded.events openUpdates.reverse) := by
    simp [Recorded.OpenReadsLast, Recorded.events, openUpdates]
  have hapart : Recorded.OpenReadsApart openUpdates := by
    simp [Recorded.OpenReadsApart, Recorded.events, openUpdates]
  have hnot : ¬Recorded.OpenReadsLast (Recorded.events defaultWritten.reverse) := by
    simp [Recorded.OpenReadsLast, Recorded.events, defaultWritten]
  have haccepts : ∃ w, check openUpdates .serializable = .ok w :=
    exists_ok_iff_isSome.mpr (by decide +kernel)
  exact ⟨⟨hperm, hlast, hlast', hapart, hnot⟩, haccepts,
    ((check_sessionOrder hperm .serializable).2.2 hapart).1.mpr haccepts,
    (check_sessionOrder defaultWritten.reverse_perm.symm .snapshotIsolation).2.1 hnot⟩

/-- The verdict depends on the order: if the write of the default value comes first, the open read sees it,
    and the sessions are accepted at both levels; if the open read comes first, they are refused. -/
theorem check_depends_on_order :
    defaultWritten.Perm defaultWritten.reverse ∧
    (∃ w, check defaultWritten .snapshotIsolation = .ok w) ∧
    (∃ w, check defaultWritten .serializable = .ok w) ∧
    ∀ level, ¬∃ w, check defaultWritten.reverse level = .ok w := by
  refine ⟨defaultWritten.reverse_perm.symm, exists_ok_iff_isSome.mpr (by decide +kernel),
    exists_ok_iff_isSome.mpr (by decide +kernel), ?_⟩
  rintro level ⟨w, hcheck⟩
  -- The write of the default value follows the open read, so loading fails already.
  have hnot : ¬Recorded.FreshWrites (Recorded.events defaultWritten.reverse) := by
    rw [Recorded.freshWrites_iff]
    simp [Recorded.OpenReadsLast, Recorded.events, defaultWritten]
  rcases checkWith_of_not_freshWrites hnot level with ⟨fault, hfault⟩
  rw [check, hfault] at hcheck
  cases hcheck

end Isolation
