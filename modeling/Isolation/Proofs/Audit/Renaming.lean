import Isolation.Proofs.Audit.Completeness
import Isolation.Proofs.Witness.Renaming

/-!
# Audits Under Other Names

An audit goes by orders that mean nothing: identifiers are compared to list constraints, keys are sorted,
nodes are numbered in the order of the sessions. Its verdict depends on none of them. To show this, nothing
is followed through the stages of the audit. The verdict says whether some schedule explains the history,
at the stronger level one without a gap between starts and commits, and what a schedule explains does not
depend on names.

## Main definitions

* `History.renamed`: The history with its sessions in another order and with keys and values renamed.

## Theorems

* `audit_renamed_iff`: An audit accepts a renamed history exactly if it accepts the history.
-/

namespace Isolation

open Isolation.Sat
open Isolation.History (writeSkew built_writeSkew)

variable {κ ν κ' ν' : Type}

theorem exists_ok_iff_isSome {ε α : Type} {outcome : Except ε α} :
    (∃ a, outcome = .ok a) ↔ outcome.toOption.isSome = true := by
  cases outcome with
  | error fault => simp [Except.toOption]
  | ok a => simp [Except.toOption]

section Verdict

variable [DecidableEq κ] [DecidableEq ν] [Ord κ] [DecidableEq κ'] [DecidableEq ν'] [Ord κ']

omit [Ord κ] in
/-- Witnesses of a level are schedules, at the stronger level those without a gap between the start and the
    commit of a transaction. -/
theorem exists_explains_iff_schedule {h : History κ ν} (hw : h.WellFormed) (level : IsolationLevel) :
    (∃ w : Witness, w.level = level ∧ w.explains h = true) ↔
      ∃ s : Schedule, s.Explains h ∧
        (level = .serializable → ∀ id, h.IsClient id → s.start id = s.commit id) := by
  cases level with
  | serializable =>
    constructor
    · rintro ⟨w, hlevel, hexplains⟩
      cases w with
      | splitOrder order => cases hlevel
      | commitOrder order =>
        rcases (exists_commitOrder_iff hw).mp ⟨order, hexplains⟩ with ⟨s, hs, hsame⟩
        exact ⟨s, hs, fun _ => hsame⟩
    · rintro ⟨s, hs, hsame⟩
      rcases (exists_commitOrder_iff hw).mpr ⟨s, hs, hsame rfl⟩ with ⟨order, hexplains⟩
      exact ⟨_, rfl, hexplains⟩
  | snapshotIsolation =>
    constructor
    · rintro ⟨w, hlevel, hexplains⟩
      cases w with
      | commitOrder order => cases hlevel
      | splitOrder order =>
        rcases (exists_splitOrder_iff hw).mp ⟨order, hexplains⟩ with ⟨s, hs⟩
        exact ⟨s, hs, fun hc => by cases hc⟩
    · rintro ⟨s, hs, _⟩
      rcases (exists_splitOrder_iff hw).mpr ⟨s, hs⟩ with ⟨order, hexplains⟩
      exact ⟨_, rfl, hexplains⟩

variable {engine : Engine} (hsound : engine.Sound) (hrefuting : engine.Refuting)
  (hreliable : engine.Reliable)

include hsound hrefuting hreliable

/-- An audit accepts if everything has committed and some schedule explains the history. -/
theorem exists_auditWith_iff_schedule {h : History κ ν} (hw : h.WellFormed) (options : AuditOptions) :
    (∃ w, h.auditWith engine options = .ok w) ↔
      (∀ t ∈ h.clientTransactions, t.committed = true) ∧ ∃ s : Schedule, s.Explains h ∧
        (options.level = .serializable → ∀ id, h.IsClient id → s.start id = s.commit id) := by
  rw [← exists_explains_iff_schedule hw]
  constructor
  · intro haccepts
    -- An audit validates before it searches.
    have hcommitted : ∀ t ∈ h.clientTransactions, t.committed = true := by
      rcases haccepts with ⟨w, haudit⟩
      exact (hw.validate_eq_ok_iff.mp (auditWith_eq_ok_iff.mp haudit).1).committed
    exact ⟨hcommitted, (exists_auditWith_iff hw hcommitted hsound hrefuting hreliable options).mp haccepts⟩
  · rintro ⟨hcommitted, hexplained⟩
    exact (exists_auditWith_iff hw hcommitted hsound hrefuting hreliable options).mpr hexplained

theorem History.Renames.exists_auditWith_iff {σ : Equiv.Perm Nat} {f : κ → κ'} {g : κ → ν → ν'}
    {h : History κ ν} {h' : History κ' ν'} (hr : Renames σ f g h h') (hw : h.WellFormed)
    (hw' : h'.WellFormed) (options : AuditOptions) :
    (∃ w, h'.auditWith engine options = .ok w) ↔ ∃ w, h.auditWith engine options = .ok w := by
  rw [exists_auditWith_iff_schedule hsound hrefuting hreliable hw',
    exists_auditWith_iff_schedule hsound hrefuting hreliable hw, hr.forall_clientTransactions_iff hw]
  refine and_congr Iff.rfl ?_
  constructor
  · rintro ⟨s, hs, hsame⟩
    refine ⟨s.renumbered σ, (hr.explains_iff hw hw' s).mp hs, fun hlevel => ?_⟩
    exact hr.forall_isClient_iff.mp (hsame hlevel)
  · rintro ⟨s, hs, hsame⟩
    -- Every schedule is a renumbered one.
    have hback : (s.renumbered σ.symm).renumbered σ = s := by
      unfold Schedule.renumbered TransactionId.renumbered
      simp only [Equiv.symm_apply_apply]
    refine ⟨s.renumbered σ.symm, (hr.explains_iff hw hw' _).mpr (by rw [hback]; exact hs), fun hlevel => ?_⟩
    have hgapless := hsame hlevel
    rw [← hback] at hgapless
    exact hr.forall_isClient_iff.mpr hgapless

end Verdict

section Renumbering

/-- The renumbering of all places but the first one. -/
def shiftedRenumbering (σ : Equiv.Perm Nat) : Equiv.Perm Nat where
  toFun
    | 0 => 0
    | n + 1 => σ n + 1
  invFun
    | 0 => 0
    | n + 1 => σ.symm n + 1
  left_inv n := by
    cases n with
    | zero => rfl
    | succ n => exact congrArg (· + 1) (σ.symm_apply_apply n)
  right_inv n := by
    cases n with
    | zero => rfl
    | succ n => exact congrArg (· + 1) (σ.apply_symm_apply n)

theorem exists_renumbering {α : Type} {items arranged : List α} (hperm : items.Perm arranged) :
    ∃ σ : Equiv.Perm Nat, ∀ i, arranged[σ i]? = items[i]? := by
  induction hperm with
  | nil => exact ⟨Equiv.refl _, fun _ => rfl⟩
  | cons first _ ih =>
    rcases ih with ⟨σ, hσ⟩
    refine ⟨shiftedRenumbering σ, fun i => ?_⟩
    cases i with
    | zero => rfl
    | succ i => exact hσ i
  | swap first second rest =>
    -- Only the first two places change.
    refine ⟨Equiv.swap 0 1, fun i => ?_⟩
    match i with
    | 0 => rw [Equiv.swap_apply_left]; rfl
    | 1 => rw [Equiv.swap_apply_right]; rfl
    | i + 2 => rw [Equiv.swap_apply_of_ne_of_ne (by omega) (by omega)]; rfl
  | trans _ _ ih ih' =>
    rcases ih with ⟨σ, hσ⟩
    rcases ih' with ⟨τ, hτ⟩
    exact ⟨σ.trans τ, fun i => (hτ (σ i)).trans (hσ i)⟩

end Renumbering

/-- The session under other names and with another number. -/
def Session.renamed (f : κ → κ') (g : ν → ν') (number : Nat) (s : Session κ ν) : Session κ' ν' :=
  ⟨number, s.transactions.map (Transaction.renamed f (fun _ => g) number)⟩

namespace History

/-- The history with its sessions in the given order, numbered in this order, and with keys and values
    renamed. -/
def renamed (f : κ → κ') (g : ν → ν') (order : List (Session κ ν)) (h : History κ ν) :
    History κ' ν' where
  init := h.init.renamed f (fun _ => g) 0
  sessions := order.mapIdx fun index s => s.renamed f g (index + 1)

section Renamed

variable {f : κ → κ'} {g : ν → ν'} {order : List (Session κ ν)} {h : History κ ν} {σ : Equiv.Perm Nat}

theorem transaction?_renamed (horder : ∀ i, order[σ i]? = h.sessions[i]?) (id : TransactionId) :
    (h.renamed f g order).transaction? (id.renumbered (shiftedRenumbering σ)) =
      (h.transaction? id).map
        (Transaction.renamed f (fun _ => g) (shiftedRenumbering σ id.session)) := by
  rcases id with ⟨session, height⟩
  cases session with
  | zero =>
    -- The init transaction stays where it is.
    rw [show TransactionId.renumbered (shiftedRenumbering σ) ⟨0, height⟩ = ⟨0, height⟩ from rfl,
      transaction?_zero, transaction?_zero]
    by_cases hheight : height = 0
    · rw [if_pos hheight, if_pos hheight]
      rfl
    · rw [if_neg hheight, if_neg hheight]
      rfl
  | succ index =>
    rw [show TransactionId.renumbered (shiftedRenumbering σ) ⟨index + 1, height⟩ =
      ⟨σ index + 1, height⟩ from rfl, transaction?_succ, transaction?_succ]
    have hsession : (h.renamed f g order).sessions[σ index]? =
        h.sessions[index]?.map fun s => s.renamed f g (σ index + 1) := by
      rw [← horder index]
      exact List.getElem?_mapIdx ..
    rw [hsession]
    cases h.sessions[index]? with
    | none => rfl
    | some s => exact List.getElem?_map ..

theorem event?_renamed (horder : ∀ i, order[σ i]? = h.sessions[i]?) (id : TransactionId) (index : Nat) :
    (h.renamed f g order).event? ⟨id.renumbered (shiftedRenumbering σ), index⟩ =
      (h.transaction? id).bind fun t => t.events[index]?.map
        (Event.renamed f (fun _ => g) ⟨shiftedRenumbering σ id.session, t.id.height⟩) := by
  rw [event?_mk, transaction?_renamed horder, Option.bind_map]
  refine congrArg (Option.bind _) (funext fun t => ?_)
  exact t.getElem?_events_renamed ..

/-- A renamed history is well-formed if names are kept apart. -/
theorem WellFormed.renamed (hw : h.WellFormed) (horder : ∀ i, order[σ i]? = h.sessions[i]?)
    (hf : Function.Injective f) (hg : Function.Injective g) : (h.renamed f g order).WellFormed where
  init_id := by
    have hheight : h.init.id.height = 0 := by
      rw [hw.init_id]
      rfl
    exact congrArg (TransactionId.mk 0) hheight
  init_writes := by
    intro e' he'
    rcases List.mem_map.mp he' with ⟨e, he, rfl⟩
    exact hw.init_writes e he
  session_id := by
    intro index s' hs'
    rcases Option.map_eq_some_iff.mp ((List.getElem?_mapIdx ..).symm.trans hs') with ⟨s, _, rfl⟩
    rfl
  transaction_id := by
    intro id' t' ht'
    rcases Renames.exists_renumbered (shiftedRenumbering σ) id' with ⟨id, rfl⟩
    rw [transaction?_renamed horder, Option.map_eq_some_iff] at ht'
    rcases ht' with ⟨t, ht, rfl⟩
    have hid := hw.transaction_id id t ht
    exact congrArg (TransactionId.mk _) (congrArg TransactionId.height hid)
  written_once := by
    rintro ⟨a', i⟩ ⟨b', j⟩ e' e₂' he' he₂' hwrite hwrite₂ hkey hvalue
    rcases Renames.exists_renumbered (shiftedRenumbering σ) a' with ⟨a, rfl⟩
    rcases Renames.exists_renumbered (shiftedRenumbering σ) b' with ⟨b, rfl⟩
    rw [event?_renamed horder, Option.bind_eq_some_iff] at he' he₂'
    rcases he' with ⟨t, ht, he'⟩
    rcases he₂' with ⟨u, hu, he₂'⟩
    rcases Option.map_eq_some_iff.mp he' with ⟨e, he, rfl⟩
    rcases Option.map_eq_some_iff.mp he₂' with ⟨e₂, he₂, rfl⟩
    -- The names are apart, so the two writes were of one value under one key before, too.
    have hplace := hw.written_once ⟨a, i⟩ ⟨b, j⟩ e e₂ (by rw [event?_mk, ht]; exact he)
      (by rw [event?_mk, hu]; exact he₂) hwrite hwrite₂ (hf hkey) (hg hvalue)
    rcases EventId.mk.inj hplace with ⟨rfl, rfl⟩
    rfl

variable [DecidableEq κ] [DecidableEq κ']

/-- A renamed history is the history under other names. -/
theorem renames_renamed (horder : ∀ i, order[σ i]? = h.sessions[i]?) (hf : Function.Injective f)
    (hg : Function.Injective g) :
    Renames (shiftedRenumbering σ) f (fun _ => g) h (h.renamed f g order) where
  zero := rfl
  client id _ := transaction?_renamed horder id
  keys _ _ _ _ hkey := hf hkey
  values _ _ _ _ _ hvalue := hg hvalue
  init e _ _ := by
    have hfinal : (h.renamed f g order).init.finalValue? (f e.key) = (h.init.finalValue? e.key).map g :=
      Transaction.finalValue?_renamed (fun _ _ hkey => hf hkey) 0
    rw [hfinal, Option.map_eq_some_iff]
    constructor
    · rintro ⟨value, hvalue, heq⟩
      rw [← hg heq]
      exact hvalue
    · intro hvalue
      exact ⟨_, hvalue, rfl⟩

end Renamed

end History

section Verdict

variable [DecidableEq κ] [DecidableEq ν] [Ord κ] [DecidableEq κ'] [DecidableEq ν'] [Ord κ']

/-- An audit accepts a history exactly if it accepts it with its sessions in any other order and with keys
    and values under any other names, whatever the options and whatever engine decides. The order on the
    new keys does not matter, nor does that on the old ones. -/
theorem audit_renamed_iff {h : History κ ν} (hbuilt : h.Built) {order : List (Session κ ν)}
    (horder : order.Perm h.sessions) {f : κ → κ'} (hf : Function.Injective f) {g : ν → ν'}
    (hg : Function.Injective g) (options : AuditOptions) :
    ((∃ w, (h.renamed f g order).audit options = .ok w) ↔ ∃ w, h.audit options = .ok w) ∧
    ∀ engine : Engine, engine.Sound → engine.Refuting → engine.Reliable →
      ((∃ w, (h.renamed f g order).auditWith engine options = .ok w) ↔
        ∃ w, h.auditWith engine options = .ok w) := by
  have hw := hbuilt.wellFormed
  rcases exists_renumbering horder.symm with ⟨σ, hσ⟩
  have hr := History.renames_renamed hσ hf hg
  exact forall_engines id fun engine hsound hrefuting hreliable =>
    hr.exists_auditWith_iff hsound hrefuting hreliable hw (hw.renamed hσ hf hg) options

end Verdict

/-- With its sessions exchanged, under keys whose order is reversed and with other values, a write skew is
    still snapshot isolated and still not serializable. -/
theorem audit_renamed_iff_writeSkew :
    (writeSkew.Built ∧ writeSkew.sessions.reverse.Perm writeSkew.sessions ∧
      Function.Injective Int.negSucc ∧ Function.Injective Nat.succ) ∧
    (∃ w, (writeSkew.renamed Int.negSucc Nat.succ writeSkew.sessions.reverse).audit {} = .ok w) ∧
    ¬∃ w, (writeSkew.renamed Int.negSucc Nat.succ writeSkew.sessions.reverse).audit
      { level := .serializable } = .ok w := by
  have hf : Function.Injective Int.negSucc := fun _ _ => Int.negSucc.inj
  have horder := writeSkew.sessions.reverse_perm
  have hsame := audit_renamed_iff built_writeSkew horder hf Nat.succ_injective
  refine ⟨⟨built_writeSkew, horder, hf, Nat.succ_injective⟩, ?_, ?_⟩
  · exact (hsame {}).1.mpr (exists_ok_iff_isSome.mpr (by decide +kernel))
  · rw [(hsame { level := .serializable }).1, exists_ok_iff_isSome]
    decide +kernel

end Isolation
