import Isolation.Proofs.History.Reads

/-!
# Schedules

A witness is a list, and a replay goes through it step by step. What it means that the replay succeeds
has nothing to do with lists: every transaction has a moment at which it starts and a moment at which it
commits, and the history has to agree with these moments. A schedule is such a choice of moments, and
`Schedule.Explains` says what the history has to agree with.

Snapshot isolation asks for any schedule. Serializability asks for one in which a transaction starts and
commits at the same moment.

Only two comparisons between moments matter: whether one commit comes before another, and whether a commit
comes before a start. `Explains.of_agree` says that schedules which agree on them explain the same
histories; this is how moments are replaced by positions in a list, and back.

## Main definitions

* `Schedule`, `Schedule.Explains`: Moments of starts and commits, and that a history agrees with them.

## Theorems

* `latestValue?_eq_some_iff`: What has been installed shows the last writer.
-/

namespace Isolation

variable {κ ν : Type} [DecidableEq κ]

/-- Moments at which transactions start and commit. -/
structure Schedule where
  start : TransactionId → Nat
  commit : TransactionId → Nat

namespace Schedule

/-- The last transaction that writes a key and commits before a moment. -/
structure LastWriter (s : Schedule) (h : History κ ν) (key : κ) (moment : Nat)
    (w : Transaction κ ν) : Prop where
  mem : w ∈ h.transactions
  writes : w.writesKey key = true
  before : s.commit w.id < moment
  latest : ∀ u ∈ h.transactions, u.writesKey key = true → s.commit u.id < moment →
    s.commit u.id ≤ s.commit w.id

/-- A read sees its own latest write, or else the last writer before the start. -/
def Shows (s : Schedule) (h : History κ ν) (t : Transaction κ ν) (index : Nat) (e : Event κ ν) :
    Prop :=
  t.ownValue? e.key index = some e.value ∨
    t.ownValue? e.key index = none ∧
      ∃ w, s.LastWriter h e.key (s.start t.id) w ∧ w.finalValue? e.key = some e.value

/-- The history agrees with the moments. -/
structure Explains (s : Schedule) (h : History κ ν) : Prop where
  start_le_commit : ∀ id, h.IsClient id → s.start id ≤ s.commit id
  init_first : ∀ id, h.IsClient id → s.commit .init < s.start id
  commit_inj : ∀ a b, h.IsClient a → h.IsClient b → s.commit a = s.commit b → a = b
  session : ∀ session height, h.IsClient ⟨session, height + 1⟩ →
    s.commit ⟨session, height⟩ < s.start ⟨session, height + 1⟩
  reads : ∀ t ∈ h.clientTransactions, ∀ index e, t.events[index]? = some e → e.isRead = true →
    s.Shows h t index e
  /-- Transactions that write a common key do not overlap. -/
  separate : ∀ t ∈ h.clientTransactions, ∀ u ∈ h.clientTransactions, t.id ≠ u.id →
    (∃ key, t.writesKey key = true ∧ u.writesKey key = true) →
    s.commit t.id < s.start u.id ∨ s.commit u.id < s.start t.id

namespace Explains

variable {s : Schedule} {h : History κ ν}

/-- Sessions are in order, not only between neighbours. -/
theorem commit_lt_start (hs : s.Explains h) {session a b : Nat}
    (hclient : h.IsClient ⟨session, b⟩) (hlt : a < b) :
    s.commit ⟨session, a⟩ < s.start ⟨session, b⟩ := by
  induction b with
  | zero => exact absurd hlt (Nat.not_lt_zero a)
  | succ k ih =>
    have hnext := hs.session session k hclient
    by_cases hak : a = k
    · rw [hak]
      exact hnext
    · have hk := hclient.of_le (Nat.le_succ k)
      have hle := hs.start_le_commit _ hk
      have hlt' := ih hk (by omega)
      omega

theorem commit_init_lt (hs : s.Explains h) {id : TransactionId} (hclient : h.IsClient id) :
    s.commit .init < s.commit id :=
  Nat.lt_of_lt_of_le (hs.init_first id hclient) (hs.start_le_commit id hclient)

theorem id_eq_of_commit_eq (hs : s.Explains h) (hw : h.WellFormed) {t u : Transaction κ ν}
    (ht : t ∈ h.transactions) (hu : u ∈ h.transactions) (heq : s.commit t.id = s.commit u.id) :
    t.id = u.id := by
  rcases hw.id_eq_init_or_isClient ht with htid | htid
  · rcases hw.id_eq_init_or_isClient hu with huid | huid
    · rw [htid, huid]
    · have := hs.commit_init_lt huid
      rw [← htid] at this
      omega
  · rcases hw.id_eq_init_or_isClient hu with huid | huid
    · have := hs.commit_init_lt htid
      rw [← huid] at this
      omega
    · exact hs.commit_inj _ _ htid huid heq

/-- What a read sees under a schedule was left behind by another transaction. -/
theorem supports_of_shows (hs : s.Explains h) {t : Transaction κ ν} (hclient : h.IsClient t.id)
    {index : Nat} {e : Event κ ν} (hshows : s.Shows h t index e) : h.Supports t index e := by
  rcases hshows with hown | ⟨hown, w, hlast, hfinal⟩
  · exact Or.inl hown
  · refine Or.inr ⟨hown, w, hlast.mem, ?_, hfinal⟩
    intro hc
    have hbefore := hlast.before
    have hle := hs.start_le_commit t.id hclient
    rw [hc] at hbefore
    omega

theorem consistent (hs : s.Explains h) (hw : h.WellFormed)
    (hcommitted : ∀ t ∈ h.clientTransactions, t.committed = true) : h.Consistent := by
  refine hw.consistent_of_clients hcommitted fun t ht index e he hread => ?_
  exact hs.supports_of_shows (hw.isClient_of_mem ht) (hs.reads t ht index e he hread)

/-- Schedules that agree on which commits come before which commits and starts explain the same. -/
theorem of_agree {s' : Schedule} (hs : s.Explains h) (hw : h.WellFormed)
    (hle : ∀ id, h.IsClient id → s'.start id ≤ s'.commit id)
    (hstart : ∀ t ∈ h.transactions, ∀ b, h.IsClient b →
      (s.commit t.id < s.start b ↔ s'.commit t.id < s'.start b))
    (hcommit : ∀ t ∈ h.transactions, ∀ u ∈ h.transactions,
      (s.commit t.id < s.commit u.id ↔ s'.commit t.id < s'.commit u.id)) : s'.Explains h := by
  have hmem : ∀ {id}, h.IsClient id → ∃ t ∈ h.transactions, t.id = id := by
    rintro id ⟨_, t, ht⟩
    exact ⟨t, h.mem_transactions_of_lookup ht, hw.transaction_id id t ht⟩
  refine ⟨hle, ?_, ?_, ?_, ?_, ?_⟩
  · intro id hid
    have := (hstart h.init List.mem_cons_self id hid).mp
      (by rw [hw.init_id]; exact hs.init_first id hid)
    rwa [hw.init_id] at this
  · intro a b ha hb heq
    rcases hmem ha with ⟨t, ht, rfl⟩
    rcases hmem hb with ⟨u, hu, rfl⟩
    have htu := hcommit t ht u hu
    have hut := hcommit u hu t ht
    exact hs.commit_inj _ _ ha hb (by omega)
  · intro session height hnext
    rcases hmem (hnext.of_le (Nat.le_succ height)) with ⟨t, ht, heq⟩
    have := (hstart t ht _ hnext).mp (by rw [heq]; exact hs.session session height hnext)
    rwa [heq] at this
  · intro t ht index e he hread
    have hid := hw.isClient_of_mem ht
    rcases hs.reads t ht index e he hread with hown | ⟨hown, w, hlast, hfinal⟩
    · exact Or.inl hown
    · refine Or.inr ⟨hown, w, ⟨hlast.mem, hlast.writes,
        (hstart w hlast.mem t.id hid).mp hlast.before, ?_⟩, hfinal⟩
      intro u hu hwrites hbefore
      have hle := hlast.latest u hu hwrites ((hstart u hu t.id hid).mpr hbefore)
      have := hcommit w hlast.mem u hu
      omega
  · intro t ht u hu hne hshare
    rcases hs.separate t ht u hu hne hshare with hlt | hlt
    · exact Or.inl ((hstart t (History.mem_transactions_of_client ht) u.id (hw.isClient_of_mem hu)).mp hlt)
    · exact Or.inr ((hstart u (History.mem_transactions_of_client hu) t.id (hw.isClient_of_mem ht)).mp hlt)

end Explains

/-- What has been installed, the latest first, shows the last writer before a moment, if it consists of
    the transactions that have committed by then. -/
theorem latestValue?_eq_some_iff (s : Schedule) (h : History κ ν) {moment : Nat}
    {installed : List (Transaction κ ν)}
    (hsorted : installed.Pairwise fun a b => s.commit b.id < s.commit a.id)
    (hmem : ∀ w, w ∈ installed ↔ w ∈ h.transactions ∧ s.commit w.id < moment)
    (key : κ) (value : ν) :
    latestValue? installed key = some value ↔
      ∃ w, s.LastWriter h key moment w ∧ w.finalValue? key = some value := by
  rw [latestValue?, List.findSome?_eq_some_iff]
  constructor
  · rintro ⟨newer, w, older, rfl, hfinal, hnone⟩
    rcases (hmem w).mp (by simp only [List.mem_append, List.mem_cons, true_or, or_true]) with
      ⟨hw, hbefore⟩
    refine ⟨w, ⟨hw, (w.writesKey_eq_true_iff key).mpr ⟨value, hfinal⟩, hbefore, ?_⟩, hfinal⟩
    intro u hu hwrites hlt
    rw [List.pairwise_append, List.pairwise_cons] at hsorted
    rcases List.mem_append.mp ((hmem u).mpr ⟨hu, hlt⟩) with hnewer | htail
    · have := (u.finalValue?_eq_none_iff key).mp (hnone u hnewer)
      rw [hwrites] at this
      exact absurd this (by simp)
    · rcases List.mem_cons.mp htail with rfl | holder
      · exact Nat.le_refl _
      · exact Nat.le_of_lt (hsorted.2.1.1 u holder)
  · rintro ⟨w, hlast, hfinal⟩
    rcases List.append_of_mem ((hmem w).mpr ⟨hlast.mem, hlast.before⟩) with ⟨newer, older, rfl⟩
    refine ⟨newer, w, older, rfl, hfinal, ?_⟩
    intro u hu
    rw [u.finalValue?_eq_none_iff, ← Bool.not_eq_true]
    intro hwrites
    rw [List.pairwise_append] at hsorted
    rcases (hmem u).mp (List.mem_append_left _ hu) with ⟨humem, hubefore⟩
    have hle := hlast.latest u humem hwrites hubefore
    have hlt := hsorted.2.2 u hu w List.mem_cons_self
    omega

end Schedule

end Isolation
