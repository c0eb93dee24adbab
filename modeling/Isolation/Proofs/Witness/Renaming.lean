import Isolation.Proofs.Witness.Schedule
import Mathlib.Logic.Equiv.Basic

/-!
# Histories Under Other Names

What a schedule explains does not depend on how sessions are numbered, or on what keys and values are
called. `History.Renames` says that one history is another one under other names. It asks for no more than
the argument needs. Names have to be kept apart only where the sessions use them: keys among each other,
and values as far as they stand under the same key.

Schedules are carried over backwards: a schedule of the renamed history is one of the other history, read
through the renumbering. This needs no inverse names, and it is done for all schedules at once.

## Main definitions

* `History.Renames`: A history is another one under other names.

## Theorems

* `Renames.explains_iff`: Both histories are explained by the same schedules.
-/

namespace Isolation

variable {κ ν κ' ν' : Type} {t : Transaction κ ν} {e : Event κ ν}

/-- The identifier, with its session renumbered. -/
def TransactionId.renumbered (σ : Nat → Nat) (id : TransactionId) : TransactionId :=
  ⟨σ id.session, id.height⟩

/-- The event under other names, as one of the given transaction. -/
def Event.renamed (f : κ → κ') (g : κ → ν → ν') (id : TransactionId) (e : Event κ ν) : Event κ' ν' :=
  ⟨id, e.kind, f e.key, g e.key e.value⟩

/-- The transaction under other names, in the session with the given number. -/
def Transaction.renamed (f : κ → κ') (g : κ → ν → ν') (session : Nat) (t : Transaction κ ν) :
    Transaction κ' ν' where
  id := ⟨session, t.id.height⟩
  events := t.events.map (Event.renamed f g ⟨session, t.id.height⟩)
  committed := t.committed

namespace Transaction

variable [DecidableEq κ] [DecidableEq κ'] {f : κ → κ'} {g : κ → ν → ν'} {key : κ}

theorem find?_writesKey_renamed {events : List (Event κ ν)}
    (hkeys : ∀ e ∈ events, f e.key = f key → e.key = key) (id : TransactionId) :
    ((events.map (Event.renamed f g id)).find? (Event.writesKey (f key))).map Event.value =
      ((events.find? (Event.writesKey key)).map Event.value).map (g key) := by
  induction events with
  | nil => rfl
  | cons e rest ih =>
    have hrest := ih fun e he => hkeys e (List.mem_cons_of_mem _ he)
    rw [List.map_cons, List.find?_cons, List.find?_cons]
    by_cases hwrites : e.writesKey key = true
    · rcases (writesKey_iff key e).mp hwrites with ⟨hwrite, rfl⟩
      have hwrites' : (e.renamed f g id).writesKey (f e.key) = true :=
        (writesKey_iff _ _).mpr ⟨hwrite, rfl⟩
      rw [hwrites, hwrites']
      rfl
    · -- Another key stays another key, as far as these events are concerned.
      have hwrites' : (e.renamed f g id).writesKey (f key) = false := by
        rw [← Bool.not_eq_true, writesKey_iff]
        rintro ⟨hwrite, hkey⟩
        exact hwrites ((writesKey_iff key e).mpr ⟨hwrite, hkeys e List.mem_cons_self hkey⟩)
      rw [Bool.not_eq_true] at hwrites
      rw [hwrites, hwrites']
      exact hrest

theorem exists_mem_of_ownValue? {index : Nat} {value : ν} (hown : t.ownValue? key index = some value) :
    ∃ e ∈ t.events, e.writesKey key = true ∧ e.value = value := by
  rcases Option.map_eq_some_iff.mp hown with ⟨e, hfind, hvalue⟩
  have hmem := List.mem_reverse.mp (List.mem_of_find?_eq_some hfind)
  exact ⟨e, List.mem_of_mem_take hmem, List.find?_some hfind, hvalue⟩

omit [DecidableEq κ] [DecidableEq κ'] in
theorem length_events_renamed (f : κ → κ') (g : κ → ν → ν') (session : Nat) (t : Transaction κ ν) :
    (t.renamed f g session).events.length = t.events.length :=
  List.length_map ..

omit [DecidableEq κ] [DecidableEq κ'] in
theorem getElem?_events_renamed (f : κ → κ') (g : κ → ν → ν') (session : Nat) (t : Transaction κ ν)
    (index : Nat) : (t.renamed f g session).events[index]? =
      t.events[index]?.map (Event.renamed f g ⟨session, t.id.height⟩) :=
  List.getElem?_map ..

variable {t : Transaction κ ν} (hkeys : ∀ e ∈ t.events, f e.key = f key → e.key = key) (session : Nat)

include hkeys

theorem ownValue?_renamed (index : Nat) :
    (t.renamed f g session).ownValue? (f key) index = (t.ownValue? key index).map (g key) := by
  unfold ownValue? renamed
  -- Renaming is done event by event, so it passes through the search from behind.
  rw [← List.map_take, ← List.map_reverse]
  refine find?_writesKey_renamed (fun e he => hkeys e ?_) _
  exact List.mem_of_mem_take (List.mem_reverse.mp he)

theorem finalValue?_renamed :
    (t.renamed f g session).finalValue? (f key) = (t.finalValue? key).map (g key) := by
  rw [finalValue?_eq_ownValue?, finalValue?_eq_ownValue?, length_events_renamed,
    ownValue?_renamed hkeys]

theorem writesKey_renamed_iff :
    (t.renamed f g session).writesKey (f key) = true ↔ t.writesKey key = true := by
  simp only [writesKey_eq_true_iff, finalValue?_renamed hkeys, Option.map_eq_some_iff]
  constructor
  · rintro ⟨_, value, hfinal, _⟩
    exact ⟨value, hfinal⟩
  · rintro ⟨value, hfinal⟩
    exact ⟨_, value, hfinal, rfl⟩

end Transaction

/-- The events of all sessions. -/
def History.clientEvents (h : History κ ν) : List (Event κ ν) :=
  h.clientTransactions.flatMap Transaction.events

theorem History.mem_clientEvents {h : History κ ν} (ht : t ∈ h.clientTransactions) (he : e ∈ t.events) :
    e ∈ h.clientEvents :=
  List.mem_flatMap.mpr ⟨t, ht, he⟩

section LastWriter

variable [DecidableEq κ]

/-- The last transaction of a session that writes a key and commits before a moment. -/
structure Schedule.LastClientWriter (s : Schedule) (h : History κ ν) (key : κ) (moment : Nat)
    (w : Transaction κ ν) : Prop where
  mem : w ∈ h.clientTransactions
  writes : w.writesKey key = true
  before : s.commit w.id < moment
  latest : ∀ u ∈ h.clientTransactions, u.writesKey key = true → s.commit u.id < moment →
    s.commit u.id ≤ s.commit w.id

/-- What was written last was written last in the sessions; or nobody there has written, and it is an
    initial value. -/
theorem Schedule.exists_lastWriter_iff {s : Schedule} {h : History κ ν} (hw : h.WellFormed)
    (hfirst : ∀ t ∈ h.clientTransactions, s.commit .init < s.commit t.id) {moment : Nat}
    (hmoment : s.commit .init < moment) (key : κ) (value : ν) :
    (∃ w, s.LastWriter h key moment w ∧ w.finalValue? key = some value) ↔
      (∃ w, s.LastClientWriter h key moment w ∧ w.finalValue? key = some value) ∨
        (∀ w ∈ h.clientTransactions, w.writesKey key = true → moment ≤ s.commit w.id) ∧
          h.init.finalValue? key = some value := by
  constructor
  · rintro ⟨w, hlast, hfinal⟩
    rcases List.mem_cons.mp hlast.mem with rfl | hmem
    · refine Or.inr ⟨fun u hu hwrites => ?_, hfinal⟩
      -- A client that had committed before the moment would have done so after the init transaction.
      by_contra hlt
      have hle := hlast.latest u (History.mem_transactions_of_client hu) hwrites (by omega)
      have hlater := hfirst u hu
      rw [hw.init_id] at hle
      omega
    · exact Or.inl ⟨w, ⟨hmem, hlast.writes, hlast.before,
        fun u hu => hlast.latest u (History.mem_transactions_of_client hu)⟩, hfinal⟩
  · rintro (⟨w, hlast, hfinal⟩ | ⟨hnobody, hfinal⟩)
    · -- The init transaction has committed earlier, and so does not come in between.
      refine ⟨w, ⟨History.mem_transactions_of_client hlast.mem, hlast.writes, hlast.before, ?_⟩, hfinal⟩
      intro u hu hwrites hbefore
      rcases List.mem_cons.mp hu with rfl | hmem
      · rw [hw.init_id]
        exact Nat.le_of_lt (hfirst w hlast.mem)
      · exact hlast.latest u hmem hwrites hbefore
    · refine ⟨h.init, ⟨List.mem_cons_self .., (h.init.writesKey_eq_true_iff key).mpr ⟨value, hfinal⟩,
        by rw [hw.init_id]; exact hmoment, ?_⟩, hfinal⟩
      intro u hu hwrites hbefore
      rcases List.mem_cons.mp hu with rfl | hmem
      · exact Nat.le_refl _
      · have := hnobody u hmem hwrites
        omega

end LastWriter

/-- A schedule for renumbered sessions, as one for the sessions with their own numbers. -/
def Schedule.renumbered (σ : Nat → Nat) (s : Schedule) : Schedule where
  start id := s.start (id.renumbered σ)
  commit id := s.commit (id.renumbered σ)

/-- The second history is the first one under other names: its sessions are renumbered, and keys and
    values are renamed so that the sessions and their reads tell the same ones apart. -/
structure History.Renames [DecidableEq κ] [DecidableEq κ'] (σ : Equiv.Perm Nat) (f : κ → κ')
    (g : κ → ν → ν') (h : History κ ν) (h' : History κ' ν') : Prop where
  zero : σ 0 = 0
  client : ∀ id : TransactionId, id.isInit = false →
    h'.transaction? (id.renumbered σ) =
      (h.transaction? id).map (Transaction.renamed f g (σ id.session))
  keys : ∀ a ∈ h.clientEvents, ∀ b ∈ h.clientEvents, f a.key = f b.key → a.key = b.key
  values : ∀ a ∈ h.clientEvents, ∀ b ∈ h.clientEvents, a.key = b.key →
    g a.key a.value = g a.key b.value → a.value = b.value
  /-- Reads of the sessions find the same initial values. -/
  init : ∀ e ∈ h.clientEvents, e.isRead = true →
    (h'.init.finalValue? (f e.key) = some (g e.key e.value) ↔
      h.init.finalValue? e.key = some e.value)

namespace History.Renames

variable [DecidableEq κ] [DecidableEq κ'] {σ : Equiv.Perm Nat} {f : κ → κ'} {g : κ → ν → ν'}
  {h : History κ ν} {h' : History κ' ν'} (hr : Renames σ f g h h')

include hr

theorem isInit_renumbered (id : TransactionId) : (id.renumbered σ).isInit = id.isInit := by
  rcases id with ⟨session, height⟩
  have hiff : σ session = 0 ↔ session = 0 := by
    rw [← σ.injective.eq_iff (a := session), hr.zero]
  rw [Bool.eq_iff_iff]
  simp only [TransactionId.isInit, TransactionId.renumbered, beq_iff_eq]
  exact hiff

theorem isClient_iff (id : TransactionId) : h'.IsClient (id.renumbered σ) ↔ h.IsClient id := by
  unfold IsClient
  rw [hr.isInit_renumbered]
  refine and_congr_right fun hid => ?_
  rw [hr.client id hid]
  simp only [Option.map_eq_some_iff]
  constructor
  · rintro ⟨_, t, ht, _⟩
    exact ⟨t, ht⟩
  · rintro ⟨t, ht⟩
    exact ⟨_, t, ht, rfl⟩

omit hr in
theorem exists_renumbered (σ : Equiv.Perm Nat) (id : TransactionId) :
    ∃ other : TransactionId, other.renumbered σ = id :=
  ⟨⟨σ.symm id.session, id.height⟩, by
    rw [TransactionId.renumbered, Equiv.apply_symm_apply]⟩

omit hr in
theorem renumbered_injective (σ : Equiv.Perm Nat) {a b : TransactionId}
    (heq : a.renumbered σ = b.renumbered σ) : a = b := by
  rcases TransactionId.mk.inj heq with ⟨hsession, hheight⟩
  exact congrArg₂ TransactionId.mk (σ.injective hsession) hheight

theorem mem_clientTransactions_iff (hw : h.WellFormed) (t' : Transaction κ' ν') :
    t' ∈ h'.clientTransactions ↔
      ∃ t ∈ h.clientTransactions, t.renamed f g (σ t.id.session) = t' := by
  constructor
  · intro ht'
    rcases (h'.mem_clientTransactions_iff t').mp ht' with ⟨index, height, hlook⟩
    -- The place has another number in the first history, and is no init transaction there either.
    rcases exists_renumbered σ ⟨index + 1, height⟩ with ⟨id, hid⟩
    have hclient : id.isInit = false := by rw [← hr.isInit_renumbered, hid]; rfl
    rw [← hid, hr.client id hclient, Option.map_eq_some_iff] at hlook
    rcases hlook with ⟨t, ht, hrenamed⟩
    refine ⟨t, mem_clientTransactions_of_lookup hclient ht, ?_⟩
    rw [hw.transaction_id id t ht]
    exact hrenamed
  · rintro ⟨t, ht, rfl⟩
    have hclient := (hw.isClient_of_mem ht).1
    have hlook := hr.client t.id hclient
    rw [hw.lookup_id (mem_transactions_of_client ht), Option.map_some] at hlook
    exact mem_clientTransactions_of_lookup (by rw [hr.isInit_renumbered]; exact hclient) hlook

/-- What holds of the transactions of the one history holds of the renamed ones of the other. -/
theorem forall_clientTransactions_iff (hw : h.WellFormed) {P : Transaction κ' ν' → Prop} :
    (∀ t' ∈ h'.clientTransactions, P t') ↔
      ∀ t ∈ h.clientTransactions, P (t.renamed f g (σ t.id.session)) := by
  constructor
  · intro hall t ht
    exact hall _ ((hr.mem_clientTransactions_iff hw _).mpr ⟨t, ht, rfl⟩)
  · intro hall t' ht'
    rcases (hr.mem_clientTransactions_iff hw t').mp ht' with ⟨t, ht, rfl⟩
    exact hall t ht

theorem forall_isClient_iff {P : TransactionId → Prop} :
    (∀ id, h'.IsClient id → P id) ↔ ∀ id, h.IsClient id → P (id.renumbered σ) := by
  constructor
  · intro hall id hid
    exact hall _ ((hr.isClient_iff id).mpr hid)
  · intro hall id' hid'
    rcases exists_renumbered σ id' with ⟨id, rfl⟩
    exact hall id ((hr.isClient_iff id).mp hid')

/-- The keys of a transaction are kept apart from those of any other event. -/
theorem key_eq (ht : t ∈ h.clientTransactions) (he : e ∈ h.clientEvents) :
    ∀ a ∈ t.events, f a.key = f e.key → a.key = e.key :=
  fun a ha => hr.keys a (mem_clientEvents ht ha) e he

theorem exists_writesKey_iff {t u : Transaction κ ν} (ht : t ∈ h.clientTransactions)
    (hu : u ∈ h.clientTransactions) (session session' : Nat) :
    (∃ key, (t.renamed f g session).writesKey key = true ∧
        (u.renamed f g session').writesKey key = true) ↔
      ∃ key, t.writesKey key = true ∧ u.writesKey key = true := by
  -- Either way the common key is that of an event, so it can be told apart.
  constructor
  · rintro ⟨key', htkey, hukey⟩
    rcases List.any_eq_true.mp htkey with ⟨a', ha', hwrites'⟩
    rcases List.mem_map.mp ha' with ⟨a, ha, rfl⟩
    rcases (writesKey_iff _ _).mp hwrites' with ⟨_, rfl⟩
    have hevent := mem_clientEvents ht ha
    exact ⟨a.key, (Transaction.writesKey_renamed_iff (hr.key_eq ht hevent) session).mp htkey,
      (Transaction.writesKey_renamed_iff (hr.key_eq hu hevent) session').mp hukey⟩
  · rintro ⟨key, htkey, hukey⟩
    rcases List.any_eq_true.mp htkey with ⟨a, ha, hwrites⟩
    rcases (writesKey_iff _ _).mp hwrites with ⟨_, rfl⟩
    have hevent := mem_clientEvents ht ha
    exact ⟨f a.key, (Transaction.writesKey_renamed_iff (hr.key_eq ht hevent) session).mpr htkey,
      (Transaction.writesKey_renamed_iff (hr.key_eq hu hevent) session').mpr hukey⟩

section Moments

variable {s : Schedule}

theorem commit_init : (s.renumbered σ).commit .init = s.commit .init := by
  have hinit : TransactionId.init.renumbered σ = .init := by
    rw [TransactionId.renumbered, TransactionId.init, hr.zero]
  exact congrArg s.commit hinit

/-- Own values are compared alike, if they are compared with what an event holds. -/
theorem ownValue?_eq_some_iff (ht : t ∈ h.clientTransactions) (he : e ∈ h.clientEvents)
    (session index : Nat) :
    (t.renamed f g session).ownValue? (f e.key) index = some (g e.key e.value) ↔
      t.ownValue? e.key index = some e.value := by
  rw [Transaction.ownValue?_renamed (hr.key_eq ht he), Option.map_eq_some_iff]
  constructor
  · rintro ⟨value, hown, hvalue⟩
    -- The own value is that of an event under the same key.
    rcases Transaction.exists_mem_of_ownValue? hown with ⟨a, ha, hwrites, rfl⟩
    have hkey := ((writesKey_iff e.key a).mp hwrites).2
    have hsame := hr.values e he a (mem_clientEvents ht ha) hkey.symm hvalue.symm
    rw [hsame]
    exact hown
  · intro hown
    exact ⟨e.value, hown, rfl⟩

theorem finalValue?_eq_some_iff {w : Transaction κ ν} (hmem : w ∈ h.clientTransactions)
    (he : e ∈ h.clientEvents) (session : Nat) :
    (w.renamed f g session).finalValue? (f e.key) = some (g e.key e.value) ↔
      w.finalValue? e.key = some e.value := by
  rw [Transaction.finalValue?_eq_ownValue?, Transaction.finalValue?_eq_ownValue?,
    Transaction.length_events_renamed]
  exact hr.ownValue?_eq_some_iff hmem he session _

theorem lastClientWriter_iff (hw : h.WellFormed) {w : Transaction κ ν} (hmem : w ∈ h.clientTransactions)
    (he : e ∈ h.clientEvents) (moment : Nat) :
    s.LastClientWriter h' (f e.key) moment (w.renamed f g (σ w.id.session)) ↔
      (s.renumbered σ).LastClientWriter h e.key moment w := by
  have hwrites : ∀ u ∈ h.clientTransactions, ((u.renamed f g (σ u.id.session)).writesKey (f e.key) = true ↔
      u.writesKey e.key = true) :=
    fun u hu => Transaction.writesKey_renamed_iff (hr.key_eq hu he) _
  constructor
  · intro hlast
    refine ⟨hmem, (hwrites w hmem).mp hlast.writes, hlast.before, fun u hu huwrites hbefore => ?_⟩
    exact (hr.forall_clientTransactions_iff hw).mp hlast.latest u hu ((hwrites u hu).mpr huwrites) hbefore
  · intro hlast
    refine ⟨(hr.mem_clientTransactions_iff hw _).mpr ⟨w, hmem, rfl⟩, (hwrites w hmem).mpr hlast.writes,
      hlast.before, (hr.forall_clientTransactions_iff hw).mpr fun u hu huwrites hbefore => ?_⟩
    exact hlast.latest u hu ((hwrites u hu).mp huwrites) hbefore

variable (hw : h.WellFormed) (hw' : h'.WellFormed)
  (hstart : ∀ t ∈ h.clientTransactions, (s.renumbered σ).commit .init < (s.renumbered σ).start t.id)
  (hcommit : ∀ t ∈ h.clientTransactions, (s.renumbered σ).commit .init < (s.renumbered σ).commit t.id)

include hw hw' hstart hcommit

/-- A read sees the same under both names. -/
theorem shows_iff (ht : t ∈ h.clientTransactions) {index : Nat} (he : t.events[index]? = some e)
    (hread : e.isRead = true) (id : TransactionId) :
    s.Shows h' (t.renamed f g (σ t.id.session)) index (e.renamed f g id) ↔
      (s.renumbered σ).Shows h t index e := by
  have hevent := mem_clientEvents ht (List.mem_of_getElem? he)
  have hkeys := hr.key_eq ht hevent
  have hmoment := hstart t ht
  have hcommit' : ∀ u ∈ h'.clientTransactions, s.commit .init < s.commit u.id := by
    rw [hr.forall_clientTransactions_iff hw, ← hr.commit_init]
    exact hcommit
  have hmoment' : s.commit .init < s.start (t.renamed f g (σ t.id.session)).id := by
    rw [← hr.commit_init]
    exact hmoment
  -- An own value, no own value, and the last writer are compared one after the other.
  unfold Schedule.Shows
  refine or_congr (hr.ownValue?_eq_some_iff ht hevent _ index) (and_congr ?_ ?_)
  · rw [show (e.renamed f g id).key = f e.key from rfl, Transaction.ownValue?_renamed hkeys,
      Option.map_eq_none_iff]
  · rw [Schedule.exists_lastWriter_iff hw hcommit hmoment,
      Schedule.exists_lastWriter_iff hw' hcommit' hmoment']
    refine or_congr ?_ (and_congr ?_ (hr.init e hevent hread))
    · constructor
      · rintro ⟨w', hlast, hfinal⟩
        rcases (hr.mem_clientTransactions_iff hw w').mp hlast.mem with ⟨w, hmem, rfl⟩
        exact ⟨w, (hr.lastClientWriter_iff hw hmem hevent _).mp hlast,
          (hr.finalValue?_eq_some_iff hmem hevent _).mp hfinal⟩
      · rintro ⟨w, hlast, hfinal⟩
        exact ⟨_, (hr.lastClientWriter_iff hw hlast.mem hevent _).mpr hlast,
          (hr.finalValue?_eq_some_iff hlast.mem hevent _).mpr hfinal⟩
    · rw [hr.forall_clientTransactions_iff hw]
      refine forall₂_congr fun w hmem => ?_
      rw [show (e.renamed f g id).key = f e.key from rfl,
        Transaction.writesKey_renamed_iff (hr.key_eq hmem hevent)]
      rfl

theorem forall_shows_iff :
    (∀ t ∈ h'.clientTransactions, ∀ index e, t.events[index]? = some e → e.isRead = true →
        s.Shows h' t index e) ↔
      ∀ t ∈ h.clientTransactions, ∀ index e, t.events[index]? = some e → e.isRead = true →
        (s.renumbered σ).Shows h t index e := by
  rw [hr.forall_clientTransactions_iff hw]
  refine forall₂_congr fun t ht => forall_congr' fun index => ?_
  constructor
  · intro hreads e he hread
    refine (hr.shows_iff hw hw' hstart hcommit ht he hread ⟨σ t.id.session, t.id.height⟩).mp ?_
    refine hreads _ ?_ hread
    rw [Transaction.getElem?_events_renamed, he, Option.map_some]
  · intro hreads e' he' hread'
    rw [Transaction.getElem?_events_renamed, Option.map_eq_some_iff] at he'
    rcases he' with ⟨e, he, rfl⟩
    exact (hr.shows_iff hw hw' hstart hcommit ht he hread' _).mpr (hreads e he hread')

end Moments

theorem forall_commit_inj_iff (s : Schedule) :
    (∀ a b, h'.IsClient a → h'.IsClient b → s.commit a = s.commit b → a = b) ↔
      ∀ a b, h.IsClient a → h.IsClient b →
        (s.renumbered σ).commit a = (s.renumbered σ).commit b → a = b := by
  constructor
  · intro hinj a b ha hb heq
    exact renumbered_injective σ (hinj _ _ ((hr.isClient_iff a).mpr ha) ((hr.isClient_iff b).mpr hb) heq)
  · intro hinj a' b' ha' hb' heq
    rcases exists_renumbered σ a' with ⟨a, rfl⟩
    rcases exists_renumbered σ b' with ⟨b, rfl⟩
    exact congrArg _ (hinj a b ((hr.isClient_iff a).mp ha') ((hr.isClient_iff b).mp hb') heq)

theorem forall_session_iff (s : Schedule) :
    (∀ session height, h'.IsClient ⟨session, height + 1⟩ →
        s.commit ⟨session, height⟩ < s.start ⟨session, height + 1⟩) ↔
      ∀ session height, h.IsClient ⟨session, height + 1⟩ →
        (s.renumbered σ).commit ⟨session, height⟩ < (s.renumbered σ).start ⟨session, height + 1⟩ := by
  constructor
  · intro horder session height hid
    exact horder (σ session) height ((hr.isClient_iff _).mpr hid)
  · intro horder session' height hid'
    rcases σ.surjective session' with ⟨session, rfl⟩
    exact horder session height ((hr.isClient_iff ⟨session, height + 1⟩).mp hid')

theorem forall_separate_iff (hw : h.WellFormed) (s : Schedule) :
    (∀ t ∈ h'.clientTransactions, ∀ u ∈ h'.clientTransactions, t.id ≠ u.id →
        (∃ key, t.writesKey key = true ∧ u.writesKey key = true) →
        s.commit t.id < s.start u.id ∨ s.commit u.id < s.start t.id) ↔
      ∀ t ∈ h.clientTransactions, ∀ u ∈ h.clientTransactions, t.id ≠ u.id →
        (∃ key, t.writesKey key = true ∧ u.writesKey key = true) →
        (s.renumbered σ).commit t.id < (s.renumbered σ).start u.id ∨
          (s.renumbered σ).commit u.id < (s.renumbered σ).start t.id := by
  rw [hr.forall_clientTransactions_iff hw]
  refine forall₂_congr fun t ht => ?_
  rw [hr.forall_clientTransactions_iff hw]
  refine forall₂_congr fun u hu => ?_
  have hids : t.id.renumbered σ ≠ u.id.renumbered σ ↔ t.id ≠ u.id :=
    not_congr ⟨renumbered_injective σ, congrArg _⟩
  rw [hr.exists_writesKey_iff ht hu]
  exact imp_congr_left hids


/-- Both histories are explained by the same schedules. -/
theorem explains_iff (hw : h.WellFormed) (hw' : h'.WellFormed) (s : Schedule) :
    s.Explains h' ↔ (s.renumbered σ).Explains h := by
  have hfirst : (∀ id, h'.IsClient id → s.commit .init < s.start id) ↔
      ∀ id, h.IsClient id → (s.renumbered σ).commit .init < (s.renumbered σ).start id := by
    rw [hr.forall_isClient_iff, hr.commit_init]
    rfl
  -- Reads are compared only once it is known that the init transaction commits first.
  have hreads := fun (hle : ∀ id, h.IsClient id → (s.renumbered σ).start id ≤ (s.renumbered σ).commit id)
      (hlt : ∀ id, h.IsClient id → (s.renumbered σ).commit .init < (s.renumbered σ).start id) =>
    hr.forall_shows_iff hw hw' (s := s) (fun u hu => hlt _ (hw.isClient_of_mem hu)) fun u hu =>
      Nat.lt_of_lt_of_le (hlt _ (hw.isClient_of_mem hu)) (hle _ (hw.isClient_of_mem hu))
  constructor
  · intro hs
    have hle := hr.forall_isClient_iff.mp hs.start_le_commit
    have hlt := hfirst.mp hs.init_first
    exact ⟨hle, hlt, (hr.forall_commit_inj_iff s).mp hs.commit_inj, (hr.forall_session_iff s).mp hs.session,
      (hreads hle hlt).mp hs.reads, (hr.forall_separate_iff hw s).mp hs.separate⟩
  · intro hs
    exact ⟨hr.forall_isClient_iff.mpr hs.start_le_commit, hfirst.mpr hs.init_first,
      (hr.forall_commit_inj_iff s).mpr hs.commit_inj, (hr.forall_session_iff s).mpr hs.session,
      (hreads hs.start_le_commit hs.init_first).mpr hs.reads,
      (hr.forall_separate_iff hw s).mpr hs.separate⟩

end History.Renames

end Isolation
