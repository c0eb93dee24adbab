import Isolation.Proofs.Lists
import Isolation.Proofs.Witness.Schedule

/-!
# Replaying Commit Orders

A commit order is replayed transaction by transaction. The replay succeeds exactly if the order lists the
clients, each once, and its positions form a schedule that explains the history, with the start and the
commit of a transaction at the same position. The init transaction stands at position zero, in front of
the list.

The check that sessions are covered counts: the height of each entry has to be the number of entries of
its session before it, and in the end the counts have to be right.

## Main definitions

* `Ascending`: The entries of each session are listed in order.

## Theorems

* `exists_commitOrder_iff`: Some commit order explains a history exactly if some schedule does in which
  starts and commits coincide.
-/

namespace Isolation

theorem eq_range_of_pairwise_lt {l : List Nat} (hsorted : l.Pairwise (· < ·))
    (hdown : ∀ x ∈ l, ∀ y, y < x → y ∈ l) : l = List.range l.length := by
  induction l using List.reverseRecOn with
  | nil => rfl
  | append_singleton rest x ih =>
    rw [List.pairwise_append] at hsorted
    rcases hsorted with ⟨hrest, _, hlt⟩
    have hltx : ∀ y ∈ rest, y < x := fun y hy => hlt y hy x (List.mem_singleton_self x)
    have hrange : rest = List.range rest.length := by
      refine ih hrest (fun y hy z hz => ?_)
      rcases List.mem_append.mp (hdown y (List.mem_append_left _ hy) z hz) with hmem | hmem
      · exact hmem
      · rw [List.mem_singleton] at hmem
        have := hltx y hy
        omega
    -- All numbers below the last one are there, and the last one is not among the others.
    have hx : x = rest.length := by
      have hmem : ∀ y, y ∈ rest ↔ y < rest.length := by
        intro y
        rw [hrange, List.length_range, List.mem_range]
      rcases Nat.lt_trichotomy x rest.length with hc | hc | hc
      · exact absurd (hltx x ((hmem x).mpr hc)) (Nat.lt_irrefl x)
      · exact hc
      · rcases List.mem_append.mp (hdown x (List.mem_append_right _ (List.mem_singleton_self x))
          rest.length hc) with hc' | hc'
        · exact absurd ((hmem _).mp hc') (Nat.lt_irrefl _)
        · rw [List.mem_singleton] at hc'
          omega
    rw [List.length_append, List.length_singleton, List.range_succ, ← hrange, hx]

section Sessions

/-- The entries of each session are listed in order. -/
def Ascending (order : List TransactionId) : Prop :=
  order.Pairwise fun a b => a.session = b.session → a.height < b.height

/-- The heights of the entries of a session, in the order of the list. -/
def heightsIn (session : Nat) (order : List TransactionId) : List Nat :=
  (order.filter fun id => id.session == session).map TransactionId.height

theorem heightsIn_cons (session : Nat) (id : TransactionId) (order : List TransactionId) :
    heightsIn session (id :: order) =
      if id.session = session then id.height :: heightsIn session order
      else heightsIn session order := by
  rw [heightsIn, List.filter_cons]
  by_cases hs : id.session = session
  · rw [if_pos hs, if_pos (by rw [hs, beq_self_eq_true]), List.map_cons]
    rfl
  · rw [if_neg hs, if_neg (by rw [beq_iff_eq]; exact hs)]
    rfl

theorem length_heightsIn (session : Nat) (order : List TransactionId) :
    (heightsIn session order).length = order.countP fun id => id.session == session := by
  rw [heightsIn, List.length_map, List.countP_eq_length_filter]

theorem mem_heightsIn_iff (session height : Nat) (order : List TransactionId) :
    height ∈ heightsIn session order ↔ ⟨session, height⟩ ∈ order := by
  simp only [heightsIn, List.mem_map, List.mem_filter, beq_iff_eq]
  constructor
  · rintro ⟨id, ⟨hmem, rfl⟩, rfl⟩
    exact hmem
  · intro hmem
    exact ⟨⟨session, height⟩, ⟨hmem, rfl⟩, rfl⟩

/-- Counting accepts a list if the heights of each session go on where the entries seen before end. -/
theorem inSessionOrderAfter_iff (seen order : List TransactionId) :
    inSessionOrderAfter seen order = true ↔
      (∀ id ∈ order, id.isInit = false) ∧ ∀ session, heightsIn session order =
        List.range' (seen.countP fun id => id.session == session) (heightsIn session order).length := by
  induction order generalizing seen with
  | nil =>
    refine ⟨fun _ => ⟨fun id hid => absurd hid List.not_mem_nil, fun session => rfl⟩, fun _ => rfl⟩
  | cons id rest ih =>
    rw [inSessionOrderAfter, Bool.and_eq_true, Bool.and_eq_true, Bool.not_eq_true', beq_iff_eq, ih]
    have hseen : ∀ session, (id :: seen).countP (fun id => id.session == session) =
        seen.countP (fun id => id.session == session) + if id.session = session then 1 else 0 := by
      intro session
      rw [List.countP_cons]
      simp only [beq_iff_eq]
    constructor
    · rintro ⟨⟨hinit, hheight⟩, hrest, hrange⟩
      refine ⟨?_, fun session => ?_⟩
      · intro other hother
        rcases List.mem_cons.mp hother with rfl | hother
        · exact hinit
        · exact hrest other hother
      · have hr := hrange session
        rw [hseen] at hr
        rw [heightsIn_cons]
        by_cases hs : id.session = session
        · subst hs
          rw [if_pos rfl] at hr ⊢
          rw [List.length_cons, List.range'_succ, ← hheight]
          rw [← hheight] at hr
          rw [← hr]
        · rw [if_neg hs] at hr ⊢
          exact hr
    · rintro ⟨hinit, hrange⟩
      have hself := hrange id.session
      rw [heightsIn_cons, if_pos rfl, List.length_cons, List.range'_succ, List.cons.injEq] at hself
      refine ⟨⟨hinit id List.mem_cons_self, hself.1⟩,
        fun other hother => hinit other (List.mem_cons_of_mem _ hother), fun session => ?_⟩
      rw [hseen]
      by_cases hs : id.session = session
      · subst hs
        rw [if_pos rfl]
        exact hself.2
      · have hr := hrange session
        rw [heightsIn_cons, if_neg hs] at hr
        rw [if_neg hs]
        exact hr

/-- What the counting of session entries comes to: the sessions ascend, and the entries are the
    clients. -/
theorem History.WellFormed.coversSessions_iff {κ ν : Type} {h : History κ ν} (hw : h.WellFormed)
    {order : List TransactionId} (hknown : ∀ id ∈ order, ∃ t, h.transaction? id = some t) :
    coversSessions h order = true ↔ Ascending order ∧ ∀ id, id ∈ order ↔ h.IsClient id := by
  rw [coversSessions, Bool.and_eq_true, inSessionOrderAfter_iff, List.all_eq_true]
  simp only [List.countP_nil, beq_iff_eq, ← length_heightsIn, ← List.range_eq_range']
  constructor
  · rintro ⟨⟨hinit, hrange⟩, hcount⟩
    constructor
    · rw [Ascending, List.pairwise_iff_getElem]
      intro i j hi hj hij hsame
      have hsorted : (heightsIn order[i].session order).Pairwise (· < ·) := by
        rw [hrange]
        exact List.pairwise_lt_range
      rw [heightsIn, List.pairwise_map, List.pairwise_filter, List.pairwise_iff_getElem] at hsorted
      exact hsorted i j hi hj hij (by rw [beq_self_eq_true]) (by rw [← hsame, beq_self_eq_true])
    · intro id
      constructor
      · intro hmem
        exact ⟨hinit id hmem, hknown id hmem⟩
      · rintro hclient
        rcases hclient.exists_session with ⟨index, s, hs, hid, hlt⟩
        have hlen := hcount s (List.mem_of_getElem? hs)
        rw [hw.session_id index s hs] at hlen
        rw [← mem_heightsIn_iff, hrange, List.mem_range, congrArg TransactionId.session hid, hlen]
        exact hlt
  · rintro ⟨hasc, hmem⟩
    have hrange : ∀ session, heightsIn session order =
        List.range (heightsIn session order).length := by
      intro session
      refine eq_range_of_pairwise_lt ?_ ?_
      · rw [heightsIn, List.pairwise_map, List.pairwise_filter]
        refine hasc.imp ?_
        intro a b hab ha hb
        rw [beq_iff_eq] at ha hb
        exact hab (ha.trans hb.symm)
      · intro x hx y hlt
        rw [mem_heightsIn_iff, hmem] at hx ⊢
        exact hx.of_le (Nat.le_of_lt hlt)
    refine ⟨⟨fun id hid => ((hmem id).mp hid).1, hrange⟩, ?_⟩
    intro s hs
    rcases List.mem_iff_getElem?.mp hs with ⟨index, hindex⟩
    rw [hw.session_id index s hindex]
    -- A number is a height of the session exactly if it is below both lengths.
    have hiff : ∀ height, height < (heightsIn (index + 1) order).length ↔
        height < s.transactions.length := by
      intro height
      rw [← List.mem_range, ← hrange, mem_heightsIn_iff, hmem, History.isClient_succ_iff hindex]
    have hone := hiff (heightsIn (index + 1) order).length
    have htwo := hiff s.transactions.length
    omega

end Sessions

section Replay

variable {κ ν : Type} [DecidableEq κ] [DecidableEq ν] {h : History κ ν}

/-- What has been installed when the given transactions have committed, the latest first. -/
def History.installedBy (h : History κ ν) (ids : List TransactionId) : List (Transaction κ ν) :=
  (ids.filterMap h.transaction?).reverse

/-- A serial replay succeeds if each transaction agrees with what its predecessors have installed. -/
theorem replaySerial_iff (h : History κ ν) (installed : List (Transaction κ ν))
    (order : List TransactionId) :
    replaySerial h installed order = true ↔
      ∀ before id after, order = before ++ id :: after →
        ∃ t, h.transaction? id = some t ∧
          t.readsMatch (latestValue? (h.installedBy before ++ installed)) = true := by
  induction order generalizing installed with
  | nil =>
    refine ⟨fun _ before id after hc => ?_, fun _ => rfl⟩
    exact absurd hc.symm (by simp)
  | cons first rest ih =>
    rw [replaySerial]
    cases hfirst : h.transaction? first with
    | none =>
      constructor
      · intro hc
        exact absurd hc (by simp)
      · intro hall
        rcases hall [] first rest rfl with ⟨t, ht, _⟩
        rw [hfirst] at ht
        cases ht
    | some t =>
      simp only [Bool.and_eq_true, ih]
      constructor
      · rintro ⟨hmatch, hrest⟩ before id after hsplit
        cases before with
        | nil =>
          rw [List.nil_append, List.cons.injEq] at hsplit
          rw [← hsplit.1]
          exact ⟨t, hfirst, hmatch⟩
        | cons b before =>
          rw [List.cons_append, List.cons.injEq] at hsplit
          rcases hrest before id after hsplit.2 with ⟨u, hu, hmatch'⟩
          refine ⟨u, hu, ?_⟩
          rw [← hsplit.1, History.installedBy, List.filterMap_cons, hfirst, List.reverse_cons,
            List.append_assoc, List.singleton_append]
          exact hmatch'
      · intro hall
        constructor
        · rcases hall [] first rest rfl with ⟨u, hu, hmatch⟩
          rw [hfirst, Option.some.injEq] at hu
          rw [hu]
          exact hmatch
        · intro before id after hsplit
          rcases hall (first :: before) id after (by rw [hsplit, List.cons_append]) with
            ⟨u, hu, hmatch⟩
          refine ⟨u, hu, ?_⟩
          rw [History.installedBy, List.filterMap_cons, hfirst, List.reverse_cons,
            List.append_assoc, List.singleton_append] at hmatch
          exact hmatch

omit [DecidableEq κ] [DecidableEq ν] in
theorem History.WellFormed.mem_installedBy_iff (hw : h.WellFormed) (ids : List TransactionId)
    (w : Transaction κ ν) : w ∈ h.installedBy ids ↔ w ∈ h.transactions ∧ w.id ∈ ids := by
  rw [History.installedBy, List.mem_reverse, List.mem_filterMap]
  constructor
  · rintro ⟨id, hid, hlook⟩
    rw [hw.transaction_id id w hlook]
    exact ⟨h.mem_transactions_of_lookup hlook, hid⟩
  · rintro ⟨hw', hid⟩
    exact ⟨w.id, hid, hw.lookup_id hw'⟩

omit [DecidableEq κ] [DecidableEq ν] in
theorem History.installedBy_init_cons (h : History κ ν) (ids : List TransactionId) :
    h.installedBy (.init :: ids) = h.installedBy ids ++ [h.init] := by
  rw [installedBy, List.filterMap_cons, transaction?_init, List.reverse_cons]
  rfl

/-- A transaction agrees with what has been installed before its start exactly if its reads see what the
    schedule shows. -/
theorem readsMatch_installedBy_iff (s : Schedule) (hw : h.WellFormed) (t : Transaction κ ν)
    {ids : List TransactionId} (hsorted : ids.Pairwise fun a b => s.commit a < s.commit b)
    (hids : ∀ u ∈ h.transactions, u.id ∈ ids ↔ s.commit u.id < s.start t.id) :
    t.readsMatch (latestValue? (h.installedBy ids)) = true ↔
      ∀ index e, t.events[index]? = some e → e.isRead = true → s.Shows h t index e := by
  have hinst : (h.installedBy ids).Pairwise fun a b => s.commit b.id < s.commit a.id := by
    rw [History.installedBy, List.pairwise_reverse, List.pairwise_filterMap]
    refine hsorted.imp ?_
    intro a b hab t ht u hu
    rw [hw.transaction_id a t ht, hw.transaction_id b u hu]
    exact hab
  have hmem : ∀ w, w ∈ h.installedBy ids ↔
      w ∈ h.transactions ∧ s.commit w.id < s.start t.id := by
    intro w
    rw [hw.mem_installedBy_iff]
    exact ⟨fun hc => ⟨hc.1, (hids w hc.1).mp hc.2⟩, fun hc => ⟨hc.1, (hids w hc.1).mpr hc.2⟩⟩
  rw [t.readsMatch_iff]
  simp only [Option.or_eq_some_iff, s.latestValue?_eq_some_iff h hinst hmem, Schedule.Shows]

/-- The schedule that a commit order gives; the init transaction stands in front of the list. -/
def positions (order : List TransactionId) : Schedule :=
  ⟨(TransactionId.init :: order).idxOf, (TransactionId.init :: order).idxOf⟩

omit [DecidableEq ν] in
theorem Schedule.Explains.ascending {s : Schedule} (hs : s.Explains h) {ids : List TransactionId}
    (hclient : ∀ id ∈ ids, h.IsClient id) (hsorted : ids.Pairwise fun a b => s.commit a < s.commit b) :
    Ascending ids := by
  refine hsorted.imp_of_mem ?_
  rintro ⟨session, a⟩ ⟨session', b⟩ ha hb hlt hsame
  simp only at hsame ⊢
  subst hsame
  by_contra hc
  rcases Nat.lt_or_eq_of_le (Nat.le_of_not_lt hc) with hba | hba
  · have hlater := hs.commit_lt_start (hclient _ ha) hba
    have hle := hs.start_le_commit _ (hclient _ ha)
    omega
  · rw [hba] at hlt
    exact absurd hlt (Nat.lt_irrefl _)

section Positions

variable {h : History κ ν} {order : List TransactionId} (hnodup : order.Nodup)
  (hmem : ∀ id, id ∈ order ↔ h.IsClient id)

include hnodup hmem

omit [DecidableEq κ] [DecidableEq ν] in
theorem nodup_init_cons : (TransactionId.init :: order).Nodup := by
  refine List.nodup_cons.mpr ⟨fun hc => ?_, hnodup⟩
  exact absurd ((hmem _).mp hc).1 (by decide)

/-- The reads of a listed transaction are right exactly if its replay succeeds. -/
theorem readsMatch_positions_iff (hw : h.WellFormed) {before after : List TransactionId}
    {t : Transaction κ ν} (hsplit : order = before ++ t.id :: after) :
    t.readsMatch (latestValue? (h.installedBy before ++ [h.init])) = true ↔
      ∀ index e, t.events[index]? = some e → e.isRead = true →
        (positions order).Shows h t index e := by
  have hfull := nodup_init_cons hnodup hmem
  have hcons : TransactionId.init :: order = (.init :: before) ++ t.id :: after := by
    rw [hsplit, List.cons_append]
  rw [← History.installedBy_init_cons]
  refine readsMatch_installedBy_iff (positions order) hw t ?_ ?_
  · refine List.Pairwise.sublist ?_ (pairwise_idxOf_lt hfull)
    rw [hcons]
    exact List.sublist_append_left _ _
  · intro u _
    exact mem_prefix_iff_idxOf_lt hfull hcons u.id

omit [DecidableEq κ] [DecidableEq ν] hnodup in
theorem positions_commit_inj {a b : TransactionId} (ha : h.IsClient a)
    (heq : (positions order).commit a = (positions order).commit b) : a = b :=
  (List.idxOf_inj (List.mem_cons_of_mem _ ((hmem a).mpr ha))).mp heq

omit [DecidableEq κ] [DecidableEq ν] in
/-- If sessions ascend in the order, neighbours of a session have ascending positions. -/
theorem positions_lt_of_ascending (hasc : Ascending order) {session height : Nat}
    (hnext : h.IsClient ⟨session, height + 1⟩) :
    (positions order).commit ⟨session, height⟩ < (positions order).commit ⟨session, height + 1⟩ := by
  have hthis := hnext.of_le (Nat.le_succ height)
  rcases Nat.lt_trichotomy ((positions order).commit ⟨session, height⟩)
    ((positions order).commit ⟨session, height + 1⟩) with hlt | heq | hgt
  · exact hlt
  · have hsame := positions_commit_inj hmem hthis heq
    rw [TransactionId.mk.injEq] at hsame
    omega
  · -- The session would descend.
    rcases List.append_of_mem ((hmem _).mpr hthis) with ⟨before, after, hsplit⟩
    have hbefore := (mem_prefix_iff_idxOf_lt (nodup_init_cons hnodup hmem)
      (show TransactionId.init :: order = (.init :: before) ++ _ :: after by
        rw [hsplit, List.cons_append]) ⟨session, height + 1⟩).mpr hgt
    rcases List.mem_cons.mp hbefore with hc | hbefore
    · exact absurd hc hnext.ne_init
    · rw [Ascending, hsplit, List.pairwise_append] at hasc
      have hdescends := hasc.2.2 _ hbefore _ List.mem_cons_self rfl
      simp only at hdescends
      omega

/-- If all reads agree with the commits before them, the positions explain the history. -/
theorem explains_of_replay (hw : h.WellFormed) (hasc : Ascending order)
    (hreplay : ∀ before id after, order = before ++ id :: after → ∃ t, h.transaction? id = some t ∧
      t.readsMatch (latestValue? (h.installedBy before ++ [h.init])) = true) :
    (positions order).Explains h := by
  refine ⟨fun id _ => Nat.le_refl _, ?_, fun a b ha _ => positions_commit_inj hmem ha,
    fun _ _ hnext => positions_lt_of_ascending hnodup hmem hasc hnext, ?_, ?_⟩
  · intro id hid
    simp only [positions, List.idxOf_cons_self, List.idxOf_cons_ne _ hid.ne_init.symm]
    exact Nat.succ_pos _
  · intro t ht index e he hread
    rcases List.append_of_mem ((hmem t.id).mpr (hw.isClient_of_mem ht)) with ⟨before, after, hsplit⟩
    rcases hreplay before t.id after hsplit with ⟨u, hu, hmatch⟩
    rw [hw.lookup_id (History.mem_transactions_of_client ht), Option.some.injEq] at hu
    subst hu
    exact (readsMatch_positions_iff hnodup hmem hw hsplit).mp hmatch index e he hread
  · intro t ht u hu hne _
    rcases Nat.lt_trichotomy ((positions order).commit t.id) ((positions order).commit u.id) with
      hlt | heq | hgt
    · exact Or.inl hlt
    · exact absurd (positions_commit_inj hmem (hw.isClient_of_mem ht) heq) hne
    · exact Or.inr hgt

/-- If the positions explain the history, all reads agree with the commits before them. -/
theorem replay_of_explains (hw : h.WellFormed) (hs : (positions order).Explains h)
    {before after : List TransactionId} {id : TransactionId}
    (hsplit : order = before ++ id :: after) : ∃ t, h.transaction? id = some t ∧
      t.readsMatch (latestValue? (h.installedBy before ++ [h.init])) = true := by
  rcases (hmem id).mp (by rw [hsplit]; exact List.mem_append_right _ List.mem_cons_self) with
    ⟨hinit, t, ht⟩
  refine ⟨t, ht, ?_⟩
  rw [← hw.transaction_id id t ht] at hsplit
  exact (readsMatch_positions_iff hnodup hmem hw hsplit).mpr
    (hs.reads t (History.mem_clientTransactions_of_lookup hinit ht))

end Positions

/-- The replay of a commit order succeeds exactly if it lists the clients, each once, and its positions
    explain the history. -/
theorem commitOrder_explains_iff (hw : h.WellFormed) (order : List TransactionId) :
    (Witness.commitOrder order).explains h = true ↔
      order.Nodup ∧ (∀ id, id ∈ order ↔ h.IsClient id) ∧ (positions order).Explains h := by
  rw [Witness.explains_eq, Witness.replays, Bool.and_eq_true, Witness.commits, replaySerial_iff]
  constructor
  · rintro ⟨hcovers, hreplay⟩
    have hknown : ∀ id ∈ order, ∃ t, h.transaction? id = some t := by
      intro id hid
      rcases List.append_of_mem hid with ⟨before, after, hsplit⟩
      rcases hreplay before id after hsplit with ⟨t, ht, _⟩
      exact ⟨t, ht⟩
    rcases (hw.coversSessions_iff hknown).mp hcovers with ⟨hasc, hmem⟩
    have hnodup : order.Nodup := by
      refine hasc.imp ?_
      intro a b hab heq
      rw [heq] at hab
      exact absurd (hab rfl) (Nat.lt_irrefl _)
    exact ⟨hnodup, hmem, explains_of_replay hnodup hmem hw hasc hreplay⟩
  · rintro ⟨hnodup, hmem, hs⟩
    have hasc : Ascending order := hs.ascending (fun id hid => (hmem id).mp hid)
      (pairwise_idxOf_lt (nodup_init_cons hnodup hmem)).of_cons
    exact ⟨(hw.coversSessions_iff fun id hid => ((hmem id).mp hid).2).mpr ⟨hasc, hmem⟩,
      fun before id after hsplit => replay_of_explains hnodup hmem hw hs hsplit⟩

/-- A list of the clients by their commits can be replayed, if starts and commits coincide. -/
theorem commitOrder_explains_of_sorted (hw : h.WellFormed) {s : Schedule} (hs : s.Explains h)
    (hsame : ∀ id, h.IsClient id → s.start id = s.commit id) {order : List TransactionId}
    (hnodup : order.Nodup) (hmem : ∀ id, id ∈ order ↔ h.IsClient id)
    (hsorted : order.Pairwise fun a b => s.commit a ≤ s.commit b) :
    (Witness.commitOrder order).explains h = true := by
  have hfull : (TransactionId.init :: order).Pairwise fun a b => s.commit a ≤ s.commit b := by
    refine List.pairwise_cons.mpr ⟨fun id hid => ?_, hsorted⟩
    exact Nat.le_of_lt (hs.commit_init_lt ((hmem id).mp hid))
  have hlisted : ∀ {t : Transaction κ ν}, t ∈ h.transactions → t.id ∈ TransactionId.init :: order := by
    intro t ht
    rcases hw.id_eq_init_or_isClient ht with hid | hid
    · rw [hid]
      exact List.mem_cons_self ..
    · exact List.mem_cons_of_mem _ ((hmem _).mpr hid)
  have hagree : ∀ t ∈ h.transactions, ∀ u ∈ h.transactions,
      (s.commit t.id < s.commit u.id ↔ (positions order).commit t.id < (positions order).commit u.id) := by
    intro t ht u hu
    constructor
    · intro hlt
      exact idxOf_lt_of_key_lt hfull (hlisted ht) hlt
    · intro hlt
      have hle := key_le_of_idxOf_lt hfull (hlisted hu) hlt
      refine Nat.lt_of_le_of_ne hle (fun heq => ?_)
      rw [hs.id_eq_of_commit_eq hw ht hu heq] at hlt
      exact absurd hlt (Nat.lt_irrefl _)
  refine (commitOrder_explains_iff hw order).mpr ⟨hnodup, hmem, ?_⟩
  refine hs.of_agree hw (fun id _ => Nat.le_refl _) ?_ hagree
  rintro t ht b hb
  rcases hb with ⟨hinit, u, hu⟩
  have hub := hagree t ht u (h.mem_transactions_of_lookup hu)
  rw [hw.transaction_id b u hu] at hub
  rw [hsame b ⟨hinit, u, hu⟩]
  exact hub

/-- Some commit order explains a history exactly if some schedule does in which starts and commits
    coincide. -/
theorem exists_commitOrder_iff (hw : h.WellFormed) :
    (∃ order, (Witness.commitOrder order).explains h = true) ↔
      ∃ s : Schedule, s.Explains h ∧ ∀ id, h.IsClient id → s.start id = s.commit id := by
  constructor
  · rintro ⟨order, horder⟩
    rcases (commitOrder_explains_iff hw order).mp horder with ⟨_, _, hs⟩
    exact ⟨positions order, hs, fun _ _ => rfl⟩
  · rintro ⟨s, hs, hsame⟩
    let sorted := (h.clientTransactions.map Transaction.id).mergeSort
      fun a b => decide (s.commit a ≤ s.commit b)
    have hperm := List.mergeSort_perm (h.clientTransactions.map Transaction.id)
      fun a b => decide (s.commit a ≤ s.commit b)
    refine ⟨sorted, commitOrder_explains_of_sorted hw hs hsame (hperm.nodup_iff.mpr hw.nodup_clientIds)
      (fun id => (hperm.mem_iff).trans (hw.mem_clientIds_iff id)) ?_⟩
    refine List.Pairwise.imp (fun {a b} hab => of_decide_eq_true hab) (List.pairwise_mergeSort ?_ ?_ _)
    · intro a b c hab hbc
      rw [decide_eq_true_eq] at hab hbc ⊢
      omega
    · intro a b
      rw [Bool.or_eq_true, decide_eq_true_eq, decide_eq_true_eq]
      omega

end Replay

end Isolation
