import Isolation.Proofs.Witness.SplitRun

/-!
# Replaying Split Commit Orders

That every entry of a split commit order is admitted by those before it comes to a statement about
positions, as for commit orders. The entry for the commit of the init transaction stands in front of the
list.

An order that explains a history may be replaced by the moments of any schedule, and back: the starts and
commits are listed by their moments.

## Main definitions

* `splitPositions`: The schedule that a split commit order gives.

## Theorems

* `exists_splitOrder_iff`: Some split commit order explains a history exactly if some schedule does.
-/

namespace Isolation

/-- The entries of a split commit order, behind that for the commit of the init transaction. -/
def fullOrder (order : List (TransactionId × Phase)) : List (TransactionId × Phase) :=
  (.init, .commit) :: order

/-- The schedule that a split commit order gives. -/
def splitPositions (order : List (TransactionId × Phase)) : Schedule where
  start id := (fullOrder order).idxOf (id, .start)
  commit id := (fullOrder order).idxOf (id, .commit)

section Positions

variable {κ ν : Type} [DecidableEq κ] [DecidableEq ν] {h : History κ ν}
  {order before after : List (TransactionId × Phase)} {entry : TransactionId × Phase}
  (hnodup : order.Nodup) (hmem : ∀ id phase, (id, phase) ∈ order ↔ h.IsClient id)

include hnodup hmem

omit [DecidableEq κ] [DecidableEq ν] in
theorem nodup_fullOrder : (fullOrder order).Nodup := by
  refine List.nodup_cons.mpr ⟨fun hc => ?_, hnodup⟩
  exact absurd ((hmem _ _).mp hc).1 (by decide)

omit [DecidableEq κ] [DecidableEq ν] in
/-- A listed entry comes before another one exactly if it has the smaller position. -/
theorem mem_before_iff_idxOf_lt (hsplit : order = before ++ entry :: after)
    (other : TransactionId × Phase) (hother : other.1 ≠ .init) :
    other ∈ before ↔ (fullOrder order).idxOf other < (fullOrder order).idxOf entry := by
  rw [← mem_prefix_iff_idxOf_lt (nodup_fullOrder hnodup hmem)
    (show fullOrder order = ((.init, .commit) :: before) ++ entry :: after by
      rw [fullOrder, hsplit, List.cons_append]) other, List.mem_cons]
  refine ⟨Or.inr, fun hc => hc.resolve_left ?_⟩
  rintro rfl
  exact hother rfl

/-- The reads of a listed transaction are right exactly if they agree with what has been committed
    before its start. -/
theorem readsMatch_splitPositions_iff (hw : h.WellFormed) {t : Transaction κ ν}
    (hsplit : order = before ++ (t.id, .start) :: after) :
    t.readsMatch (latestValue? (h.installedBy (.init :: committedIn before))) = true ↔
      ∀ index e, t.events[index]? = some e → e.isRead = true →
        (splitPositions order).Shows h t index e := by
  have hfull := nodup_fullOrder hnodup hmem
  have hcons : fullOrder order = fullOrder before ++ (t.id, .start) :: after := by
    rw [fullOrder, hsplit, fullOrder, List.cons_append]
  refine readsMatch_installedBy_iff (splitPositions order) hw t ?_ ?_
  · have hsorted : (fullOrder before).Pairwise fun a b =>
        (fullOrder order).idxOf a < (fullOrder order).idxOf b := by
      refine List.Pairwise.sublist ?_ (pairwise_idxOf_lt hfull)
      rw [hcons]
      exact List.sublist_append_left _ _
    have hcommits : (committedIn (fullOrder before)).Pairwise fun a b =>
        (splitPositions order).commit a < (splitPositions order).commit b := by
      refine pairwise_committedIn (hsorted.imp ?_)
      rintro ⟨a, p⟩ ⟨b, q⟩ hab rfl rfl
      exact hab
    exact hcommits
  · intro u _
    exact (mem_committedIn_iff (fullOrder before) u.id).trans
      (mem_prefix_iff_idxOf_lt hfull hcons (u.id, .commit))

omit [DecidableEq κ] [DecidableEq ν] in
/-- Every client starts and commits once, so there are as many starts as commits. -/
theorem perm_committedIn_startsIn : (committedIn order).Perm (startsIn order) := by
  rw [List.perm_ext_iff_of_nodup (nodup_committedIn hnodup) (nodup_startsIn hnodup)]
  intro id
  rw [mem_committedIn_iff, mem_startsIn_iff, hmem, hmem]

omit [DecidableEq κ] [DecidableEq ν] in
theorem pairwise_commit_committedIn : (committedIn order).Pairwise fun a b =>
    (splitPositions order).commit a < (splitPositions order).commit b := by
  refine pairwise_committedIn ((pairwise_idxOf_lt (nodup_fullOrder hnodup hmem)).of_cons.imp ?_)
  rintro ⟨a, p⟩ ⟨b, q⟩ hab rfl rfl
  exact hab

omit [DecidableEq κ] [DecidableEq ν] hnodup in
theorem splitPositions_commit_inj {a b : TransactionId} (ha : h.IsClient a)
    (heq : (splitPositions order).commit a = (splitPositions order).commit b) : a = b := by
  have hentry := (List.idxOf_inj (List.mem_cons_of_mem _ ((hmem a .commit).mpr ha))).mp heq
  exact congrArg Prod.fst hentry

omit [DecidableEq κ] [DecidableEq ν] hnodup hmem in
theorem splitPositions_commit_init_lt (order : List (TransactionId × Phase)) (id : TransactionId) :
    (splitPositions order).commit .init < (splitPositions order).start id := by
  have hentry : ((TransactionId.init, Phase.commit) : TransactionId × Phase) ≠ (id, .start) := by
    intro hc
    rw [Prod.mk.injEq] at hc
    exact absurd hc.2 (by decide)
  simp only [splitPositions, fullOrder, List.idxOf_cons_self, List.idxOf_cons_ne _ hentry]
  exact Nat.succ_pos _

omit [DecidableEq κ] [DecidableEq ν] hnodup in
theorem splitPositions_start_ne_commit {a b : TransactionId} (ha : h.IsClient a) :
    (splitPositions order).start a ≠ (splitPositions order).commit b := by
  intro heq
  have hentry := (List.idxOf_inj (List.mem_cons_of_mem _ ((hmem a .start).mpr ha))).mp heq
  exact absurd (congrArg Prod.snd hentry) (by simp)

section Admitted

variable (hw : h.WellFormed)
  (hadmits : ∀ before entry after, order = before ++ entry :: after → Admits h before entry)

include hw hadmits

omit hnodup in
theorem commit_of_admits {t : Transaction κ ν} (ht : t ∈ h.clientTransactions) : ∃ p q after,
    order = (p ++ (t.id, .start) :: q) ++ (t.id, .commit) :: after ∧
    t.readsMatch (latestValue? (h.installedBy (.init :: committedIn p))) = true ∧
    ∀ u ∈ h.installedBy (committedIn q), ∀ key, t.writesKey key = true →
      u.writesKey key = false := by
  rcases List.append_of_mem ((hmem t.id .commit).mpr (hw.isClient_of_mem ht)) with
    ⟨before, after, hsplit⟩
  rcases hadmits before _ after hsplit with ⟨_, u, p, q, hu, rfl, hmatch, hfree⟩
  rw [hw.lookup_id (History.mem_transactions_of_client ht), Option.some.injEq] at hu
  subst hu
  exact ⟨p, q, after, hsplit, hmatch, hfree⟩

/-- Of two clients that write a common key, the later one has started after the commit of the other. -/
theorem commit_lt_start_of_admits {t u : Transaction κ ν} (ht : t ∈ h.clientTransactions)
    (hu : u ∈ h.clientTransactions) (hshare : ∃ key, t.writesKey key = true ∧ u.writesKey key = true)
    (hlt : (splitPositions order).commit t.id < (splitPositions order).commit u.id) :
    (splitPositions order).commit t.id < (splitPositions order).start u.id := by
  rcases hshare with ⟨key, htkey, hukey⟩
  rcases commit_of_admits hmem hw hadmits hu with ⟨p, q, after, hsplit, _, hfree⟩
  have htid := (hw.isClient_of_mem ht).ne_init
  rcases List.mem_append.mp ((mem_before_iff_idxOf_lt hnodup hmem hsplit (t.id, .commit) htid).mpr hlt)
    with hp | hq
  · rw [List.append_assoc, List.cons_append] at hsplit
    exact (mem_before_iff_idxOf_lt hnodup hmem hsplit (t.id, .commit) htid).mp hp
  · rcases List.mem_cons.mp hq with hc | hq
    · rw [Prod.mk.injEq] at hc
      exact absurd hc.2 (by decide)
    · have hfalse := hfree t ((hw.mem_installedBy_iff _ t).mpr
        ⟨History.mem_transactions_of_client ht, (mem_committedIn_iff q t.id).mpr hq⟩) key hukey
      rw [htkey] at hfalse
      exact absurd hfalse (by decide)

/-- If every entry is admitted by those before it, the positions explain the history. -/
theorem explains_of_admits : (splitPositions order).Explains h := by
  refine ⟨?_, fun id _ => splitPositions_commit_init_lt order id,
    fun a b ha _ => splitPositions_commit_inj hmem ha, ?_, ?_, ?_⟩
  · rintro id ⟨hinit, t, ht⟩
    rcases commit_of_admits hmem hw hadmits (History.mem_clientTransactions_of_lookup hinit ht) with
      ⟨p, q, after, hsplit, _⟩
    rw [hw.transaction_id id t ht] at hsplit
    refine Nat.le_of_lt ((mem_before_iff_idxOf_lt hnodup hmem hsplit (id, .start)
      (show h.IsClient id from ⟨hinit, t, ht⟩).ne_init).mp ?_)
    exact List.mem_append_right _ List.mem_cons_self
  · intro session height hnext
    rcases List.append_of_mem ((hmem _ .start).mpr hnext) with ⟨before, after, hsplit⟩
    have hfind := (hadmits before _ after hsplit).2.2 height rfl
    have hbefore := List.mem_reverse.mp (List.mem_of_find?_eq_some hfind)
    exact (mem_before_iff_idxOf_lt hnodup hmem hsplit (⟨session, height⟩, .commit)
      (hnext.of_le (Nat.le_succ height)).ne_init).mp ((mem_committedIn_iff before _).mp hbefore)
  · intro t ht index e he hread
    rcases commit_of_admits hmem hw hadmits ht with ⟨p, q, after, hsplit, hmatch, _⟩
    rw [List.append_assoc, List.cons_append] at hsplit
    exact (readsMatch_splitPositions_iff hnodup hmem hw hsplit).mp hmatch index e he hread
  · intro t ht u hu hdiff hshare
    rcases Nat.lt_trichotomy ((splitPositions order).commit t.id)
      ((splitPositions order).commit u.id) with hlt | heq | hgt
    · exact Or.inl (commit_lt_start_of_admits hnodup hmem hw hadmits ht hu hshare hlt)
    · exact absurd (splitPositions_commit_inj hmem (hw.isClient_of_mem ht) heq) hdiff
    · refine Or.inr (commit_lt_start_of_admits hnodup hmem hw hadmits hu ht ?_ hgt)
      rcases hshare with ⟨key, htkey, hukey⟩
      exact ⟨key, hukey, htkey⟩

end Admitted

section Positioned

variable (hs : (splitPositions order).Explains h)

omit [DecidableEq κ] [DecidableEq ν] hnodup in
theorem isClient_of_mem_before (hsplit : order = before ++ entry :: after) {id : TransactionId}
    {phase : Phase} (hother : (id, phase) ∈ before) : h.IsClient id := by
  refine (hmem id phase).mp ?_
  rw [hsplit]
  exact List.mem_append_left _ hother

omit [DecidableEq κ] [DecidableEq ν] hmem in
theorem notMem_before (hsplit : order = before ++ entry :: after) : entry ∉ before := by
  intro hc
  rw [hsplit, List.nodup_append] at hnodup
  exact hnodup.2.2 _ hc _ List.mem_cons_self rfl

include hs

omit [DecidableEq ν] in
/-- Before a transaction starts, neither it nor a later one of its session has committed. -/
theorem height_lt_of_committed {session height k : Nat}
    (hsplit : order = before ++ (⟨session, height⟩, .start) :: after)
    (hk : (⟨session, k⟩, .commit) ∈ before) : k < height := by
  have hid : h.IsClient ⟨session, height⟩ := (hmem _ .start).mp
    (by rw [hsplit]; exact List.mem_append_right _ List.mem_cons_self)
  have hclient := isClient_of_mem_before hmem hsplit hk
  have hlt : (splitPositions order).commit ⟨session, k⟩ <
      (splitPositions order).start ⟨session, height⟩ :=
    (mem_before_iff_idxOf_lt hnodup hmem hsplit (⟨session, k⟩, .commit) hclient.ne_init).mp hk
  have hle := hs.start_le_commit _ hid
  rcases Nat.lt_trichotomy k height with hbelow | rfl | habove
  · exact hbelow
  · omega
  · have hlater := hs.commit_lt_start hclient habove
    have hkle := hs.start_le_commit _ hclient
    omega

omit [DecidableEq ν] in
/-- When a transaction starts, the last commit of its session is that of the transaction before it. -/
theorem find?_committedIn_before {session height : Nat}
    (hsplit : order = before ++ (⟨session, height + 1⟩, .start) :: after) :
    (committedIn before).reverse.find? (fun other => other.session == session) =
      some ⟨session, height⟩ := by
  have hid : h.IsClient ⟨session, height + 1⟩ := (hmem _ .start).mp
    (by rw [hsplit]; exact List.mem_append_right _ List.mem_cons_self)
  have hbefore : (⟨session, height⟩ : TransactionId) ∈ committedIn before := by
    rw [mem_committedIn_iff]
    exact (mem_before_iff_idxOf_lt hnodup hmem hsplit (⟨session, height⟩, .commit)
      (hid.of_le (Nat.le_succ height)).ne_init).mpr (hs.session session height hid)
  have hasc : Ascending (committedIn before) := by
    refine hs.ascending (fun other hother =>
      isClient_of_mem_before hmem hsplit ((mem_committedIn_iff _ _).mp hother)) ?_
    refine List.Pairwise.sublist ?_ (pairwise_commit_committedIn hnodup hmem)
    rw [hsplit, committedIn_append]
    exact List.sublist_append_left _ _
  rcases List.append_of_mem hbefore with ⟨older, newer, hcommits⟩
  rw [List.find?_eq_some_iff_append]
  refine ⟨by rw [beq_self_eq_true], newer.reverse, older.reverse, ?_, ?_⟩
  · rw [hcommits, List.reverse_append, List.reverse_cons, List.append_assoc, List.singleton_append]
  · -- A commit of the session behind it would be one of the starting transaction or its successors.
    rintro ⟨session', k⟩ hk
    rw [List.mem_reverse] at hk
    rw [Bool.not_eq_true', beq_eq_false_iff_ne]
    rintro rfl
    have hkbefore : (⟨session', k⟩ : TransactionId) ∈ committedIn before := by
      rw [hcommits]
      exact List.mem_append_right _ (List.mem_cons_of_mem _ hk)
    have hklt := height_lt_of_committed hnodup hmem hs hsplit
      ((mem_committedIn_iff _ _).mp hkbefore)
    rw [Ascending, hcommits, List.pairwise_append, List.pairwise_cons] at hasc
    have hgt : height < k := hasc.2.1.1 _ hk rfl
    omega

omit [DecidableEq ν] in
/-- Between the start and the commit of a client, no transaction commits that writes one of its keys. -/
theorem writesKey_eq_false_of_between (hw : h.WellFormed) {t : Transaction κ ν}
    {p q : List (TransactionId × Phase)} (ht : t ∈ h.clientTransactions)
    (hsplit : order = (p ++ (t.id, .start) :: q) ++ (t.id, .commit) :: after) {u : Transaction κ ν}
    (hu : u ∈ h.installedBy (committedIn q)) {key : κ} (htkey : t.writesKey key = true) :
    u.writesKey key = false := by
  rcases (hw.mem_installedBy_iff _ u).mp hu with ⟨humem, huq⟩
  rw [mem_committedIn_iff] at huq
  have hubefore : (u.id, Phase.commit) ∈ p ++ (t.id, .start) :: q :=
    List.mem_append_right _ (List.mem_cons_of_mem _ huq)
  have huclient := isClient_of_mem_before hmem hsplit hubefore
  have hult : (splitPositions order).commit u.id < (splitPositions order).commit t.id :=
    (mem_before_iff_idxOf_lt hnodup hmem hsplit (u.id, .commit) huclient.ne_init).mp hubefore
  rw [← Bool.not_eq_true]
  intro hukey
  have hdiff : t.id ≠ u.id := by
    intro heq
    rw [heq] at hult
    exact absurd hult (Nat.lt_irrefl _)
  rcases hs.separate t ht u (History.mem_clientTransactions_of_lookup huclient.1
    (hw.lookup_id humem)) hdiff ⟨key, htkey, hukey⟩ with hlt | hlt
  · have hle := hs.start_le_commit _ huclient
    omega
  · -- The commit would be listed before the start and after it.
    rw [List.append_assoc, List.cons_append] at hsplit
    have hup := (mem_before_iff_idxOf_lt hnodup hmem hsplit (u.id, .commit) huclient.ne_init).mpr hlt
    rw [hsplit, List.nodup_append] at hnodup
    exact hnodup.2.2 _ hup _ (List.mem_cons_of_mem _ (List.mem_append_left _ huq)) rfl

/-- If the positions explain the history, every entry is admitted by those before it. -/
theorem admits_of_explains (hw : h.WellFormed) (hsplit : order = before ++ entry :: after) :
    Admits h before entry := by
  have hnew := notMem_before hnodup hsplit
  rcases entry with ⟨id, phase⟩
  have hid : h.IsClient id := (hmem id phase).mp
    (by rw [hsplit]; exact List.mem_append_right _ List.mem_cons_self)
  cases phase with
  | start =>
    refine ⟨hid.2, hnew, fun height hheight => ?_⟩
    rcases id with ⟨session, top⟩
    simp only at hheight ⊢
    subst hheight
    exact find?_committedIn_before hnodup hmem hs hsplit
  | commit =>
    have hclient := hid
    rcases hid with ⟨hinit, t, ht⟩
    have htmem := History.mem_clientTransactions_of_lookup hinit ht
    have htid := hw.transaction_id id t ht
    subst htid
    have hstart : (t.id, Phase.start) ∈ before := by
      refine (mem_before_iff_idxOf_lt hnodup hmem hsplit (t.id, .start) hclient.ne_init).mpr ?_
      exact Nat.lt_of_le_of_ne (hs.start_le_commit t.id hclient)
        (splitPositions_start_ne_commit hmem hclient)
    rcases List.append_of_mem hstart with ⟨p, q, rfl⟩
    refine ⟨hnew, t, p, q, ht, rfl, ?_, fun u hu key htkey =>
      writesKey_eq_false_of_between hnodup hmem hs hw htmem hsplit hu htkey⟩
    rw [List.append_assoc, List.cons_append] at hsplit
    exact (readsMatch_splitPositions_iff hnodup hmem hw hsplit).mpr (hs.reads t htmem)

end Positioned

end Positions

section Explained

variable {κ ν : Type} [DecidableEq κ] [DecidableEq ν] {h : History κ ν}

/-- The replay of a split commit order succeeds exactly if it lists the starts and commits of the
    clients, each once, and its positions explain the history. -/
theorem splitOrder_explains_iff (hw : h.WellFormed) (order : List (TransactionId × Phase)) :
    (Witness.splitOrder order).explains h = true ↔
      order.Nodup ∧ (∀ id phase, (id, phase) ∈ order ↔ h.IsClient id) ∧
        (splitPositions order).Explains h := by
  rcases foldlM_step?_iff h order with ⟨hiff, hrun⟩
  rw [Witness.explains_eq, Witness.replays, Bool.and_eq_true, Witness.commits]
  simp only [replaySplit]
  constructor
  · rintro ⟨hcovers, hreplay⟩
    cases hfold : order.foldlM (SplitRun.step? h) ⟨[h.init], [], []⟩ with
    | none =>
      simp only [hfold, Bool.false_eq_true] at hreplay
    | some run =>
      simp only [hfold] at hreplay
      have hafter := hrun run hfold
      have hadmits := hiff.mp ⟨run, hfold⟩
      have hnodup : order.Nodup :=
        nodup_of_notMem_before fun before entry after hsplit =>
          (hadmits before entry after hsplit).notMem
      have hcommits := ((hw.coversSessions_iff hafter.known).mp hcovers).2
      -- Every commit has its start, and there are as many starts as commits.
      have hsub : committedIn order ⊆ startsIn order := by
        intro id hid
        rcases List.append_of_mem ((mem_committedIn_iff order id).mp hid) with
          ⟨before, after, hsplit⟩
        rcases hadmits before _ after hsplit with ⟨_, t, p, q, _, rfl, _⟩
        rw [mem_startsIn_iff, hsplit]
        exact List.mem_append_left _ (List.mem_append_right _ List.mem_cons_self)
      have hlength : (startsIn order).length ≤ (committedIn order).length := by
        have hstarted := congrArg List.length hafter.started
        rw [List.length_map, List.length_reverse] at hstarted
        rw [beq_iff_eq, hafter.committed, List.length_reverse] at hreplay
        omega
      have hperm := ((nodup_committedIn hnodup).subperm hsub).perm_of_length_le hlength
      have hmem : ∀ id phase, (id, phase) ∈ order ↔ h.IsClient id := by
        intro id phase
        cases phase with
        | start => rw [← mem_startsIn_iff, ← hperm.mem_iff, hcommits]
        | commit => rw [← mem_committedIn_iff, hcommits]
      exact ⟨hnodup, hmem, explains_of_admits hnodup hmem hw hadmits⟩
  · rintro ⟨hnodup, hmem, hs⟩
    have hclient : ∀ id, id ∈ committedIn order ↔ h.IsClient id := by
      intro id
      rw [mem_committedIn_iff, hmem]
    have hasc := hs.ascending (fun id hid => (hclient id).mp hid)
      (pairwise_commit_committedIn hnodup hmem)
    refine ⟨(hw.coversSessions_iff (fun id hid => ((hclient id).mp hid).2)).mpr ⟨hasc, hclient⟩, ?_⟩
    rcases hiff.mpr (fun before entry after hsplit =>
      admits_of_explains hnodup hmem hs hw hsplit) with ⟨run, hfold⟩
    have hafter := hrun run hfold
    have hstarted := congrArg List.length hafter.started
    have hlength := (perm_committedIn_startsIn hnodup hmem).length_eq
    rw [List.length_map, List.length_reverse] at hstarted
    simp only [hfold, beq_iff_eq, hafter.committed, List.length_reverse]
    omega

/-- Where the moments of a schedule are put on one scale: at the same moment starts come before
    commits. -/
def Schedule.moment (s : Schedule) : TransactionId × Phase → Nat
  | (id, .start) => 2 * s.start id
  | (id, .commit) => 2 * s.commit id + 1

/-- A list of all starts and commits by their moments can be replayed. -/
theorem splitOrder_explains_of_sorted (hw : h.WellFormed) {s : Schedule} (hs : s.Explains h)
    {order : List (TransactionId × Phase)} (hnodup : order.Nodup)
    (hmem : ∀ id phase, (id, phase) ∈ order ↔ h.IsClient id)
    (hsorted : order.Pairwise fun a b => s.moment a ≤ s.moment b) :
    (Witness.splitOrder order).explains h = true := by
  have hfull : (fullOrder order).Pairwise fun a b => s.moment a ≤ s.moment b := by
    refine List.pairwise_cons.mpr ⟨?_, hsorted⟩
    rintro ⟨id, phase⟩ hentry
    have hid := (hmem id phase).mp hentry
    have hfirst := hs.init_first id hid
    have hle := hs.start_le_commit id hid
    cases phase with
    | start =>
      simp only [Schedule.moment]
      omega
    | commit =>
      simp only [Schedule.moment]
      omega
  have hlisted : ∀ {t : Transaction κ ν}, t ∈ h.transactions → (t.id, .commit) ∈ fullOrder order := by
    intro t ht
    rcases hw.id_eq_init_or_isClient ht with hid | hid
    · rw [hid]
      exact List.mem_cons_self ..
    · exact List.mem_cons_of_mem _ ((hmem _ _).mpr hid)
  refine (splitOrder_explains_iff hw order).mpr ⟨hnodup, hmem, hs.of_agree hw ?_ ?_ ?_⟩
  · intro id hid
    have hle := hs.start_le_commit id hid
    refine Nat.le_of_lt (idxOf_lt_of_key_lt hfull (List.mem_cons_of_mem _ ((hmem _ _).mpr hid)) ?_)
    simp only [Schedule.moment]
    omega
  · intro t ht b hb
    constructor
    · intro hlt
      refine idxOf_lt_of_key_lt hfull (hlisted ht) ?_
      simp only [Schedule.moment]
      omega
    · intro hlt
      have := key_le_of_idxOf_lt hfull (List.mem_cons_of_mem _ ((hmem b .start).mpr hb)) hlt
      simp only [Schedule.moment] at this
      omega
  · intro t ht u hu
    constructor
    · intro hlt
      refine idxOf_lt_of_key_lt hfull (hlisted ht) ?_
      simp only [Schedule.moment]
      omega
    · intro hlt
      have hle := key_le_of_idxOf_lt hfull (hlisted hu) hlt
      simp only [Schedule.moment] at hle
      refine Nat.lt_of_le_of_ne (by omega) (fun heq => ?_)
      rw [hs.id_eq_of_commit_eq hw ht hu heq] at hlt
      exact absurd hlt (Nat.lt_irrefl _)

/-- Some split commit order explains a history exactly if some schedule does. -/
theorem exists_splitOrder_iff (hw : h.WellFormed) :
    (∃ order, (Witness.splitOrder order).explains h = true) ↔ ∃ s : Schedule, s.Explains h := by
  constructor
  · rintro ⟨order, horder⟩
    exact ⟨splitPositions order, ((splitOrder_explains_iff hw order).mp horder).2.2⟩
  · rintro ⟨s, hs⟩
    let entries := (h.clientTransactions.map Transaction.id).product [Phase.start, Phase.commit]
    have hnodup : entries.Nodup := hw.nodup_clientIds.product (by decide)
    have hperm := List.mergeSort_perm entries fun a b => decide (s.moment a ≤ s.moment b)
    refine ⟨entries.mergeSort fun a b => decide (s.moment a ≤ s.moment b),
      splitOrder_explains_of_sorted hw hs (hperm.nodup_iff.mpr hnodup) ?_ ?_⟩
    · intro id phase
      rw [hperm.mem_iff, List.pair_mem_product, hw.mem_clientIds_iff]
      refine and_iff_left ?_
      cases phase with
      | start => exact List.mem_cons_self ..
      | commit => exact List.mem_cons_of_mem _ List.mem_cons_self
    · refine List.Pairwise.imp (fun {a b} hab => of_decide_eq_true hab)
        (List.pairwise_mergeSort ?_ ?_ _)
      · intro a b c hab hbc
        rw [decide_eq_true_eq] at hab hbc ⊢
        omega
      · intro a b
        rw [Bool.or_eq_true, decide_eq_true_eq, decide_eq_true_eq]
        omega

end Explained

end Isolation
