import Isolation.Proofs.Precedence.Choices
import Isolation.Proofs.Precedence.Constraints
import Isolation.Proofs.Precedence.OfHistory
import Isolation.Proofs.Witness.Schedule

/-!
# Choices and Schedules

This is where orders of transactions meet what the history says. A choice of sides gives dependencies and
links. If moments can be found that respect them, these moments explain the history; and the moments that
explain a history pick the sides of an acyclic choice.

In one direction it matters that nothing is forgotten: between two writers of a key there is a dependency
one way or the other, and whoever read the key from the first is linked to the second. So the writer that
a transaction has read from is the last one before its start, since a later one would have to commit
after it.

In the other direction, the sides are picked by the order of commits. A dependency is then a commit before
a start, and a link is a start before a commit, so the order that follows ascends with the commits.

## Main definitions

* `Resolves`: Nothing that orders transactions is missing.

## Theorems

* `acyclicChoice_pick`: The sides that an explaining schedule picks can be ordered.
-/

namespace Isolation

variable {κ ν : Type} [DecidableEq κ]

/-- One writer comes before another: it is a dependency, and those who read from the first are linked to
    the second. -/
def History.Overwrites (h : History κ ν) (depends linked : TransactionId → TransactionId → Prop)
    (t u : Transaction κ ν) : Prop :=
  depends t.id u.id ∧ ∀ key, t.writesKey key = true → u.writesKey key = true →
    ∀ reader, h.ReadsFrom key t.id reader → reader ≠ u.id → linked reader u.id

/-- Nothing that orders the transactions of a history is missing. -/
structure Resolves (h : History κ ν) (depends linked : TransactionId → TransactionId → Prop) :
    Prop where
  session : ∀ {a b}, h.SessionStep a b → depends a b
  reads : ∀ {key a b}, h.ReadsFrom key a b → depends a b
  writes : ∀ t ∈ h.transactions, ∀ u ∈ h.transactions, t.id ≠ u.id → t.SharesKey u →
    h.Overwrites depends linked t u ∨ h.Overwrites depends linked u t

section Explaining

variable {h : History κ ν} {D K : TransactionId → TransactionId → Prop}

theorem Resolves.exists_depends (hr : Resolves h D K) {b : TransactionId} (hb : h.IsClient b) :
    ∃ a, D a b := by
  rcases b with ⟨session, height⟩
  cases height with
  | zero => exact ⟨.init, hr.session ⟨hb, Or.inl ⟨rfl, rfl⟩⟩⟩
  | succ height => exact ⟨⟨session, height⟩, hr.session ⟨hb, Or.inr ⟨height, rfl, rfl⟩⟩⟩

/-- Moments that respect dependencies and links explain the history. -/
theorem Resolves.explains (hr : Resolves h D K) (hw : h.WellFormed) (hcons : h.Consistent)
    {s : Schedule} (hle : ∀ id, h.IsClient id → s.start id ≤ s.commit id)
    (hinj : ∀ a b, h.IsClient a → h.IsClient b → s.commit a = s.commit b → a = b)
    (hcommit : ∀ a b, D a b → s.commit a < s.commit b)
    (hstart : ∀ a b, D a b → h.IsClient b → s.commit a < s.start b)
    (hlinked : ∀ a b, K a b → h.IsClient a → ¬ s.commit b < s.start a) : s.Explains h := by
  have hsession : ∀ session height, h.IsClient ⟨session, height + 1⟩ →
      s.commit ⟨session, height⟩ < s.start ⟨session, height + 1⟩ := by
    intro session height hnext
    exact hstart _ _ (hr.session ⟨hnext, Or.inr ⟨height, rfl, rfl⟩⟩) hnext
  refine ⟨hle, ?_, hinj, hsession, ?_, ?_⟩
  · rintro ⟨session, height⟩ hclient
    induction height with
    | zero => exact hstart _ _ (hr.session ⟨hclient, Or.inl ⟨rfl, rfl⟩⟩) hclient
    | succ height ih =>
      have hprev := hclient.of_le (Nat.le_succ height)
      have hfirst := ih hprev
      have hprevle := hle _ hprev
      have hnext := hsession session height hclient
      omega
  · intro t ht index e he hread
    have htmem : t ∈ h.transactions := History.mem_transactions_of_client ht
    have hclient := hw.isClient_of_mem ht
    rcases hcons.supported t htmem index e he hread with hown | ⟨hown, w, hwmem, hne, hfinal⟩
    · exact Or.inl hown
    · have hreads : h.ReadsFrom e.key w.id t.id :=
        ⟨hne, t, index, e, w, hw.lookup_id htmem, he, hread, rfl, hown, hw.lookup_id hwmem, hfinal⟩
      have hwkey := (w.writesKey_eq_true_iff e.key).mpr ⟨_, hfinal⟩
      refine Or.inr ⟨hown, w, ⟨hwmem, hwkey, hstart _ _ (hr.reads hreads) hclient, ?_⟩, hfinal⟩
      intro u hu hukey hubefore
      by_cases huw : u.id = w.id
      · rw [huw]
      · rcases hr.writes u hu w hwmem huw ⟨e.key, hukey, hwkey⟩ with huw | hwu
        · exact Nat.le_of_lt (hcommit _ _ huw.1)
        · -- A later writer commits after the start of the reader.
          have htu : t.id ≠ u.id := by
            intro hc
            rw [← hc] at hubefore
            exact absurd hubefore (Nat.not_lt_of_le (hle _ hclient))
          exact absurd hubefore (hlinked _ _ (hwu.2 e.key hwkey hukey t.id hreads htu) hclient)
  · intro t ht u hu hne hshare
    rcases hr.writes t (History.mem_transactions_of_client ht) u
      (History.mem_transactions_of_client hu) hne hshare with htu | hut
    · exact Or.inl (hstart _ _ htu.1 (hw.isClient_of_mem hu))
    · exact Or.inr (hstart _ _ hut.1 (hw.isClient_of_mem ht))

end Explaining

section Sides

variable [DecidableEq ν] [Ord κ] {h : History κ ν} (hw : h.WellFormed) (hcons : h.Consistent)

include hw

omit [Ord κ] in
theorem mem_nodes_ofHistory {t : Transaction κ ν} (ht : t ∈ h.transactions) :
    t.id ∈ (Precedence.ofHistory h).nodes := by
  rw [Precedence.nodes_ofHistory, hw.mem_ids_iff]
  exact ⟨t, hw.lookup_id ht⟩

include hcons

/-- If the edges of a side are added, one of its writers comes before the other. -/
theorem overwrites_of_side {t u : Transaction κ ν} (ht : t ∈ h.transactions)
    (hu : u ∈ h.transactions) (hshare : t.SharesKey u) {edges : List (SideEdge κ)}
    (hside : ∀ e ∈ Constraint.side ((Precedence.ofHistory h).writer t)
      ((Precedence.ofHistory h).writer u), e ∈ edges) :
    h.Overwrites ((Precedence.ofHistory h).addSide edges).Depends
      ((Precedence.ofHistory h).addSide edges).Linked t u := by
  have huid := mem_nodes_ofHistory hw hu
  constructor
  · rcases hshare with ⟨key, htkey, hukey⟩
    rcases (exists_mem_side_iff (Precedence.ofHistory h) t u t.id u.id .writeWrite).mpr
      ⟨key, ⟨htkey, hukey⟩, rfl, Or.inl ⟨rfl, rfl⟩⟩ with ⟨e, he, hsource, htarget, hkind⟩
    refine (Precedence.depends_addSide_iff _ _ _ _).mpr (Or.inr
      ⟨⟨mem_nodes_ofHistory hw ht, huid⟩, e, hside e he, ⟨hsource.symm, htarget.symm⟩, ?_⟩)
    rw [hkind]
    decide
  · intro key htkey hukey reader hreads hne
    rcases (exists_mem_side_iff (Precedence.ofHistory h) t u reader u.id .readWrite).mpr
      ⟨key, ⟨htkey, hukey⟩, rfl, Or.inr ⟨rfl, hne,
        (Precedence.mem_readers_ofHistory_iff hw hcons key t.id reader).mpr hreads⟩⟩ with
      ⟨e, he, hsource, htarget, _⟩
    rcases hreads with ⟨_, r, _, _, _, hr, _⟩
    have hrid := mem_nodes_ofHistory hw (h.mem_transactions_of_lookup hr)
    rw [hw.transaction_id _ r hr] at hrid
    exact (Precedence.linked_addSide_iff _ _ _ _).mpr (Or.inr
      ⟨⟨hrid, huid⟩, e, hside e he, hsource.symm, htarget.symm⟩)

/-- With a side of every constraint, nothing that orders the transactions is missing. -/
theorem resolves_of_sides {edges : List (SideEdge κ)}
    (hsides : ∀ c ∈ constraints h (Precedence.ofHistory h),
      ∃ direction, ∀ e ∈ c.edges direction, e ∈ edges) :
    Resolves h ((Precedence.ofHistory h).addSide edges).Depends
      ((Precedence.ofHistory h).addSide edges).Linked := by
  have hknown : ∀ {a b}, (h.SessionStep a b ∨ ∃ key, h.ReadsFrom key a b) →
      ((Precedence.ofHistory h).addSide edges).Depends a b := by
    intro a b hab
    exact (Precedence.depends_addSide_iff _ _ a b).mpr
      (Or.inl ((Precedence.depends_ofHistory_iff hw hcons a b).mpr hab))
  refine ⟨fun hstep => hknown (Or.inl hstep), fun hreads => hknown (Or.inr ⟨_, hreads⟩), ?_⟩
  -- The side that is there orders the writers of its constraint.
  have hordered : ∀ t ∈ h.transactions, ∀ u ∈ h.transactions, t.SharesKey u →
      Constraint.ofWriters ((Precedence.ofHistory h).writer t) ((Precedence.ofHistory h).writer u) ∈
        constraints h (Precedence.ofHistory h) →
      h.Overwrites ((Precedence.ofHistory h).addSide edges).Depends
          ((Precedence.ofHistory h).addSide edges).Linked t u ∨
        h.Overwrites ((Precedence.ofHistory h).addSide edges).Depends
          ((Precedence.ofHistory h).addSide edges).Linked u t := by
    intro t ht u hu hshare hc
    rcases hsides _ hc with ⟨direction, hside⟩
    cases direction with
    | forward => exact Or.inl (overwrites_of_side hw hcons ht hu hshare hside)
    | backward => exact Or.inr (overwrites_of_side hw hcons hu ht hshare.symm hside)
  intro t ht u hu hne hshare
  rcases exists_constraint (Precedence.ofHistory h) ht hu hne hshare with hc | hc
  · exact hordered t ht u hu hshare hc
  · exact (hordered u hu t ht hshare.symm hc).symm

end Sides

/-- The side that a schedule picks is the one of the order of commits. -/
def Schedule.pick (s : Schedule) (c : Constraint κ) : Direction :=
  if s.commit c.first < s.commit c.second then .forward else .backward

/-- A schedule keeps an edge of a side: it leads to a client, which starts behind the commit of the other
    transaction, or at least does not commit before a reader has started. -/
def Schedule.Keeps (s : Schedule) (h : History κ ν) (e : SideEdge κ) : Prop :=
  h.IsClient e.target ∧
    (e.kind ≠ .readWrite ∧ s.commit e.source < s.start e.target ∨
      e.kind = .readWrite ∧ h.IsClient e.source ∧ e.source ≠ e.target ∧
        s.start e.source ≤ s.commit e.target)

section Picked

variable [DecidableEq ν] {h : History κ ν} {s : Schedule} (hs : s.Explains h)
  (hw : h.WellFormed)

include hs hw

omit [DecidableEq ν] in
/-- Of two writers of a key, the one that commits later starts after the commit of the other. -/
theorem commit_lt_start_of_sharesKey {t u : Transaction κ ν} (ht : t ∈ h.transactions)
    (hu : u ∈ h.transactions) (hshare : t.SharesKey u) (hlt : s.commit t.id < s.commit u.id) :
    h.IsClient u.id ∧ s.commit t.id < s.start u.id := by
  have huclient : h.IsClient u.id := by
    rcases hw.id_eq_init_or_isClient hu with hid | hid
    · rcases hw.id_eq_init_or_isClient ht with htid | htid
      · rw [hid, htid] at hlt
        exact absurd hlt (Nat.lt_irrefl _)
      · have := hs.commit_init_lt htid
        rw [hid] at hlt
        omega
    · exact hid
  refine ⟨huclient, ?_⟩
  rcases hw.id_eq_init_or_isClient ht with htid | htid
  · rw [htid]
    exact hs.init_first _ huclient
  · have htmem := History.mem_clientTransactions_of_lookup htid.1 (hw.lookup_id ht)
    have humem := History.mem_clientTransactions_of_lookup huclient.1 (hw.lookup_id hu)
    have hne : t.id ≠ u.id := by
      intro hc
      rw [hc] at hlt
      exact absurd hlt (Nat.lt_irrefl _)
    rcases hs.separate t htmem u humem hne hshare with hbefore | hbefore
    · exact hbefore
    · have := hs.start_le_commit _ htid
      omega

theorem lastWriter_of_readsFrom {key : κ} {writer reader : TransactionId}
    (hreads : h.ReadsFrom key writer reader) : h.IsClient reader ∧
      ∃ w, w.id = writer ∧ s.LastWriter h key (s.start reader) w := by
  rcases hreads with ⟨_, t, index, e, w, ht, he, hread, rfl, hown, hlook, hfinal⟩
  have htid := hw.transaction_id _ t ht
  have htmem := h.mem_transactions_of_lookup ht
  rcases List.mem_cons.mp htmem with rfl | hclient
  · exact absurd hread (hw.not_isRead_init (List.mem_of_getElem? he))
  · refine ⟨htid ▸ hw.isClient_of_mem hclient, ?_⟩
    rcases hs.reads t hclient index e he hread with hown' | ⟨_, u, hlast, hfinal'⟩
    · rw [hown] at hown'
      cases hown'
    · refine ⟨u, ?_, htid ▸ hlast⟩
      rw [← hw.transaction_id _ w hlook]
      exact hw.id_eq_of_finalValue? hlast.mem (h.mem_transactions_of_lookup hlook) hfinal' hfinal

theorem commit_lt_start_of_known {a b : TransactionId}
    (hab : h.SessionStep a b ∨ ∃ key, h.ReadsFrom key a b) :
    h.IsClient b ∧ s.commit a < s.start b := by
  rcases hab with ⟨hclient, ⟨_, rfl⟩ | ⟨height, hheight, rfl⟩⟩ | ⟨key, hreads⟩
  · exact ⟨hclient, hs.init_first b hclient⟩
  · rcases b with ⟨session, top⟩
    simp only at hheight
    subst hheight
    exact ⟨hclient, hs.session session height hclient⟩
  · rcases lastWriter_of_readsFrom hs hw hreads with ⟨hclient, w, rfl, hlast⟩
    exact ⟨hclient, hlast.before⟩

variable (hcons : h.Consistent)

include hcons

theorem keeps_of_side [Ord κ] {t u : Transaction κ ν} (ht : t ∈ h.transactions)
    (hu : u ∈ h.transactions) (hlt : s.commit t.id < s.commit u.id) {e : SideEdge κ}
    (he : e ∈ Constraint.side ((Precedence.ofHistory h).writer t)
      ((Precedence.ofHistory h).writer u)) : s.Keeps h e := by
  rcases (exists_mem_side_iff (Precedence.ofHistory h) t u e.source e.target e.kind).mp
    ⟨e, he, rfl, rfl, rfl⟩ with ⟨key, hkeys, htarget, hkind⟩
  rcases commit_lt_start_of_sharesKey hs hw ht hu ⟨key, hkeys⟩ hlt with ⟨hclient, hstart⟩
  rw [Schedule.Keeps, htarget]
  refine ⟨hclient, ?_⟩
  rcases hkind with ⟨hkind, hsource⟩ | ⟨hkind, hne, hreader⟩
  · rw [hkind, hsource]
    exact Or.inl ⟨by decide, hstart⟩
  · rw [Precedence.mem_readers_ofHistory_iff hw hcons] at hreader
    rcases lastWriter_of_readsFrom hs hw hreader with ⟨hrclient, w, hwid, hlast⟩
    refine Or.inr ⟨hkind, hrclient, hne, Nat.le_of_not_lt fun hc => ?_⟩
    have hle := hlast.latest u hu hkeys.2 hc
    rw [hwid] at hle
    omega

variable [Ord κ]

theorem keeps_of_picked {e : SideEdge κ}
    (he : e ∈ chosenEdges (constraints h (Precedence.ofHistory h)) s.pick) : s.Keeps h e := by
  rcases mem_chosenEdges_iff.mp he with ⟨c, hc, he⟩
  rcases (mem_constraints_iff (Precedence.ofHistory h) c).mp hc with ⟨t, u, hsub, _, rfl⟩
  have ht := hsub.subset List.mem_cons_self
  have hu := hsub.subset (List.mem_cons_of_mem _ List.mem_cons_self)
  unfold Schedule.pick at he
  split at he
  · next hlt => exact keeps_of_side hs hw hcons ht hu hlt he
  · next hlt =>
      refine keeps_of_side hs hw hcons hu ht ?_ he
      refine Nat.lt_of_le_of_ne (Nat.le_of_not_lt hlt) (fun heq => ?_)
      exact ids_ne_of_sublist hw hsub (hs.id_eq_of_commit_eq hw ht hu heq.symm)

/-- The sides that an explaining schedule picks can be ordered. -/
theorem acyclicChoice_pick (level : IsolationLevel)
    (hsame : level = .serializable → ∀ id, h.IsClient id → s.start id = s.commit id) :
    (Precedence.ofHistory h).AcyclicChoice (constraints h (Precedence.ofHistory h)) level s.pick := by
  have hdepends : ∀ {a b}, ((Precedence.ofHistory h).addSide (chosenEdges
      (constraints h (Precedence.ofHistory h)) s.pick)).Depends a b →
      h.IsClient b ∧ s.commit a < s.start b := by
    intro a b hab
    rcases (Precedence.depends_addSide_iff _ _ a b).mp hab with hab | ⟨_, e, he, ⟨rfl, rfl⟩, hkind⟩
    · exact commit_lt_start_of_known hs hw ((Precedence.depends_ofHistory_iff hw hcons a b).mp hab)
    · rcases keeps_of_picked hs hw hcons he with ⟨hclient, ⟨_, hlt⟩ | ⟨hc, _⟩⟩
      · exact ⟨hclient, hlt⟩
      · exact absurd hc hkind
  have hlinked : ∀ {a b}, ((Precedence.ofHistory h).addSide (chosenEdges
      (constraints h (Precedence.ofHistory h)) s.pick)).Linked a b → h.IsClient b ∧
      (s.commit a < s.start b ∨ h.IsClient a ∧ a ≠ b ∧ s.start a ≤ s.commit b) := by
    intro a b hab
    rcases (Precedence.linked_addSide_iff _ _ a b).mp hab with hab | ⟨_, e, he, rfl, rfl⟩
    · have hknown := (Precedence.linked_ofHistory_iff hw hcons a b).mp hab
      exact (commit_lt_start_of_known hs hw hknown).imp_right Or.inl
    · rcases keeps_of_picked hs hw hcons he with ⟨hclient, ⟨_, hlt⟩ | ⟨_, hlink⟩⟩
      · exact ⟨hclient, Or.inl hlt⟩
      · exact ⟨hclient, Or.inr hlink⟩
  refine Acyclic.of_rank s.commit (fun a b hab => ?_)
  cases level with
  | serializable =>
    rcases hlinked hab with ⟨hb, hlt | ⟨ha, hne, hle⟩⟩
    · rw [hsame rfl b hb] at hlt
      exact hlt
    · rw [hsame rfl a ha] at hle
      exact Nat.lt_of_le_of_ne hle fun heq => hne (hs.commit_inj a b ha hb heq)
  | snapshotIsolation =>
    rcases hab with hab | ⟨m, ham, hmb⟩
    · rcases hdepends hab with ⟨hb, hlt⟩
      exact Nat.lt_of_lt_of_le hlt (hs.start_le_commit b hb)
    · rcases hdepends ham with ⟨hm, hlt⟩
      rcases hlinked hmb with ⟨hb, hlt' | ⟨_, _, hle⟩⟩
      · have hmle := hs.start_le_commit m hm
        have hble := hs.start_le_commit b hb
        omega
      · omega

end Picked

end Isolation
