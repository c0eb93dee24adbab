import Isolation.Precedence.Gathering
import Isolation.Proofs.Precedence.Generation

/-!
# What Is Gathered

The pass over the keys puts each edge under the direction it belongs to. A direction is there if its two
transactions have a key in common, and its edges are all those that follow from it, whichever keys and
whichever of the two loops they come from. To have a key in common is symmetric, so every direction finds the
opposite one, and the two make the constraint that is stated for the pair.

The groups of writers are in ascending order and without repeats. This is what makes the loop over the writers
meet every two of them once: those that are not before a writer begin with the writer itself.

## Theorems

* `gatherConstraints_eq`: What is gathered are the constraints.
* `History.constraints_exact`: Which ones they are.
-/

namespace Isolation

variable {κ ν : Type}

section Loops

variable {key : κ} {group : List TransactionId}

/-- In ascending order, those that are not before one of them begin with it and go on with the later ones. -/
theorem mem_drop_filter_iff (hgroup : group.Pairwise fun a b => compare a b = .lt)
    {first : TransactionId} (hfirst : first ∈ group) (id : TransactionId) :
    id ∈ (group.filter fun id => compare id first ≠ .lt).drop 1 ↔
      id ∈ group ∧ compare first id = .lt := by
  rcases List.append_of_mem hfirst with ⟨before, after, rfl⟩
  rw [List.pairwise_append, List.pairwise_cons] at hgroup
  rcases hgroup with ⟨_, ⟨hafter, _⟩, hbefore⟩
  have hself : compare first first = .eq := Std.ReflCmp.compare_self
  have hdropped : before.filter (fun id => compare id first ≠ .lt) = [] := by
    rw [List.filter_eq_nil_iff]
    intro a ha
    rw [hbefore a ha first List.mem_cons_self]
    decide
  have hkept : after.filter (fun id => compare id first ≠ .lt) = after := by
    rw [List.filter_eq_self]
    intro a ha
    rw [Std.OrientedCmp.gt_of_lt (hafter a ha)]
    rfl
  rw [List.filter_append, hdropped, List.nil_append, List.filter_cons, hself, if_pos (by decide),
    hkept, List.drop_one, List.tail_cons]
  constructor
  · exact fun hid => ⟨List.mem_append_right _ (List.mem_cons_of_mem _ hid), hafter id hid⟩
  · rintro ⟨hid, hlt⟩
    rcases List.mem_append.mp hid with hid | hid
    · rw [Std.OrientedCmp.gt_of_lt (hbefore id hid first List.mem_cons_self)] at hlt
      exact absurd hlt (by decide)
    · exact (List.mem_cons.mp hid).resolve_left (SortedList.ne_of_compare_lt hlt).symm

/-- The writers of a key bring one edge for either direction of any two of them. -/
theorem mem_writerEdges_iff (hgroup : group.Pairwise fun a b => compare a b = .lt) (d : Directed κ) :
    d ∈ writerEdges key group ↔
      ∃ a ∈ group, ∃ b ∈ group, a ≠ b ∧ d = ((a, b), ⟨a, b, .writeWrite, key⟩) := by
  simp only [writerEdges, List.mem_flatMap, List.mem_cons, List.not_mem_nil, or_false]
  constructor
  · rintro ⟨first, hfirst, second, hsecond, hd⟩
    rcases (mem_drop_filter_iff hgroup hfirst second).mp hsecond with ⟨hsecond, hlt⟩
    have hne := SortedList.ne_of_compare_lt hlt
    rcases hd with rfl | rfl
    · exact ⟨first, hfirst, second, hsecond, hne, rfl⟩
    · exact ⟨second, hsecond, first, hfirst, hne.symm, rfl⟩
  · rintro ⟨a, ha, b, hb, hne, rfl⟩
    cases hcompare : compare a b with
    | lt => exact ⟨a, ha, b, (mem_drop_filter_iff hgroup ha b).mpr ⟨hb, hcompare⟩, Or.inl rfl⟩
    | eq => exact absurd ((compare_id_eq_iff a b).mp hcompare) hne
    | gt =>
      have hlt := Std.OrientedCmp.lt_of_gt hcompare
      exact ⟨b, hb, a, (mem_drop_filter_iff hgroup hb a).mpr ⟨ha, hlt⟩, Or.inr rfl⟩

theorem mem_readerEdges_iff [DecidableEq κ] (g : Precedence κ) (d : Directed κ) :
    d ∈ readerEdges g key group ↔
      ∃ a ∈ group, ∃ b ∈ group, a ≠ b ∧ ∃ reader, (reader ∈ g.readers key a ∧ reader ≠ b) ∧
        d = ((a, b), ⟨reader, b, .readWrite, key⟩) := by
  simp only [readerEdges, List.mem_flatMap, List.mem_map, List.mem_filter, decide_eq_true_eq, not_or]
  constructor
  · rintro ⟨a, ha, reader, hreader, b, ⟨hb, hne, hne'⟩, rfl⟩
    exact ⟨a, ha, b, hb, Ne.symm hne, reader, ⟨hreader, Ne.symm hne'⟩, rfl⟩
  · rintro ⟨a, ha, b, hb, hne, reader, ⟨hreader, hne'⟩, rfl⟩
    exact ⟨a, ha, reader, hreader, b, ⟨hb, hne.symm, hne'.symm⟩, rfl⟩

end Loops

variable [DecidableEq κ] [Ord κ] [Std.TransOrd κ] [Std.LawfulEqOrd κ] {h : History κ ν}

section Writers

variable {key : κ}

theorem mem_iff_of_mem_writersByKey {group : List TransactionId}
    (hgroup : (key, group) ∈ h.writersByKey) (id : TransactionId) :
    id ∈ group ↔ ∃ t ∈ h.transactions, t.writesKey key = true ∧ t.id = id := by
  refine (SortedMap.mem_iff_of_mem_gather (fun _ _ _ => SortedList.mem_insert_iff) hgroup id).trans ?_
  simp only [List.mem_flatMap, List.mem_map, Prod.mk.injEq, Transaction.writes, List.mem_filter,
    Transaction.writesKey, List.any_eq_true, writesKey_iff]
  constructor
  · rintro ⟨t, ht, e, ⟨he, hwrite⟩, hkey, hid⟩
    exact ⟨t, ht, ⟨e, he, hwrite, hkey⟩, hid⟩
  · rintro ⟨t, ht, ⟨e, he, hwrite, hkey⟩, hid⟩
    exact ⟨t, ht, e, ⟨he, hwrite⟩, hkey, hid⟩

omit [Std.TransOrd κ] in
theorem exists_mem_writersByKey {t : Transaction κ ν} (ht : t ∈ h.transactions)
    (hwrites : t.writesKey key = true) : ∃ group, (key, group) ∈ h.writersByKey := by
  simp only [Transaction.writesKey, List.any_eq_true, writesKey_iff] at hwrites
  rcases hwrites with ⟨e, he, hwrite, rfl⟩
  have hentry : (e.key, t.id) ∈ h.transactions.flatMap fun t => t.writes.map fun e => (e.key, t.id) :=
    List.mem_flatMap.mpr ⟨t, ht, List.mem_map.mpr ⟨e, List.mem_filter.mpr ⟨he, hwrite⟩, rfl⟩⟩
  rcases (SortedMap.exists_mem_gather_iff (fun _ _ _ => SortedList.mem_insert_iff) _ _).mpr hentry with
    ⟨group, hgroup, _⟩
  exact ⟨group, hgroup⟩

end Writers

section Sides

variable (g : Precedence κ)

theorem mem_flatMap_writersByKey_iff (d : Directed κ) :
    (d ∈ h.writersByKey.flatMap fun entry =>
        writerEdges entry.1 entry.2 ++ readerEdges g entry.1 entry.2) ↔
      ∃ t ∈ h.transactions, ∃ u ∈ h.transactions, t.id ≠ u.id ∧ d.1 = (t.id, u.id) ∧
        d.2 ∈ Constraint.side (g.writer t) (g.writer u) := by
  simp only [List.mem_flatMap, List.mem_append, mem_side_iff_exists_key]
  constructor
  · rintro ⟨⟨key, group⟩, hentry, hd⟩
    have hmem := mem_iff_of_mem_writersByKey hentry
    rcases hd with hd | hd
    · rcases (mem_writerEdges_iff (SortedMap.pairwise_of_mem_gather hentry).1 d).mp hd with
        ⟨a, ha, b, hb, hne, rfl⟩
      rcases (hmem a).mp ha with ⟨t, ht, htkey, rfl⟩
      rcases (hmem b).mp hb with ⟨u, hu, hukey, rfl⟩
      exact ⟨t, ht, u, hu, hne, rfl, key, ⟨htkey, hukey⟩, Or.inl rfl⟩
    · rcases (mem_readerEdges_iff g d).mp hd with ⟨a, ha, b, hb, hne, reader, hreader, rfl⟩
      rcases (hmem a).mp ha with ⟨t, ht, htkey, rfl⟩
      rcases (hmem b).mp hb with ⟨u, hu, hukey, rfl⟩
      exact ⟨t, ht, u, hu, hne, rfl, key, ⟨htkey, hukey⟩, Or.inr ⟨reader, hreader, rfl⟩⟩
  · rintro ⟨t, ht, u, hu, hne, hpair, key, ⟨htkey, hukey⟩, hedge⟩
    rcases d with ⟨pair, e⟩
    rcases exists_mem_writersByKey ht htkey with ⟨group, hgroup⟩
    have hfirst := (mem_iff_of_mem_writersByKey hgroup _).mpr ⟨t, ht, htkey, rfl⟩
    have hsecond := (mem_iff_of_mem_writersByKey hgroup _).mpr ⟨u, hu, hukey, rfl⟩
    refine ⟨_, hgroup, ?_⟩
    rcases hedge with hedge | ⟨reader, hreader, hedge⟩
    · exact Or.inl ((mem_writerEdges_iff (SortedMap.pairwise_of_mem_gather hgroup).1 _).mpr
        ⟨t.id, hfirst, u.id, hsecond, hne, Prod.ext hpair hedge⟩)
    · exact Or.inr ((mem_readerEdges_iff g _).mpr
        ⟨t.id, hfirst, u.id, hsecond, hne, reader, hreader, Prod.ext hpair hedge⟩)

/-- The directions are those between transactions with a key in common, and their edges are the sides. -/
theorem mem_sidesByPair_iff (hw : h.WellFormed)
    (side : (TransactionId × TransactionId) × List (SideEdge κ)) :
    side ∈ sidesByPair h g ↔ ∃ t ∈ h.transactions, ∃ u ∈ h.transactions, t.id ≠ u.id ∧ t.SharesKey u ∧
      side = ((t.id, u.id), Constraint.side (g.writer t) (g.writer u)) := by
  -- Where a direction is listed at all, its edges are those of the side.
  have hside : ∀ {t u : Transaction κ ν}, t ∈ h.transactions → u ∈ h.transactions → t.id ≠ u.id →
      ∀ {edges}, ((t.id, u.id), edges) ∈ sidesByPair h g →
        edges = Constraint.side (g.writer t) (g.writer u) := by
    intro t u ht hu hne edges hedges
    refine SortedList.ext_of_pairwise (fun e => e) (SortedMap.pairwise_of_mem_gather hedges).1
      (SortedList.pairwise_ofList _) fun e => ?_
    refine (SortedMap.mem_iff_of_mem_gather (fun _ _ _ => SortedList.mem_insert_iff) hedges e).trans
      ((mem_flatMap_writersByKey_iff g _).trans ⟨?_, fun he => ⟨t, ht, u, hu, hne, rfl, he⟩⟩)
    rintro ⟨t', ht', u', hu', _, hpair, he⟩
    rw [Prod.mk.injEq] at hpair
    rw [hw.eq_of_id_eq ht ht' hpair.1, hw.eq_of_id_eq hu hu' hpair.2]
    exact he
  constructor
  · intro hmem
    rcases side with ⟨pair, edges⟩
    rcases List.exists_mem_of_ne_nil edges (SortedMap.pairwise_of_mem_gather hmem).2 with ⟨e, he⟩
    rcases (mem_flatMap_writersByKey_iff g _).mp ((SortedMap.mem_iff_of_mem_gather
      (fun _ _ _ => SortedList.mem_insert_iff) hmem e).mp he) with ⟨t, ht, u, hu, hne, rfl, he⟩
    rcases (mem_side_iff_exists_key g t u e).mp he with ⟨key, hkeys, _⟩
    exact ⟨t, ht, u, hu, hne, ⟨key, hkeys⟩, Prod.ext rfl (hside ht hu hne hmem)⟩
  · rintro ⟨t, ht, u, hu, hne, ⟨key, hkeys⟩, rfl⟩
    have hedge := (mem_side_iff_exists_key g t u _).mpr ⟨key, hkeys, Or.inl rfl⟩
    rcases (SortedMap.exists_mem_gather_iff (fun _ _ _ => SortedList.mem_insert_iff) (t.id, u.id) _).mpr
      ((mem_flatMap_writersByKey_iff g _).mpr ⟨t, ht, u, hu, hne, rfl, hedge⟩) with ⟨edges, hedges, _⟩
    rw [← hside ht hu hne hedges]
    exact hedges

theorem mem_gatherConstraints_iff (hw : h.WellFormed) (c : Constraint κ) :
    c ∈ gatherConstraints h g ↔ c ∈ constraints h g := by
  simp only [gatherConstraints, List.mem_map, List.mem_filter, decide_eq_true_eq,
    mem_sidesByPair_iff g hw, mem_constraints_iff]
  -- Opposite directions are listed together.
  have hback : ∀ {t u : Transaction κ ν}, t ∈ h.transactions → u ∈ h.transactions → t.id ≠ u.id →
      t.SharesKey u → ((sidesByPair h g).lookup (u.id, t.id)).getD [] =
        Constraint.side (g.writer u) (g.writer t) := by
    intro t u ht hu hne hshare
    have hmem := (mem_sidesByPair_iff g hw _).mpr ⟨u, hu, t, ht, hne.symm, hshare.symm, rfl⟩
    have hfound : (sidesByPair h g).lookup (u.id, t.id) = some _ :=
      lookup_eq_some_of_mem (SortedMap.nodup_keys_gather _ _) hmem
    rw [hfound, Option.getD_some]
  constructor
  · rintro ⟨_, ⟨⟨t, ht, u, hu, hne, hshare, rfl⟩, hlt⟩, rfl⟩
    refine ⟨t, u, (hw.pair_sublist_iff ht hu).mpr hlt, hshare, ?_⟩
    rw [Prod.swap_prod_mk, hback ht hu hne hshare, Constraint.ofWriters]
    rfl
  · rintro ⟨t, u, hsub, hshare, rfl⟩
    have ht : t ∈ h.transactions := hsub.subset List.mem_cons_self
    have hu : u ∈ h.transactions := hsub.subset (List.mem_cons_of_mem _ (List.mem_singleton_self u))
    have hlt := (hw.pair_sublist_iff ht hu).mp hsub
    have hne := SortedList.ne_of_compare_lt hlt
    refine ⟨_, ⟨⟨t, ht, u, hu, hne, hshare, rfl⟩, hlt⟩, ?_⟩
    rw [Prod.swap_prod_mk, hback ht hu hne hshare, Constraint.ofWriters]
    rfl

/-- The constraints that are gathered are the constraints, in the same order. -/
theorem gatherConstraints_eq (hw : h.WellFormed) : gatherConstraints h g = constraints h g := by
  refine SortedList.ext_of_pairwise Constraint.pair ?_ ?_ (mem_gatherConstraints_iff g hw)
  · refine List.pairwise_map.mpr (List.Pairwise.filter _ ?_)
    exact List.pairwise_map.mp (SortedMap.pairwise_gather _ _)
  · exact pairwise_constraintsAmong (List.pairwise_map.mpr hw.pairwise_transactions)

end Sides

namespace History

variable [DecidableEq ν]

/-- The constraints that are gathered from a history are the constraints. They are in strictly ascending
    order. There is exactly one for every two transactions with a common key, the one with the lower
    identifier coming first, and there are no others. The sides are in strictly ascending order as well.
    They consist of the edges that follow from either order of the two transactions, and no edge is a
    loop. -/
theorem constraints_exact (hbuilt : h.Built) :
    gatherConstraints h (Precedence.ofHistory h) = constraints h (Precedence.ofHistory h) ∧
    ((gatherConstraints h (Precedence.ofHistory h)).Pairwise fun c d => compare c d = .lt) ∧
    (∀ t ∈ h.transactions, ∀ u ∈ h.transactions, compare t.id u.id = .lt → t.SharesKey u →
      ∃! c, c ∈ gatherConstraints h (Precedence.ofHistory h) ∧ c.first = t.id ∧ c.second = u.id) ∧
    ∀ c ∈ gatherConstraints h (Precedence.ofHistory h), ∃ t ∈ h.transactions, ∃ u ∈ h.transactions,
      (c.first = t.id ∧ c.second = u.id) ∧ compare t.id u.id = .lt ∧ t.SharesKey u ∧
      (c.forward.Pairwise fun e f => compare e f = .lt) ∧
      (c.backward.Pairwise fun e f => compare e f = .lt) ∧
      (∀ e, e ∈ c.forward ↔ h.Implied t u e) ∧ (∀ e, e ∈ c.backward ↔ h.Implied u t e) ∧
      ∀ e ∈ c.forward ++ c.backward, e.source ≠ e.target := by
  have hw := hbuilt.wellFormed
  rw [gatherConstraints_eq _ hw]
  refine ⟨rfl, ?_, ?_, ?_⟩
  · exact (pairwise_constraintsAmong (List.pairwise_map.mpr hw.pairwise_transactions)).imp
      Constraint.compare_lt_of_pair
  · intro t ht u hu hlt hshare
    refine ⟨Constraint.ofWriters _ _, ⟨(mem_constraints_iff _ _).mpr
      ⟨t, u, (hw.pair_sublist_iff ht hu).mpr hlt, hshare, rfl⟩, rfl, rfl⟩, ?_⟩
    intro c hc
    rcases hc with ⟨hmem, hfirst, hsecond⟩
    rcases (mem_constraints_iff _ c).mp hmem with ⟨t', u', hsub, _, rfl⟩
    rw [hw.eq_of_id_eq (hsub.subset List.mem_cons_self) ht hfirst,
      hw.eq_of_id_eq (hsub.subset (List.mem_cons_of_mem _ (List.mem_singleton_self u'))) hu hsecond]
  · intro c hc
    rcases (mem_constraints_iff _ c).mp hc with ⟨t, u, hsub, hshare, rfl⟩
    have ht : t ∈ h.transactions := hsub.subset List.mem_cons_self
    have hu : u ∈ h.transactions := hsub.subset (List.mem_cons_of_mem _ (List.mem_singleton_self u))
    have hne := ids_ne_of_sublist hw hsub
    refine ⟨t, ht, u, hu, ⟨rfl, rfl⟩, (hw.pair_sublist_iff ht hu).mp hsub, hshare,
      SortedList.pairwise_ofList _, SortedList.pairwise_ofList _, fun e => hw.mem_side_iff ht e,
      fun e => hw.mem_side_iff hu e, ?_⟩
    intro e he
    rcases List.mem_append.mp he with he | he
    · exact ((hw.mem_side_iff ht e).mp he).ends_ne hne
    · exact ((hw.mem_side_iff hu e).mp he).ends_ne hne.symm

/-- The reader of a value that is overwritten and the reader in an open transaction both count, although
    the history fails its local checks. -/
theorem constraints_exact_severalFaults :
    (severalFaults.Built ∧ severalFaults.validate ≠ .ok ()) ∧
    ((gatherConstraints severalFaults (Precedence.ofHistory severalFaults)).Pairwise
      fun c d => compare c d = .lt) ∧
    (∃! c, c ∈ gatherConstraints severalFaults (Precedence.ofHistory severalFaults) ∧
      c.first = ⟨1, 0⟩ ∧ c.second = ⟨2, 0⟩) ∧
    ∃ c ∈ gatherConstraints severalFaults (Precedence.ofHistory severalFaults),
      c.forward = [⟨⟨1, 0⟩, ⟨2, 0⟩, .writeWrite, 0⟩, ⟨⟨3, 0⟩, ⟨2, 0⟩, .readWrite, 0⟩] ∧
      c.backward = [⟨⟨2, 0⟩, ⟨1, 0⟩, .writeWrite, 0⟩] := by
  rcases constraints_exact built_severalFaults with ⟨_, hsorted, hunique, _⟩
  refine ⟨⟨built_severalFaults, by decide⟩, hsorted, ?_, by decide +kernel⟩
  exact hunique ⟨⟨1, 0⟩, [⟨⟨1, 0⟩, .write, 0, 1⟩, ⟨⟨1, 0⟩, .write, 0, 2⟩], true⟩ (by decide)
    ⟨⟨2, 0⟩, [⟨⟨2, 0⟩, .read, 0, 0⟩, ⟨⟨2, 0⟩, .write, 0, 3⟩, ⟨⟨2, 0⟩, .read, 0, 3⟩,
      ⟨⟨2, 0⟩, .read, 0, 1⟩], true⟩ (by decide) (by decide) ⟨0, by decide, by decide⟩

end History

end Isolation
