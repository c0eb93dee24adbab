import Isolation.Proofs.History.Reads
import Isolation.Proofs.Precedence.Orders
import Isolation.Proofs.Sorted

/-!
# Which Constraints There Are

Every two transactions with a key in common have a constraint, and only they do. Its sides are kept as
sorted lists of edges. Sorting drops an edge that compares equal to another one, and how keys compare is
up to whoever brings the keys. So an edge may disappear, but only if another one stays that has the same
ends and is of the same kind, and nothing else matters about an edge.

## Main definitions

* `Transaction.SharesKey`: Two transactions write a common key.

## Theorems

* `mem_constraints_iff`: The constraints are those of two transactions with a common key.
-/

namespace Isolation

variable {κ ν : Type}

theorem compare_kind_eq_iff (a b : EdgeKind) : compare a b = .eq ↔ a = b := by
  cases a <;> cases b <;> decide

theorem SideEdge.ends_of_compare_eq [Ord κ] {a b : SideEdge κ} (heq : compare a b = .eq) :
    a.source = b.source ∧ a.target = b.target ∧ a.kind = b.kind := by
  have hcompare : compare a b = (compare a.source b.source).then
      ((compare a.target b.target).then ((compare a.kind b.kind).then (compare a.key b.key))) := rfl
  rw [hcompare, Ordering.then_eq_eq, Ordering.then_eq_eq, Ordering.then_eq_eq, compare_id_eq_iff,
    compare_id_eq_iff, compare_kind_eq_iff] at heq
  exact ⟨heq.1, heq.2.1, heq.2.2.1⟩

variable [DecidableEq κ]

/-- Two transactions write a common key. -/
def Transaction.SharesKey (t u : Transaction κ ν) : Prop :=
  ∃ key, t.writesKey key = true ∧ u.writesKey key = true

theorem Transaction.SharesKey.symm {t u : Transaction κ ν} (hshare : t.SharesKey u) :
    u.SharesKey t := by
  rcases hshare with ⟨key, ht, hu⟩
  exact ⟨key, hu, ht⟩

section Sides

variable (g : Precedence κ) (t u : Transaction κ ν)

theorem mem_versions_iff (key : κ) (readers : List TransactionId) :
    (key, readers) ∈ (g.writer t).versions ↔
      t.writesKey key = true ∧ readers = g.readers key t.id := by
  simp only [Precedence.writer, List.mem_map, List.mem_eraseDups, Transaction.writes, List.mem_filter,
    Prod.mk.injEq, Transaction.writesKey, List.any_eq_true, writesKey_iff]
  constructor
  · rintro ⟨key', ⟨e, ⟨he, hwrite⟩, rfl⟩, rfl, rfl⟩
    exact ⟨⟨e, he, hwrite, rfl⟩, rfl⟩
  · rintro ⟨⟨e, he, hwrite, hkey⟩, rfl⟩
    exact ⟨key, ⟨e, ⟨he, hwrite⟩, hkey⟩, rfl, rfl⟩

theorem any_versions_iff (key : κ) :
    ((g.writer u).versions.any fun other => other.1 = key) = true ↔ u.writesKey key = true := by
  simp only [List.any_eq_true, decide_eq_true_eq, Prod.exists, mem_versions_iff]
  constructor
  · rintro ⟨key', readers, ⟨hwrites, _⟩, rfl⟩
    exact hwrites
  · intro hwrites
    exact ⟨key, _, ⟨hwrites, rfl⟩, rfl⟩

theorem mem_flatMap_keyEdges_iff (e : SideEdge κ) :
    (e ∈ ((g.writer t).versions.filter fun version =>
        (g.writer u).versions.any fun other => other.1 = version.1).flatMap
          fun version => Constraint.keyEdges t.id u.id version.1 version.2) ↔
      ∃ key, (t.writesKey key = true ∧ u.writesKey key = true) ∧
        (e = ⟨t.id, u.id, .writeWrite, key⟩ ∨
          ∃ reader, (reader ∈ g.readers key t.id ∧ reader ≠ u.id) ∧
            e = ⟨reader, u.id, .readWrite, key⟩) := by
  simp only [List.mem_flatMap, List.mem_filter, any_versions_iff, Prod.exists, mem_versions_iff,
    Constraint.keyEdges, List.mem_cons, List.mem_map, decide_eq_true_eq, ne_eq, eq_comm (b := e)]
  constructor
  · rintro ⟨key, readers, ⟨⟨ht, rfl⟩, hu⟩, he⟩
    exact ⟨key, ⟨ht, hu⟩, he⟩
  · rintro ⟨key, ⟨ht, hu⟩, he⟩
    exact ⟨key, _, ⟨⟨ht, rfl⟩, hu⟩, he⟩

variable [Ord κ]

theorem exists_mem_side_iff (source target : TransactionId) (kind : EdgeKind) :
    (∃ e ∈ Constraint.side (g.writer t) (g.writer u),
      e.source = source ∧ e.target = target ∧ e.kind = kind) ↔
    ∃ key, (t.writesKey key = true ∧ u.writesKey key = true) ∧ target = u.id ∧
      (kind = .writeWrite ∧ source = t.id ∨
        kind = .readWrite ∧ source ≠ u.id ∧ source ∈ g.readers key t.id) := by
  constructor
  · rintro ⟨e, he, rfl, rfl, rfl⟩
    rcases (mem_flatMap_keyEdges_iff g t u e).mp (SortedList.mem_of_mem_ofList he) with
      ⟨key, hkeys, rfl | ⟨reader, ⟨hreader, hne⟩, rfl⟩⟩
    · exact ⟨key, hkeys, rfl, Or.inl ⟨rfl, rfl⟩⟩
    · exact ⟨key, hkeys, rfl, Or.inr ⟨rfl, hne, hreader⟩⟩
  · rintro ⟨key, hkeys, rfl, hends⟩
    have hmem : (⟨source, u.id, kind, key⟩ : SideEdge κ) ∈
        ((g.writer t).versions.filter fun version =>
          (g.writer u).versions.any fun other => other.1 = version.1).flatMap
            fun version => Constraint.keyEdges t.id u.id version.1 version.2 := by
      refine (mem_flatMap_keyEdges_iff g t u _).mpr ⟨key, hkeys, ?_⟩
      rcases hends with ⟨rfl, rfl⟩ | ⟨rfl, hne, hreader⟩
      · exact Or.inl rfl
      · exact Or.inr ⟨source, ⟨hreader, hne⟩, rfl⟩
    rcases SortedList.exists_mem_ofList hmem with ⟨b, hb, rfl | heq⟩
    · exact ⟨_, hb, rfl, rfl, rfl⟩
    · rcases SideEdge.ends_of_compare_eq heq with ⟨hsource, htarget, hkind⟩
      exact ⟨b, hb, hsource.symm, htarget.symm, hkind.symm⟩

/-- The constraint of two writers. -/
def Constraint.ofWriters (first second : Writer κ) : Constraint κ :=
  ⟨first.id, second.id, side first second, side second first⟩

theorem between?_eq_some_iff (c : Constraint κ) :
    Constraint.between? (g.writer t) (g.writer u) = some c ↔
      t.SharesKey u ∧ c = Constraint.ofWriters (g.writer t) (g.writer u) := by
  have hany : ((g.writer t).versions.any fun version =>
      (g.writer u).versions.any fun other => other.1 = version.1) = true ↔ t.SharesKey u := by
    rw [List.any_eq_true]
    simp only [any_versions_iff, Prod.exists, mem_versions_iff]
    constructor
    · rintro ⟨key, _, ⟨ht, _⟩, hu⟩
      exact ⟨key, ht, hu⟩
    · rintro ⟨key, ht, hu⟩
      exact ⟨key, _, ⟨ht, rfl⟩, hu⟩
  rw [Constraint.between?, Option.ite_none_right_eq_some, hany, Option.some.injEq,
    Constraint.ofWriters, eq_comm]

end Sides

section Among

variable [Ord κ]

/-- The constraints among writers are those of two of them in their order. -/
theorem mem_constraintsAmong_iff (writers : List (Writer κ)) (c : Constraint κ) :
    c ∈ constraintsAmong writers ↔
      ∃ first second, [first, second].Sublist writers ∧ Constraint.between? first second = some c := by
  induction writers with
  | nil =>
    simp only [constraintsAmong, List.not_mem_nil, List.sublist_nil, reduceCtorEq, false_and,
      exists_false]
  | cons w rest ih =>
    rw [constraintsAmong, List.mem_append, ih, List.mem_filterMap]
    constructor
    · rintro (⟨second, hsecond, hc⟩ | ⟨first, second, hsub, hc⟩)
      · exact ⟨w, second, List.Sublist.cons_cons w (List.singleton_sublist.mpr hsecond), hc⟩
      · exact ⟨first, second, List.Sublist.cons w hsub, hc⟩
    · rintro ⟨first, second, hsub, hc⟩
      cases hsub with
      | cons _ hsub => exact Or.inr ⟨first, second, hsub, hc⟩
      | cons_cons _ hsub => exact Or.inl ⟨second, List.singleton_sublist.mp hsub, hc⟩

omit [DecidableEq κ] [Ord κ] in
theorem pair_sublist {α : Type} {a b : α} {l : List α} (ha : a ∈ l) (hb : b ∈ l) (hne : a ≠ b) :
    [a, b].Sublist l ∨ [b, a].Sublist l := by
  rcases List.append_of_mem ha with ⟨before, after, rfl⟩
  rcases List.mem_append.mp hb with hb | hb
  · exact Or.inr (List.Sublist.append (List.singleton_sublist.mpr hb)
      (List.singleton_sublist.mpr List.mem_cons_self))
  · refine Or.inl (List.Sublist.trans ?_ (List.sublist_append_right before _))
    exact List.Sublist.cons_cons a
      (List.singleton_sublist.mpr ((List.mem_cons.mp hb).resolve_left hne.symm))

theorem ids_of_between? {first second : Writer κ} {c : Constraint κ}
    (hc : Constraint.between? first second = some c) : c.first = first.id ∧ c.second = second.id := by
  rw [Constraint.between?, Option.ite_none_right_eq_some, Option.some.injEq] at hc
  rw [← hc.2]
  exact ⟨rfl, rfl⟩

theorem nodup_constraintsAmong {writers : List (Writer κ)} (hnodup : (writers.map Writer.id).Nodup) :
    (constraintsAmong writers).Nodup := by
  induction writers with
  | nil => exact List.nodup_nil
  | cons w rest ih =>
    rw [List.map_cons, List.nodup_cons] at hnodup
    rw [constraintsAmong, List.nodup_append]
    refine ⟨?_, ih hnodup.2, ?_⟩
    · rw [List.nodup_iff_pairwise_ne, List.pairwise_filterMap]
      refine (List.pairwise_map.mp hnodup.2).imp ?_
      intro a b hne c hc c' hc' heq
      refine hne ?_
      rw [← (ids_of_between? hc).2, heq, (ids_of_between? hc').2]
    · rintro c hc c' hc' rfl
      rcases List.mem_filterMap.mp hc with ⟨second, _, hbetween⟩
      rcases (mem_constraintsAmong_iff rest c).mp hc' with ⟨first, second', hsub, hbetween'⟩
      refine hnodup.1 (List.mem_map.mpr ⟨first, hsub.subset List.mem_cons_self, ?_⟩)
      rw [← (ids_of_between? hbetween').1, (ids_of_between? hbetween).1]

variable {h : History κ ν} (g : Precedence κ)

/-- The constraints are those of two transactions with a common key. -/
theorem mem_constraints_iff (c : Constraint κ) :
    c ∈ constraints h g ↔ ∃ t u, [t, u].Sublist h.transactions ∧ t.SharesKey u ∧
      c = Constraint.ofWriters (g.writer t) (g.writer u) := by
  rw [constraints, mem_constraintsAmong_iff]
  constructor
  · rintro ⟨first, second, hsub, hc⟩
    rcases List.sublist_map_iff.mp hsub with ⟨pair, hpair, heq⟩
    rcases List.map_eq_cons_iff.mp heq.symm with ⟨t, tail, rfl, rfl, htail⟩
    rcases List.map_eq_singleton_iff.mp htail with ⟨u, rfl, rfl⟩
    exact ⟨t, u, hpair, (between?_eq_some_iff g t u c).mp hc⟩
  · rintro ⟨t, u, hsub, hc⟩
    exact ⟨g.writer t, g.writer u, hsub.map g.writer, (between?_eq_some_iff g t u c).mpr hc⟩

variable (hw : h.WellFormed)

include hw

theorem nodup_constraints : (constraints h g).Nodup := by
  refine nodup_constraintsAmong ?_
  rw [List.map_map]
  exact hw.nodup_ids

omit [Ord κ] [DecidableEq κ] in
theorem ids_ne_of_sublist {t u : Transaction κ ν} (hsub : [t, u].Sublist h.transactions) :
    t.id ≠ u.id := by
  have hpair := hw.nodup_ids.sublist (hsub.map Transaction.id)
  rw [List.map_cons, List.map_cons, List.map_nil, List.nodup_cons, List.mem_singleton] at hpair
  exact hpair.1

omit hw in
theorem exists_constraint {t u : Transaction κ ν} (ht : t ∈ h.transactions) (hu : u ∈ h.transactions)
    (hne : t.id ≠ u.id) (hshare : t.SharesKey u) :
    Constraint.ofWriters (g.writer t) (g.writer u) ∈ constraints h g ∨
      Constraint.ofWriters (g.writer u) (g.writer t) ∈ constraints h g := by
  simp only [mem_constraints_iff]
  rcases pair_sublist ht hu (fun hc => hne (by rw [hc])) with hsub | hsub
  · exact Or.inl ⟨t, u, hsub, hshare, rfl⟩
  · exact Or.inr ⟨u, t, hsub, hshare.symm, rfl⟩

end Among

end Isolation
