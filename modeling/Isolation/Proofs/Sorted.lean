import Isolation.Proofs.Lists
import Isolation.SortedList
import Isolation.SortedMap
import Mathlib

/-!
# What Sorting Keeps

Sorted lists and maps are built by inserting one element after the other. If elements that compare equal are
equal, nothing is lost, and what is built is determined by what has been inserted: two lists in strictly
ascending order with the same members are the same list. Without that assumption an element may be missing,
but then one that compares equal to it is there.

## Theorems

* `SortedMap.exists_mem_gather_iff`, `SortedMap.pairwise_gather`: What is collected under which keys.
-/

namespace Isolation

namespace SortedList

variable {α : Type} [Ord α] {l : List α}

theorem mem_of_mem_insert {a x : α} (hx : x ∈ insert a l) : x = a ∨ x ∈ l := by
  induction l with
  | nil => exact Or.inl (List.mem_singleton.mp hx)
  | cons b rest ih =>
    rw [insert] at hx
    split at hx
    · exact List.mem_cons.mp hx
    · exact Or.inr hx
    · rcases List.mem_cons.mp hx with rfl | hx
      · exact Or.inr List.mem_cons_self
      · exact (ih hx).imp_right (List.mem_cons_of_mem _)

theorem mem_insert_of_mem {a x : α} (hx : x ∈ l) : x ∈ insert a l := by
  induction l with
  | nil => exact absurd hx List.not_mem_nil
  | cons b rest ih =>
    rw [insert]
    split
    · exact List.mem_cons_of_mem _ hx
    · exact hx
    · rcases List.mem_cons.mp hx with rfl | hx
      · exact List.mem_cons_self ..
      · exact List.mem_cons_of_mem _ (ih hx)

theorem exists_mem_insert (a : α) (l : List α) : ∃ b ∈ insert a l, b = a ∨ compare a b = .eq := by
  induction l with
  | nil => exact ⟨a, List.mem_singleton_self a, Or.inl rfl⟩
  | cons b rest ih =>
    rw [insert]
    split
    · exact ⟨a, List.mem_cons_self .., Or.inl rfl⟩
    · next hcompare => exact ⟨b, List.mem_cons_self .., Or.inr hcompare⟩
    · rcases ih with ⟨c, hc, heq⟩
      exact ⟨c, List.mem_cons_of_mem _ hc, heq⟩

theorem mem_insert_iff [Std.LawfulEqOrd α] {a x : α} : x ∈ insert a l ↔ x ∈ l ∨ x = a := by
  refine ⟨fun hx => (mem_of_mem_insert hx).symm, fun hx => ?_⟩
  rcases hx with hx | rfl
  · exact mem_insert_of_mem hx
  · rcases exists_mem_insert x l with ⟨b, hb, rfl | heq⟩
    · exact hb
    · rw [← Std.LawfulEqOrd.eq_of_compare heq] at hb
      exact hb

theorem mem_foldl_insert {x : α} (l sorted : List α)
    (hx : x ∈ l.foldl (fun sorted a => insert a sorted) sorted) : x ∈ l ∨ x ∈ sorted := by
  induction l generalizing sorted with
  | nil => exact Or.inr hx
  | cons a rest ih =>
    rcases ih _ hx with hx | hx
    · exact Or.inl (List.mem_cons_of_mem _ hx)
    · rcases mem_of_mem_insert hx with rfl | hx
      · exact Or.inl List.mem_cons_self
      · exact Or.inr hx

theorem mem_foldl_insert_of_mem {x : α} (l sorted : List α) (hx : x ∈ sorted) :
    x ∈ l.foldl (fun sorted a => insert a sorted) sorted := by
  induction l generalizing sorted with
  | nil => exact hx
  | cons a rest ih => exact ih _ (mem_insert_of_mem hx)

theorem mem_of_mem_ofList {x : α} (hx : x ∈ ofList l) : x ∈ l :=
  (mem_foldl_insert l [] hx).resolve_right List.not_mem_nil

theorem exists_mem_ofList {a : α} (ha : a ∈ l) : ∃ b ∈ ofList l, b = a ∨ compare a b = .eq := by
  rcases List.append_of_mem ha with ⟨before, after, rfl⟩
  rw [ofList, List.foldl_append, List.foldl_cons]
  rcases exists_mem_insert a (before.foldl (fun sorted a => insert a sorted) []) with ⟨b, hb, heq⟩
  exact ⟨b, mem_foldl_insert_of_mem after _ hb, heq⟩

section Lawful

variable [Std.TransOrd α]

theorem pairwise_insert {a : α} (hl : l.Pairwise fun x y => compare x y = .lt) :
    (insert a l).Pairwise fun x y => compare x y = .lt := by
  induction l with
  | nil => exact List.pairwise_singleton _ _
  | cons b rest ih =>
    have hrest := List.pairwise_cons.mp hl
    unfold insert
    split
    · next hlt =>
      refine List.pairwise_cons.mpr ⟨?_, hl⟩
      intro c hc
      rcases List.mem_cons.mp hc with rfl | hc
      · exact hlt
      · exact Std.TransCmp.lt_trans hlt (hrest.1 c hc)
    · exact hl
    · next hgt =>
      refine List.pairwise_cons.mpr ⟨?_, ih hrest.2⟩
      intro c hc
      rcases mem_of_mem_insert hc with rfl | hc
      · exact Std.OrientedCmp.gt_iff_lt.mp hgt
      · exact hrest.1 c hc

theorem pairwise_ofList (l : List α) : (ofList l).Pairwise fun x y => compare x y = .lt := by
  have hfold : ∀ sorted : List α, (sorted.Pairwise fun x y => compare x y = .lt) →
      (l.foldl (fun sorted a => insert a sorted) sorted).Pairwise fun x y => compare x y = .lt := by
    induction l with
    | nil => exact fun sorted hsorted => hsorted
    | cons a rest ih => exact fun sorted hsorted => ih _ (pairwise_insert hsorted)
  exact hfold [] List.Pairwise.nil

omit [Std.TransOrd α] in
/-- Sorting keeps every element if only equal elements compare equal. -/
theorem mem_ofList_iff [Std.LawfulEqOrd α] {x : α} : x ∈ ofList l ↔ x ∈ l := by
  refine ⟨mem_of_mem_ofList, ?_⟩
  intro hx
  rcases exists_mem_ofList hx with ⟨b, hb, heq⟩
  have hbx : b = x := heq.elim id fun heq => (Std.LawfulEqOrd.eq_of_compare heq).symm
  rw [← hbx]
  exact hb

theorem ne_of_compare_lt {x y : α} (hlt : compare x y = .lt) : x ≠ y := by
  rintro rfl
  have hself : compare x x = .eq := Std.ReflCmp.compare_self
  rw [hself] at hlt
  exact absurd hlt (by decide)

theorem ext_of_pairwise {β : Type} (f : β → α) {l l' : List β}
    (hl : l.Pairwise fun x y => compare (f x) (f y) = .lt)
    (hl' : l'.Pairwise fun x y => compare (f x) (f y) = .lt) (hmem : ∀ x, x ∈ l ↔ x ∈ l') :
    l = l' := by
  have hne : ∀ {x y : β}, compare (f x) (f y) = .lt → x ≠ y :=
    fun hlt heq => ne_of_compare_lt hlt (congrArg f heq)
  have hperm : l.Perm l' := (List.perm_ext_iff_of_nodup (hl.imp hne) (hl'.imp hne)).mpr hmem
  refine hperm.eq_of_pairwise (fun x y _ _ hxy hyx => ?_) hl hl'
  rw [Std.OrientedCmp.gt_of_lt hxy] at hyx
  exact absurd hyx (by decide)

end Lawful

section SortBy

variable {β : Type} (compare : β → β → Ordering)

theorem place_perm (b : β) (l : List β) : (place compare b l).Perm (b :: l) := by
  induction l with
  | nil => exact List.Perm.refl _
  | cons c rest ih =>
    rw [place]
    split
    · exact (ih.cons c).trans (List.Perm.swap b c rest)
    · exact List.Perm.refl _

/-- Sorting rearranges. -/
theorem sortBy_perm (l : List β) : (sortBy compare l).Perm l := by
  induction l with
  | nil => exact List.Perm.refl _
  | cons b rest ih => exact (place_perm compare b _).trans (ih.cons b)

end SortBy

end SortedList

namespace SortedMap

section Pairs

variable {α β : Type} [Ord α] [Ord β]

instance transOrdPair [Std.TransOrd α] [Std.TransOrd β] : Std.TransOrd (α × β) :=
  inferInstanceAs (Std.TransCmp (compareLex (compareOn Prod.fst) (compareOn Prod.snd)))

instance lawfulEqOrdPair [Std.LawfulEqOrd α] [Std.LawfulEqOrd β] : Std.LawfulEqOrd (α × β) where
  eq_of_compare {p q} heq := by
    have hcompare : compare p q = (compare p.1 q.1).then (compare p.2 q.2) := rfl
    rw [hcompare, Ordering.then_eq_eq] at heq
    exact Prod.ext (Std.LawfulEqOrd.eq_of_compare heq.1) (Std.LawfulEqOrd.eq_of_compare heq.2)
  compare_self {p} := by
    have hcompare : compare p p = (compare p.1 p.1).then (compare p.2 p.2) := rfl
    rw [hcompare, Ordering.then_eq_eq]
    exact ⟨Std.ReflCmp.compare_self, Std.ReflCmp.compare_self⟩

end Pairs

variable {α β γ : Type} [Ord α]

/-- What an update does to the keys with a value of a sort, if the sort knows what the change does to
    it. -/
theorem exists_mem_update_iff [Std.LawfulEqOrd α] (sort : β → Prop) (change : Option β → β)
    (fresh : Prop) (hnew : sort (change none) ↔ fresh)
    (hold : ∀ value, sort (change (some value)) ↔ sort value ∨ fresh) (key : α) (map : List (α × β))
    (k : α) : (∃ value, (k, value) ∈ update key change map ∧ sort value) ↔
      (∃ value, (k, value) ∈ map ∧ sort value) ∨ k = key ∧ fresh := by
  -- The first entry counts by itself, so each case of the update is a matter of regrouping.
  have hcons : ∀ (k' : α) (value' : β) (rest : List (α × β)),
      (∃ value, (k, value) ∈ (k', value') :: rest ∧ sort value) ↔
        (k = k' ∧ sort value') ∨ ∃ value, (k, value) ∈ rest ∧ sort value := by
    intro k' value' rest
    simp only [List.mem_cons, Prod.mk.injEq, or_and_right, exists_or, and_assoc, exists_and_left,
      exists_eq_left]
  induction map with
  | nil =>
    simp only [update, List.mem_singleton, Prod.mk.injEq, and_assoc, exists_and_left, exists_eq_left,
      hnew, List.not_mem_nil, false_and, exists_false, false_or]
  | cons entry rest ih =>
    rcases entry with ⟨k', value'⟩
    rw [update]
    cases hcompare : compare key k' with
    | lt => rw [hcons, hnew, or_comm]
    | eq =>
      have hkey : key = k' := Std.LawfulEqOrd.eq_of_compare hcompare
      simp only [hcons, hold, hkey, and_or_left, or_assoc]
      exact or_congr_right or_comm
    | gt => simp only [hcons, ih, or_assoc]

theorem mem_keys_update {key k : α} {change : Option β → β} {map : List (α × β)}
    (hk : k ∈ (update key change map).map Prod.fst) : k = key ∨ k ∈ map.map Prod.fst := by
  induction map with
  | nil => exact Or.inl (List.mem_singleton.mp hk)
  | cons entry rest ih =>
    rcases entry with ⟨k', value'⟩
    rw [update] at hk
    cases hcompare : compare key k' with
    | lt =>
      rw [hcompare] at hk
      exact List.mem_cons.mp hk
    | eq =>
      rw [hcompare] at hk
      exact Or.inr hk
    | gt =>
      rw [hcompare] at hk
      rcases List.mem_cons.mp hk with rfl | hk
      · exact Or.inr List.mem_cons_self
      · exact (ih hk).imp_right (List.mem_cons_of_mem _)

theorem pairwise_update [Std.TransOrd α] (key : α) (change : Option β → β) {map : List (α × β)}
    (hmap : (map.map Prod.fst).Pairwise fun j k => compare j k = .lt) :
    ((update key change map).map Prod.fst).Pairwise fun j k => compare j k = .lt := by
  induction map with
  | nil => exact List.pairwise_singleton _ _
  | cons entry rest ih =>
    rcases entry with ⟨k', value'⟩
    have hrest := List.pairwise_cons.mp hmap
    rw [update]
    cases hcompare : compare key k' with
    | lt =>
      refine List.pairwise_cons.mpr ⟨fun k hk => ?_, hmap⟩
      rcases List.mem_cons.mp hk with rfl | hk
      · exact hcompare
      · exact Std.TransCmp.lt_trans hcompare (hrest.1 k hk)
    | eq => exact hmap
    | gt =>
      refine List.pairwise_cons.mpr ⟨fun k hk => ?_, ih hrest.2⟩
      rcases mem_keys_update hk with rfl | hk
      · exact Std.OrientedCmp.gt_iff_lt.mp hcompare
      · exact hrest.1 k hk

theorem forall_mem_update {sort : β → Prop} {key : α} {change : Option β → β} (hnew : sort (change none))
    (hold : ∀ value, sort value → sort (change (some value))) {map : List (α × β)}
    (hmap : ∀ entry ∈ map, sort entry.2) : ∀ entry ∈ update key change map, sort entry.2 := by
  induction map with
  | nil => exact fun entry hentry => List.mem_singleton.mp hentry ▸ hnew
  | cons entry rest ih =>
    rcases entry with ⟨k', value'⟩
    rw [List.forall_mem_cons] at hmap
    rw [update]
    cases compare key k' with
    | lt => exact List.forall_mem_cons.mpr ⟨hnew, List.forall_mem_cons.mpr hmap⟩
    | eq => exact List.forall_mem_cons.mpr ⟨hold value' hmap.1, hmap.2⟩
    | gt => exact List.forall_mem_cons.mpr ⟨hmap.1, ih hmap.2⟩

section Gather

variable {insert : γ → List γ → List γ} {entries : List (α × γ)}

/-- What is collected under which keys. -/
theorem exists_mem_gather_iff [Std.LawfulEqOrd α]
    (hinsert : ∀ x y values, y ∈ insert x values ↔ y ∈ values ∨ y = x) (key : α) (x : γ) :
    (∃ values, (key, values) ∈ gather insert entries ∧ x ∈ values) ↔ (key, x) ∈ entries := by
  have hfold : ∀ map : List (α × List γ),
      (∃ values, (key, values) ∈ entries.foldl
        (fun map entry => update entry.1 (fun values => insert entry.2 (values.getD [])) map) map ∧
          x ∈ values) ↔ (∃ values, (key, values) ∈ map ∧ x ∈ values) ∨ (key, x) ∈ entries := by
    induction entries with
    | nil => exact fun map => (or_iff_left List.not_mem_nil).symm
    | cons entry rest ih =>
      intro map
      rw [List.foldl_cons, ih, exists_mem_update_iff (x ∈ ·) _ (x = entry.2), List.mem_cons, or_assoc]
      · rw [← Prod.mk.injEq]
      · simp only [Option.getD_none, hinsert, List.not_mem_nil, false_or]
      · exact fun values => hinsert entry.2 x values
  refine (hfold []).trans ?_
  simp only [List.not_mem_nil, false_and, exists_false, false_or]

/-- Keys are in strictly ascending order. -/
theorem pairwise_gather [Std.TransOrd α] (insert : γ → List γ → List γ) (entries : List (α × γ)) :
    ((gather insert entries).map Prod.fst).Pairwise fun j k => compare j k = .lt := by
  refine List.foldlRecOn (motive := fun map : List (α × List γ) =>
    (map.map Prod.fst).Pairwise fun j k => compare j k = .lt) entries _ List.Pairwise.nil ?_
  exact fun map hmap entry _ => pairwise_update entry.1 _ hmap

theorem nodup_keys_gather [Std.TransOrd α] (insert : γ → List γ → List γ) (entries : List (α × γ)) :
    ((gather insert entries).map Prod.fst).Nodup :=
  (pairwise_gather insert entries).imp SortedList.ne_of_compare_lt

/-- What holds of single values and is kept by insertion holds of all that is collected. -/
theorem forall_mem_gather (sort : List γ → Prop) (hnew : ∀ x, sort (insert x []))
    (hinsert : ∀ x values, sort values → sort (insert x values)) :
    ∀ entry ∈ gather insert entries, sort entry.2 := by
  refine List.foldlRecOn (motive := fun map : List (α × List γ) => ∀ entry ∈ map, sort entry.2)
    entries _ (fun _ hentry => absurd hentry List.not_mem_nil) ?_
  exact fun map hmap entry _ =>
    forall_mem_update (hnew _) (fun values => hinsert _ values) hmap

theorem mem_iff_of_mem_gather [DecidableEq α] [Std.TransOrd α] [Std.LawfulEqOrd α]
    (hinsert : ∀ x y values, y ∈ insert x values ↔ y ∈ values ∨ y = x) {key : α} {values : List γ}
    (hmem : (key, values) ∈ gather insert entries) (x : γ) : x ∈ values ↔ (key, x) ∈ entries := by
  rw [← exists_mem_gather_iff hinsert]
  refine ⟨fun hx => ⟨values, hmem, hx⟩, fun hx => ?_⟩
  rcases hx with ⟨others, hothers, hx⟩
  have hnodup := nodup_keys_gather insert entries
  have heq := lookup_eq_some_of_mem hnodup hmem
  rw [lookup_eq_some_of_mem hnodup hothers, Option.some.injEq] at heq
  rw [← heq]
  exact hx

theorem pairwise_of_mem_gather [Ord γ] [Std.TransOrd γ] {entry : α × List γ}
    (hentry : entry ∈ gather SortedList.insert entries) :
    (entry.2.Pairwise fun x y => compare x y = .lt) ∧ entry.2 ≠ [] := by
  refine forall_mem_gather (fun values => (values.Pairwise fun x y => compare x y = .lt) ∧ values ≠ [])
    ?_ ?_ entry hentry
  · exact fun x => ⟨List.pairwise_singleton _ x, List.cons_ne_nil _ _⟩
  · intro x values hvalues
    rcases SortedList.exists_mem_insert x values with ⟨y, hy, _⟩
    exact ⟨SortedList.pairwise_insert hvalues.1, List.ne_nil_of_mem hy⟩

end Gather

end SortedMap

end Isolation
