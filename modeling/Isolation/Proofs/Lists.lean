import Mathlib.Data.List.Basic
import Mathlib.Data.List.Nodup
import Mathlib.Data.List.Perm.Basic

/-!
# Facts About Lists

Tables are kept as lists of pairs, places as positions in lists without repeats. What is needed of such
lists in several places, and is not part of the library, is collected here.

## Theorems

* `split_concat_cases`, `idxOf_lt_of_key_lt`: Where lists are split, and the order of their entries.
-/

namespace Isolation

variable {α β : Type}

theorem nodup_eraseDups [BEq α] [LawfulBEq α] (l : List α) : l.eraseDups.Nodup := by
  -- By induction on the length, since the rest is filtered before its own repeats are erased.
  induction hlength : l.length using Nat.strongRecOn generalizing l with
  | _ length ih =>
    cases l with
    | nil => exact List.nodup_nil
    | cons a rest =>
      rw [List.eraseDups_cons, List.nodup_cons, List.mem_eraseDups, List.mem_filter]
      refine ⟨fun hmem => ?_, ih _ ?_ _ rfl⟩
      · rw [beq_self_eq_true] at hmem
        exact Bool.false_ne_true hmem.2
      · rw [← hlength, List.length_cons]
        exact Nat.lt_succ_of_le (List.length_filter_le ..)

theorem getElem?_length_append (l rest : List α) (v : α) :
    (l ++ v :: rest)[l.length]? = some v := by
  rw [List.getElem?_append_right (Nat.le_refl _), Nat.sub_self, List.getElem?_cons_zero]

theorem getElem?_concat (l : List α) (v : α) (i : Nat) :
    (l ++ [v])[i]? = if i = l.length then some v else l[i]? := by
  rcases Nat.lt_trichotomy i l.length with hlt | rfl | hgt
  · rw [if_neg (Nat.ne_of_lt hlt), List.getElem?_append_left hlt]
  · rw [if_pos rfl, List.getElem?_concat_length]
  · rw [if_neg (Nat.ne_of_gt hgt), List.getElem?_eq_none (Nat.le_of_lt hgt), List.getElem?_eq_none]
    rwa [List.length_append, List.length_singleton]

theorem getElem?_concat_eq_some_iff (l : List α) (v w : α) (i : Nat) :
    (l ++ [v])[i]? = some w ↔ l[i]? = some w ∨ i = l.length ∧ v = w := by
  rw [getElem?_concat]
  by_cases hi : i = l.length
  · rw [if_pos hi, List.getElem?_eq_none (Nat.le_of_eq hi.symm), Option.some.injEq]
    simp only [hi, reduceCtorEq, true_and, false_or]
  · rw [if_neg hi]
    exact (or_iff_left fun hc => hi hc.1).symm

theorem eq_take_append_cons_drop {l : List α} {i : Nat} {a : α} (hget : l[i]? = some a) :
    l = l.take i ++ a :: l.drop (i + 1) := by
  rcases List.getElem?_eq_some_iff.mp hget with ⟨hlt, rfl⟩
  rw [List.getElem_cons_drop, List.take_append_drop]

/-- A list with one more entry is split at this entry or at an earlier one. -/
theorem split_concat_cases {l before after : List α} {a b : α} (hsplit : l ++ [a] = before ++ b :: after) :
    (before = l ∧ b = a) ∨ ∃ middle, l = before ++ b :: middle := by
  rcases List.eq_nil_or_concat after with rfl | ⟨middle, last, rfl⟩
  · rcases List.append_inj' hsplit rfl with ⟨rfl, hlast⟩
    exact .inl ⟨rfl, (List.singleton_inj.mp hlast).symm⟩
  · rw [List.concat_eq_append, ← List.cons_append, ← List.append_assoc] at hsplit
    exact .inr ⟨middle, (List.append_inj' hsplit rfl).1⟩

theorem getElem?_filterMap_of_isSome {f : α → Option β} {l : List α}
    (hsome : ∀ a ∈ l, (f a).isSome = true) (i : Nat) : (l.filterMap f)[i]? = l[i]?.bind f := by
  induction l generalizing i with
  | nil => rfl
  | cons a rest ih =>
    rw [List.forall_mem_cons] at hsome
    rcases Option.isSome_iff_exists.mp hsome.1 with ⟨b, hb⟩
    rw [List.filterMap_cons_some hb]
    cases i with
    | zero =>
      rw [List.getElem?_cons_zero, List.getElem?_cons_zero, Option.bind_some, hb]
    | succ i =>
      rw [List.getElem?_cons_succ, List.getElem?_cons_succ]
      exact ih hsome.2 i

theorem exists_eraseIdx_filterMap {f : α → Option β} {l : List α} {k : Nat}
    (hk : k < (l.filterMap f).length) : ∃ (n : Nat) (a : α), l[n]? = some a ∧ f a ≠ none ∧
      (l.filterMap f).eraseIdx k = (l.eraseIdx n).filterMap f := by
  induction l generalizing k with
  | nil => exact absurd hk (Nat.not_lt_zero k)
  | cons a rest ih =>
    cases hvalue : f a with
    | none =>
      rw [List.filterMap_cons_none hvalue] at hk ⊢
      rcases ih hk with ⟨n, b, hb, hsome, heq⟩
      refine ⟨n + 1, b, hb, hsome, ?_⟩
      rw [List.eraseIdx_cons_succ, List.filterMap_cons_none hvalue, heq]
    | some b =>
      rw [List.filterMap_cons_some hvalue] at hk ⊢
      cases k with
      | zero => exact ⟨0, a, rfl, hvalue ▸ Option.some_ne_none b, rfl⟩
      | succ k =>
        rcases ih (Nat.lt_of_succ_lt_succ hk) with ⟨n, c, hc, hsome, heq⟩
        refine ⟨n + 1, c, hc, hsome, ?_⟩
        rw [List.eraseIdx_cons_succ, List.eraseIdx_cons_succ, List.filterMap_cons_some hvalue, heq]

theorem filterMap_eraseIdx_of_eq_none {f : α → Option β} {l : List α} {n : Nat} {a : α}
    (ha : l[n]? = some a) (hnone : f a = none) : (l.eraseIdx n).filterMap f = l.filterMap f := by
  rw [List.eraseIdx_eq_take_drop_succ, List.filterMap_append]
  nth_rewrite 3 [eq_take_append_cons_drop ha]
  rw [List.filterMap_append, List.filterMap_cons_none hnone]

/-- To leave out an entry of a list in another order is to leave out an entry. -/
theorem exists_eraseIdx_perm {l l' : List α} (hperm : l.Perm l') {k : Nat} (hk : k < l.length) :
    ∃ k' < l'.length, (l.eraseIdx k).Perm (l'.eraseIdx k') := by
  have hmem : l[k] ∈ l' := hperm.mem_iff.mp (List.getElem_mem hk)
  rcases List.mem_iff_getElem?.mp hmem with ⟨k', hk'⟩
  refine ⟨k', (List.getElem?_eq_some_iff.mp hk').1, (List.perm_eraseIdx_of_getElem?_eq ?_).mpr hperm⟩
  rw [hk', List.getElem?_eq_getElem hk]

section Positions

variable [BEq α] [LawfulBEq α] {l : List α} {x y : α}

theorem idxOf_eq_of_getElem? (hnodup : l.Nodup) {i : Nat} (hx : l[i]? = some x) : l.idxOf x = i := by
  rcases List.getElem?_eq_some_iff.mp hx with ⟨hi, rfl⟩
  exact hnodup.idxOf_getElem i hi

/-- What stands before an entry of a list without repeats has the smaller positions. -/
theorem mem_prefix_iff_idxOf_lt {before after : List α} (hnodup : l.Nodup)
    (hl : l = before ++ x :: after) (y : α) : y ∈ before ↔ l.idxOf y < l.idxOf x := by
  have hidx : l.idxOf x = before.length :=
    idxOf_eq_of_getElem? hnodup (by rw [hl, getElem?_length_append])
  have hpre : before <+: l := ⟨x :: after, hl.symm⟩
  rw [hidx]
  exact hpre.mem_iff_idxOf_lt_length y

theorem pairwise_idxOf_lt (hnodup : l.Nodup) : l.Pairwise fun a b => l.idxOf a < l.idxOf b := by
  rw [List.pairwise_iff_getElem]
  intro i j hi hj hij
  rwa [hnodup.idxOf_getElem i hi, hnodup.idxOf_getElem j hj]

variable {key : α → Nat} (hsorted : l.Pairwise fun a b => key a ≤ key b)
include hsorted

theorem key_le_of_idxOf_lt (hy : y ∈ l) (hlt : l.idxOf x < l.idxOf y) : key x ≤ key y := by
  have hylt := List.idxOf_lt_length_of_mem hy
  have := List.pairwise_iff_getElem.mp hsorted (l.idxOf x) (l.idxOf y) (by omega) hylt hlt
  rwa [List.getElem_idxOf, List.getElem_idxOf] at this

theorem idxOf_lt_of_key_lt (hx : x ∈ l) (hlt : key x < key y) : l.idxOf x < l.idxOf y := by
  rcases Nat.lt_trichotomy (l.idxOf x) (l.idxOf y) with hxy | hxy | hxy
  · exact hxy
  · rw [List.idxOf_inj hx] at hxy
    rw [hxy] at hlt
    exact absurd hlt (Nat.lt_irrefl _)
  · have := key_le_of_idxOf_lt hsorted hx hxy
    omega

end Positions

section Tables

variable [DecidableEq α] {l : List (α × β)} {a : α} {b : β}

theorem mem_of_lookup_eq_some (hfound : l.lookup a = some b) : (a, b) ∈ l := by
  rcases List.lookup_eq_some_iff.mp hfound with ⟨before, after, rfl, _⟩
  exact List.mem_append_right _ List.mem_cons_self

omit [DecidableEq α] in
theorem lookup_eq_some_of_mem [BEq α] [LawfulBEq α] (hnodup : (l.map Prod.fst).Nodup) (hmem : (a, b) ∈ l) :
    l.lookup a = some b := by
  rcases List.append_of_mem hmem with ⟨before, after, rfl⟩
  refine List.lookup_eq_some_iff.mpr ⟨before, after, rfl, fun entry hentry => ?_⟩
  rw [List.map_append, List.nodup_append] at hnodup
  rw [bne_iff_ne]
  exact (hnodup.2.2 entry.1 (List.mem_map_of_mem hentry) a List.mem_cons_self).symm

theorem lookup_zip_eq_some_iff {keys : List α} {values : List β} (hnodup : keys.Nodup)
    (hlength : keys.length ≤ values.length) :
    (keys.zip values).lookup a = some b ↔ ∃ n : Nat, keys[n]? = some a ∧ values[n]? = some b := by
  rw [← List.map_fst_zip hlength] at hnodup
  constructor
  · intro hfound
    rcases List.mem_iff_getElem?.mp (mem_of_lookup_eq_some hfound) with ⟨n, hn⟩
    exact ⟨n, List.getElem?_zip_eq_some.mp hn⟩
  · rintro ⟨n, hn⟩
    exact lookup_eq_some_of_mem hnodup (List.mem_of_getElem? (List.getElem?_zip_eq_some.mpr hn))

theorem filterMap_lookup_zip {keys : List α} {values : List β} (hnodup : keys.Nodup)
    (hlength : keys.length = values.length) :
    keys.filterMap (fun a => (keys.zip values).lookup a) = values := by
  induction keys generalizing values with
  | nil => exact (List.eq_nil_of_length_eq_zero hlength.symm).symm
  | cons a keys ih =>
    cases values with
    | nil => cases hlength
    | cons b values =>
      have hself : ((a :: keys).zip (b :: values)).lookup a = some b := List.lookup_cons_self
      simp only [List.filterMap_cons, hself]
      refine congrArg (b :: ·) ((List.filterMap_congr fun x hx => ?_).trans
        (ih (List.nodup_cons.mp hnodup).2 (Nat.succ.inj hlength)))
      have hne : x ≠ a := fun heq => (List.nodup_cons.mp hnodup).1 (heq ▸ hx)
      rw [List.zip_cons_cons, List.lookup_cons, beq_eq_false_iff_ne.mpr hne]

theorem lookup_filter_ne (l : List (α × β)) (v w : α) :
    (l.filter (·.1 ≠ v)).lookup w = if w = v then none else l.lookup w := by
  induction l with
  | nil => rw [List.filter_nil, List.lookup_nil, ite_self]
  | cons entry rest ih =>
    rcases entry with ⟨u, b⟩
    by_cases hu : u = v
    · rw [List.filter_cons_of_neg (by simp [hu]), ih, List.lookup_cons]
      by_cases hw : w = v
      · rw [if_pos hw, if_pos hw]
      · rw [if_neg hw, if_neg hw, hu, beq_eq_false_iff_ne.mpr hw]
    · rw [List.filter_cons_of_pos (by simp [hu]), List.lookup_cons, List.lookup_cons, ih]
      by_cases hw : w = u
      · have hne : w ≠ v := hw ▸ hu
        rw [if_neg hne, if_neg hne, beq_iff_eq.mpr hw]
      · rw [beq_eq_false_iff_ne.mpr hw]

end Tables

end Isolation
