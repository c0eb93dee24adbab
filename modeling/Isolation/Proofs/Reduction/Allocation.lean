import Isolation.Proofs.Reduction.Halves

/-!
# Giving Out Conflict Keys

The pairs that have a conflict key are listed once and for all, and the number of a key is the place of its
pair. The same numbers come about if nothing is listed in advance. Go through the transactions in their order,
let each of them ask for the keys of the pairs that it forms with its partners, both ways, and give a pair the
next number when it is asked for the first time.

What has been given out when some transactions have had their turn is a front part of the list: the pairs with
one of them among the two. The partners of the next transaction fall into those that have had their turn, whose
pairs are there already, and those that have not, whose pairs are new and come next in the list.

## Main definitions

* `History.askFor`: A transaction asks for the conflict keys that it shares with a partner.

## Theorems

* `slotTable_eq_conflictSlots`: On demand, the pairs get the numbers that they have in the list.
-/

namespace Isolation.History

variable {κ ν : Type} [DecidableEq κ] {table : List (TransactionId × TransactionId)}

section Asking

/-- The pairs that have a number, with this one among them. The number of a pair is its place, and a pair that
    has none gets the next one. -/
def withPair (table : List (TransactionId × TransactionId)) (pair : TransactionId × TransactionId) :
    List (TransactionId × TransactionId) :=
  if pair ∈ table then table else table ++ [pair]

/-- A transaction asks for the conflict key that it has against a partner, and for that of the partner. -/
def askFor (id : TransactionId) (table : List (TransactionId × TransactionId)) (other : TransactionId) :
    List (TransactionId × TransactionId) :=
  withPair (withPair table (id, other)) (other, id)

theorem foldl_askFor_of_mem {id : TransactionId} {others : List TransactionId}
    (hmem : ∀ other ∈ others, (id, other) ∈ table ∧ (other, id) ∈ table) :
    others.foldl (askFor id) table = table := by
  induction others with
  | nil => rfl
  | cons other rest ih =>
    rw [List.forall_mem_cons] at hmem
    have hknown : askFor id table other = table := by
      unfold askFor withPair
      rw [if_pos hmem.1.1, if_pos hmem.1.2]
    rw [List.foldl_cons, hknown]
    exact ih hmem.2

theorem foldl_askFor_of_not_mem {id : TransactionId} {others : List TransactionId}
    (hnodup : (id :: others).Nodup) (hnew : ∀ other ∈ others, (id, other) ∉ table ∧ (other, id) ∉ table) :
    others.foldl (askFor id) table = table ++ others.flatMap fun other => [(id, other), (other, id)] := by
  induction others generalizing table with
  | nil => exact (List.append_nil table).symm
  | cons other rest ih =>
    rw [List.forall_mem_cons] at hnew
    simp only [List.nodup_cons, List.mem_cons, not_or] at hnodup
    rcases hnodup with ⟨⟨hne, hnot⟩, hother, hrest⟩
    have hasked : askFor id table other = table ++ [(id, other), (other, id)] := by
      have hback : (other, id) ∉ table ++ [(id, other)] := by
        rw [List.mem_append, List.mem_singleton, Prod.mk.injEq]
        exact fun hc => hc.elim hnew.1.2 fun hsame => hne hsame.2
      unfold askFor withPair
      rw [if_neg hnew.1.1, if_neg hback, List.append_assoc]
      rfl
    rw [List.foldl_cons, hasked, ih (List.nodup_cons.mpr ⟨hnot, hrest⟩) fun u hu => ?_,
      List.append_assoc, List.flatMap_cons]
    -- The pairs with this partner are not those with a later one.
    have hsame : u ≠ other := fun hc => hother (hc ▸ hu)
    simp only [List.mem_append, List.mem_cons, List.not_mem_nil, or_false, Prod.mk.injEq, not_or]
    exact ⟨⟨(hnew.2 u hu).1, fun hc => hsame hc.2, fun hc => hne hc.1⟩, (hnew.2 u hu).2,
      fun hc => hne hc.2, fun hc => hsame hc.1⟩

theorem nodup_withPair (hnodup : table.Nodup) (pair : TransactionId × TransactionId) :
    (withPair table pair).Nodup := by
  unfold withPair
  by_cases hmem : pair ∈ table
  · rwa [if_pos hmem]
  · rw [if_neg hmem, ← List.concat_eq_append]
    exact hnodup.concat hmem

end Asking

/-- The other transactions that write a common key, in their order. -/
def partners (ts : List (Transaction κ ν)) (t : Transaction κ ν) : List TransactionId :=
  (ts.filter fun u => u.id ≠ t.id && shareKey t u).map Transaction.id

/-- The pairs in the order in which the transactions ask for them. -/
def slotTable (h : History κ ν) : List (TransactionId × TransactionId) :=
  h.clientTransactions.foldl
    (fun table t => (partners h.clientTransactions t).foldl (askFor t.id) table) []

theorem nodup_slotTable (h : History κ ν) : h.slotTable.Nodup := by
  refine List.foldlRecOn (motive := List.Nodup) _ _ List.nodup_nil fun table hnodup t _ => ?_
  refine List.foldlRecOn (motive := List.Nodup) _ _ hnodup fun table hnodup other _ => ?_
  exact nodup_withPair (nodup_withPair hnodup _) _

section Turns

/-- The pairs that one transaction forms with others, both ways. -/
def pairsWith (t : Transaction κ ν) (us : List (Transaction κ ν)) : List (TransactionId × TransactionId) :=
  (us.map Transaction.id).flatMap fun other => [(t.id, other), (other, t.id)]

/-- The pairs of transactions that have had their turn, with each other and with the rest. -/
def slotsBefore (rest : List (Transaction κ ν)) :
    List (Transaction κ ν) → List (TransactionId × TransactionId)
  | [] => []
  | t :: seen => pairsWith t ((seen ++ rest).filter (shareKey t)) ++ slotsBefore rest seen

theorem slotsAmong_cons (t : Transaction κ ν) (rest : List (Transaction κ ν)) :
    slotsAmong (t :: rest) = pairsWith t (rest.filter (shareKey t)) ++ slotsAmong rest := by
  rw [slotsAmong, pairsWith, List.flatMap_map]

theorem slotsBefore_nil (seen : List (Transaction κ ν)) : slotsBefore [] seen = slotsAmong seen := by
  induction seen with
  | nil => rfl
  | cons t seen ih => rw [slotsBefore, slotsAmong_cons, List.append_nil, ih]

theorem slotsBefore_concat (seen rest : List (Transaction κ ν)) (t : Transaction κ ν) :
    slotsBefore rest (seen ++ [t]) =
      slotsBefore (t :: rest) seen ++ pairsWith t (rest.filter (shareKey t)) := by
  induction seen with
  | nil => exact List.append_nil _
  | cons s seen ih =>
    rw [List.cons_append, slotsBefore, slotsBefore, ih, List.append_assoc, List.append_assoc]
    rfl

/-- A pair that has been given out has one of the transactions that have had their turn. -/
theorem mem_ids_of_mem_slotsBefore {seen rest : List (Transaction κ ν)} {a b : TransactionId}
    (hmem : (a, b) ∈ slotsBefore rest seen) :
    a ∈ seen.map Transaction.id ∨ b ∈ seen.map Transaction.id := by
  induction seen with
  | nil => exact absurd hmem List.not_mem_nil
  | cons s seen ih =>
    rw [List.map_cons, List.mem_cons, List.mem_cons]
    rcases List.mem_append.mp hmem with hpair | hbefore
    · rcases List.mem_flatMap.mp hpair with ⟨other, _, hboth⟩
      simp only [List.mem_cons, Prod.mk.injEq, List.not_mem_nil, or_false] at hboth
      rcases hboth with ⟨rfl, _⟩ | ⟨_, rfl⟩
      · exact .inl (.inl rfl)
      · exact .inr (.inl rfl)
    · exact (ih hbefore).imp .inr .inr

theorem mem_slotsBefore {seen rest : List (Transaction κ ν)} {s u : Transaction κ ν} (hs : s ∈ seen)
    (hu : u ∈ rest) (hshare : shareKey u s = true) :
    (u.id, s.id) ∈ slotsBefore rest seen ∧ (s.id, u.id) ∈ slotsBefore rest seen := by
  induction seen with
  | nil => exact absurd hs List.not_mem_nil
  | cons first seen ih =>
    rw [slotsBefore, List.mem_append, List.mem_append]
    rcases List.mem_cons.mp hs with rfl | hs
    · have hother : u.id ∈ ((seen ++ rest).filter (shareKey s)).map Transaction.id := by
        refine List.mem_map_of_mem (List.mem_filter.mpr ⟨List.mem_append_right _ hu, ?_⟩)
        exact (shareKey_iff s u).mpr ((shareKey_iff u s).mp hshare).symm
      constructor
      · exact .inl (List.mem_flatMap.mpr ⟨u.id, hother, List.mem_cons_of_mem _ (List.mem_singleton_self _)⟩)
      · exact .inl (List.mem_flatMap.mpr ⟨u.id, hother, List.mem_cons_self ..⟩)
    · exact (ih hs).imp .inr .inr

theorem partners_append (seen rest : List (Transaction κ ν)) (t : Transaction κ ν)
    (hnodup : ((seen ++ t :: rest).map Transaction.id).Nodup) :
    partners (seen ++ t :: rest) t =
      (seen.filter (shareKey t)).map Transaction.id ++ (rest.filter (shareKey t)).map Transaction.id := by
  rw [List.map_append, List.map_cons, List.nodup_append', List.nodup_cons] at hnodup
  rcases hnodup with ⟨_, ⟨hrest, _⟩, hseen⟩
  have hkeep : ∀ {us : List (Transaction κ ν)}, t.id ∉ us.map Transaction.id →
      (us.filter fun u => u.id ≠ t.id && shareKey t u) = us.filter (shareKey t) := by
    intro us hus
    refine List.filter_congr fun u hu => ?_
    have hne : u.id ≠ t.id := fun hc => hus (hc ▸ List.mem_map_of_mem hu)
    rw [decide_eq_true hne, Bool.true_and]
  have hself : (decide (t.id ≠ t.id) && shareKey t t) = false := by
    rw [decide_eq_false (not_not_intro rfl), Bool.false_and]
  rw [partners, List.filter_append, List.filter_cons_of_neg (by rw [hself]; exact Bool.false_ne_true),
    hkeep hrest, hkeep fun hc => hseen hc List.mem_cons_self, List.map_append]

/-- One transaction asks for the pairs with those behind it; the others are there. -/
theorem foldl_askFor_partners (seen rest : List (Transaction κ ν)) (t : Transaction κ ν)
    (hnodup : ((seen ++ t :: rest).map Transaction.id).Nodup) :
    (partners (seen ++ t :: rest) t).foldl (askFor t.id) (slotsBefore (t :: rest) seen) =
      slotsBefore rest (seen ++ [t]) := by
  have hpartners := partners_append seen rest t hnodup
  rw [List.map_append, List.map_cons, List.nodup_append'] at hnodup
  -- Whoever has had a turn has asked for the pair.
  have hearlier : ∀ other ∈ (seen.filter (shareKey t)).map Transaction.id,
      (t.id, other) ∈ slotsBefore (t :: rest) seen ∧ (other, t.id) ∈ slotsBefore (t :: rest) seen := by
    intro other hother
    rcases List.mem_map.mp hother with ⟨s, hs, rfl⟩
    exact mem_slotsBefore (List.mem_filter.mp hs).1 List.mem_cons_self (List.mem_filter.mp hs).2
  have hsublist : (t.id :: (rest.filter (shareKey t)).map Transaction.id).Sublist
      (t.id :: rest.map Transaction.id) := (List.filter_sublist.map _).cons_cons _
  -- Nobody behind the transaction has asked for anything yet.
  have hlater : ∀ other ∈ (rest.filter (shareKey t)).map Transaction.id,
      (t.id, other) ∉ slotsBefore (t :: rest) seen ∧ (other, t.id) ∉ slotsBefore (t :: rest) seen := by
    intro other hother
    have hself : t.id ∉ seen.map Transaction.id := fun hc => hnodup.2.2 hc List.mem_cons_self
    have hbehind : other ∉ seen.map Transaction.id := fun hc =>
      hnodup.2.2 hc (hsublist.subset (List.mem_cons_of_mem _ hother))
    exact ⟨fun hc => (mem_ids_of_mem_slotsBefore hc).elim hself hbehind,
      fun hc => (mem_ids_of_mem_slotsBefore hc).elim hbehind hself⟩
  rw [hpartners, List.foldl_append, foldl_askFor_of_mem hearlier,
    foldl_askFor_of_not_mem (hnodup.2.1.sublist hsublist) hlater, slotsBefore_concat, pairsWith]

theorem foldl_partners_eq_slotsAmong (seen rest : List (Transaction κ ν))
    (hnodup : ((seen ++ rest).map Transaction.id).Nodup) :
    rest.foldl (fun table t => (partners (seen ++ rest) t).foldl (askFor t.id) table)
      (slotsBefore rest seen) = slotsAmong (seen ++ rest) := by
  induction rest generalizing seen with
  | nil => rw [List.foldl_nil, slotsBefore_nil, List.append_nil]
  | cons t rest ih =>
    rw [List.foldl_cons, foldl_askFor_partners seen rest t hnodup, List.append_cons]
    rw [List.append_cons] at hnodup
    exact ih (seen ++ [t]) hnodup

end Turns

/-- On demand, the pairs get the numbers that they have in the list. -/
theorem WellFormed.slotTable_eq_conflictSlots {h : History κ ν} (hw : h.WellFormed) :
    h.slotTable = h.conflictSlots :=
  foldl_partners_eq_slotsAmong [] h.clientTransactions hw.nodup_clientIds

end Isolation.History
