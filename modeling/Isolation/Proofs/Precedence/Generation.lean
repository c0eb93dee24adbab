import Isolation.Proofs.History.Faults
import Isolation.Proofs.Precedence.Constraints
import Isolation.Proofs.Precedence.OfHistory

/-!
# The List of Constraints

If equal keys are the only ones that compare equal, sorting loses nothing, and the list of constraints is
determined by the history down to its order. It is strictly ascending, it has one constraint for every two
transactions with a key in common, and the sides of a constraint are the strictly ascending lists of the
edges that follow from either order.

Nothing is assumed about the reads of the history. A read counts for every transaction that stored its
value, whether or not that write was the last one of its key, and whether or not the history passes its
local checks. The writer of a value is the only one, since no value is stored twice under the same key.

## Main definitions

* `History.Implied`: The edges that follow if one transaction comes before another.

## Theorems

* `History.WellFormed.mem_side_iff`: A side consists of the edges that follow.
-/

namespace Isolation

/-! ### How identifiers, edges and constraints compare -/

instance : Std.TransOrd TransactionId :=
  inferInstanceAs (Std.TransCmp
    (compareLex (compareOn TransactionId.session) (compareOn TransactionId.height)))

instance : Std.LawfulEqOrd TransactionId where
  eq_of_compare := (compare_id_eq_iff _ _).mp

instance : Std.TransOrd EdgeKind :=
  inferInstanceAs (Std.TransCmp (compareOn EdgeKind.rank))

instance : Std.LawfulEqOrd EdgeKind where
  eq_of_compare := (compare_kind_eq_iff _ _).mp

theorem compare_id_lt_iff (a b : TransactionId) :
    compare a b = .lt ↔ a.session < b.session ∨ a.session = b.session ∧ a.height < b.height := by
  have hcompare : compare a b = (compare a.session b.session).then (compare a.height b.height) := rfl
  rw [hcompare, Ordering.then_eq_lt, Nat.compare_eq_lt, Nat.compare_eq_eq, Nat.compare_eq_lt]

variable {κ ν : Type}

section Comparison

/-- The two transactions of a constraint, the lower one first. -/
def Constraint.pair (c : Constraint κ) : TransactionId × TransactionId :=
  (c.first, c.second)

theorem Constraint.compare_pair (c d : Constraint κ) : compare c.pair d.pair =
    (compare c.first d.first).then (compare c.second d.second) :=
  rfl

variable [Ord κ]

instance [Std.TransOrd κ] : Std.TransOrd (SideEdge κ) :=
  inferInstanceAs (Std.TransCmp (compareLex (compareOn SideEdge.source)
    (compareLex (compareOn SideEdge.target)
      (compareLex (compareOn SideEdge.kind) (compareOn SideEdge.key)))))

instance [Std.TransOrd κ] [Std.LawfulEqOrd κ] : Std.LawfulEqOrd (SideEdge κ) where
  eq_of_compare {a b} heq := by
    rcases a with ⟨source, target, kind, key⟩
    rcases b with ⟨source', target', kind', key'⟩
    have hcompare : compare (⟨source, target, kind, key⟩ : SideEdge κ) ⟨source', target', kind', key'⟩ =
        (compare source source').then
          ((compare target target').then ((compare kind kind').then (compare key key'))) := rfl
    rw [hcompare, Ordering.then_eq_eq, Ordering.then_eq_eq, Ordering.then_eq_eq, compare_id_eq_iff,
      compare_id_eq_iff, compare_kind_eq_iff] at heq
    rw [heq.1, heq.2.1, heq.2.2.1, Std.LawfulEqOrd.eq_of_compare heq.2.2.2]

theorem Constraint.compare_lt_of_pair {c d : Constraint κ} (hlt : compare c.pair d.pair = .lt) :
    compare c d = .lt := by
  have hcompare : compare c d = (compare c.first d.first).then ((compare c.second d.second).then
      ((compare c.forward d.forward).then (compare c.backward d.backward))) := rfl
  rw [hcompare, ← Ordering.then_assoc, ← Constraint.compare_pair, hlt]
  rfl

variable [DecidableEq κ]

/-- The constraints of writers in their order are in their order themselves. -/
theorem pairwise_constraintsAmong {writers : List (Writer κ)}
    (hwriters : writers.Pairwise fun v w => compare v.id w.id = .lt) :
    (constraintsAmong writers).Pairwise fun c d => compare c.pair d.pair = .lt := by
  induction writers with
  | nil => exact List.Pairwise.nil
  | cons w rest ih =>
    rw [List.pairwise_cons] at hwriters
    unfold constraintsAmong
    refine List.pairwise_append.mpr ⟨?_, ih hwriters.2, ?_⟩
    · -- The constraints of one writer differ in the other one.
      refine List.pairwise_filterMap.mpr (hwriters.2.imp ?_)
      intro v v' hlt c hc d hd
      have hfirst : c.first = d.first := by rw [(ids_of_between? hc).1, (ids_of_between? hd).1]
      rw [Constraint.compare_pair, (compare_id_eq_iff _ _).mpr hfirst, (ids_of_between? hc).2,
        (ids_of_between? hd).2]
      exact hlt
    · -- Any other constraint begins with a later writer.
      intro c hc d hd
      rcases List.mem_filterMap.mp hc with ⟨second, _, hbetween⟩
      rcases (mem_constraintsAmong_iff rest d).mp hd with ⟨first, second', hsub, hbetween'⟩
      rw [Constraint.compare_pair, (ids_of_between? hbetween).1, (ids_of_between? hbetween').1,
        hwriters.1 first (hsub.subset List.mem_cons_self)]
      rfl

theorem mem_side_iff_exists_key [Std.TransOrd κ] [Std.LawfulEqOrd κ] (g : Precedence κ)
    (t u : Transaction κ ν) (e : SideEdge κ) :
    e ∈ Constraint.side (g.writer t) (g.writer u) ↔
      ∃ key, (t.writesKey key = true ∧ u.writesKey key = true) ∧
        (e = ⟨t.id, u.id, .writeWrite, key⟩ ∨
          ∃ reader, (reader ∈ g.readers key t.id ∧ reader ≠ u.id) ∧
            e = ⟨reader, u.id, .readWrite, key⟩) :=
  SortedList.mem_ofList_iff.trans (mem_flatMap_keyEdges_iff g t u e)

end Comparison

/-! ### Transactions and their readers -/

/-- A transaction reads a value that another one stores under the key. -/
def Transaction.ReadsFrom (r t : Transaction κ ν) (key : κ) : Prop :=
  ∃ e ∈ r.events, e.kind = .read ∧ e.key = key ∧
    ∃ f ∈ t.events, f.kind = .write ∧ f.key = key ∧ f.value = e.value

namespace History

variable {h : History κ ν}

/-- The transactions are listed in the order of their identifiers, the init transaction first. -/
theorem WellFormed.pairwise_transactions (hw : h.WellFormed) :
    h.transactions.Pairwise fun t u => compare t.id u.id = .lt := by
  refine List.pairwise_cons.mpr ⟨?_, List.pairwise_flatMap.mpr ⟨?_, ?_⟩⟩
  · intro t ht
    rcases (h.mem_clientTransactions_iff t).mp ht with ⟨index, height, hlook⟩
    rw [compare_id_lt_iff, hw.init_id, hw.transaction_id _ t hlook]
    exact Or.inl (Nat.succ_pos index)
  · intro s hs
    rcases List.mem_iff_getElem?.mp hs with ⟨index, hindex⟩
    rw [List.pairwise_iff_getElem]
    intro i j hi hj hij
    rw [compare_id_lt_iff, hw.id_of_mem_session hindex (List.getElem?_eq_getElem hi),
      hw.id_of_mem_session hindex (List.getElem?_eq_getElem hj)]
    exact Or.inr ⟨rfl, hij⟩
  · rw [List.pairwise_iff_getElem]
    intro i j hi hj hij t ht u hu
    rcases List.mem_iff_getElem?.mp ht with ⟨k, hk⟩
    rcases List.mem_iff_getElem?.mp hu with ⟨l, hl⟩
    rw [compare_id_lt_iff, hw.id_of_mem_session (List.getElem?_eq_getElem hi) hk,
      hw.id_of_mem_session (List.getElem?_eq_getElem hj) hl]
    exact Or.inl (Nat.succ_lt_succ hij)

theorem WellFormed.pair_sublist_iff (hw : h.WellFormed) {t u : Transaction κ ν}
    (ht : t ∈ h.transactions) (hu : u ∈ h.transactions) :
    [t, u].Sublist h.transactions ↔ compare t.id u.id = .lt := by
  have hlt : ∀ {a b : Transaction κ ν}, [a, b].Sublist h.transactions →
      compare a.id b.id = .lt := by
    intro a b hsub
    exact (List.pairwise_cons.mp (hw.pairwise_transactions.sublist hsub)).1 b
      (List.mem_singleton_self b)
  refine ⟨hlt, ?_⟩
  intro hlow
  have hne : t ≠ u := by
    intro heq
    rw [heq, (compare_id_eq_iff _ _).mpr rfl] at hlow
    exact absurd hlow (by decide)
  rcases pair_sublist ht hu hne with hsub | hsub
  · exact hsub
  · have hhigh := Std.OrientedCmp.gt_of_lt (hlt hsub)
    rw [hlow] at hhigh
    exact absurd hhigh (by decide)

variable [DecidableEq κ]

/-- The edges that follow if one transaction comes before another: one between the two for every key that
    both write, and one from everybody else who reads such a key from the first. -/
inductive Implied (h : History κ ν) (t u : Transaction κ ν) : SideEdge κ → Prop where
  | write {key : κ} (first : t.writesKey key = true) (second : u.writesKey key = true) :
      Implied h t u ⟨t.id, u.id, .writeWrite, key⟩
  | read {key : κ} (first : t.writesKey key = true) (second : u.writesKey key = true)
      {r : Transaction κ ν} (mem : r ∈ h.transactions) (ne_first : r.id ≠ t.id)
      (ne_second : r.id ≠ u.id) (reads : r.ReadsFrom t key) :
      Implied h t u ⟨r.id, u.id, .readWrite, key⟩

variable [DecidableEq ν]

/-- The readers of a transaction are all others that read a value it stores. -/
theorem WellFormed.mem_readers_iff (hw : h.WellFormed) {t : Transaction κ ν} (ht : t ∈ h.transactions)
    (key : κ) (reader : TransactionId) : reader ∈ (Precedence.ofHistory h).readers key t.id ↔
      ∃ r ∈ h.transactions, r.id = reader ∧ r.id ≠ t.id ∧ r.ReadsFrom t key := by
  simp only [Precedence.readers, List.mem_eraseDups, List.mem_map, List.mem_filter, Bool.and_eq_true,
    decide_eq_true_eq, (Precedence.ofHistory_spec h .init .init).2.1, List.mem_flatMap,
    Precedence.readsOf, List.mem_filterMap, Option.bind_eq_some_iff, Option.ite_none_left_eq_some,
    Option.some.injEq, Transaction.reads, Event.isRead, beq_iff_eq]
  constructor
  · intro hmem
    rcases hmem with ⟨_, ⟨⟨r, hr, e, ⟨he, hread⟩, write, hwriter, hother, rfl⟩, hid, hkey⟩, rfl⟩
    -- The write is found in the transaction itself, since the identifiers agree.
    rcases (hw.writerOf?_eq_some_iff e.key e.value write).mp hwriter with ⟨f, hf, hwrites⟩
    rcases write with ⟨id, index⟩
    simp only at hid hkey hother
    rw [hid, event?_mk, hw.lookup_id ht, Option.bind_some] at hf
    rcases (writes_iff e.key e.value f).mp hwrites with ⟨hwrite, hfkey, hvalue⟩
    rw [Event.isWrite, beq_iff_eq] at hwrite
    refine ⟨r, hr, rfl, ?_, e, he, hread, hkey, f, List.mem_of_getElem? hf, hwrite, ?_, hvalue⟩
    · rw [← hid]
      exact fun hc => hother hc.symm
    · rw [hfkey, hkey]
  · intro hreads
    rcases hreads with ⟨r, hr, rfl, hne, e, he, hread, hkey, f, hf, hwrite, hfkey, hvalue⟩
    rcases List.mem_iff_getElem?.mp hf with ⟨index, hindex⟩
    have hwriter : h.writerOf? e.key e.value = some ⟨t.id, index⟩ := by
      refine (hw.writerOf?_eq_some_iff e.key e.value _).mpr ⟨f, ?_, ?_⟩
      · rw [event?_mk, hw.lookup_id ht, Option.bind_some, hindex]
      · refine (writes_iff e.key e.value f).mpr ⟨?_, hfkey.trans hkey.symm, hvalue⟩
        rw [Event.isWrite, hwrite]
        rfl
    exact ⟨⟨e.key, t.id, r.id⟩,
      ⟨⟨r, hr, e, ⟨he, hread⟩, ⟨t.id, index⟩, hwriter, hne.symm, rfl⟩, rfl, hkey⟩, rfl⟩

variable [Ord κ] [Std.TransOrd κ] [Std.LawfulEqOrd κ]

/-- A side consists of the edges that follow. -/
theorem WellFormed.mem_side_iff (hw : h.WellFormed) {t u : Transaction κ ν} (ht : t ∈ h.transactions)
    (e : SideEdge κ) : e ∈ Constraint.side ((Precedence.ofHistory h).writer t)
      ((Precedence.ofHistory h).writer u) ↔ h.Implied t u e := by
  simp only [mem_side_iff_exists_key, hw.mem_readers_iff ht]
  constructor
  · intro hedge
    rcases hedge with ⟨key, ⟨hfirst, hsecond⟩, rfl | ⟨_, ⟨⟨r, hr, rfl, hne, hreads⟩, hne'⟩, rfl⟩⟩
    · exact Implied.write hfirst hsecond
    · exact Implied.read hfirst hsecond hr hne hne' hreads
  · intro himplied
    cases himplied with
    | @write key hfirst hsecond => exact ⟨key, ⟨hfirst, hsecond⟩, Or.inl rfl⟩
    | @read key hfirst hsecond r hr hne hne' hreads =>
      exact ⟨key, ⟨hfirst, hsecond⟩, Or.inr ⟨r.id, ⟨⟨r, hr, rfl, hne, hreads⟩, hne'⟩, rfl⟩⟩

omit [DecidableEq ν] [Ord κ] [Std.TransOrd κ] [Std.LawfulEqOrd κ] in
theorem Implied.ends_ne {t u : Transaction κ ν} (hne : t.id ≠ u.id) {e : SideEdge κ}
    (himplied : h.Implied t u e) : e.source ≠ e.target := by
  cases himplied with
  | write _ _ => exact hne
  | read _ _ _ _ ne_second _ => exact ne_second

end History

end Isolation
