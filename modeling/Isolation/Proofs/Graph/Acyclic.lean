import Isolation.Proofs.Graph.Edges

/-!
# Relations Without Cycles

What an audit decides is whether a relation between transactions has a cycle. The relation is compared
with others all the time: with the one that a graph of numbers stands for, with a smaller one that
reaches as far, with one that has more edges. The lemmas here are about such comparisons.

## Main definitions

* `Acyclic`: No path leads back to where it began.

## Theorems

* `Names.acyclic_iff`: Numbers and names have the same cycles.
-/

namespace Isolation

open Relation

variable {α : Type}

/-- No path leads back to where it began. -/
def Acyclic (R : α → α → Prop) : Prop :=
  ∀ a, ¬ TransGen R a a

namespace Acyclic

variable {R S : α → α → Prop}

theorem of_paths (hS : Acyclic S) (hpath : ∀ a b, R a b → TransGen S a b) : Acyclic R := by
  intro a hcycle
  exact hS a (TransGen.closed hpath a a hcycle)

theorem mono (hS : Acyclic S) (hsub : ∀ a b, R a b → S a b) : Acyclic R :=
  hS.of_paths fun a b hab => TransGen.single (hsub a b hab)

theorem rank_lt_of_path {rank : α → Nat} (hlt : ∀ a b, R a b → rank a < rank b) {a b : α}
    (hab : TransGen R a b) : rank a < rank b := by
  induction hab with
  | single hab => exact hlt _ _ hab
  | tail _ hbc ih => exact Nat.lt_trans ih (hlt _ _ hbc)

theorem of_rank (rank : α → Nat) (hlt : ∀ a b, R a b → rank a < rank b) : Acyclic R :=
  fun _ hcycle => Nat.lt_irrefl _ (rank_lt_of_path hlt hcycle)

/-- Among finitely many things, one has none of the others before it. -/
theorem exists_source (hR : Acyclic R) {l : List α} (hne : l ≠ []) :
    ∃ a ∈ l, ∀ b ∈ l, ¬ R b a := by
  let before : { a // a ∈ l } → { a // a ∈ l } → Prop := fun a b => TransGen R a.1 b.1
  have htrans : IsTrans _ before := ⟨fun _ _ _ hab hbc => hab.trans hbc⟩
  have hirrefl : Std.Irrefl before := ⟨fun a => hR a.1⟩
  have hfinite : Finite { a // a ∈ l } := l.finite_toSet
  have hwf : WellFounded before := Finite.wellFounded_of_trans_of_irrefl before
  rcases List.exists_mem_of_ne_nil l hne with ⟨x, hx⟩
  rcases hwf.has_min Set.univ ⟨⟨x, hx⟩, trivial⟩ with ⟨a, _, hmin⟩
  refine ⟨a.1, a.2, fun b hb hab => ?_⟩
  exact hmin ⟨b, hb⟩ trivial (TransGen.single hab)

end Acyclic

namespace TaggedGraph

/-- The edges of a graph stand for pairs of named things; the names are listed in the order of the
    numbers. -/
structure Names (g : TaggedGraph) (names : List α) (R : α → α → Prop) : Prop where
  nodup : names.Nodup
  edge_iff : ∀ i j, g.Edge i j ↔ ∃ a b, names[i]? = some a ∧ names[j]? = some b ∧ R a b
  mem : ∀ {a b}, R a b → a ∈ names ∧ b ∈ names

namespace Names

variable {g : TaggedGraph} {names : List α} {R : α → α → Prop}

/-- Between the numbers of two names there is an edge exactly if the names are related. -/
theorem edge_between_iff (hnames : g.Names names R) {i j : Nat} {a b : α} (ha : names[i]? = some a)
    (hb : names[j]? = some b) : g.Edge i j ↔ R a b := by
  rw [hnames.edge_iff]
  constructor
  · rintro ⟨a', b', ha', hb', hab⟩
    rw [ha, Option.some.injEq] at ha'
    rw [hb, Option.some.injEq] at hb'
    rw [ha', hb']
    exact hab
  · intro hab
    exact ⟨a, b, ha, hb, hab⟩

theorem path_iff (hnames : g.Names names R) (i j : Nat) :
    TransGen g.Edge i j ↔
      ∃ a b, names[i]? = some a ∧ names[j]? = some b ∧ TransGen R a b := by
  constructor
  · intro hpath
    induction hpath with
    | single hedge =>
      rcases (hnames.edge_iff _ _).mp hedge with ⟨a, b, ha, hb, hab⟩
      exact ⟨a, b, ha, hb, TransGen.single hab⟩
    | tail _ hedge ih =>
      rcases ih with ⟨a, b, ha, hb, hab⟩
      rcases (hnames.edge_iff _ _).mp hedge with ⟨b', c, hb', hc, hbc⟩
      rw [hb, Option.some.injEq] at hb'
      exact ⟨a, c, ha, hc, hab.tail (hb' ▸ hbc)⟩
  · rintro ⟨a, b, ha, hb, hpath⟩
    induction hpath generalizing j with
    | single hab => exact TransGen.single ((hnames.edge_iff i j).mpr ⟨a, _, ha, hb, hab⟩)
    | tail _ hbc ih =>
      rcases List.mem_iff_getElem?.mp (hnames.mem hbc).1 with ⟨k, hk⟩
      exact (ih k hk).tail ((hnames.edge_iff k j).mpr ⟨_, _, hk, hb, hbc⟩)

/-- Some numbers of two names are joined by a path exactly if the names are. -/
theorem exists_path_iff (hnames : g.Names names R) (a b : α) :
    (∃ i j, names[i]? = some a ∧ names[j]? = some b ∧ TransGen g.Edge i j) ↔ TransGen R a b := by
  constructor
  · rintro ⟨i, j, ha, hb, hpath⟩
    rcases (hnames.path_iff i j).mp hpath with ⟨a', b', ha', hb', hab⟩
    rw [ha, Option.some.injEq] at ha'
    rw [hb, Option.some.injEq] at hb'
    rw [ha', hb']
    exact hab
  · intro hpath
    rcases TransGen.head'_iff.mp hpath with ⟨_, hfirst, _⟩
    rcases TransGen.tail'_iff.mp hpath with ⟨_, _, hlast⟩
    rcases List.mem_iff_getElem?.mp (hnames.mem hfirst).1 with ⟨i, hi⟩
    rcases List.mem_iff_getElem?.mp (hnames.mem hlast).2 with ⟨j, hj⟩
    exact ⟨i, j, hi, hj, (hnames.path_iff i j).mpr ⟨a, b, hi, hj, hpath⟩⟩

/-- Numbers and names have the same cycles. -/
theorem acyclic_iff (hnames : g.Names names R) : Acyclic g.Edge ↔ Acyclic R := by
  constructor
  · intro hacyclic a hcycle
    rcases TransGen.head'_iff.mp hcycle with ⟨b, hab, _⟩
    rcases List.mem_iff_getElem?.mp (hnames.mem hab).1 with ⟨i, hi⟩
    exact hacyclic i ((hnames.path_iff i i).mpr ⟨a, a, hi, hi, hcycle⟩)
  · intro hacyclic i hcycle
    rcases (hnames.path_iff i i).mp hcycle with ⟨a, b, ha, hb, hab⟩
    rw [ha, Option.some.injEq] at hb
    exact hacyclic a (by rw [← hb] at hab; exact hab)

end Names

end TaggedGraph

end Isolation
