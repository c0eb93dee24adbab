import Isolation.Sat.Engine
import Mathlib

/-!
# Valuations That Satisfy Clauses

Clauses are satisfied or not by the values of the variables that occur in them. If these variables are
bounded, there are finitely many cases, and clauses can be measured by how many valuations satisfy them.
A clause that is violated by one of these valuations makes the measure smaller.

## Main definitions

* `models`: The valuations of finitely many variables that satisfy clauses.

## Theorems

* `Engine.Complete.explaining`, `Engine.Explaining.refuting`: Cores that consist of assumptions are right
  up to sign, and then refutations are right.
-/

namespace Isolation.Sat

theorem Literal.holds_negate (valuation : Valuation) (l : Literal) :
    l.negate.holds valuation = !l.holds valuation := by
  simp only [Literal.holds, Literal.negate]
  cases valuation l.index <;> cases l.positive <;> decide

theorem Clause.holds_map_negate_iff (valuation : Valuation) (literals : List Literal) :
    Clause.holds valuation (literals.map Literal.negate) = true ↔
      ∃ l ∈ literals, l.holds valuation = false := by
  simp only [Clause.holds, List.any_map, List.any_eq_true, Function.comp_apply, Literal.holds_negate,
    Bool.not_eq_true']

theorem Clause.holds_congr {clause : Clause} {valuation other : Valuation}
    (hsame : ∀ l ∈ clause, valuation l.index = other l.index) :
    Clause.holds valuation clause = Clause.holds other clause := by
  induction clause with
  | nil => rfl
  | cons l clause ih =>
    rw [Clause.holds, Clause.holds, List.any_cons, List.any_cons, Literal.holds, Literal.holds,
      hsame l List.mem_cons_self]
    exact congrArg _ (ih fun l hl => hsame l (List.mem_cons_of_mem _ hl))

section Models

variable {count : Nat}

/-- A valuation of the first variables, with the others false. -/
def extend (values : Fin count → Bool) : Valuation := fun index =>
  if h : index < count then values ⟨index, h⟩ else false

/-- The valuations of the first variables that satisfy the clauses. -/
def models (count : Nat) (clauses : List Clause) : Finset (Fin count → Bool) :=
  Finset.univ.filter fun values => ∀ clause ∈ clauses, Clause.holds (extend values) clause = true

theorem mem_models_iff {clauses : List Clause} {values : Fin count → Bool} :
    values ∈ models count clauses ↔
      ∀ clause ∈ clauses, Clause.holds (extend values) clause = true := by
  rw [models, Finset.mem_filter]
  exact and_iff_right (Finset.mem_univ _)

theorem card_models_le (clauses : List Clause) : (models count clauses).card ≤ 2 ^ count := by
  calc (models count clauses).card
      ≤ Fintype.card (Fin count → Bool) := Finset.card_le_univ _
    _ = 2 ^ count := by rw [Fintype.card_fun, Fintype.card_bool, Fintype.card_fin]

theorem holds_extend {clause : Clause} (hbound : ∀ l ∈ clause, l.index < count)
    (valuation : Valuation) :
    Clause.holds (extend fun i : Fin count => valuation i) clause = Clause.holds valuation clause := by
  refine Clause.holds_congr (fun l hl => ?_)
  simp only [extend, hbound l hl, dif_pos]

/-- Clauses that a valuation satisfies lose it to one that it violates. -/
theorem card_models_lt {clauses : List Clause} {violated : Clause} {valuation : Valuation}
    (hbound : ∀ clause ∈ violated :: clauses, ∀ l ∈ clause, l.index < count)
    (hclauses : ∀ clause ∈ clauses, Clause.holds valuation clause = true)
    (hviolated : Clause.holds valuation violated = false) :
    (models count (violated :: clauses)).card < (models count clauses).card := by
  refine Finset.card_lt_card (Finset.ssubset_iff_of_subset ?_ |>.mpr ?_)
  · intro values hvalues
    rw [mem_models_iff] at hvalues ⊢
    exact fun clause hclause => hvalues clause (List.mem_cons_of_mem _ hclause)
  · refine ⟨fun i => valuation i, mem_models_iff.mpr fun clause hclause => ?_, fun hc => ?_⟩
    · rw [holds_extend (hbound clause (List.mem_cons_of_mem _ hclause))]
      exact hclauses clause hclause
    · have hholds := mem_models_iff.mp hc violated List.mem_cons_self
      rw [holds_extend (hbound violated List.mem_cons_self), hviolated] at hholds
      exact absurd hholds (by decide)

end Models

/-- Refutations are right: no valuation satisfies the clauses and the assumptions. -/
def Engine.Refuting (engine : Engine) : Prop :=
  ∀ clauses assumptions core, engine.solve clauses assumptions = .refuted core →
    ∀ valuation, (∀ clause ∈ clauses, Clause.holds valuation clause = true) →
      ∃ l ∈ assumptions, l.holds valuation = false

/-- Cores are right up to sign: no valuation satisfies the clauses and the assumptions that a core names,
    whether it names them or their negations. -/
def Engine.Explaining (engine : Engine) : Prop :=
  ∀ clauses assumptions core, engine.solve clauses assumptions = .refuted core →
    ∀ valuation, (∀ clause ∈ clauses, Clause.holds valuation clause = true) →
      ∃ l ∈ assumptions, (l ∈ core ∨ l.negate ∈ core) ∧ l.holds valuation = false

theorem Engine.Complete.explaining {engine : Engine} (hcomplete : engine.Complete) :
    engine.Explaining := by
  intro clauses assumptions core hrefuted valuation hclauses
  rcases hcomplete clauses assumptions core hrefuted with ⟨hsub, hcore⟩
  rcases hcore valuation hclauses with ⟨l, hl, hfalse⟩
  exact ⟨l, hsub l hl, Or.inl hl, hfalse⟩

theorem Engine.Explaining.refuting {engine : Engine} (hexplaining : engine.Explaining) :
    engine.Refuting := by
  intro clauses assumptions core hrefuted valuation hclauses
  rcases hexplaining clauses assumptions core hrefuted valuation hclauses with ⟨l, hl, _, hfalse⟩
  exact ⟨l, hl, hfalse⟩

theorem Engine.Complete.refuting {engine : Engine} (hcomplete : engine.Complete) : engine.Refuting :=
  hcomplete.explaining.refuting

end Isolation.Sat
