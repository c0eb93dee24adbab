import Isolation.Sat.Clause

/-!
# Satisfiability Engines

An engine is asked whether some clauses can be satisfied under assumptions, which are literals that have
to hold for this question only. It answers with a valuation, or with a *core*: some of the assumptions
that cannot hold together, given the clauses. It may also fail.

Nothing in the library depends on how an engine works. What it has to guarantee is stated in `Sound`,
`Complete` and `Reliable`.

## Main definitions

* `Answer`, `Engine`: Engines and their answers.
* `Engine.Sound`, `Engine.Complete`, `Engine.Reliable`: What can be expected of an engine.
-/

namespace Isolation.Sat

/-- What an engine finds out. -/
inductive Answer where
  | satisfied (valuation : Valuation)
  | refuted (core : List Literal)
  | failed (message : String)

/-- Decides clauses under assumptions. -/
structure Engine where
  solve : List Clause → List Literal → Answer

namespace Engine

/-- Valuations that are given as answers satisfy the clauses and the assumptions. -/
def Sound (engine : Engine) : Prop :=
  ∀ clauses assumptions valuation, engine.solve clauses assumptions = .satisfied valuation →
    (∀ clause ∈ clauses, Clause.holds valuation clause = true) ∧
      ∀ l ∈ assumptions, l.holds valuation = true

/-- Cores that are given as answers consist of assumptions, and no valuation satisfies the clauses
    together with the core. -/
def Complete (engine : Engine) : Prop :=
  ∀ clauses assumptions core, engine.solve clauses assumptions = .refuted core →
    (∀ l ∈ core, l ∈ assumptions) ∧
      ∀ valuation, (∀ clause ∈ clauses, Clause.holds valuation clause = true) →
        ∃ l ∈ core, l.holds valuation = false

/-- The engine always finds an answer. -/
def Reliable (engine : Engine) : Prop :=
  ∀ clauses assumptions message, engine.solve clauses assumptions ≠ .failed message

end Engine

end Isolation.Sat
