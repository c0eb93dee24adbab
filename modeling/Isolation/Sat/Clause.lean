/-!
# Clauses

Boolean variables are numbered from zero. A literal is a variable or its negation, a clause is a list
of literals of which at least one has to hold.

## Main definitions

* `Literal`, `Clause`, `Valuation`: Literals, clauses, and truth values for variables.
-/

namespace Isolation.Sat

/-- Truth values for variables. -/
abbrev Valuation : Type := Nat → Bool

/-- A variable or its negation. -/
structure Literal where
  index : Nat
  positive : Bool
deriving DecidableEq, Repr

namespace Literal

def negate (l : Literal) : Literal :=
  { l with positive := !l.positive }

def holds (valuation : Valuation) (l : Literal) : Bool :=
  valuation l.index == l.positive

end Literal

/-- A list of literals of which one has to hold. -/
abbrev Clause : Type := List Literal

def Clause.holds (valuation : Valuation) (clause : Clause) : Bool :=
  clause.any (Literal.holds valuation)

end Isolation.Sat
