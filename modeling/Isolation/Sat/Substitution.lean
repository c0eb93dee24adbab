import Isolation.Sat.Search

/-!
# The Engine of the Library

Clauses often say that two variables are equal, in pairs: one of them or the opposite of the other holds,
and the opposite of the one or the other. Before the engine searches through what the assumptions leave of
the clauses, it makes a guess: it puts one variable in the place of the other wherever neighbours say so,
which makes most of them trivial, and searches through the rest. A guess is looked at before it is given
as an answer. If it is wrong, or there is none, the engine searches through everything.

## Main definitions

* `guess`: Variables that may be true, if those that are equal to others are taken out.
* `searchEngine`: The guess if it is right, and the search otherwise.
-/

namespace Isolation.Sat

/-- The variables that neighbours say to be equal to literals: the two clauses are opposites, literal by
    literal. -/
def twins : List Residue → List (Nat × Literal)
  | ⟨[x, y], _⟩ :: next :: rest =>
    let others := twins (next :: rest)
    if next.literals = [x.negate, y.negate] then
      (y.index, if y.positive then x.negate else x) :: others
    else others
  | _ :: rest => twins rest
  | [] => []

/-- The literals that variables are equal to, by variable. -/
def twinTable (pairs : List (Nat × Literal)) : Array (Option Literal) :=
  let size := pairs.foldl (fun size pair => max size (pair.1 + 1)) 0
  pairs.foldl (fun table pair => table.setIfInBounds pair.1 (some pair.2)) (Array.replicate size none)

/-- The literal that is put in the place of a literal. -/
def image (table : Array (Option Literal)) (l : Literal) : Literal :=
  match table[l.index]?.join with
  | some twin => if l.positive then twin else twin.negate
  | none => l

/-- What is left of a clause when equals are put for equals. It disappears if it says nothing any more. -/
def Residue.substitute? (table : Array (Option Literal)) (residue : Residue) : Option Residue :=
  let literals := (residue.literals.map (image table)).eraseDups
  if literals.any fun l => literals.contains l.negate then none else some ⟨literals, 0⟩

/-- True variables that may satisfy what is left of the clauses. -/
def guess (residues : List Residue) : Nat :=
  let pairs := twins residues
  match search (residues.filterMap (Residue.substitute? (twinTable pairs))) with
  | .model truths =>
    pairs.foldl (fun set pair =>
      if pair.2.holds truths.testBit then set ||| bit pair.1 else set) truths
  | .reason _ => 0

def assumed (positive : Bool) (assumptions : List Literal) : Nat :=
  assumptions.foldl (fun set l => if l.positive == positive then set ||| bit l.index else set) 0

/-- What is left of a clause when some variables are true and some are false. -/
def residue? (truths falsehoods : Nat) (clause : Clause) : Option Residue :=
  if clause.any fun l => (if l.positive then truths else falsehoods).testBit l.index then none
  else
    some (clause.foldr (fun l residue =>
      if (if l.positive then falsehoods else truths).testBit l.index then
        { residue with reason := residue.reason ||| bit l.index }
      else { residue with literals := l :: residue.literals }) ⟨[], 0⟩)

/-- The engine that searches. Assumptions that contradict each other are a core by themselves. -/
def searchEngine : Engine where
  solve clauses assumptions :=
    let truths := assumed true assumptions
    let falsehoods := assumed false assumptions
    let clash := truths &&& falsehoods
    if clash ≠ 0 then .refuted (assumptions.filter fun l => clash.testBit l.index)
    else
      let residues := clauses.filterMap (residue? truths falsehoods)
      let guessed := truths ||| guess residues
      -- The guess is an answer only if it passes.
      if clauses.all (Clause.holds guessed.testBit) && assumptions.all (Literal.holds guessed.testBit) then
        .satisfied guessed.testBit
      else
        match search residues with
        | .model found =>
          let valuation := truths ||| found
          .satisfied valuation.testBit
        | .reason decided => .refuted (assumptions.filter fun l => decided.testBit l.index)

end Isolation.Sat
