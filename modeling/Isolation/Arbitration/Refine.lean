import Isolation.Arbitration.Basic
import Isolation.Graph.Descent
import Isolation.Sat.Engine

/-!
# Refinement

What has to be without cycles under a valuation is the *final graph*. It consists of the dependencies
that are there, with the anti-dependencies for serializability, or with every dependency followed by an
anti-dependency for snapshot isolation. The edges are put in one after the other, and the first one
between two transactions leaves its literals behind, as the *reason* of the edge.

That the final graph has no cycle is not said in clauses at the start. The engine is asked for a
valuation, the graph of the valuation is searched for a cycle, and if one is found, a clause is added which
says that the reasons of its edges do not all hold. Then the engine is asked again. A valuation
without cycles, or a refutation, ends the loop. Every valuation with a cycle is excluded by a clause of
its own making, so the number of valuations bounds the number of questions.

When all known edges are assumed, the search for cycles can take a shorter way. Edges that the known
edges imply are left out, and the thinned known graph stands in for them.

## Main definitions

* `Arbitration.modelGraph`, `Arbitration.cycleClause?`: The graph of a valuation, and what its cycle
  forbids.
* `Arbitration.refine`: Questions and clauses until there is an answer.
-/

namespace Isolation

open Isolation.Sat

/-- The consecutive pairs of a cycle, with the last vertex followed by the first. -/
def cyclePairs (cycle : List Nat) : List (Nat × Nat) :=
  cycle.zipIdx.filterMap fun (v, i) => cycle[(i + 1) % cycle.length]?.map fun w => (v, w)

def TaggedGraph.findCycle? (g : TaggedGraph) : Option (List Nat) :=
  Graph.findCycle? g.successors g.nodes g.nodes

/-- A graph with a reason for every edge. -/
structure ModelGraph where
  graph : TaggedGraph
  reasons : List ((Nat × Nat) × List Literal)

namespace ModelGraph

def empty (size : Nat) : ModelGraph := ⟨.empty size, []⟩

/-- Adds an edge with its reason. If the edge is there already, its old reason stays. -/
def add (m : ModelGraph) (step : Step) : ModelGraph :=
  if m.graph.hasEdge step.source step.target then m
  else ⟨m.graph.insert step.source step.target true,
    ((step.source, step.target), step.reason) :: m.reasons⟩

/-- The graph with the given edges; of several reasons for an edge the first one counts. -/
def ofSteps (size : Nat) (steps : List Step) : ModelGraph :=
  steps.foldl add (empty size)

def reason (m : ModelGraph) (edge : Nat × Nat) : List Literal :=
  (m.reasons.lookup edge).getD []

def cycleClause (m : ModelGraph) (cycle : List Nat) : Clause :=
  ((cyclePairs cycle).flatMap m.reason).eraseDups.map Literal.negate

end ModelGraph

namespace Arbitration

/-- What leads from where under a valuation, each by the first literal of a bundle that holds. -/
def active (a : Arbitration) (valuation : Valuation) (table : List Bundle) : Outgoing :=
  .tabulate a.size fun i =>
    table.filterMap fun ((source, target), literals) =>
      if source = i then (literals.find? (Literal.holds valuation)).map fun l => (target, l) else none

/-- The edges that a dependency brings at a level: itself, and for snapshot isolation also those to where an
    anti-dependency leads from its end. -/
def stepsThrough (level : IsolationLevel) (antiDependencies : Outgoing) (i middle : Nat)
    (l : Literal) : List Step :=
  ⟨i, middle, [l]⟩ ::
    match level with
    | .serializable => []
    | .snapshotIsolation =>
      (antiDependencies.getD middle []).map fun (j, l') => ⟨i, j, [l, l']⟩

/-- The edges of the final graph under a valuation, with reasons. -/
def finalSteps (a : Arbitration) (valuation : Valuation) : List Step :=
  let dependencies := a.active valuation a.dependencies
  let antiDependencies := a.active valuation a.antiDependencies
  ((List.range a.size).flatMap fun i => (dependencies.getD i []).flatMap fun (middle, l) =>
      stepsThrough a.level antiDependencies i middle l) ++
    match a.level with
    | .snapshotIsolation => []
    | .serializable =>
      (List.range a.size).flatMap fun i => (antiDependencies.getD i []).map fun (j, l) => ⟨i, j, [l]⟩

def isOpen (a : Arbitration) (step : Step) : Bool :=
  step.source = step.target || !a.closure.hasEdge step.source step.target

/-- The final graph of a valuation; with shortcuts, what the known edges imply is replaced by the
    thinned known graph. -/
def modelGraph (a : Arbitration) (valuation : Valuation) (shortcuts : Bool) : ModelGraph :=
  let final := a.finalSteps valuation
  .ofSteps a.size (if shortcuts then a.shortcuts ++ final.filter a.isOpen else final)

def finalGraph (a : Arbitration) (valuation : Valuation) : TaggedGraph :=
  (a.modelGraph valuation false).graph

/-- What a cycle of a valuation forbids, if there is a cycle. -/
def cycleClause? (a : Arbitration) (shortcuts : Bool) (valuation : Valuation) : Option Clause :=
  let model := a.modelGraph valuation shortcuts
  model.graph.findCycle?.map model.cycleClause

/-- How a refinement ends. The clauses that were found on the way hold whatever is assumed, so they can
    be used again. -/
inductive Refined where
  | acyclic (valuation : Valuation) (clauses : List Clause)
  | refuted (core : List Literal) (clauses : List Clause)
  | failed (message : String)

/-- The assumptions that a core names. Some engines name the negations of what they refute. -/
def namedBy (core assumptions : List Literal) : List Literal :=
  assumptions.filter fun l => core.contains l || core.contains l.negate

/-- At most the given number of questions to the engine. -/
def refineWithin (engine : Engine) (a : Arbitration) (shortcuts : Bool)
    (assumptions : List Literal) : Nat → List Clause → Refined
  | 0, _ => .failed "too many questions"
  | budget + 1, clauses =>
    match engine.solve clauses assumptions with
    | .failed message => .failed message
    | .refuted core => .refuted (namedBy core assumptions) clauses
    | .satisfied valuation =>
      -- The new clause excludes this valuation, so no valuation comes twice.
      match a.cycleClause? shortcuts valuation with
      | none => .acyclic valuation clauses
      | some clause => refineWithin engine a shortcuts assumptions budget (clause :: clauses)

/-- Asks the engine until a valuation has no cycle or the assumptions are refuted. -/
def refine (engine : Engine) (a : Arbitration) (shortcuts : Bool) (assumptions : List Literal)
    (clauses : List Clause) : Refined :=
  refineWithin engine a shortcuts assumptions (Nat.pow 2 a.variableCount + 1) clauses

/-- What is refuted is named by a core. -/
theorem exists_core_of_refineWithin {engine : Engine} {a : Arbitration} {shortcuts : Bool}
    {assumptions refuted : List Literal} {budget : Nat} {clauses last : List Clause}
    (hend : refineWithin engine a shortcuts assumptions budget clauses = .refuted refuted last) :
    ∃ core, engine.solve last assumptions = .refuted core ∧ refuted = namedBy core assumptions := by
  induction budget generalizing clauses with
  | zero => simp only [refineWithin, reduceCtorEq] at hend
  | succ budget ih =>
    rw [refineWithin] at hend
    cases hanswer : engine.solve clauses assumptions with
    | failed message => simp only [hanswer, reduceCtorEq] at hend
    | refuted core =>
      simp only [hanswer, Refined.refuted.injEq] at hend
      rcases hend with ⟨rfl, rfl⟩
      exact ⟨core, hanswer, rfl⟩
    | satisfied valuation =>
      simp only [hanswer] at hend
      cases hclause : a.cycleClause? shortcuts valuation with
      | none => simp only [hclause, reduceCtorEq] at hend
      | some clause =>
        simp only [hclause] at hend
        exact ih hend

theorem length_le_of_refine {engine : Engine} {a : Arbitration} {shortcuts : Bool}
    {assumptions refuted : List Literal} {clauses last : List Clause}
    (hend : a.refine engine shortcuts assumptions clauses = .refuted refuted last) :
    refuted.length ≤ assumptions.length := by
  rcases exists_core_of_refineWithin hend with ⟨core, _, rfl⟩
  exact List.length_filter_le _ assumptions

end Arbitration

end Isolation
