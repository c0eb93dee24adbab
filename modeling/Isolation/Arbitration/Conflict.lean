import Isolation.Arbitration.Refine
import Isolation.Precedence.Encoding

/-!
# Conflicts

If the choices cannot be made, the engine names assumptions that cannot hold together. A conflict is
such a set from which nothing can be taken away. It is found by trying: each assumption is left out in
turn, and if the rest is still refuted, it stays out, together with everything that the new refutation
does not use. What is reported in the end are the edges and constraints behind the assumptions that are
left, in an order that does not depend on how they were found.

## Main definitions

* `Arbitration.minimize`: A part of a refuted core from which nothing can be left out.
* `Conflicts`: Edges and constraints that cannot hold together.
-/

namespace Isolation

open Isolation.Sat

/-- Known edges and constraints that cannot hold together. -/
structure Conflicts (κ : Type) where
  edges : List (LabelledEdge κ)
  constraints : List (Constraint κ)
deriving DecidableEq

namespace Conflicts

variable {κ : Type}

/-- The transactions that are mentioned, sorted. -/
def transactions (c : Conflicts κ) : List TransactionId :=
  SortedList.ofList (c.edges.flatMap (fun e => [e.source, e.target]) ++
    c.constraints.flatMap Constraint.transactions)

/-- Edges by their ends, and constraints in ascending order. -/
def sorted [Ord κ] (c : Conflicts κ) : Conflicts κ where
  edges := SortedList.sortBy (fun a b => b.comparePair a.source a.target) c.edges
  constraints := SortedList.sortBy compare c.constraints

def edgeText [Render κ] (e : LabelledEdge κ) : String :=
  "edge " ++ e.source.text ++ " -> " ++ e.target.text ++ " [" ++
    ", ".intercalate (e.labels.map Label.text) ++ "]\n"

/-- A line for every edge and every constraint. -/
def text [Render κ] (c : Conflicts κ) : String :=
  String.join (c.edges.map edgeText) ++
    String.join (c.constraints.map fun c => "constraint " ++ c.text ++ "\n")

instance [JsonCodec κ] : JsonCodec (Conflicts κ) where
  encode c :=
    .object [("edges", JsonCodec.encode c.edges),
      ("constraints", JsonCodec.encode c.constraints)]
  decode? json := do
    let [edges, constraints] ← json.slots? ["edges", "constraints"] | none
    return ⟨← edges.required?, ← constraints.required?⟩

end Conflicts

namespace Arbitration

/-- Leaves out assumptions one after the other where the rest stays refuted. The ones before the index
    were found to be needed. -/
def minimizeFrom (engine : Engine) (a : Arbitration) (clauses : List Clause) (core : List Literal)
    (index : Nat) : Except String (List Literal) :=
  if index < core.length then
    match hend : a.refine engine false (core.eraseIdx index) clauses with
    | .failed message => .error message
    -- Without the assumption there is an order, so it is needed.
    | .acyclic _ clauses => minimizeFrom engine a clauses core (index + 1)
    -- What the refutation does not use goes too. The needed ones are used by every refutation, so the
    -- same index is next.
    | .refuted smaller clauses => minimizeFrom engine a clauses smaller index
  else .ok core
termination_by core.length - index
decreasing_by
  · omega
  · have hshorter := length_le_of_refine hend
    rw [List.length_eraseIdx_of_lt ‹_›] at hshorter
    omega

/-- A part of a refuted core from which nothing can be left out. -/
def minimize (engine : Engine) (a : Arbitration) (clauses : List Clause) (core : List Literal) :
    Except String (List Literal) :=
  minimizeFrom engine a clauses core 0

section Behind

variable {κ : Type} (g : Precedence κ) (constraints : List (Constraint κ))

def knownTable : List (Literal × LabelledEdge κ) :=
  ((List.range (knownEdges g).length).map knownLiteral).zip (knownEdges g)

/-- The constraints by the literals that say that they count. -/
def constraintTable : List (Literal × Constraint κ) :=
  ((Ballot.ofConstraints g (knownEdges g).length constraints).map Ballot.active).zip constraints

/-- The edges and constraints behind assumptions, in the order of the assumptions. -/
def behind (core : List Literal) : Conflicts κ where
  edges := core.filterMap fun l => (knownTable g).lookup l
  constraints := core.filterMap fun l => (constraintTable g constraints).lookup l

end Behind

end Arbitration

end Isolation
