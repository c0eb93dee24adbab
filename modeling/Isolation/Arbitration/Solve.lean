import Isolation.Arbitration.Conflict
import Isolation.Witness.Basic

/-!
# Deciding an Arbitration

If some choice leaves the final graph without cycles, the transactions can be listed so that every edge
goes forward, and the list is the witness for serializability. For snapshot isolation the list gives the
order of the commits, and the starts have to be put between them. A transaction starts as early as
possible: right behind the commit of the last transaction it depends on, or at the very beginning if it
depends on the init transaction only.

## Main definitions

* `Arbitration.witness?`: The witness for a valuation without cycles.
* `Arbitration.solve`: A witness, or a conflict from which nothing can be taken away.
-/

namespace Isolation

open Isolation.Sat

namespace Arbitration

def dependenciesUnder (a : Arbitration) (valuation : Valuation) : TaggedGraph :=
  .ofEdges a.size ((List.range a.size).flatMap fun i =>
    ((a.active valuation a.dependencies).getD i []).map fun (j, _) => (i, j, true))

def isClient (a : Arbitration) (i : Nat) : Bool :=
  a.nodes[i]? != some .init

def names (a : Arbitration) (order : List Nat) : List TransactionId :=
  order.filterMap fun i => a.nodes[i]?

/-- The last transaction in an order that another one depends on. -/
def latest? (dependencies : TaggedGraph) (clients : List Nat) (i : Nat) : Option Nat :=
  (clients.filter fun j => dependencies.hasEdge j i).getLast?

/-- Commits in the given order, each followed by the starts that waited for it. -/
def splitOrder (dependencies : TaggedGraph) (clients : List Nat) : List (Nat × Phase) :=
  let waits := clients.map fun i => (i, latest? dependencies clients i)
  let starts := fun last => (waits.filter fun entry => entry.2 = last).map fun entry =>
    (entry.1, Phase.start)
  starts none ++ clients.flatMap fun i => (i, .commit) :: starts (some i)

/-- The witness for an order in which every edge of the final graph goes forward. -/
def witnessAlong (a : Arbitration) (valuation : Valuation) (order : List Nat) : Witness :=
  let clients := order.filter a.isClient
  match a.level with
  | .serializable => .commitOrder (a.names clients)
  | .snapshotIsolation =>
    .splitOrder ((splitOrder (a.dependenciesUnder valuation) clients).filterMap
      fun (i, phase) => a.nodes[i]?.map fun id => (id, phase))

/-- The witness for a valuation whose final graph has no cycle. -/
def witness? (a : Arbitration) (valuation : Valuation) : Option Witness :=
  (a.finalGraph valuation).topologicalOrder?.map (a.witnessAlong valuation)

/-- How an arbitration ends. -/
inductive Decision (κ : Type) where
  | ordered (witness : Witness)
  | conflicting (conflicts : Conflicts κ)
  | failed (message : String)

/-- Decides what known edges and open constraints leave. -/
def solve {κ : Type} [Ord κ] (engine : Engine) (g : Precedence κ) (constraints : List (Constraint κ))
    (options : AuditOptions) : Decision κ :=
  let a := ofPrecedence g constraints options
  match a.refine engine true a.assumptions a.links with
  | .failed message => .failed message
  | .acyclic valuation _ =>
    match a.witness? valuation with
    | some witness => .ordered witness
    | none => .failed "acyclic model has a cyclic final graph"
  | .refuted core clauses =>
    match a.minimize engine clauses core with
    | .ok core => .conflicting (behind g constraints core).sorted
    | .error message => .failed message

end Arbitration

end Isolation
