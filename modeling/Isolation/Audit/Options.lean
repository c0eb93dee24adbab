import Isolation.Graph.Product
import Isolation.Json.Codec

/-!
# Options of an Audit

The isolation level decides what is asked. Everything else decides only how the answer is computed:
whether constraints are resolved in rounds before the search, how many rounds there may be, and how
products and closures of graphs are formed.

## Main definitions

* `IsolationLevel`, `AuditOptions`: What is asked for, and how it is looked for.
-/

namespace Isolation

/-- What a history is audited against. -/
inductive IsolationLevel where
  /-- Every transaction reads from a snapshot taken at its start, and concurrent transactions write
      disjoint keys. -/
  | snapshotIsolation
  /-- The history is equivalent to a serial execution. -/
  | serializable
deriving DecidableEq, Repr

def IsolationLevel.text : IsolationLevel → String
  | .snapshotIsolation => "snapshot isolation"
  | .serializable => "serializability"

/-- Whether constraints are resolved before the search. -/
inductive PruningMode where
  /-- In rounds, until nothing more can be resolved. -/
  | iterative
  | preprocessOnly
deriving DecidableEq, Repr

/-- How an audit is done. -/
structure AuditOptions where
  level : IsolationLevel := .snapshotIsolation
  pruning : PruningMode := .iterative
  strategy : Strategy := .dense
  /-- The number of rounds that pruning may take. -/
  rounds : Nat := 100
deriving DecidableEq, Repr

instance : JsonCodec IsolationLevel :=
  .ofNames (fun
    | .snapshotIsolation => "SnapshotIsolation"
    | .serializable => "Serializable")
    [.snapshotIsolation, .serializable]

instance : JsonCodec PruningMode :=
  .ofNames (fun
    | .iterative => "Iterative"
    | .preprocessOnly => "PreprocessOnly")
    [.iterative, .preprocessOnly]

instance : JsonCodec Strategy :=
  .ofNames (fun
    | .dense => "Dense"
    | .sparse => "Sparse")
    [.dense, .sparse]

instance : JsonCodec AuditOptions where
  encode options :=
    .object [("level", JsonCodec.encode options.level),
      ("pruning", JsonCodec.encode options.pruning),
      ("reachability", JsonCodec.encode options.strategy),
      ("max_pruning_rounds", .nat options.rounds)]
  decode? json := do
    let [level, pruning, strategy, rounds] ←
      json.slots? ["level", "pruning", "reachability", "max_pruning_rounds"] | none
    return ⟨← level.required?, ← pruning.required?, ← strategy.required?, ← rounds.required?⟩

end Isolation
