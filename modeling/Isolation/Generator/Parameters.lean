import Isolation.Json.Codec

/-!
# Parameters of Generated Recordings

## Main definitions

* `Generator.Parameters`: How many sessions, variables, transactions and events.
-/

namespace Isolation.Generator

/-- The size and the nature of a generated recording. -/
structure Parameters where
  id : UInt64
  sessions : UInt64
  variableCount : UInt64
  transactions : UInt64
  events : UInt64
  /-- How many commits back a transaction may take its snapshot. -/
  staleness : UInt64
deriving DecidableEq

instance : JsonCodec Parameters where
  encode p :=
    .object [("id", JsonCodec.encode p.id), ("n_node", JsonCodec.encode p.sessions),
      ("n_variable", JsonCodec.encode p.variableCount),
      ("n_transaction", JsonCodec.encode p.transactions),
      ("n_event", JsonCodec.encode p.events), ("staleness", JsonCodec.encode p.staleness)]
  decode? json := do
    let [id, sessions, variableCount, transactions, events, staleness] ←
      json.slots? ["id", "n_node", "n_variable", "n_transaction", "n_event", "staleness"] | none
    return ⟨← id.required?, ← sessions.required?, ← variableCount.required?, ← transactions.required?,
      ← events.required?, ← staleness.withDefault? 0⟩

end Isolation.Generator
