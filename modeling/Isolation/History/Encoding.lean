import Isolation.History.Error
import Isolation.Json.Codec

/-!
# Identifiers and Faults as JSON

Reports refer to transactions and events by their identifiers, and carry the fault that led to a
rejection.
-/

namespace Isolation

instance : JsonCodec TransactionId where
  encode id :=
    .object [("session_id", .nat id.session), ("session_height", .nat id.height)]
  decode? json := do
    let [session, height] ← json.slots? ["session_id", "session_height"] | none
    return ⟨← session.required?, ← height.required?⟩

instance : JsonCodec EventId where
  encode id :=
    .object [("transaction", JsonCodec.encode id.transaction), ("index", .nat id.index)]
  decode? json := do
    let [transaction, index] ← json.slots? ["transaction", "index"] | none
    return ⟨← transaction.required?, ← index.required?⟩

variable {κ ν : Type} [JsonCodec κ] [JsonCodec ν]

instance : JsonCodec (HistoryError κ ν) where
  encode
    | .duplicateWrite key value first second =>
      .object [("DuplicateWrite", .object [("key", JsonCodec.encode key),
        ("value", JsonCodec.encode value), ("ids", JsonCodec.encode (first, second))])]
    | .unknownSession session => .object [("UnknownSession", .nat session)]
    | .unknownTransaction id => .object [("UnknownTransaction", JsonCodec.encode id)]
    | .alreadyCommitted id => .object [("AlreadyCommitted", JsonCodec.encode id)]
    | .initTransaction => .string "InitTransaction"
  decode? json := do
    match ← json.case? with
    | ("DuplicateWrite", some contents) =>
      let [key, value, ids] ← contents.named? ["key", "value", "ids"] | none
      let (first, second) ← ids.required?
      return .duplicateWrite (← key.required?) (← value.required?) first second
    | ("UnknownSession", some contents) =>
      return .unknownSession (← JsonCodec.decode? contents)
    | ("UnknownTransaction", some contents) =>
      return .unknownTransaction (← JsonCodec.decode? contents)
    | ("AlreadyCommitted", some contents) =>
      return .alreadyCommitted (← JsonCodec.decode? contents)
    | ("InitTransaction", none) => return .initTransaction
    | ("InitTransaction", some .null) => return .initTransaction
    | _ => none

/-- The contents of a fault that concerns a read and a write. -/
def readFaultFields (write : String) (read other : EventId) (key : κ) (value : ν) : Json :=
  .object [("read", JsonCodec.encode read), (write, JsonCodec.encode other),
    ("key", JsonCodec.encode key), ("value", JsonCodec.encode value)]

/-- Reads the contents of a fault that concerns a read and a write. -/
def readFaultOf? (build : EventId → EventId → κ → ν → Malformed κ ν) (write : String)
    (contents : Json) : Option (Malformed κ ν) := do
  let [read, other, key, value] ← contents.named? ["read", write, "key", "value"] | none
  return build (← read.required?) (← other.required?) (← key.required?) (← value.required?)

instance : JsonCodec (Malformed κ ν) where
  encode
    | .uncommitted id => .object [("UncommittedTransaction", JsonCodec.encode id)]
    | .missingWrite read key value =>
      .object [("MissingWrite", .object [("id", JsonCodec.encode read),
        ("key", JsonCodec.encode key), ("value", JsonCodec.encode value)])]
    | .futureRead read write key value =>
      .object [("FutureRead", readFaultFields "write" read write key value)]
    | .notOwnWrite read localWrite key value =>
      .object [("NotOwnWrite", readFaultFields "local_write" read localWrite key value)]
    | .intermediateRead read write key value =>
      .object [("IntermediateRead", readFaultFields "write" read write key value)]
  decode? json := do
    match ← json.case? with
    | ("UncommittedTransaction", some contents) =>
      return .uncommitted (← JsonCodec.decode? contents)
    | ("MissingWrite", some contents) =>
      let [read, key, value] ← contents.named? ["id", "key", "value"] | none
      return .missingWrite (← read.required?) (← key.required?) (← value.required?)
    | ("FutureRead", some contents) => readFaultOf? .futureRead "write" contents
    | ("NotOwnWrite", some contents) => readFaultOf? .notOwnWrite "local_write" contents
    | ("IntermediateRead", some contents) => readFaultOf? .intermediateRead "write" contents
    | _ => none

end Isolation
