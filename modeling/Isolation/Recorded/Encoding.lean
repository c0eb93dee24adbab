import Isolation.Json.Codec
import Isolation.Recorded.Basic

/-!
# Recorded Sessions as JSON

A session is an array of transactions, and a transaction a record of its events and its commit flag. A
read that leaves its value open has a null in its place.

An event is a case with fields of its own, so it has them by name. Files are read with more patience:
there an event may give its fields in order, as a record may. The two readers differ in nothing else, so
they are one reader with the way of taking fields as its argument.

## Main definitions

* `sessionsOfFile?`: The sessions that a file holds.
-/

namespace Isolation.Recorded

variable {κ ν : Type} [JsonCodec κ] [JsonCodec ν]

/-- A way to take the fields with the given names. -/
abbrev FieldReader : Type := List String → Json → Option (List Json.Slot)

/-- The event that a JSON value denotes. -/
def Event.ofJson? (fields? : FieldReader) (json : Json) : Option (Event κ ν) := do
  match ← json.case? with
  | ("Read", some contents) =>
    let [key, value] ← fields? ["key", "value"] contents | none
    return .read (← key.required?) (← value.optional?)
  | ("Write", some contents) =>
    let [key, value] ← fields? ["key", "value"] contents | none
    return .write (← key.required?) (← value.required?)
  | _ => none

instance : JsonCodec (Event κ ν) where
  encode
    | .read key value =>
      .object [("Read", .object [("key", JsonCodec.encode key),
        ("value", JsonCodec.encode value)])]
    | .write key value =>
      .object [("Write", .object [("key", JsonCodec.encode key),
        ("value", JsonCodec.encode value)])]
  decode? := Event.ofJson? Json.named?

/-- The transaction that a JSON value denotes. -/
def Transaction.ofJson? (fields? : FieldReader) (json : Json) : Option (Transaction κ ν) := do
  let [events, committed] ← json.slots? ["events", "committed"] | none
  return ⟨← events.read? (Json.readItems? (Event.ofJson? fields?)), ← committed.required?⟩

instance : JsonCodec (Transaction κ ν) where
  encode t :=
    .object [("events", JsonCodec.encode t.events), ("committed", JsonCodec.encode t.committed)]
  decode? := Transaction.ofJson? Json.named?

/-- The sessions that the JSON value of a file denotes. -/
def sessionsOfFile? : Json → Option (List (Session κ ν)) :=
  Json.readItems? (Json.readItems? (Transaction.ofJson? Json.slots?))

end Isolation.Recorded
