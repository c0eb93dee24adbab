import Isolation.History.Encoding
import Isolation.Precedence.Constraint

/-!
# Labels and Constraints as JSON
-/

namespace Isolation

instance : JsonCodec EdgeKind :=
  .ofNames (fun
    | .sessionOrder => "SessionOrder"
    | .writeRead => "WriteRead"
    | .writeWrite => "WriteWrite"
    | .readWrite => "ReadWrite")
    [.sessionOrder, .writeRead, .writeWrite, .readWrite]

variable {κ : Type} [JsonCodec κ]

instance : JsonCodec (Label κ) where
  encode label :=
    .object [("kind", JsonCodec.encode label.kind), ("key", JsonCodec.encode label.key)]
  decode? json := do
    let [kind, key] ← json.slots? ["kind", "key"] | none
    return ⟨← kind.required?, ← key.optional?⟩

instance : JsonCodec (LabelledEdge κ) where
  encode e :=
    .object [("from", JsonCodec.encode e.source), ("to", JsonCodec.encode e.target),
      ("labels", JsonCodec.encode e.labels)]
  decode? json := do
    let [source, target, labels] ← json.slots? ["from", "to", "labels"] | none
    return ⟨← source.required?, ← target.required?, ← labels.required?⟩

instance : JsonCodec (SideEdge κ) where
  encode e :=
    .object [("from", JsonCodec.encode e.source), ("to", JsonCodec.encode e.target),
      ("kind", JsonCodec.encode e.kind), ("key", JsonCodec.encode e.key)]
  decode? json := do
    let [source, target, kind, key] ← json.slots? ["from", "to", "kind", "key"] | none
    return ⟨← source.required?, ← target.required?, ← kind.required?, ← key.required?⟩

instance : JsonCodec (Constraint κ) where
  encode c :=
    .object [("write_transaction1", JsonCodec.encode c.first),
      ("write_transaction2", JsonCodec.encode c.second),
      ("edges1", JsonCodec.encode c.forward), ("edges2", JsonCodec.encode c.backward)]
  decode? json := do
    let [first, second, forward, backward] ←
      json.slots? ["write_transaction1", "write_transaction2", "edges1", "edges2"] | none
    return ⟨← first.required?, ← second.required?, ← forward.required?, ← backward.required?⟩

end Isolation
