import Isolation.Generator.Parameters
import Isolation.Json.Reader
import Isolation.Recorded.Encoding
import Isolation.Recorded.Numbering
import Isolation.Timestamp

/-!
# JSON Recordings

A JSON file holds recorded sessions with numbers as keys, either bare or in an envelope that says how
and when they were generated. A reader of recordings takes both, and looks for the envelope first.

## Main definitions

* `Envelope`, `Envelope.parse?`: A generated recording with its circumstances, and its reader.
-/

namespace Isolation

/-- A generated recording, and how and when it came about. -/
structure Envelope where
  parameters : Generator.Parameters
  info : String
  start : Timestamp
  stop : Timestamp
  data : List (Recorded.Session UInt64 UInt64)

namespace Envelope

/-- The envelope of a recording that has just been generated. -/
def ofGenerated (parameters : Generator.Parameters) (start stop : Timestamp)
    (data : List (Recorded.Session UInt64 UInt64)) : Envelope :=
  ⟨parameters, "generated", start, stop, data⟩

def timestamp? (slot : Json.Slot) : Option Timestamp := do
  let text : String ← slot.required?
  Timestamp.parse? text.toList

def ofJson? (json : Json) : Option Envelope := do
  let [parameters, info, start, stop, data] ←
    json.slots? ["params", "info", "start", "end", "data"] | none
  return ⟨← parameters.required?, ← info.required?, ← timestamp? start, ← timestamp? stop,
    ← data.read? Recorded.sessionsOfFile?⟩

def toJson (envelope : Envelope) : Json :=
  .object [("params", JsonCodec.encode envelope.parameters), ("info", .string envelope.info),
    ("start", .string envelope.start.text), ("end", .string envelope.stop.text),
    ("data", JsonCodec.encode envelope.data)]

def parse? (text : List Char) : Option Envelope :=
  (Json.parse? text).bind ofJson?

/-- The time between start and end in whole milliseconds. -/
def milliseconds (envelope : Envelope) : Int :=
  envelope.stop.millisecondsSince envelope.start

/-- The sessions that a JSON text holds, with or without an envelope. -/
def recording? (text : List Char) : Option (List (Recorded.Session UInt64 UInt64)) := do
  let json ← Json.parse? text
  match ofJson? json with
  | some envelope => some envelope.data
  | none => Recorded.sessionsOfFile? json

end Envelope

end Isolation
