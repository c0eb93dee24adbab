import Isolation.Json.Basic

/-!
# The Schema of JSON Recordings

Which JSON values are recordings, said in the vocabulary of JSON Schema.

## Main definitions

* `CommandLine.recordingSchema`: The schema.
-/

namespace Isolation.CommandLine

def textMember (name text : String) : String × Json :=
  (name, .string text)

def texts (items : List String) : Json :=
  .array (items.map Json.string)

/-- A number of 64 bits; the type is given apart, since it may allow more. -/
def wordSchema (type : Json) : Json :=
  .object [("type", type), textMember "format" "uint64", ("minimum", .nat 0)]

/-- An object with some properties, and those of them that are required. -/
def objectSchema (properties : List (String × Json)) (required : List String) :
    List (String × Json) :=
  [textMember "type" "object", ("properties", .object properties), ("required", texts required)]

def listSchema (items : Json) : Json :=
  .object [textMember "type" "array", ("items", items)]

def referenceTo (name : String) : Json :=
  .object [textMember "$ref" ("#/$defs/" ++ name)]

/-- An object with a single member, which names the kind of an event. -/
def eventCase (name : String) (fields : List (String × Json)) : Json :=
  .object (objectSchema [(name, .object fields)] [name] ++
    [("additionalProperties", .bool false)])

def eventSchema : Json :=
  let key := ("key", wordSchema (.string "integer"))
  let read := objectSchema [key, ("value", wordSchema (texts ["integer", "null"]))] ["key"]
  let write := objectSchema [key, ("value", wordSchema (.string "integer"))] ["key", "value"]
  .object [textMember "description" "A single read or write as recorded by a client.",
    ("oneOf", .array [eventCase "Read" read, eventCase "Write" write])]

def transactionSchema : Json :=
  .object (textMember "description" "A recorded transaction: its events and whether it committed." ::
    objectSchema [("events", listSchema (referenceTo "Event")),
      ("committed", .object [textMember "type" "boolean"])] ["events", "committed"])

/-- The schema of JSON recordings. -/
def recordingSchema : Json :=
  .object [textMember "$schema" "https://json-schema.org/draft/2020-12/schema",
    textMember "title" "Array_of_Array_of_Transaction", textMember "type" "array",
    ("items", listSchema (referenceTo "Transaction")),
    ("$defs", .object [("Event", eventSchema), ("Transaction", transactionSchema)])]

end Isolation.CommandLine
