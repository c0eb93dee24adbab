import Isolation.Json.Basic

/-!
# Records as JSON

How records and alternatives are laid out. A record is an object with a member for every field, in
any order; members with other names are ignored, a repeated field is an error, and a field that may be
missing counts as absent. A record may also be given as an array of its fields in order, where nothing
may be left out except fields with a default. An alternative is an object with one member, named for
the case; a case without contents is a string. Where a case has fields of its own, they are given by
name.

Numbers have to be spelled as plain integers: `1.0` and `1e2` are refused.

## Main definitions

* `JsonCodec`: Types with a JSON form.
-/

namespace Isolation

/-- Types with a JSON form. -/
class JsonCodec (α : Type) where
  encode : α → Json
  decode? : Json → Option α

namespace Json

/-- What a record holds for one of its fields. -/
inductive Slot where
  | given (value : Json)
  | absent
  | cut

/-- The field of an object, provided it is not repeated. -/
def member? (members : List (String × Json)) (name : String) : Option Slot :=
  match members.filter fun m => m.1 == name with
  | [] => some .absent
  | [(_, value)] => some (.given value)
  | _ => none

def positional (items : List Json) (index : Nat) : Slot :=
  match items[index]? with
  | some value => .given value
  | none => .cut

/-- The fields with the given names, from an object. -/
def named? (names : List String) : Json → Option (List Slot)
  | .object members => names.mapM (member? members)
  | _ => none

/-- The fields of a record with the given names, from an object or from an array in that order. -/
def slots? (names : List String) : Json → Option (List Slot)
  | .array items =>
    if items.length ≤ names.length then
      some ((List.range names.length).map (positional items))
    else none
  | json => json.named? names

/-- The value of a field, as a reader takes it. -/
def Slot.read? {α : Type} (reader : Json → Option α) : Slot → Option α
  | .given value => reader value
  | .absent => none
  | .cut => none

def Slot.required? {α : Type} [JsonCodec α] (slot : Slot) : Option α :=
  slot.read? JsonCodec.decode?

/-- A field that may be missing from an object. -/
def Slot.optional? {α : Type} [JsonCodec α] : Slot → Option (Option α)
  | .given .null => some none
  | .given value => (JsonCodec.decode? value).map some
  | .absent => some none
  | .cut => none

def Slot.withDefault? {α : Type} [JsonCodec α] (fallback : α) : Slot → Option α
  | .given value => JsonCodec.decode? value
  | .absent => some fallback
  | .cut => some fallback

/-- The case of an alternative and its contents, if it has any. -/
def case? : Json → Option (String × Option Json)
  | .string name => some (name, none)
  | .object [(name, value)] => some (name, some value)
  | _ => none

def items? : Json → Option (List Json)
  | .array items => some items
  | _ => none

/-- The items of an array, each as a reader takes it. -/
def readItems? {α : Type} (reader : Json → Option α) (json : Json) : Option (List α) :=
  json.items?.bind fun items => items.mapM reader

/-- A number that is spelled as a plain integer and fits into a word. -/
def natural? : Json → Option Nat
  | .number literal =>
    if literal.toList.all Char.isDigit then
      let n := Text.decimalValue literal.toList
      if n < UInt64.size then some n else none
    else none
  | _ => none

end Json

/-- The JSON form of a type whose cases have names and no contents. -/
@[reducible]
def JsonCodec.ofNames {α : Type} (name : α → String) (all : List α) : JsonCodec α where
  encode value := .string (name value)
  decode? json :=
    match json.case? with
    | some (found, none) => all.find? fun value => name value == found
    | some (found, some .null) => all.find? fun value => name value == found
    | _ => none

instance : JsonCodec Json where
  encode value := value
  decode? := some

instance : JsonCodec Bool where
  encode := .bool
  decode?
    | .bool value => some value
    | _ => none

instance : JsonCodec String where
  encode := .string
  decode?
    | .string text => some text
    | _ => none

instance : JsonCodec Nat where
  encode := .nat
  decode? := Json.natural?

instance : JsonCodec UInt64 where
  encode n := .nat n.toNat
  decode? json := json.natural?.map UInt64.ofNat

instance {α : Type} [JsonCodec α] : JsonCodec (Option α) where
  encode
    | some value => JsonCodec.encode value
    | none => .null
  decode?
    | .null => some none
    | json => (JsonCodec.decode? json).map some

instance {α : Type} [JsonCodec α] : JsonCodec (List α) where
  encode values := .array (values.map JsonCodec.encode)
  decode? := Json.readItems? JsonCodec.decode?

instance {α β : Type} [JsonCodec α] [JsonCodec β] : JsonCodec (α × β) where
  encode pair := .array [JsonCodec.encode pair.1, JsonCodec.encode pair.2]
  decode?
    | .array [first, second] => do
      return (← JsonCodec.decode? first, ← JsonCodec.decode? second)
    | _ => none

end Isolation
