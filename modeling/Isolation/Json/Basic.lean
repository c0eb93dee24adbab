import Isolation.Text.Decimal

/-!
# JSON Values

The interchange form of recordings and reports. Two choices depart from the usual picture of a JSON
value, both because a reader of records has to notice things the usual picture hides. The members of
an object stay a list, so a repeated member is visible. A number keeps its literal, so `1` and `1.0`
are different.

A string may spell half of a surrogate pair. It denotes no text, but it does no harm in a place that
nobody looks at; `unpaired` stands for all such strings, and for objects that have such a string for
the name of a member.

## Main definitions

* `Json`: JSON values.
-/

namespace Isolation

/-- A JSON value. -/
inductive Json where
  | null
  | bool (value : Bool)
  | number (literal : String)
  | string (text : String)
  /-- A string with an escaped surrogate that has no partner, or an object with such a name in it. -/
  | unpaired
  | array (items : List Json)
  | object (members : List (String × Json))

namespace Json

instance : Inhabited Json := ⟨.null⟩

def nat (n : Nat) : Json := .number (Nat.repr n)

def int (n : Int) : Json :=
  match n with
  | .ofNat n => .number (Nat.repr n)
  | .negSucc n => .number ("-" ++ Nat.repr (n + 1))

def hex4 (n : Nat) : List Char :=
  let digits := Nat.toDigits 16 n
  List.replicate (4 - digits.length) '0' ++ digits

def escapeChar (c : Char) : List Char :=
  if c = '"' then ['\\', '"']
  else if c = '\\' then ['\\', '\\']
  else if c = '\n' then ['\\', 'n']
  else if c = '\r' then ['\\', 'r']
  else if c = '\t' then ['\\', 't']
  else if c = '\x08' then ['\\', 'b']
  else if c = '\x0c' then ['\\', 'f']
  else if c.toNat < 32 then ['\\', 'u'] ++ hex4 c.toNat
  else [c]

def escape (text : String) : String :=
  String.ofList ('"' :: text.toList.flatMap escapeChar ++ ['"'])

mutual

def compact : Json → String
  | .null => "null"
  | .bool true => "true"
  | .bool false => "false"
  | .number literal => literal
  | .string text => escape text
  | .unpaired => "\"\""
  | .array items => "[" ++ compactItems items ++ "]"
  | .object members => "\x7b" ++ compactMembers members ++ "\x7d"

/-- The items of an array, separated by commas. -/
def compactItems : List Json → String
  | [] => ""
  | [item] => compact item
  | item :: rest => compact item ++ "," ++ compactItems rest

/-- The members of an object, separated by commas. -/
def compactMembers : List (String × Json) → String
  | [] => ""
  | [(name, value)] => escape name ++ ":" ++ compact value
  | (name, value) :: rest => escape name ++ ":" ++ compact value ++ "," ++ compactMembers rest

end

/-- The start of a line at a depth of nesting. -/
def indentation (depth : Nat) : String :=
  String.ofList ('\n' :: List.replicate (2 * depth) ' ')

mutual

/-- A value over several lines, two blanks for every depth of nesting. -/
def prettyAt (depth : Nat) : Json → String
  | .array [] => "[]"
  | .array items =>
    "[" ++ prettyItems (depth + 1) items ++ indentation depth ++ "]"
  | .object [] => "\x7b\x7d"
  | .object members =>
    "\x7b" ++ prettyMembers (depth + 1) members ++ indentation depth ++ "\x7d"
  | value => compact value

def prettyItems (depth : Nat) : List Json → String
  | [] => ""
  | [item] => indentation depth ++ prettyAt depth item
  | item :: rest => indentation depth ++ prettyAt depth item ++ "," ++ prettyItems depth rest

def prettyMembers (depth : Nat) : List (String × Json) → String
  | [] => ""
  | [(name, value)] => indentation depth ++ escape name ++ ": " ++ prettyAt depth value
  | (name, value) :: rest =>
    indentation depth ++ escape name ++ ": " ++ prettyAt depth value ++ "," ++
      prettyMembers depth rest

end

def pretty (value : Json) : String :=
  prettyAt 0 value

end Json

end Isolation
