import Isolation.Json.Basic

/-!
# Reading JSON Texts

A text is first cut into tokens, and the tokens then drive a machine with a stack of unfinished
arrays and objects. The machine makes one move for every token, so it needs no bound on the depth of
nesting, and it is a fold over the tokens.

Strings are the only tokens with an inner life. An escape spells a unit of UTF-16; two units that form
a surrogate pair are one character, and a unit that should have had a partner makes the string
`unpaired`. Such a string can also be the name of a member. The object is then `unpaired` as a whole, and
what it holds still has to be well formed.

## Main definitions

* `Json.lex?`, `Json.parse?`: The tokens of a text, and the value it denotes.
-/

namespace Isolation.Json

/-- Punctuation, or a value without parts. -/
inductive Token where
  | openArray
  | closeArray
  | openObject
  | closeObject
  | colon
  | comma
  | atom (value : Json)

def isSpace (c : Char) : Bool :=
  c == ' ' || c == '\n' || c == '\t' || c == '\r'

def hexValue? (c : Char) : Option Nat :=
  if c.isDigit then some (c.toNat - '0'.toNat)
  else if 'a' ≤ c && c ≤ 'f' then some (c.toNat - 'a'.toNat + 10)
  else if 'A' ≤ c && c ≤ 'F' then some (c.toNat - 'A'.toNat + 10)
  else none

/-- A unit of a string: a character that stands for itself, or one escaped by its UTF-16 code. -/
inductive StringUnit where
  | char (c : Char)
  | code (unit : Nat)

/-- The units of a string up to the closing quote, and what follows it. -/
def stringUnits? : List Char → Option (List StringUnit × List Char)
  | [] => none
  | '"' :: rest => some ([], rest)
  | '\\' :: 'u' :: a :: b :: c :: d :: rest => do
    let unit := (← hexValue? a) * 4096 + (← hexValue? b) * 256 + (← hexValue? c) * 16 +
      (← hexValue? d)
    let (units, rest) ← stringUnits? rest
    return (.code unit :: units, rest)
  | '\\' :: e :: rest => do
    let c ← match e with
      | '"' => some '"'
      | '\\' => some '\\'
      | '/' => some '/'
      | 'b' => some '\x08'
      | 'f' => some '\x0c'
      | 'n' => some '\n'
      | 'r' => some '\r'
      | 't' => some '\t'
      | _ => none
    let (units, rest) ← stringUnits? rest
    return (.char c :: units, rest)
  | c :: rest =>
    if c.toNat < 32 || c == '\\' then none
    else do
      let (units, rest) ← stringUnits? rest
      return (.char c :: units, rest)

def isHighSurrogate (unit : Nat) : Bool :=
  0xd800 ≤ unit && unit ≤ 0xdbff

def isLowSurrogate (unit : Nat) : Bool :=
  0xdc00 ≤ unit && unit ≤ 0xdfff

/-- The characters that units spell, unless a surrogate lacks its partner. -/
def unitChars? : List StringUnit → Option (List Char)
  | [] => some []
  | .char c :: rest => (unitChars? rest).map (c :: ·)
  | .code high :: .code low :: rest =>
    if isHighSurrogate high then
      if isLowSurrogate low then
        (unitChars? rest).map
          (Char.ofNat (0x10000 + (high - 0xd800) * 1024 + (low - 0xdc00)) :: ·)
      else none
    else if isLowSurrogate high then none
    else (unitChars? (.code low :: rest)).map (Char.ofNat high :: ·)
  | .code unit :: rest =>
    if isHighSurrogate unit || isLowSurrogate unit then none
    else (unitChars? rest).map (Char.ofNat unit :: ·)

/-- A nonempty run of digits at the front of a text. -/
def takeDigits? (text : List Char) : Option (List Char × List Char) :=
  match text.takeWhile Char.isDigit with
  | [] => none
  | digits => some (digits, text.dropWhile Char.isDigit)

/-- The integer part of a number: a zero, or digits that do not start with one. -/
def takeInteger? : List Char → Option (List Char × List Char)
  | '0' :: rest => some (['0'], rest)
  | text => takeDigits? text

/-- The fraction of a number, if there is one. -/
def takeFraction? : List Char → Option (List Char × List Char)
  | '.' :: rest => (takeDigits? rest).map fun (digits, rest) => ('.' :: digits, rest)
  | text => some ([], text)

/-- The exponent of a number, if there is one. -/
def takeExponent? : List Char → Option (List Char × List Char)
  | c :: rest =>
    if c == 'e' || c == 'E' then
      match rest with
      | sign :: digits =>
        if sign == '+' || sign == '-' then
          (takeDigits? digits).map fun (digits, rest) => (c :: sign :: digits, rest)
        else (takeDigits? rest).map fun (digits, rest) => (c :: digits, rest)
      | [] => none
    else some ([], c :: rest)
  | [] => some ([], [])

def takeMagnitude? (text : List Char) : Option (List Char × List Char) := do
  let (whole, rest) ← takeInteger? text
  let (fraction, rest) ← takeFraction? rest
  let (exponent, rest) ← takeExponent? rest
  return (whole ++ fraction ++ exponent, rest)

/-- The token at the front of a text without blanks, and what follows it. -/
def token? (text : List Char) : Option (Token × List Char) :=
  match text with
  | '[' :: rest => some (.openArray, rest)
  | ']' :: rest => some (.closeArray, rest)
  | '\x7b' :: rest => some (.openObject, rest)
  | '\x7d' :: rest => some (.closeObject, rest)
  | ':' :: rest => some (.colon, rest)
  | ',' :: rest => some (.comma, rest)
  | 'n' :: 'u' :: 'l' :: 'l' :: rest => some (.atom .null, rest)
  | 't' :: 'r' :: 'u' :: 'e' :: rest => some (.atom (.bool true), rest)
  | 'f' :: 'a' :: 'l' :: 's' :: 'e' :: rest => some (.atom (.bool false), rest)
  | '"' :: rest => do
    let (units, rest) ← stringUnits? rest
    match unitChars? units with
    | some text => return (.atom (.string (String.ofList text)), rest)
    | none => return (.atom .unpaired, rest)
  | '-' :: rest => do
    let (literal, rest) ← takeMagnitude? rest
    return (.atom (.number (String.ofList ('-' :: literal))), rest)
  | _ => do
    let (literal, rest) ← takeMagnitude? text
    return (.atom (.number (String.ofList literal)), rest)

/-- The tokens of a text. Every token is at least one character long, so the length of the text bounds
    their number, and the bound is never met before the text is used up. -/
def lexWithin? : Nat → List Char → Option (List Token)
  | bound, text =>
    match text.dropWhile isSpace with
    | [] => some []
    | c :: rest =>
      match bound with
      | 0 => none
      | bound + 1 => do
        let (token, rest) ← token? (c :: rest)
        let tokens ← lexWithin? bound rest
        return token :: tokens

/-- The tokens of a text. -/
def lex? (text : List Char) : Option (List Token) :=
  lexWithin? text.length text

/-- A member of an object. A name that denotes no text is missing. -/
abbrev Member : Type := Option String × Json

/-- The name that a token spells, if it is a string. -/
def Token.name? : Token → Option (Option String)
  | .atom (.string name) => some (some name)
  | .atom .unpaired => some none
  | _ => none

def ofMembers (members : List Member) : Json :=
  match members.mapM fun (name, value) => name.map fun name => (name, value) with
  | some members => .object members
  | none => .unpaired

/-- A container that is not closed yet; what it holds so far is in reverse order. -/
inductive Frame where
  | array (items : List Json)
  /-- An object that waits for the value of a member. -/
  | member (members : List Member) (name : Option String)

/-- What the machine can take next. -/
inductive Machine where
  | value (stack : List Frame)
  | firstItem (stack : List Frame)
  /-- The name of a first member of an object, or its end. -/
  | firstName (stack : List Frame)
  | nextName (members : List Member) (stack : List Frame)
  | afterName (members : List Member) (name : Option String) (stack : List Frame)
  | afterItem (items : List Json) (stack : List Frame)
  | afterMember (members : List Member) (stack : List Frame)
  | done (value : Json)

namespace Machine

/-- Hands a finished value to the innermost container. -/
def finish (value : Json) : List Frame → Machine
  | [] => .done value
  | .array items :: stack => .afterItem (value :: items) stack
  | .member members name :: stack => .afterMember ((name, value) :: members) stack

/-- The move of the machine where a value is due. -/
def takeValue? (stack : List Frame) : Token → Option Machine
  | .openArray => some (.firstItem stack)
  | .openObject => some (.firstName stack)
  | .atom leaf => some (finish leaf stack)
  | _ => none

def step? : Machine → Token → Option Machine
  | .value stack, token => takeValue? stack token
  | .firstItem stack, .closeArray => some (finish (.array []) stack)
  | .firstItem stack, token => takeValue? (.array [] :: stack) token
  | .firstName stack, .closeObject => some (finish (.object []) stack)
  | .firstName stack, token => token.name?.map fun name => .afterName [] name stack
  | .nextName members stack, token => token.name?.map fun name => .afterName members name stack
  | .afterName members name stack, .colon => some (.value (.member members name :: stack))
  | .afterItem items stack, .comma => some (.value (.array items :: stack))
  | .afterItem items stack, .closeArray => some (finish (.array items.reverse) stack)
  | .afterMember members stack, .comma => some (.nextName members stack)
  | .afterMember members stack, .closeObject => some (finish (ofMembers members.reverse) stack)
  | _, _ => none

end Machine

def parse? (text : List Char) : Option Json := do
  let tokens ← lex? text
  match ← tokens.foldlM Machine.step? (.value []) with
  | .done value => some value
  | _ => none

end Isolation.Json
