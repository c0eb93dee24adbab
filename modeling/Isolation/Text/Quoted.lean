import Isolation.Text.Visible

/-!
# Quoted Text

The form in which messages show a key: between double quotes, with everything that could not be
read back from the page written as an escape. Six characters have a short escape; any other
character that is not shown as itself is written as its code point in hexadecimal between braces.

The class `Render` gathers the two ways in which keys and values appear in output. Listings show
them plainly, messages show them quoted; for numbers the two agree.

## Main definitions

* `quoteChar`, `quote`: The quoted form of a character and of a text.
-/

namespace Isolation

namespace Text

/-- The hexadecimal digits of a code point, without leading zeros. -/
def hexDigits (n : Nat) : List Char :=
  Nat.toDigits 16 n

/-- One character inside a quoted text. -/
def quoteChar (c : Char) : List Char :=
  if c = '"' then ['\\', '"']
  else if c = '\\' then ['\\', '\\']
  else if c = '\n' then ['\\', 'n']
  else if c = '\r' then ['\\', 'r']
  else if c = '\t' then ['\\', 't']
  else if c = '\x00' then ['\\', '0']
  else if isShown c then [c]
  else ['\\', 'u', '\x7b'] ++ hexDigits c.toNat ++ ['\x7d']

/-- A text between double quotes. -/
def quote (s : String) : String :=
  String.ofList ('"' :: s.toList.flatMap quoteChar ++ ['"'])

end Text

/-- Keys and values appear in output in two ways. -/
class Render (α : Type) where
  plain : α → String
  quoted : α → String

instance : Render String where
  plain s := s
  quoted := Text.quote

instance : Render Nat where
  plain := Nat.repr
  quoted := Nat.repr

instance : Render UInt64 where
  plain n := Nat.repr n.toNat
  quoted n := Nat.repr n.toNat

end Isolation
