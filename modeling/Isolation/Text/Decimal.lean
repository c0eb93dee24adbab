/-!
# Decimal Numbers

Values are 64-bit words, and two readers of decimal numbers meet them. The strict reader takes the
longest number at the front of a text, without leading zeros; this is how values stand in a
transcript. The whole-text reader asks whether a complete key is a number; it tolerates a leading
plus sign and leading zeros. Both refuse what does not fit into a word.

## Main definitions

* `takeWord?`, `wordOfText?`: Reading a number at the front of a text, and from all of it.
-/

namespace Isolation.Text

/-- The number denoted by decimal digits, most significant first. -/
def decimalValue (digits : List Char) : Nat :=
  digits.foldl (fun n c => 10 * n + (c.toNat - '0'.toNat)) 0

/-- A natural number as a 64-bit word, if it fits. -/
def wordOfNat? (n : Nat) : Option UInt64 :=
  if n < UInt64.size then some (UInt64.ofNat n) else none

/-- The longest number without leading zeros at the front of a text, and what follows it. A zero
    stands alone, whatever digits follow; a number that does not fit is no number at all. -/
def takeWord? : List Char → Option (UInt64 × List Char)
  | [] => none
  | c :: rest =>
    if c = '0' then some (0, rest)
    else if c.isDigit then
      (wordOfNat? (decimalValue (c :: rest.takeWhile Char.isDigit))).map
        fun word => (word, rest.dropWhile Char.isDigit)
    else none

/-- The word a complete text denotes: digits, after at most one plus sign. -/
def wordOfText? (text : List Char) : Option UInt64 :=
  let digits := match text with
    | '+' :: rest => rest
    | _ => text
  if digits ≠ [] && digits.all Char.isDigit then wordOfNat? (decimalValue digits) else none

end Isolation.Text
