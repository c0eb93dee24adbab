import Isolation.Recorded.Basic
import Isolation.Text.Decimal

/-!
# Numbered Keys

The binary log and the JSON form have numbers as keys. If all keys of a recording read as numbers, they
keep their value; otherwise every key gets the number of distinct keys that occur before it.

## Main definitions

* `Recorded.numberKeys`: A recording with numbers as keys.
-/

namespace Isolation.Recorded

variable {ν : Type}

/-- All keys read as numbers. -/
def allDecimal (sessions : List (Session String ν)) : Bool :=
  (keys sessions).all fun key => (Text.wordOfText? key.toList).isSome

/-- The number of distinct keys before the first occurrence of a key. -/
def firstAppearance (distinct : List String) (key : String) : UInt64 :=
  UInt64.ofNat (distinct.idxOf key)

def numberKeys (sessions : List (Session String ν)) : List (Session UInt64 ν) :=
  if allDecimal sessions then
    mapKeys (fun key => (Text.wordOfText? key.toList).getD 0) sessions
  else
    let distinct := (keys sessions).eraseDups
    mapKeys (firstAppearance distinct) sessions

def nameKeys (sessions : List (Session UInt64 ν)) : List (Session String ν) :=
  mapKeys (fun key => Nat.repr key.toNat) sessions

end Isolation.Recorded
