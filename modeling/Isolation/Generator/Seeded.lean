import Isolation.Generator.Basic

/-!
# Choices From a Seed

A seed is a number from which all choices follow. Each choice is a well mixed word that depends on the
seed and on what the choice is about, so the choices of a recording look unrelated and still the same
seed gives the same recording.

## Main definitions

* `Generator.Choices.ofSeed`: The choices that follow from a seed.
-/

namespace Isolation.Generator

/-- Mixes the bits of a word. -/
def mix (word : UInt64) : UInt64 :=
  let z := word + 0x9e3779b97f4a7c15
  let z := (z ^^^ (z >>> 30)) * 0xbf58476d1ce4e5b9
  let z := (z ^^^ (z >>> 27)) * 0x94d049bb133111eb
  z ^^^ (z >>> 31)

/-- A well mixed word that depends on a seed and on two numbers. -/
def draw (seed : UInt64) (a b : Nat) : UInt64 :=
  mix (mix (mix seed + UInt64.ofNat a) + UInt64.ofNat b)

def Choices.ofSeed (seed : UInt64) : Choices where
  next number := (draw (seed + 1) number 0).toNat
  lag number := (draw (seed + 2) number 0).toNat
  touched number i := (draw (seed + 3) number i).toNat
  wantsRead number i := (draw (seed + 4) number i) % 2 == 0

/-- There are enough identifiers, and a list can hold that many recordings. -/
def canCount (p : Parameters) (count : Nat) : Bool :=
  p.id.toNat + count ≤ UInt64.size && count * 128 ≤ byteLimit

/-- Several recordings with their parameters. The identifiers are consecutive, and every recording has
    choices of its own. -/
def recordings? (p : Parameters) (count : Nat) (seed : UInt64) :
    Option (List (Parameters × List (Recorded.Session UInt64 UInt64))) :=
  if !canCount p count then none
  else (List.range count).mapM fun i =>
    let parameters := { p with id := p.id + UInt64.ofNat i }
    (recording? p (.ofSeed (mix (seed + UInt64.ofNat i)))).map fun sessions =>
      (parameters, sessions)

end Isolation.Generator
