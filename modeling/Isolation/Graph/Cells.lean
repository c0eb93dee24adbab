import Isolation.Total

/-!
# Packed Cells

A table with one cell for every pair of nodes, each cell set or clear. Sixty-four cells make a word, the
words of a row stand next to each other, and all rows stand in one vector. When the number of nodes is
no multiple of sixty-four, the last word of every row has cells left over that stand for no pair. The
operations on whole words do not look at the number of nodes, so these cells stay clear only because no
operation is ever given a row in which one is set.

Set cells are listed word by word: the lowest one is read off and cleared until the word is zero.

## Main definitions

* `Cells`, `Cells.set`, `Cells.ones`: The words of some rows, setting a cell, and listing the set ones.
-/

namespace Isolation

def bitCount (n : Nat) : Nat :=
  if n = 0 then 0 else n % 2 + bitCount (n / 2)
termination_by n

namespace Word

def single (k : Nat) : UInt64 :=
  1 <<< UInt64.ofNat k

/-- A cell of a word is set. -/
def test (word : UInt64) (k : Nat) : Bool :=
  word &&& single k != 0

def lowest (word : UInt64) : Nat :=
  ((List.range 64).find? (test word)).getD 64

def dropLowest (word : UInt64) : UInt64 :=
  word &&& (word - 1)

theorem toNat_sub_one {word : UInt64} (hword : word ≠ 0) : (word - 1).toNat = word.toNat - 1 := by
  have hpos : word.toNat ≠ 0 := fun h => hword (UInt64.toNat_inj.1 h)
  have hle : (1 : UInt64) ≤ word := UInt64.le_iff_toNat_le.2 (Nat.one_le_iff_ne_zero.2 hpos)
  exact UInt64.toNat_sub_of_le _ _ hle

theorem toNat_dropLowest_lt {word : UInt64} (hword : word ≠ 0) :
    (dropLowest word).toNat < word.toNat := by
  have hpos : word.toNat ≠ 0 := fun h => hword (UInt64.toNat_inj.1 h)
  have hle : (dropLowest word).toNat ≤ word.toNat - 1 := by
    rw [dropLowest, UInt64.toNat_and, toNat_sub_one hword]
    exact Nat.and_le_right
  omega

/-- The cells that are set, in ascending order. -/
def ones (word : UInt64) : List Nat :=
  if word = 0 then [] else lowest word :: ones (dropLowest word)
termination_by word.toNat
decreasing_by exact toNat_dropLowest_lt ‹_›

end Word

def rowWords (size : Nat) : Nat :=
  (size + 63) / 64

/-- Rows of cells, each with a cell for every node. -/
structure Cells (rows size : Nat) where
  words : Vector UInt64 (rows * rowWords size)
deriving DecidableEq

abbrev CellRow (size : Nat) : Type := Cells 1 size

namespace Cells

variable {rows size : Nat}

def empty : Cells rows size := ⟨Vector.replicate _ 0⟩

def word (cells : Cells rows size) (i k : Nat) : UInt64 :=
  if k < rowWords size then cells.words[i * rowWords size + k]?.getD 0 else 0

def update (cells : Cells rows size) (i k : Nat) (change : UInt64 → UInt64) : Cells rows size :=
  if k < rowWords size then
    ⟨cells.words.setIfInBounds (i * rowWords size + k) (change (cells.word i k))⟩
  else cells

def updateRow (cells : Cells rows size) (i : Nat) (change : Nat → UInt64 → UInt64) :
    Cells rows size :=
  (List.range (rowWords size)).foldl (fun cells k => cells.update i k (change k)) cells

/-- A cell is set. -/
def test (cells : Cells rows size) (i j : Nat) : Bool :=
  Word.test (cells.word i (j / 64)) (j % 64)

def set (cells : Cells rows size) (i j : Nat) : Cells rows size :=
  cells.update i (j / 64) (· ||| Word.single (j % 64))

/-- The cells that are set in a row, in ascending order. -/
def ones (cells : Cells rows size) (i : Nat) : List Nat :=
  (List.range (rowWords size)).flatMap fun k => (Word.ones (cells.word i k)).map (64 * k + ·)

def row (cells : Cells rows size) (i : Nat) : CellRow size :=
  ⟨Vector.ofFn fun k => cells.word i k⟩

def putRow (cells : Cells rows size) (i : Nat) (row : CellRow size) : Cells rows size :=
  cells.updateRow i fun k _ => row.word 0 k

/-- Sets the cells of a row that are set in another. -/
def joinRow (cells : Cells rows size) (i : Nat) (row : CellRow size) : Cells rows size :=
  cells.updateRow i fun k word => word ||| row.word 0 k

/-- The cells that are set on one side or the other. -/
def join (a b : Cells rows size) : Cells rows size :=
  ⟨Vector.zipWith (· ||| ·) a.words b.words⟩

def count (cells : Cells rows size) : Nat :=
  total (fun word => bitCount word.toNat) cells.words.toList

end Cells

end Isolation
