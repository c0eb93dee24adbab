import Isolation.Precedence.Constraint
import Isolation.SortedMap

/-!
# Gathering Constraints

The constraints of a history come from one pass over the keys. Every key has its writers. Two of them bring
an edge in either direction, and whoever read the key from one of them brings an edge to each of the others.
Each of these edges goes to the direction it belongs to, so that edges of many keys come together there. In
the end two opposite directions are the two sides of one constraint.

## Main definitions

* `writerEdges`, `readerEdges`: What the writers and the readers of a key bring.
* `gatherConstraints`: The constraints of a history.
-/

namespace Isolation

variable {κ ν : Type}

/-- The transactions that write a key, for every key that is written. -/
def History.writersByKey [Ord κ] (h : History κ ν) : List (κ × List TransactionId) :=
  SortedMap.gather SortedList.insert
    (h.transactions.flatMap fun t => t.writes.map fun e => (e.key, t.id))

/-- An edge for one direction: the first transaction comes before the second. -/
abbrev Directed (κ : Type) := (TransactionId × TransactionId) × SideEdge κ

/-- What the writers of a key bring. Each goes through those that are not before it, but for the first of
    them, which is the writer itself. -/
def writerEdges (key : κ) (group : List TransactionId) : List (Directed κ) :=
  group.flatMap fun first =>
    ((group.filter fun id => compare id first ≠ .lt).drop 1).flatMap fun second =>
      [((first, second), ⟨first, second, .writeWrite, key⟩),
        ((second, first), ⟨second, first, .writeWrite, key⟩)]

/-- What the readers of a key bring: an edge to every other writer. -/
def readerEdges [DecidableEq κ] (g : Precedence κ) (key : κ) (group : List TransactionId) :
    List (Directed κ) :=
  group.flatMap fun writer => (g.readers key writer).flatMap fun reader =>
    (group.filter fun other => ¬(other = writer ∨ other = reader)).map fun other =>
      ((writer, other), ⟨reader, other, .readWrite, key⟩)

/-- The edges of every direction that has some, key by key, the writers of a key before its readers. -/
def sidesByPair [DecidableEq κ] [Ord κ] (h : History κ ν) (g : Precedence κ) :
    List ((TransactionId × TransactionId) × List (SideEdge κ)) :=
  SortedMap.gather SortedList.insert (h.writersByKey.flatMap fun entry =>
    writerEdges entry.1 entry.2 ++ readerEdges g entry.1 entry.2)

/-- The constraints of a history. The directions that lead upwards give the constraints, and each looks up
    the opposite direction. -/
def gatherConstraints [DecidableEq κ] [Ord κ] (h : History κ ν) (g : Precedence κ) :
    List (Constraint κ) :=
  let sides := sidesByPair h g
  (sides.filter fun side => compare side.1.1 side.1.2 = .lt).map fun side =>
    ⟨side.1.1, side.1.2, side.2, (sides.lookup side.1.swap).getD []⟩

end Isolation
