import Isolation.Precedence.Basic
import Isolation.SortedList

/-!
# Constraints

Two transactions that write a common key are ordered one way or the other, and nothing in the recording
says which. If the first comes before the second, then so does everybody who read the first's value of
the key. A constraint holds both possibilities, each with the edges it would bring, for all keys that
the two have in common.

## Main definitions

* `Constraint`, `constraints`: Two possibilities, and those that a history leaves open.
-/

namespace Isolation

/-- An edge that one side of a constraint would bring. -/
structure SideEdge (κ : Type) where
  source : TransactionId
  target : TransactionId
  kind : EdgeKind
  key : κ
deriving DecidableEq

namespace SideEdge

variable {κ : Type}

instance [Ord κ] : Ord (SideEdge κ) where
  compare a b := (compare a.source b.source).then <| (compare a.target b.target).then <|
    (compare a.kind b.kind).then (compare a.key b.key)

def label (e : SideEdge κ) : Label κ := .keyed e.kind e.key

def text [Render κ] (e : SideEdge κ) : String :=
  e.source.text ++ " -" ++ e.kind.text ++ "(" ++ Render.quoted e.key ++ ")-> " ++ e.target.text

end SideEdge

/-- Two transactions with a common key, and what follows from either order. -/
structure Constraint (κ : Type) where
  first : TransactionId
  second : TransactionId
  /-- The edges if the first transaction comes first. -/
  forward : List (SideEdge κ)
  /-- The edges if the second transaction comes first. -/
  backward : List (SideEdge κ)
deriving DecidableEq

instance {κ : Type} [Ord κ] : Ord (Constraint κ) where
  compare a b := (compare a.first b.first).then <| (compare a.second b.second).then <|
    (compare a.forward b.forward).then (compare a.backward b.backward)

/-- A transaction with the keys it writes, and for each of them who read it. -/
structure Writer (κ : Type) where
  id : TransactionId
  versions : List (κ × List TransactionId)

namespace Constraint

variable {κ : Type}

/-- Every transaction that a constraint mentions, sorted. -/
def transactions (c : Constraint κ) : List TransactionId :=
  SortedList.ofList
    ((c.forward ++ c.backward).flatMap (fun e => [e.source, e.target]) ++ [c.first, c.second])

/-- The edges of one side, separated by commas. -/
def sideText [Render κ] (edges : List (SideEdge κ)) : String :=
  ", ".intercalate (edges.map SideEdge.text)

def text [Render κ] (c : Constraint κ) : String :=
  c.first.text ++ " / " ++ c.second.text ++ ": [" ++ sideText c.forward ++ "] or [" ++
    sideText c.backward ++ "]"

/-- The edges that a common key brings if one writer of it comes before another. -/
def keyEdges (first second : TransactionId) (key : κ) (readers : List TransactionId) :
    List (SideEdge κ) :=
  ⟨first, second, .writeWrite, key⟩ ::
    (readers.filter (· ≠ second)).map fun reader => ⟨reader, second, .readWrite, key⟩

/-- The edges if one transaction comes before the other. -/
def side [DecidableEq κ] [Ord κ] (first second : Writer κ) : List (SideEdge κ) :=
  SortedList.ofList <|
    (first.versions.filter fun version => second.versions.any fun other => other.1 = version.1).flatMap
      fun (key, readers) => keyEdges first.id second.id key readers

/-- The constraint between two transactions, if they have a key in common. -/
def between? [DecidableEq κ] [Ord κ] (first second : Writer κ) : Option (Constraint κ) :=
  if first.versions.any fun version => second.versions.any fun other => other.1 = version.1 then
    some ⟨first.id, second.id, side first second, side second first⟩
  else none

end Constraint

/-- A transaction as a writer: its keys, each once, with their readers. -/
def Precedence.writer {κ ν : Type} [DecidableEq κ] (g : Precedence κ) (t : Transaction κ ν) :
    Writer κ :=
  ⟨t.id, ((t.writes.map Event.key).eraseDups).map fun key => (key, g.readers key t.id)⟩

/-- The constraints among writers, earlier ones first. -/
def constraintsAmong {κ : Type} [DecidableEq κ] [Ord κ] : List (Writer κ) → List (Constraint κ)
  | [] => []
  | first :: rest => rest.filterMap (Constraint.between? first) ++ constraintsAmong rest

/-- The constraints of a history, one for every two transactions with a key in common. -/
def constraints {κ ν : Type} [DecidableEq κ] [Ord κ] (h : History κ ν) (g : Precedence κ) :
    List (Constraint κ) :=
  constraintsAmong (h.transactions.map g.writer)

end Isolation
