import Isolation.Transaction

/-!
# Labels

Why one transaction precedes another. In session order, the first is issued before the second by the
same client. In a write-read dependency, the second reads a value the first wrote. In a write-write
dependency, the second overwrites a value of the first. In a read-write dependency, also called an
anti-dependency, the second overwrites a value the first has read.

## Main definitions

* `EdgeKind`, `Label`: The four reasons, and a reason with the key it concerns.
-/

namespace Isolation

/-- The reasons for which one transaction precedes another. -/
inductive EdgeKind where
  | sessionOrder
  | writeRead
  | writeWrite
  | readWrite
deriving DecidableEq, Repr

namespace EdgeKind

def text : EdgeKind → String
  | .sessionOrder => "SO"
  | .writeRead => "WR"
  | .writeWrite => "WW"
  | .readWrite => "RW"

/-- The place of a kind in the order of kinds. -/
def rank : EdgeKind → Nat
  | .sessionOrder => 0
  | .writeRead => 1
  | .writeWrite => 2
  | .readWrite => 3

instance : Ord EdgeKind where
  compare := compareOn rank

end EdgeKind

/-- A reason, and the key it concerns unless it is session order. -/
structure Label (κ : Type) where
  kind : EdgeKind
  key : Option κ
deriving DecidableEq

namespace Label

variable {κ : Type}

def session : Label κ := ⟨.sessionOrder, none⟩

def keyed (kind : EdgeKind) (key : κ) : Label κ := ⟨kind, some key⟩

def isTagged (label : Label κ) : Bool :=
  label.kind != .sessionOrder

def isAnti (label : Label κ) : Bool :=
  label.kind == .readWrite

def text [Render κ] (label : Label κ) : String :=
  match label.key with
  | some key => label.kind.text ++ "(" ++ Render.quoted key ++ ")"
  | none => label.kind.text

end Label

end Isolation
