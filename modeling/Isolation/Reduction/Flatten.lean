import Isolation.Recorded.Load
import Isolation.Reduction.Basic

/-!
# Reduced Recordings

The reduction as a conversion of recordings. Conflict keys become ordinary keys, named `_c` and their
number, and made-up values become ordinary ones. So that nothing is confused, keys that start like a
conflict key are refused in the input.

## Main definitions

* `Recorded.serializableForm`: The recording whose serializability is to be checked.
-/

namespace Isolation

/-- Why a recording cannot be reduced. -/
inductive FlattenError where
  | reservedKey (key : String)
  | history (error : HistoryError String UInt64)
  | reduction (error : History.ReductionError String UInt64)

def FlattenError.message : FlattenError → String
  | .reservedKey key => "key " ++ Text.quote key ++ " is reserved for generated conflict keys"
  | .history error => error.message
  | .reduction error => "cannot transform history: " ++ error.message

namespace Recorded

/-- The key could be taken for a conflict key. -/
def isReserved (key : String) : Bool :=
  key.toList.take 2 = ['_', 'c']

/-- A value of a reduction as an ordinary value. -/
def flatValue : ReducedValue UInt64 → UInt64
  | .plain value => value
  | .generated n => UInt64.ofNat n

/-- An event of a reduction as an ordinary event. -/
def flatEvent (e : Event (ReducedKey String) (ReducedValue UInt64)) : Event String UInt64 :=
  (e.mapKey Render.plain).mapValue flatValue

/-- The recording whose serializability decides the snapshot isolation of the given one. -/
def serializableForm (sessions : List (Session String UInt64)) :
    Except FlattenError (List (Session String UInt64)) :=
  match (keys sessions).find? isReserved with
  | some key => .error (.reservedKey key)
  | none =>
    match History.load sessions with
    | .error error => .error (.history error)
    | .ok h =>
      match h.reduce with
      | .error error => .error (.reduction error)
      | .ok reduced => .ok (mapEvents flatEvent reduced.recording)

end Recorded

end Isolation
