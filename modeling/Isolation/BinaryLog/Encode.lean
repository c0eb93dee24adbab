import Isolation.BinaryLog.Basic

/-!
# Writing Binary Logs

Everything is written as having succeeded, except that a transaction which did not commit is written as
one that failed. A read of an initial value is written as a read of zero.

## Main definitions

* `BinaryLog.encode`: The bytes of a log.
-/

namespace Isolation.BinaryLog

/-- The given number of bytes of a number, the lowest first. -/
def littleEndian : Nat → Nat → List UInt8
  | 0, _ => []
  | width + 1, n => UInt8.ofNat (n % 256) :: littleEndian width (n / 256)

/-- The bytes of a word. -/
def wordBytes (w : UInt64) : List UInt8 :=
  littleEndian 8 w.toNat

def flagBytes (b : Bool) : List UInt8 :=
  [if b then 1 else 0]

/-- The bytes of a text, behind their number. -/
def textBytes (text : String) : List UInt8 :=
  let bytes := Text.encodeUtf8 text.toList
  wordBytes (UInt64.ofNat bytes.length) ++ bytes

/-- The items of a list, behind their number. -/
def listBytes {α : Type} (item : α → List UInt8) (items : List α) : List UInt8 :=
  wordBytes (UInt64.ofNat items.length) ++ items.flatMap item

def eventBytes : Recorded.Event UInt64 UInt64 → List UInt8
  | .write key value => flagBytes true ++ wordBytes key ++ wordBytes value ++ flagBytes true
  | .read key value =>
    flagBytes false ++ wordBytes key ++ wordBytes (value.getD 0) ++ flagBytes true

def transactionBytes (t : Recorded.Transaction UInt64 UInt64) : List UInt8 :=
  listBytes eventBytes t.events ++ flagBytes t.committed

def headerBytes (header : Header) : List UInt8 :=
  wordBytes header.id ++ wordBytes header.sessionCount ++ wordBytes header.variableCount ++
    wordBytes header.transactionCount ++ wordBytes header.eventCount ++ textBytes header.info ++
    textBytes header.start ++ textBytes header.stop

def encode (log : BinaryLog) : List UInt8 :=
  headerBytes log.header ++ listBytes (listBytes transactionBytes) log.sessions

end Isolation.BinaryLog
