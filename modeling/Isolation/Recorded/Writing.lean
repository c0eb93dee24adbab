import Isolation.BinaryLog.Encode
import Isolation.Recorded.Encoding
import Isolation.Recorded.Format
import Isolation.Recorded.Numbering

/-!
# Writing Recordings

The bytes of a recording, for each format. Binary logs and JSON get numbers for keys.

## Main definitions

* `Recorded.write`: The bytes of a recording.
-/

namespace Isolation.Recorded

def textBytes (text : String) : List UInt8 :=
  Text.encodeUtf8 text.toList

/-- The bytes of a recording. A binary log also says where it comes from. -/
def write (format : Format) (info : String) (sessions : List (Session String UInt64)) :
    List UInt8 :=
  match format with
  | .text => textBytes (transcript sessions)
  | .binary => (BinaryLog.ofSessions (numberKeys sessions) info).encode
  | .json => textBytes (JsonCodec.encode (numberKeys sessions)).pretty

end Isolation.Recorded
