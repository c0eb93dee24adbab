import Isolation.BinaryLog.Decode
import Isolation.Envelope
import Isolation.Recorded.Format
import Isolation.Recorded.Load
import Isolation.Transcript.Reader

/-!
# Reading Recordings

What the bytes of a file say, for each format, and how they can fail to say anything. Keys are texts; the
numbers that binary logs and JSON have for keys become decimal texts.

## Main definitions

* `Recorded.read`: The recording in the bytes of a file.
* `History.ofTranscript`, `History.ofLog`: The history in a transcript and in a binary log.
-/

namespace Isolation

/-- Why bytes are no recording, or no history. -/
inductive LoadError (κ : Type) where
  /-- A format made of characters, but bytes that are none. -/
  | notText
  | transcript (error : Transcript.ParseError)
  | log (error : LogError)
  | json
  | history (error : HistoryError κ UInt64)

def LoadError.message {κ : Type} [Render κ] : LoadError κ → String
  | .notText => "stream did not contain valid UTF-8"
  | .transcript error => error.message
  | .log error => error.message
  | .json => "invalid JSON history: neither sessions nor an envelope of sessions"
  | .history error => "invalid history: " ++ error.message

namespace Recorded

def readText {κ : Type} (bytes : List UInt8) : Except (LoadError κ) (List Char) :=
  (Text.decodeUtf8 bytes).mapError fun _ => .notText

def read (format : Format) (bytes : List UInt8) :
    Except (LoadError String) (List (Session String UInt64)) :=
  match format with
  | .text => (readText bytes).bind fun text => (Transcript.parse text).mapError .transcript
  | .binary => ((BinaryLog.decode bytes).mapError .log).map fun log => nameKeys log.sessions
  | .json => (readText bytes).bind fun text =>
    match Envelope.recording? text with
    | some sessions => .ok (nameKeys sessions)
    | none => .error .json

end Recorded

namespace History

def ofTranscript (text : List Char) : Except (LoadError String) (History String UInt64) :=
  ((Transcript.parse text).mapError .transcript).bind fun sessions =>
    (load sessions).mapError .history

def ofLog (bytes : List UInt8) : Except (LoadError UInt64) (History UInt64 UInt64) :=
  ((BinaryLog.decode bytes).mapError .log).bind fun log => (load log.sessions).mapError .history

end History

end Isolation
