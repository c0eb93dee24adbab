import Isolation.Recorded.Basic
import Isolation.Text.Decimal
import Isolation.Transcript.Combinators
import Isolation.Transcript.Token

/-!
# Reading Transcripts

A transcript is read line by line. Between blanks, a line is empty, or a run of dashes that closes the
current session, or a comment, or transactions in brackets. A transaction lists its events, an event
is a key with a value stored or seen, and a question mark stands for the initial value.

Each part of the grammar is a reader that is composed of the readers of its own parts. A key commits to
an event, and an opening bracket commits to a transaction. Everything else is undone if it fails: the
blanks behind the last item of a list, the first sign of an event, and the body of a line.

When a line cannot be read, the first stray character of the whole text may lie before the fault. It is
then the better explanation, and the error moves there, even if the character was part of a key that is
fine by itself.

## Main definitions

* `readEvent`, `readBlock`, `readLine`: The parts of a transcript.
* `parse`: The sessions of a transcript, or where and why it cannot be read.
-/

namespace Isolation.Transcript

open Reader

/-- Events of transcripts have texts as keys and words as values. -/
abbrev Entry : Type := Recorded.Event String UInt64

abbrev Block : Type := Recorded.Transaction String UInt64

/-- What a line contributes. -/
inductive Line where
  | blank
  | separator
  | blocks (blocks : List Block)
deriving DecidableEq

section Events

def blanks : Reader (List Char) :=
  someRun isBlank

theorem blanks_consumes : blanks.Consumes :=
  someRun_consumes isBlank

def readKey : Reader String :=
  (String.ofList <$> someRun Text.isKeyChar).remarked (.part "key")

theorem takeWord?_suffix {text rest : List Char} {value : UInt64}
    (h : Text.takeWord? text = some (value, rest)) : rest <:+ text := by
  cases text with
  | nil => simp [Text.takeWord?] at h
  | cons c tail =>
    simp only [Text.takeWord?] at h
    split at h
    · simp only [Option.some.injEq, Prod.mk.injEq] at h
      exact h.2 ▸ List.suffix_cons c tail
    · split at h
      · simp only [Option.map_eq_some_iff, Prod.mk.injEq] at h
        obtain ⟨word, -, -, rfl⟩ := h
        exact (List.dropWhile_suffix _).trans (List.suffix_cons c tail)
      · simp at h

/-- Reads a value without anything to say about its faults. -/
def readWord : Reader UInt64 where
  read text :=
    match Text.takeWord? text with
    | some (value, rest) => .done value rest
    | none => .backtrack ⟨text, []⟩
  suffix h := by
    split at h
    · rename_i hword
      cases h
      exact takeWord?_suffix hword
    · cases h

def readValue : Reader UInt64 :=
  readWord.remarked (.expected "a value")

/-- Reads what follows a key: a write, a read of the initial value, or a read. -/
def readAccess (key : String) : Reader Entry :=
  Reader.orElse (do sign [':', '=']; return .write key (← readValue)) <|
  Reader.orElse (do sign ['=', '=', '?']; return .read key none) <|
  do sign ['=', '=']; return .read key (some (← readValue))

/-- Reads an event: a key and what is done to it. -/
def readEvent : Reader Entry := do
  let key ← readKey
  ((readAccess key).committed.remarked (.expected "`:=`")).remarked (.expected "`==`")

end Events

section Lines

/-- Reads a transaction. -/
def readBlock : Reader Block := do
  sign ['[']
  let entries ← (separated blanks blanks_consumes readEvent).committed.remarked (.part "transaction")
  (sign [']']).committed.remarked (.expected "`]`")
  let mark ← (sign ['!']).optional
  return ⟨entries, mark.isNone⟩

/-- Reads up to a line end. A carriage return by itself is none. -/
def restOfLine : Reader Unit where
  read text :=
    let rest := text.dropWhile (!isLineBreak ·)
    if ['\r'].isPrefixOf rest && !(['\r', '\n'].isPrefixOf rest) then .backtrack ⟨rest, []⟩
    else .done () rest
  suffix h := by
    dsimp only at h
    split at h
    · cases h
    · cases h
      exact List.dropWhile_suffix _

/-- Reads the body of a line: dashes, a comment, or transactions. -/
def readBody : Reader Line :=
  Reader.orElse (do let _ ← someRun (· == '-'); return .separator) <|
  Reader.orElse (do sign ['/', '/']; restOfLine; return .blank) <|
  .blocks <$> separated blanks blanks_consumes readBlock

def readContent : Reader Line := do
  let _ ← run isBlank
  let body ← readBody.optional
  let _ ← run isBlank
  return body.getD .blank

def lineEnd : Reader Unit :=
  Reader.orElse (sign ['\n']) <| Reader.orElse (sign ['\r', '\n']) endOfText

/-- Reads a line. -/
def readLine : Reader Line := do
  let line ← readContent
  lineEnd
  return line

end Lines

section Lengths

/-- A line end is a line feed, a carriage return and a line feed, or the end of the text. -/
theorem lineEnd_cases {text rest : List Char} (h : lineEnd.read text = .done () rest) :
    text = '\n' :: rest ∨ text = '\r' :: '\n' :: rest ∨ text = [] ∧ rest = [] := by
  simp only [lineEnd, Reader.orElse] at h
  split at h
  · rename_i hfeed
    cases h
    exact .inl (sign_eq_done_iff.mp hfeed)
  · split at h
    · rename_i hreturn
      cases h
      exact .inr (.inl (sign_eq_done_iff.mp hreturn))
    · simp only [endOfText] at h
      split at h
      · rename_i hempty
        cases h
        exact .inr (.inr ⟨List.isEmpty_iff.mp hempty, List.isEmpty_iff.mp hempty⟩)
      · cases h
    · cases h
  · cases h

/-- A line takes something, unless there is nothing left. -/
theorem readLine_length {text rest : List Char} {line : Line} (hne : text ≠ [])
    (h : readLine.read text = .done line rest) : rest.length < text.length := by
  simp only [readLine, read_bind, Reply.andThen_eq_done_iff] at h
  obtain ⟨found, behind, hfound, _, left, hend, h⟩ := h
  cases h
  have hle := (readContent.suffix hfound).length_le
  rcases lineEnd_cases hend with rfl | rfl | ⟨-, rfl⟩
  · simp only [List.length_cons] at hle
    omega
  · simp only [List.length_cons] at hle
    omega
  · exact List.length_pos_iff.mpr hne

end Lengths

def readLines (text : List Char) : Except Fault (List Line) :=
  if _hempty : text = [] then .ok []
  else
    match _hread : readLine.read text with
    | .done line rest => (readLines rest).map (line :: ·)
    | .backtrack fault => .error fault
    | .cut fault => .error fault
termination_by text.length
decreasing_by
  exact readLine_length _hempty _hread

/-- The sessions that lines amount to. There is always one, and every separator opens another. -/
def sessionsOf : List Line → List (Recorded.Session String UInt64)
  | [] => [[]]
  | .blank :: rest => sessionsOf rest
  | .separator :: rest => [] :: sessionsOf rest
  | .blocks blocks :: rest =>
    match sessionsOf rest with
    | session :: sessions => (blocks ++ session) :: sessions
    | [] => [blocks]

/-- The lines of a text, cut at line feeds. There is always a last line, possibly empty. -/
def splitLines : List Char → List (List Char)
  | [] => [[]]
  | c :: rest =>
    if c = '\n' then [] :: splitLines rest
    else match splitLines rest with
      | line :: lines => (c :: line) :: lines
      | [] => [[c]]

/-- A place in a text; lines and columns are counted from one, columns in characters. -/
structure Position where
  line : Nat
  column : Nat
deriving DecidableEq, Repr

def Position.after (text : List Char) : Position :=
  let all := splitLines text
  ⟨all.length, (all.getLast?.getD []).length + 1⟩

/-- Why a transcript cannot be read. -/
inductive Cause where
  | refused (remarks : List Remark)
  /-- The text holds a character that belongs to no token. -/
  | stray (c : Char)
deriving DecidableEq

/-- The innermost part that is named in remarks. -/
def Remark.part? (remarks : List Remark) : Option String :=
  remarks.findSome? fun
    | .part name => some name
    | .expected _ => none

/-- All that could have stood there, by the remarks. -/
def Remark.alternatives (remarks : List Remark) : List String :=
  remarks.filterMap fun
    | .part _ => none
    | .expected what => some what

def Cause.message : Cause → String
  | .refused remarks =>
    let part := (Remark.part? remarks).toList.map ("invalid " ++ ·)
    let expected := match Remark.alternatives remarks with
      | [] => []
      | all => ["expected " ++ ", ".intercalate all]
    match part ++ expected with
    | [] => "unexpected input"
    | said => "\n".intercalate said
  | .stray c => "unexpected `" ++ String.singleton c ++ "`"

/-- Where and why a transcript cannot be read. -/
structure ParseError where
  position : Position
  cause : Cause
deriving DecidableEq

def ParseError.message (error : ParseError) : String :=
  "parse error at line " ++ Nat.repr error.position.line ++ ", column " ++
    Nat.repr error.position.column ++ ": " ++ error.cause.message

/-- The error that a fault in a text stands for. It moves to the first stray character of the text, if
    that comes no later. -/
def Fault.explain (text : List Char) (fault : Fault) : ParseError :=
  let before := text.take (text.length - fault.rest.length)
  let refused := ⟨Position.after before, .refused fault.remarks⟩
  match firstStray? text with
  | none => refused
  | some (clean, c) =>
    if clean.length ≤ before.length then ⟨Position.after clean, .stray c⟩ else refused

def parse (text : List Char) : Except ParseError (List (Recorded.Session String UInt64)) :=
  match readLines text with
  | .ok lines => .ok (sessionsOf lines)
  | .error fault => .error (fault.explain text)

end Isolation.Transcript
