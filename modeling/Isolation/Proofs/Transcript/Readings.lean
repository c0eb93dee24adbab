import Isolation.Proofs.Transcript.Grammar

/-!
# The Texts That Are Transcripts

A transcript is a sequence of lines. Every line ends in a line feed, before which a carriage return may stand,
and only the last one may go without: it then ends where the text ends. The sessions are what stands between
the lines of dashes. A text that consists of such lines has been given a *reading*, and the reader accepts
exactly the texts that have one. It finds the reading, and there is no other.

A text can be cut into lines in more than one way: behind the last line feed there is an empty line, or there is
none. The two differ in a line that contributes nothing. They are the only ones, since the reader finds one of
them whatever reading it is given.

## Main definitions

* `Reading`: The text describes the sessions.

## Theorems

* `parse_accepts_grammar`: The reader finds the one reading that a text has.
-/

namespace Isolation.Transcript

open Text (map_eq_ok_iff)
open Reader (read_bind)

/-- A text that consists of lines. A line ends in a line feed, or in a carriage return and a line feed, or
    with the text. -/
inductive LinesText : List Char → List Line → Prop where
  | nil : LinesText [] []
  | last {text : List Char} {line : Line} : LineText text line → LinesText text [line]
  | feed {text rest : List Char} {line : Line} {more : List Line} :
      LineText text line → LinesText rest more → LinesText (text ++ '\n' :: rest) (line :: more)
  | returnFeed {text rest : List Char} {line : Line} {more : List Line} :
      LineText text line → LinesText rest more → LinesText (text ++ '\r' :: '\n' :: rest) (line :: more)

/-- The transactions that a line contributes. -/
def Line.transactions : Line → List Block
  | .blocks listed => listed
  | _ => []

/-- The line ends a session. -/
def Line.isSeparator : Line → Bool
  | .separator => true
  | _ => false

/-- The sessions that lines describe: each holds the transactions between two separators. -/
def sessionsBetween (read : List Line) : List (Recorded.Session String UInt64) :=
  (read.splitOnP Line.isSeparator).map fun part => part.flatMap Line.transactions

/-- The text consists of lines that describe the sessions. -/
def Reading (text : List Char) (sessions : List (Recorded.Session String UInt64)) : Prop :=
  ∃ read, LinesText text read ∧ sessionsBetween read = sessions

section Sessions

theorem sessionsOf_ne_nil (read : List Line) : sessionsOf read ≠ [] := by
  fun_induction sessionsOf read with
  | case2 rest ih => exact ih
  | _ => exact List.cons_ne_nil _ _

theorem flatten_sessionsOf (read : List Line) :
    (sessionsOf read).flatten = read.flatMap Line.transactions := by
  fun_induction sessionsOf read with
  | case1 => rfl
  | case2 rest ih => simp [Line.transactions, ih]
  | case3 rest ih => simp [Line.transactions, ih]
  | case4 listed rest first sessions hrest ih =>
    rw [hrest] at ih
    simp [Line.transactions, ← ih]
  | case5 listed rest hrest ih => exact absurd hrest (sessionsOf_ne_nil rest)

theorem sessionsOf_eq_sessionsBetween (read : List Line) : sessionsOf read = sessionsBetween read := by
  unfold sessionsBetween
  induction read with
  | nil => rfl
  | cons line read ih =>
    -- The first of the parts behind the line is the one that the line belongs to.
    rcases hparts : read.splitOnP Line.isSeparator with _ | ⟨part, parts⟩
    · exact absurd hparts (List.splitOnP_ne_nil _ _)
    · rw [hparts] at ih
      rw [List.splitOnP_cons_eq_if_modifyHead, hparts]
      cases line with
      | blank => simp [sessionsOf, ih, Line.isSeparator, Line.transactions]
      | separator => simp [sessionsOf, ih, Line.isSeparator]
      | blocks listed => simp [sessionsOf, ih, Line.isSeparator, Line.transactions]

theorem sessionsOf_cons_congr (line : Line) {read other : List Line}
    (heq : sessionsOf read = sessionsOf other) : sessionsOf (line :: read) = sessionsOf (line :: other) := by
  cases line with
  | blank => simpa only [sessionsOf] using heq
  | separator => simp only [sessionsOf, heq]
  | blocks listed => simp only [sessionsOf, heq]

end Sessions

section Lines

variable {text rest : List Char} {line : Line}

theorem readLine_cases (hread : readLine.read text = .done line rest) :
    rest = [] ∧ LinesText text [line] ∨
      ∃ front, text = front ++ rest ∧
        ∀ {more read}, LinesText more read → LinesText (front ++ more) (line :: read) := by
  simp only [readLine, read_bind, Reply.andThen_eq_done_iff] at hread
  rcases hread with ⟨found, tail, hcontent, _, left, hend, hdone⟩
  cases hdone
  have hline := fits_readContent text
  rw [hcontent] at hline
  rcases hline with ⟨front, rfl, hline⟩
  rcases lineEnd_cases hend with rfl | rfl | ⟨rfl, rfl⟩
  · refine .inr ⟨front ++ ['\n'], by simp, fun {more read} hmore => ?_⟩
    rw [List.append_assoc]
    exact .feed hline hmore
  · refine .inr ⟨front ++ ['\r', '\n'], by simp, fun {more read} hmore => ?_⟩
    rw [List.append_assoc]
    exact .returnFeed hline hmore
  · rw [List.append_nil]
    exact .inl ⟨rfl, .last hline⟩

theorem readLines_nil : readLines [] = .ok [] := by
  rw [readLines.eq_def, dif_pos rfl]

theorem linesText_of_readLines {read : List Line} (hread : readLines text = .ok read) : LinesText text read := by
  fun_induction readLines text generalizing read with
  | case1 =>
    cases hread
    exact .nil
  | case2 text hne line rest hline ih =>
    rcases map_eq_ok_iff.mp hread with ⟨more, hmore, rfl⟩
    rcases readLine_cases hline with ⟨rfl, hlast⟩ | ⟨front, rfl, hstep⟩
    · cases readLines_nil.symm.trans hmore
      exact hlast
    · exact hstep (ih hmore)
  | case3 text hne fault hline => cases hread
  | case4 text hne fault hline => cases hread

theorem readLines_append {tail : List Char} (hline : LineText text line) (htail : LineTail tail rest)
    (hne : text ++ tail ≠ []) {more : List Line}
    (hmore : ∃ found, readLines rest = .ok found ∧ sessionsOf found = sessionsOf more) :
    ∃ found, readLines (text ++ tail) = .ok found ∧ sessionsOf found = sessionsOf (line :: more) := by
  rcases hmore with ⟨found, hfound, hsame⟩
  have hread := readLine_append hline htail
  refine ⟨line :: found, ?_, sessionsOf_cons_congr line hsame⟩
  rw [readLines.eq_def, dif_neg hne]
  split
  · rename_i hdone
    cases hread.symm.trans hdone
    rw [hfound]
    rfl
  · rename_i hfault
    cases hread.symm.trans hfault
  · rename_i hfault
    cases hread.symm.trans hfault

/-- A text that consists of lines is read, up to an empty line at its end. -/
theorem readLines_of_linesText {read : List Line} (hread : LinesText text read) :
    ∃ found, readLines text = .ok found ∧ sessionsOf found = sessionsOf read := by
  induction hread with
  | nil => exact ⟨[], readLines_nil, rfl⟩
  | @last text line hline =>
    by_cases hempty : text = []
    · -- The reader finds no line here, where the form has an empty one.
      cases hempty
      have hblank := readLine_append hline (.inr (.inr ⟨rfl, rfl⟩))
      cases hblank
      exact ⟨[], readLines_nil, rfl⟩
    · have htail : LineTail [] [] := .inr (.inr ⟨rfl, rfl⟩)
      have hfound := readLines_append hline htail (by rwa [List.append_nil]) ⟨[], readLines_nil, rfl⟩
      rwa [List.append_nil] at hfound
  | @feed text rest line more hline _ ih =>
    exact readLines_append hline (.inl rfl) (by simp) ih
  | @returnFeed text rest line more hline _ ih =>
    exact readLines_append hline (.inr (.inl rfl)) (by simp) ih

end Lines

section Texts

variable {text : List Char} {sessions : List (Recorded.Session String UInt64)}

theorem parse_eq_ok_iff :
    parse text = .ok sessions ↔ ∃ read, readLines text = .ok read ∧ sessionsOf read = sessions := by
  unfold parse
  cases readLines text with
  | error error => simp
  | ok read => simp

/-- A text is accepted exactly if it has a reading. -/
theorem parse_eq_ok_iff_reading : parse text = .ok sessions ↔ Reading text sessions := by
  rw [parse_eq_ok_iff]
  constructor
  · rintro ⟨read, hread, hsessions⟩
    exact ⟨read, linesText_of_readLines hread, by rw [← sessionsOf_eq_sessionsBetween, hsessions]⟩
  · rintro ⟨read, hlines, hsessions⟩
    rcases readLines_of_linesText hlines with ⟨found, hfound, hsame⟩
    exact ⟨found, hfound, by rw [hsame, sessionsOf_eq_sessionsBetween, hsessions]⟩

/-- The reader accepts exactly the texts that have a reading, and finds it. A text has no other reading, and
    a reading has at least one session. -/
theorem parse_accepts_grammar (text : List Char) (sessions : List (Recorded.Session String UInt64)) :
    (parse text = .ok sessions ↔ Reading text sessions) ∧
      (Reading text sessions → sessions ≠ [] ∧ ∀ other, Reading text other → other = sessions) := by
  refine ⟨parse_eq_ok_iff_reading, fun hreading => ⟨?_, fun other hother => ?_⟩⟩
  · rcases hreading with ⟨read, _, rfl⟩
    rw [← sessionsOf_eq_sessionsBetween]
    exact sessionsOf_ne_nil read
  · -- Every reading is the one that is found.
    have hparse := parse_eq_ok_iff_reading.mpr hreading
    rw [parse_eq_ok_iff_reading.mpr hother] at hparse
    exact Except.ok.inj hparse

/-- A text with blanks around a transaction, a carriage return, a comment and an unended line of dashes. -/
theorem parse_accepts_grammar_unevenLines :
    Reading " [k:=1\tk==?]! \r\n// [\n--".toList
        [[⟨[.write "k" 1, .read "k" none], false⟩], []] ∧
      ∀ other, Reading " [k:=1\tk==?]! \r\n// [\n--".toList other →
        other = [[⟨[.write "k" 1, .read "k" none], false⟩], []] := by
  have hparse : parse " [k:=1\tk==?]! \r\n// [\n--".toList =
      .ok [[⟨[.write "k" 1, .read "k" none], false⟩], []] := by
    decide +kernel
  have hreading := (parse_accepts_grammar _ _).1.mp hparse
  exact ⟨hreading, ((parse_accepts_grammar _ _).2 hreading).2⟩

end Texts

end Isolation.Transcript
