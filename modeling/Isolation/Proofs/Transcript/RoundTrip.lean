import Isolation.Proofs.Transcript.Readings

/-!
# Reading Transcripts Back

A transcript shows sessions that can be printed, and reading it gives these sessions again. Conversely, only
sessions that can be printed are ever read, whatever the text looked like. The condition on the sessions is
one on the data: a transaction has at least one event, and a key is not empty and consists of key characters.

Since the reader accepts exactly the texts that have a reading, it is not looked at here. The printed text is a list
of lines, each with one transaction or a run of dashes, and each ended by a line feed. Every part of it has the form
that the grammar asks for.

## Main definitions

* `PrintableKey`, `PrintableBlock`, `Printable`: Keys, transactions and sessions that a transcript can show.

## Theorems

* `parse_transcript_roundTrip`: Reading undoes printing, and what is read can be printed.
-/

namespace Isolation.Transcript

open Text (isKeyChar)

variable {sessions : List (Recorded.Session String UInt64)} {text : List Char}

/-- A key that a transcript can show. -/
def PrintableKey (key : String) : Prop :=
  key.toList ≠ [] ∧ ∀ c ∈ key.toList, isKeyChar c = true

/-- A transaction that a transcript can show. -/
structure PrintableBlock (block : Block) : Prop where
  events_ne_nil : block.events ≠ []
  keys : ∀ e ∈ block.events, PrintableKey e.key

/-- Sessions that a transcript can show. -/
structure Printable (sessions : List (Recorded.Session String UInt64)) : Prop where
  ne_nil : sessions ≠ []
  blocks : ∀ session ∈ sessions, ∀ block ∈ session, PrintableBlock block

section Events

theorem valueText_toDigits (value : UInt64) : ValueText (Nat.toDigits 10 value.toNat) value := by
  by_cases hzero : value.toNat = 0
  · have hvalue : value = 0 := UInt64.toNat_inj.mp hzero
    rw [hvalue]
    exact .zero
  · have hne : Nat.toDigits 10 value.toNat ≠ [] := Nat.toDigits_ne_nil
    rcases List.exists_cons_of_ne_nil hne with ⟨c, digits, hdigits⟩
    have hvalue := Text.decimalValue_toDigits value.toNat
    have hall : ∀ d ∈ c :: digits, d.isDigit = true := by
      rw [← hdigits]
      exact fun d hd => Nat.isDigit_of_mem_toDigits (by decide) (by decide) hd
    rw [hdigits] at hvalue ⊢
    exact .digits (Text.ne_zero_of_toDigits_eq_cons (by omega) hdigits) hall hvalue

theorem exists_accessText (e : Entry) :
    ∃ access, e.text.toList = e.key.toList ++ access ∧ AccessText e.key access e := by
  cases e with
  | write key value =>
    exact ⟨_, by simp [Recorded.Event.text, Recorded.Event.key, Render.plain],
      .write (valueText_toDigits value)⟩
  | read key value =>
    cases value with
    | none =>
      exact ⟨_, by simp [Recorded.Event.text, Recorded.Event.key, Render.plain], .initial⟩
    | some value =>
      exact ⟨_, by simp [Recorded.Event.text, Recorded.Event.key, Render.plain],
        .read (valueText_toDigits value)⟩

theorem entryText_text {e : Entry} (hkey : PrintableKey e.key) : EntryText e.text.toList e := by
  rcases exists_accessText e with ⟨access, htext, haccess⟩
  rw [← String.ofList_toList (s := e.key)] at haccess
  rw [htext]
  exact .mk hkey haccess

theorem EntryText.printable {e : Entry} (hentry : EntryText text e) : PrintableKey e.key := by
  rcases hentry with ⟨hkey, haccess⟩
  rw [haccess.key_eq, PrintableKey, String.toList_ofList]
  exact hkey

end Events

section Blocks

/-- The events of a transaction behind the first, each with a blank before it. -/
def moreText (entries : List Entry) : List Char :=
  entries.flatMap fun e => ' ' :: e.text.toList

theorem intercalate_text (e : Entry) (entries : List Entry) :
    [' '].intercalate ((e :: entries).map fun e => e.text.toList) =
      e.text.toList ++ moreText entries := by
  induction entries generalizing e with
  | nil => simp [moreText]
  | cons next entries ih =>
    have hnext := ih next
    rw [List.map_cons] at hnext
    rw [List.map_cons, List.map_cons, List.intercalate_cons_cons, hnext]
    simp [moreText]

theorem followed_moreText {entries : List Entry} (hkeys : ∀ e ∈ entries, PrintableKey e.key) :
    Followed EntryText (moreText entries) entries := by
  induction entries with
  | nil => exact .nil
  | cons e entries ih =>
    rw [List.forall_mem_cons] at hkeys
    have hblank : Blanks [' '] := List.forall_mem_singleton.mpr rfl
    exact .cons (List.cons_ne_nil _ _) hblank (entryText_text hkeys.1) (ih hkeys.2)

theorem blockText_text {block : Block} (hblock : PrintableBlock block) : BlockText block.text.toList block := by
  rcases block with ⟨events, committed⟩
  rcases List.exists_cons_of_ne_nil hblock.events_ne_nil with ⟨e, entries, rfl⟩
  have hkeys := List.forall_mem_cons.mp hblock.keys
  have hentries := Separated.mk (entryText_text hkeys.1) (followed_moreText hkeys.2)
  have htext : (Recorded.Transaction.text ⟨e :: entries, committed⟩).toList =
      '[' :: ((e.text.toList ++ moreText entries) ++ ']' :: commitMark committed) := by
    rw [← intercalate_text]
    cases committed <;> simp [Recorded.Transaction.text, commitMark, Function.comp_def]
  rw [htext]
  exact .mk committed hentries

theorem Separated.forall_mem {α : Type} {form : List Char → α → Prop} {p : α → Prop} {items : List α}
    (hitems : Separated form text items) (hitem : ∀ {text a}, form text a → p a) :
    items ≠ [] ∧ ∀ a ∈ items, p a := by
  have hfollowed : ∀ {text items}, Followed form text items → ∀ a ∈ items, p a := by
    intro text items hmore
    induction hmore with
    | nil => simp
    | cons _ _ ha _ ih => exact List.forall_mem_cons.mpr ⟨hitem ha, ih⟩
  rcases hitems with ⟨ha, hmore⟩
  exact ⟨List.cons_ne_nil _ _, List.forall_mem_cons.mpr ⟨hitem ha, hfollowed hmore⟩⟩

theorem BlockText.printable {block : Block} (hblock : BlockText text block) : PrintableBlock block := by
  rcases hblock with ⟨committed, hentries⟩
  rcases hentries.forall_mem fun hentry => hentry.printable with ⟨hne, hkeys⟩
  exact ⟨hne, hkeys⟩

theorem LinesText.printable {read : List Line} (hlines : LinesText text read) :
    ∀ line ∈ read, ∀ block ∈ line.transactions, PrintableBlock block := by
  have hown : ∀ {text line}, LineText text line → ∀ block ∈ line.transactions, PrintableBlock block := by
    intro text line hline
    cases hline with
    | blank _ => simp [Line.transactions]
    | body _ hbody _ =>
      cases hbody with
      | dashes _ => simp [Line.transactions]
      | comment _ => simp [Line.transactions]
      | blocks hlisted => exact (hlisted.forall_mem fun hblock => hblock.printable).2
  induction hlines with
  | nil => simp
  | last hline => exact List.forall_mem_singleton.mpr (hown hline)
  | feed hline _ ih => exact List.forall_mem_cons.mpr ⟨hown hline, ih⟩
  | returnFeed hline _ ih => exact List.forall_mem_cons.mpr ⟨hown hline, ih⟩

end Blocks

section Layout

/-- The line of one transaction. -/
def blockLine (block : Block) : Line :=
  .blocks [block]

/-- The lines of a transcript: a line for each transaction, and a separator between two sessions. -/
def layout : List (Recorded.Session String UInt64) → List Line
  | [] => []
  | [session] => session.map blockLine
  | session :: next :: sessions => session.map blockLine ++ .separator :: layout (next :: sessions)

/-- The text of a line. -/
def lineText : Line → List Char
  | .blank => []
  | .separator => ['-', '-', '-']
  | .blocks blocks => blocks.flatMap fun block => block.text.toList

/-- A text of lines, each ended by a line feed. -/
def ended (texts : List (List Char)) : List Char :=
  texts.flatMap fun text => text ++ ['\n']

theorem lineText_blockLine (block : Block) : lineText (blockLine block) = block.text.toList := by
  simp [lineText, blockLine]

theorem toList_sessionText (session : Recorded.Session String UInt64) :
    (Recorded.sessionText session).toList = ended ((session.map blockLine).map lineText) := by
  simp [Recorded.sessionText, ended, List.flatMap_map, String.toList_join, lineText_blockLine]

theorem toList_transcript (sessions : List (Recorded.Session String UInt64)) :
    (Recorded.transcript sessions).toList = ended ((layout sessions).map lineText) := by
  unfold Recorded.transcript
  induction sessions using layout.induct with
  | case1 => rfl
  | case2 session =>
    rw [List.map_singleton, String.intercalate_singleton, toList_sessionText, layout]
  | case3 session next sessions ih =>
    rw [List.map_cons] at ih
    rw [List.map_cons, List.map_cons, String.intercalate_cons_cons, String.toList_append,
      String.toList_append, ih, toList_sessionText, layout, List.map_append, List.map_cons]
    simp [ended, lineText]

theorem mem_layout {line : Line} (hline : line ∈ layout sessions) :
    line = .separator ∨ ∃ session ∈ sessions, ∃ block ∈ session, line = blockLine block := by
  induction sessions using layout.induct with
  | case1 => simp [layout] at hline
  | case2 session =>
    obtain ⟨block, hblock, rfl⟩ := List.mem_map.1 hline
    exact Or.inr ⟨session, List.mem_singleton_self _, block, hblock, rfl⟩
  | case3 session next sessions ih =>
    rw [layout, List.mem_append, List.mem_cons] at hline
    rcases hline with hown | hseparator | hlater
    · obtain ⟨block, hblock, rfl⟩ := List.mem_map.1 hown
      exact Or.inr ⟨session, List.mem_cons_self, block, hblock, rfl⟩
    · exact Or.inl hseparator
    · rcases ih hlater with hseparator | ⟨other, hother, hblock⟩
      · exact Or.inl hseparator
      · exact Or.inr ⟨other, List.mem_cons_of_mem _ hother, hblock⟩

/-- Transactions on lines of their own come before what the first session has already. -/
theorem sessionsOf_blockLines_append (session : Recorded.Session String UInt64) {rest : List Line}
    {first : Recorded.Session String UInt64} (hrest : sessionsOf rest = first :: sessions) :
    sessionsOf (session.map blockLine ++ rest) = (session ++ first) :: sessions := by
  induction session with
  | nil => exact hrest
  | cons block session ih =>
    rw [List.map_cons, List.cons_append, blockLine, sessionsOf, ih]
    rfl

/-- The lines of a transcript amount to its sessions. -/
theorem sessionsOf_layout (hne : sessions ≠ []) : sessionsOf (layout sessions) = sessions := by
  induction sessions using layout.induct with
  | case1 => exact absurd rfl hne
  | case2 session =>
    have hnil : sessionsOf [] = [[]] := rfl
    have hsession := sessionsOf_blockLines_append session hnil
    rwa [List.append_nil, List.append_nil] at hsession
  | case3 session next sessions ih =>
    have hrest : sessionsOf (.separator :: layout (next :: sessions)) = [] :: next :: sessions := by
      rw [sessionsOf, ih (List.cons_ne_nil _ _)]
    rw [layout, sessionsOf_blockLines_append session hrest, List.append_nil]

theorem linesText_ended {printed : List Line} (hprinted : ∀ line ∈ printed, LineText (lineText line) line) :
    LinesText (ended (printed.map lineText)) printed := by
  induction printed with
  | nil => exact .nil
  | cons line printed ih =>
    rw [List.forall_mem_cons] at hprinted
    have htext : ended ((line :: printed).map lineText) =
        lineText line ++ '\n' :: ended (printed.map lineText) := by
      simp [ended]
    rw [htext]
    exact .feed hprinted.1 (ih hprinted.2)

/-- A body is a line without blanks around it. -/
theorem BodyText.lineText {line : Line} (hbody : BodyText text line) : LineText text line := by
  have hnothing : Blanks [] := by simp [Blanks]
  have hline := LineText.body hnothing hbody hnothing
  rwa [List.append_nil] at hline

theorem lineText_of_mem_layout (hsessions : Printable sessions) {line : Line} (hline : line ∈ layout sessions) :
    LineText (lineText line) line := by
  rcases mem_layout hline with rfl | ⟨session, hsession, block, hblock, rfl⟩
  · exact (BodyText.dashes 2).lineText
  · have hform := blockText_text (hsessions.blocks session hsession block hblock)
    have hlisted := Separated.mk hform .nil
    rw [List.append_nil] at hlisted
    rw [lineText_blockLine]
    exact (BodyText.blocks hlisted).lineText

end Layout

section RoundTrip

/-- A transcript of sessions that can be printed is read as these sessions. -/
theorem parse_transcript (hsessions : Printable sessions) :
    parse (Recorded.transcript sessions).toList = .ok sessions := by
  rw [toList_transcript]
  refine parse_eq_ok_iff_reading.mpr ⟨layout sessions, ?_, ?_⟩
  · exact linesText_ended fun line hline => lineText_of_mem_layout hsessions hline
  · rw [← sessionsOf_eq_sessionsBetween, sessionsOf_layout hsessions.ne_nil]

theorem printable_of_parse (hread : parse text = .ok sessions) : Printable sessions := by
  rcases parse_eq_ok_iff.mp hread with ⟨read, hlines, rfl⟩
  refine ⟨sessionsOf_ne_nil read, fun session hsession block hblock => ?_⟩
  have hmem : block ∈ (sessionsOf read).flatten := List.mem_flatten.mpr ⟨session, hsession, hblock⟩
  rw [flatten_sessionsOf] at hmem
  rcases List.mem_flatMap.mp hmem with ⟨line, hline, hmem⟩
  exact (linesText_of_readLines hlines).printable line hline block hmem

/-- Sessions that can be printed are read back from their transcript. Whatever text was read, its sessions
    can be printed, and their transcript is read as the same sessions. -/
theorem parse_transcript_roundTrip :
    (∀ sessions : List (Recorded.Session String UInt64), Printable sessions →
        parse (Recorded.transcript sessions).toList = .ok sessions) ∧
      ∀ (text : List Char) (sessions : List (Recorded.Session String UInt64)),
        parse text = .ok sessions →
          Printable sessions ∧ parse (Recorded.transcript sessions).toList = .ok sessions := by
  constructor
  · intro sessions hsessions
    exact parse_transcript hsessions
  · intro text sessions hread
    have hsessions := printable_of_parse hread
    exact ⟨hsessions, parse_transcript hsessions⟩

/-- Sessions with an empty one at either end, a key of digits, a key in another script, a read of an initial
    value, the largest value and a transaction that has not committed. -/
def variedSessions : List (Recorded.Session String UInt64) :=
  [[], [⟨[.write "7" 18446744073709551615, .read "7" none], false⟩, ⟨[.read "λ_1" (some 0)], true⟩], []]

theorem parse_transcript_roundTrip_variedSessions :
    (Printable variedSessions ∧
        parse (Recorded.transcript variedSessions).toList = .ok variedSessions) ∧
      parse " [k:=1\tk==1] \r\n//\n-".toList =
        .ok [[⟨[.write "k" 1, .read "k" (some 1)], true⟩], []] ∧
      Printable [[⟨[.write "k" 1, .read "k" (some 1)], true⟩], []] := by
  have hvaried : Printable variedSessions := by
    refine ⟨List.cons_ne_nil _ _, ?_⟩
    simp only [variedSessions, List.forall_mem_cons, List.not_mem_nil, false_imp_iff, implies_true,
      and_true, true_and]
    have hdigit : Text.isKeyChar '7' = true := by decide
    have hletters : Text.isKeyChar 'λ' = true ∧ Text.isKeyChar '_' = true ∧
        Text.isKeyChar '1' = true := by decide
    refine ⟨⟨List.cons_ne_nil _ _, ?_⟩, ⟨List.cons_ne_nil _ _, ?_⟩⟩
    · simp [PrintableKey, Recorded.Event.key, hdigit]
    · simp [PrintableKey, Recorded.Event.key, hletters]
  have hfree : parse " [k:=1\tk==1] \r\n//\n-".toList =
      .ok [[⟨[.write "k" 1, .read "k" (some 1)], true⟩], []] := by
    decide +kernel
  exact ⟨⟨hvaried, parse_transcript_roundTrip.1 _ hvaried⟩, hfree,
    (parse_transcript_roundTrip.2 _ _ hfree).1⟩

end RoundTrip

end Isolation.Transcript
