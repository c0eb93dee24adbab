import Isolation.Proofs.Transcript.Combinators
import Isolation.Transcript.Reader

/-!
# The Grammar of a Line

What a line of a transcript may look like, said without a reader: a key is a run of key characters, an event
is a key with a sign and a value, a transaction is a list of events in brackets, and so on up to the line. A
form relates a text to what it stands for.

Each reader is compared with its form in two steps. It fits the form (`fits_…`), which follows from how it is
composed. And a text of the form is taken whole, whatever follows, as long as what follows could not be taken
for more of it (`…_append`). For a value this means that no digit follows, for a transaction that no
exclamation mark does.

## Main definitions

* `ValueText`, `EntryText`, `BlockText`, `LineText`: The forms of the parts of a transcript.

## Theorems

* `fits_readContent`, `readLine_append`: What is taken of a line has the form, and what has the form is
  taken.
-/

namespace Isolation.Transcript

open Text (isKeyChar decimalValue takeWord? wordOfNat? Stops)
open Reader

section Forms

/-- Any number of blanks. -/
def Blanks (text : List Char) : Prop :=
  ∀ c ∈ text, isBlank c = true

/-- A key has at least one character. -/
def KeyText (text : List Char) : Prop :=
  text ≠ [] ∧ ∀ c ∈ text, isKeyChar c = true

/-- A value is a zero, or digits that do not start with a zero, and it fits into a word. -/
inductive ValueText : List Char → UInt64 → Prop where
  | zero : ValueText ['0'] 0
  | digits {c : Char} {digits : List Char} {value : UInt64} :
      c ≠ '0' → (∀ d ∈ c :: digits, d.isDigit = true) → decimalValue (c :: digits) = value.toNat →
      ValueText (c :: digits) value

/-- What stands behind the key of an event. -/
inductive AccessText (key : String) : List Char → Entry → Prop where
  | write {text : List Char} {value : UInt64} :
      ValueText text value → AccessText key (':' :: '=' :: text) (.write key value)
  | initial : AccessText key ['=', '=', '?'] (.read key none)
  | read {text : List Char} {value : UInt64} :
      ValueText text value → AccessText key ('=' :: '=' :: text) (.read key (some value))

/-- An event is a key and what is done to it. -/
inductive EntryText : List Char → Entry → Prop where
  | mk {key access : List Char} {entry : Entry} :
      KeyText key → AccessText (String.ofList key) access entry → EntryText (key ++ access) entry

variable {α : Type}

/-- Any number of items, each with at least one blank before it. -/
inductive Followed (item : List Char → α → Prop) : List Char → List α → Prop where
  | nil : Followed item [] []
  | cons {blanks text rest : List Char} {a : α} {more : List α} :
      blanks ≠ [] → Blanks blanks → item text a → Followed item rest more →
      Followed item (blanks ++ (text ++ rest)) (a :: more)

/-- At least one item, with at least one blank between two of them. -/
inductive Separated (item : List Char → α → Prop) : List Char → List α → Prop where
  | mk {text rest : List Char} {a : α} {more : List α} :
      item text a → Followed item rest more → Separated item (text ++ rest) (a :: more)

/-- What stands behind the closing bracket of a transaction. -/
def commitMark (committed : Bool) : List Char :=
  if committed then [] else ['!']

/-- A transaction is a list of events in brackets; an exclamation mark says that it has not committed. -/
inductive BlockText : List Char → Block → Prop where
  | mk {events : List Char} {entries : List Entry} (committed : Bool) :
      Separated EntryText events entries →
      BlockText ('[' :: (events ++ ']' :: commitMark committed)) ⟨entries, committed⟩

/-- The body of a line is a run of dashes, a comment, or a list of transactions. -/
inductive BodyText : List Char → Line → Prop where
  | dashes (more : Nat) : BodyText (List.replicate (more + 1) '-') .separator
  | comment {text : List Char} :
      (∀ c ∈ text, isLineBreak c = false) → BodyText ('/' :: '/' :: text) .blank
  | blocks {text : List Char} {listed : List Block} :
      Separated BlockText text listed → BodyText text (.blocks listed)

/-- A line has a body or not, and blanks around it. -/
inductive LineText : List Char → Line → Prop where
  | blank {text : List Char} : Blanks text → LineText text .blank
  | body {before text after : List Char} {line : Line} :
      Blanks before → BodyText text line → Blanks after → LineText (before ++ (text ++ after)) line

/-- Behind a line stands a line feed, perhaps with a carriage return before it, or nothing. -/
def LineTail (tail rest : List Char) : Prop :=
  tail = '\n' :: rest ∨ tail = '\r' :: '\n' :: rest ∨ tail = [] ∧ rest = []

end Forms

section Runs

variable {kind : Char → Bool} {text rest : List Char}

theorem stops_append {front : List Char} (hfront : ∀ c ∈ front, kind c = false)
    (hrest : Stops kind rest) : Stops kind (front ++ rest) := by
  cases front with
  | nil => exact hrest
  | cons c front => exact Text.stops_cons (hfront c List.mem_cons_self) _

theorem stops_nil : Stops kind [] := by
  intro c hc
  simp at hc

theorem isBlank_eq_true_iff (c : Char) : isBlank c = true ↔ c = ' ' ∨ c = '\t' := by
  simp [isBlank]

theorem kind_eq_false_of_isBlank (hspace : kind ' ' = false) (htab : kind '\t' = false) (c : Char)
    (hc : isBlank c = true) : kind c = false := by
  rcases (isBlank_eq_true_iff c).mp hc with rfl | rfl
  · exact hspace
  · exact htab

/-- Behind items with blanks before them, a run stops where it stops at a blank and at the rest. -/
theorem Followed.stops {α : Type} {item : List Char → α → Prop} {items : List α}
    (hitems : Followed item text items) (hspace : kind ' ' = false) (htab : kind '\t' = false)
    (hrest : Stops kind rest) : Stops kind (text ++ rest) := by
  cases hitems with
  | nil => exact hrest
  | @cons blanks text _ _ _ hne hblanks _ _ =>
    rcases List.exists_cons_of_ne_nil hne with ⟨c, others, rfl⟩
    exact Text.stops_cons (kind_eq_false_of_isBlank hspace htab c (hblanks c List.mem_cons_self)) _

end Runs

section Lists

variable {α : Type} {item : Reader α} {form : List Char → α → Prop} {text rest : List Char} {items : List α}

theorem fits_blanks : blanks.Fits fun text _ => text ≠ [] ∧ Blanks text :=
  (fits_someRun (c := ' ') (by decide)).mono fun hrun => hrun.2

theorem blanks_append (hne : text ≠ []) (hblanks : Blanks text) (hrest : Stops isBlank rest) :
    blanks.read (text ++ rest) = .done text rest :=
  someRun_append isBlank hne hblanks hrest

theorem fits_followed (hitem : item.Fits form) :
    (followed blanks blanks_consumes item).Fits (Followed form) := by
  -- Blanks and an item are a list of one item, and what can be completed to them can be completed.
  have hnext : ∀ text,
      ((blanks.read text).andThen fun _ => item.read).Fits (fun text a => Followed form text [a]) text := by
    refine fun text => (fits_blanks text).andThen fun hgap rest => (hitem rest).mono fun ha => ?_
    have hfollowed := Followed.cons hgap.1 hgap.2 ha .nil
    rwa [List.append_nil] at hfollowed
  intro text
  change (readFollowed blanks blanks_consumes item text).Fits _ _
  fun_induction readFollowed blanks blanks_consumes item text with
  | case1 text fault hread =>
    have hfault := hnext text
    rw [hread] at hfault
    rcases hfault with ⟨front, htext, more, a, ha⟩
    exact ⟨front, htext, more, [a], ha⟩
  | case2 text fault hread => exact ⟨[], rfl, .nil⟩
  | case3 text gap behind hread fault hfound =>
    have hfault := hnext text
    rw [hread, Reply.andThen, hfound] at hfault
    rcases hfault with ⟨front, htext, more, a, ha⟩
    exact ⟨front, htext, more, [a], ha⟩
  | case4 text gap behind hread fault hfound => exact ⟨[], rfl, .nil⟩
  | case5 text gap behind hread a left hfound ih =>
    have hgap := fits_blanks text
    have hfirst := hitem behind
    rw [hread] at hgap
    rw [hfound] at hfirst
    rcases hgap with ⟨gap, rfl, hne, hblanks⟩
    rcases hfirst with ⟨first, rfl, ha⟩
    rw [← List.append_assoc]
    refine Reply.Fits.append (ih.andThen fun hmore rest => ⟨[], rfl, ?_⟩)
    simp only [List.append_nil, List.append_assoc]
    exact .cons hne hblanks ha hmore

theorem fits_separated (hitem : item.Fits form) :
    (separated blanks blanks_consumes item).Fits (Separated form) := by
  refine hitem.bind fun ha => (fits_followed hitem).bind fun hmore => fits_pure ?_
  rw [List.append_nil]
  exact .mk ha hmore

/-- Items of the form are taken if each of them is, before a text at which it stops, and if no further item is
    found at the end. -/
theorem followed_append (kind : Char → Bool) (hspace : kind ' ' = false) (htab : kind '\t' = false)
    (hitem : ∀ {text a rest}, form text a → Stops kind rest →
      item.read (text ++ rest) = .done a rest ∧ Stops isBlank (text ++ rest))
    (hitems : Followed form text items) (hrest : Stops kind rest)
    (hend : (followed blanks blanks_consumes item).read rest = .done [] rest) :
    (followed blanks blanks_consumes item).read (text ++ rest) = .done items rest := by
  induction hitems with
  | nil => exact hend
  | @cons gap first others a more hne hblanks ha hmore ih =>
    rcases hitem ha (hmore.stops hspace htab hrest) with ⟨hfirst, hstops⟩
    have hgap := blanks_append hne hblanks hstops
    change readFollowed .. = _ at ih ⊢
    rw [List.append_assoc, List.append_assoc, readFollowed.eq_def]
    split
    · rename_i hread
      cases hgap.symm.trans hread
    · rename_i hread
      cases hgap.symm.trans hread
    · rename_i hread
      cases hgap.symm.trans hread
      split
      · rename_i hread
        cases hfirst.symm.trans hread
      · rename_i hread
        cases hfirst.symm.trans hread
      · rename_i hread
        cases hfirst.symm.trans hread
        rw [ih]
        rfl

theorem separated_append (kind : Char → Bool) (hspace : kind ' ' = false) (htab : kind '\t' = false)
    (hitem : ∀ {text a rest}, form text a → Stops kind rest →
      item.read (text ++ rest) = .done a rest ∧ Stops isBlank (text ++ rest))
    (hitems : Separated form text items) (hrest : Stops kind rest)
    (hend : (followed blanks blanks_consumes item).read rest = .done [] rest) :
    (separated blanks blanks_consumes item).read (text ++ rest) = .done items rest := by
  rcases hitems with ⟨ha, hmore⟩
  rw [separated, read_bind, List.append_assoc, (hitem ha (hmore.stops hspace htab hrest)).1, Reply.andThen,
    read_bind, followed_append kind hspace htab hitem hmore hrest hend]
  rfl

theorem followed_of_stops (hrest : Stops isBlank rest) :
    (followed blanks blanks_consumes item).read rest = .done [] rest := by
  have hgap : blanks.read rest = _ := someRun_of_stops isBlank hrest
  change readFollowed .. = _
  rw [readFollowed.eq_def]
  split
  · rename_i hread
    cases hgap.symm.trans hread
  · rfl
  · rename_i hread
    cases hgap.symm.trans hread

theorem followed_of_backtrack (hne : text ≠ []) (hblanks : Blanks text) (hrest : Stops isBlank rest) {fault : Fault}
    (hitem : item.read rest = .backtrack fault) :
    (followed blanks blanks_consumes item).read (text ++ rest) = .done [] (text ++ rest) := by
  have hgap := blanks_append hne hblanks hrest
  change readFollowed .. = _
  rw [readFollowed.eq_def]
  split
  · rename_i hread
    cases hgap.symm.trans hread
  · rfl
  · rename_i hread
    cases hgap.symm.trans hread
    split
    · rename_i hread
      cases hitem.symm.trans hread
    · rfl
    · rename_i hread
      cases hitem.symm.trans hread

end Lists

section Values

variable {text rest : List Char} {value : UInt64}

theorem wordOfNat?_eq_some_iff (n : Nat) : wordOfNat? n = some value ↔ n = value.toNat := by
  unfold wordOfNat?
  constructor
  · intro hword
    split_ifs at hword with hfits
    cases hword
    rw [UInt64.toNat_ofNat_of_lt' hfits]
  · rintro rfl
    rw [if_pos value.toNat_lt, UInt64.ofNat_toNat]

theorem takeWord?_append (hvalue : ValueText text value) (hrest : Stops Char.isDigit rest) :
    takeWord? (text ++ rest) = some (value, rest) := by
  cases hvalue with
  | zero => rfl
  | @digits c digits _ hzero hdigits hdenoted =>
    rw [List.forall_mem_cons] at hdigits
    rw [List.cons_append, takeWord?, if_neg hzero, if_pos hdigits.1,
      Text.takeWhile_append_of_stops hdigits.2 hrest, Text.dropWhile_append_of_stops hdigits.2 hrest,
      (wordOfNat?_eq_some_iff _).mpr hdenoted]
    rfl

theorem takeWord?_sound (hread : takeWord? text = some (value, rest)) :
    ∃ front, text = front ++ rest ∧ ValueText front value := by
  cases text with
  | nil => simp [takeWord?] at hread
  | cons c tail =>
    rw [takeWord?] at hread
    by_cases hzero : c = '0'
    · -- A zero stands alone, even if digits follow.
      rw [if_pos hzero] at hread
      cases hread
      exact ⟨['0'], by rw [hzero]; rfl, .zero⟩
    · rw [if_neg hzero] at hread
      split_ifs at hread with hdigit
      rcases Option.map_eq_some_iff.mp hread with ⟨word, hword, heq⟩
      cases heq
      refine ⟨c :: tail.takeWhile Char.isDigit, ?_, .digits hzero ?_ ?_⟩
      · rw [List.cons_append, List.takeWhile_append_dropWhile]
      · rw [List.forall_mem_cons]
        exact ⟨hdigit, fun d hd => List.mem_takeWhile_imp hd⟩
      · exact (wordOfNat?_eq_some_iff _).mp hword

theorem ValueText.exists_cons (hvalue : ValueText text value) :
    ∃ c others, text = c :: others ∧ c ≠ '?' := by
  cases hvalue with
  | zero => exact ⟨'0', [], rfl, by decide⟩
  | @digits c digits _ _ hdigits _ =>
    refine ⟨c, digits, rfl, ?_⟩
    rintro rfl
    exact absurd (hdigits _ List.mem_cons_self) (by decide)

theorem fits_readValue : readValue.Fits ValueText := by
  refine Fits.remarked (fun text => ?_) _
  simp only [readWord]
  split
  · rename_i hword
    exact takeWord?_sound hword
  · exact fits_backtrack_self .zero text []

theorem readValue_append (hvalue : ValueText text value) (hrest : Stops Char.isDigit rest) :
    readValue.read (text ++ rest) = .done value rest := by
  simp only [readValue, remarked, readWord, takeWord?_append hvalue hrest]

end Values

section Events

variable {text rest : List Char} {entry : Entry}

theorem fits_readAccess (key : String) : (readAccess key).Fits (AccessText key) := by
  refine Fits.orElse ?_ (Fits.orElse ?_ ?_)
  · refine (fits_sign _).bind fun hsign => fits_readValue.bind fun hvalue => fits_pure ?_
    rw [hsign, List.append_nil]
    exact .write hvalue
  · refine (fits_sign _).bind fun hsign => fits_pure ?_
    rw [hsign, List.append_nil]
    exact .initial
  · refine (fits_sign _).bind fun hsign => fits_readValue.bind fun hvalue => fits_pure ?_
    rw [hsign, List.append_nil]
    exact .read hvalue

theorem readAccess_append {key : String} (haccess : AccessText key text entry)
    (hrest : Stops Char.isDigit rest) : (readAccess key).read (text ++ rest) = .done entry rest := by
  cases haccess with
  | write hvalue =>
    simp [readAccess, Reader.orElse, read_bind, sign, Reply.andThen, readValue_append hvalue hrest, read_pure]
  | initial => rfl
  | read hvalue =>
    -- A question mark is looked for first, and a value does not start with one.
    have hword := readValue_append hvalue hrest
    rcases hvalue.exists_cons with ⟨c, others, rfl, hquestion⟩
    simp only [List.cons_append] at hword ⊢
    simp [readAccess, Reader.orElse, read_bind, sign, Reply.andThen, hword, read_pure, Ne.symm hquestion]

theorem AccessText.stops {key : String} (haccess : AccessText key text entry) (rest : List Char) :
    Stops isKeyChar (text ++ rest) := by
  cases haccess with
  | write hvalue => exact Text.stops_cons (by decide) _
  | initial => exact Text.stops_cons (by decide) _
  | read hvalue => exact Text.stops_cons (by decide) _

theorem AccessText.key_eq {key : String} (haccess : AccessText key text entry) : entry.key = key := by
  cases haccess <;> rfl

theorem fits_readKey : readKey.Fits fun text key => KeyText text ∧ key = String.ofList text := by
  refine Fits.remarked (Fits.map (fits_someRun (c := 'k') (by decide)) fun hrun => ?_) _
  exact ⟨hrun.2, by rw [hrun.1]⟩

theorem fits_readEvent : readEvent.Fits EntryText := by
  refine fits_readKey.bind fun {key _} hkey => ?_
  rcases hkey with ⟨hkey, rfl⟩
  exact (((fits_readAccess _).committed.remarked _).remarked _).mono fun haccess => .mk hkey haccess

theorem readEvent_append (hentry : EntryText text entry) (hrest : Stops Char.isDigit rest) :
    readEvent.read (text ++ rest) = .done entry rest := by
  rcases hentry with @⟨key, access, _, ⟨hne, hkey⟩, haccess⟩
  -- The longest run of key characters is the key, since the access does not go on with one.
  have hrun := someRun_append isKeyChar hne hkey (haccess.stops rest)
  have hread : readKey.read (key ++ (access ++ rest)) = .done (String.ofList key) (access ++ rest) := by
    simp only [readKey, remarked, read_map, hrun, Reply.andThen]
  rw [List.append_assoc, readEvent, read_bind, hread, Reply.andThen]
  simp only [remarked, committed, readAccess_append haccess hrest]

theorem EntryText.exists_cons (hentry : EntryText text entry) :
    ∃ c others, text = c :: others ∧ isKeyChar c = true := by
  rcases hentry with @⟨key, access, _, ⟨hne, hkey⟩, _⟩
  rcases List.exists_cons_of_ne_nil hne with ⟨c, others, rfl⟩
  exact ⟨c, others ++ access, rfl, hkey c List.mem_cons_self⟩

theorem isBlank_eq_false_of_isKeyChar {c : Char} (hc : isKeyChar c = true) : isBlank c = false := by
  unfold isBlank
  by_cases hspace : c = ' '
  · rw [hspace] at hc
    exact absurd hc (by decide)
  · by_cases htab : c = '\t'
    · rw [htab] at hc
      exact absurd hc (by decide)
    · simp [hspace, htab]

theorem EntryText.stops (hentry : EntryText text entry) (rest : List Char) : Stops isBlank (text ++ rest) := by
  rcases hentry.exists_cons with ⟨c, others, rfl, hc⟩
  exact Text.stops_cons (isBlank_eq_false_of_isKeyChar hc) _

end Events

section Blocks

variable {text rest : List Char} {block : Block}

theorem fits_readBlock : readBlock.Fits BlockText := by
  refine (fits_sign _).bind fun hopen =>
    ((fits_separated fits_readEvent).committed.remarked _).bind fun {_ entries} hentries =>
    ((fits_sign _).committed.remarked _).bind fun hclose =>
    (Fits.optional (fun text mark => text = commitMark mark.isNone) ?_ rfl).bind fun hmark =>
    fits_pure ?_
  · exact (fits_sign _).mono fun hmark => hmark
  · rw [hopen, hclose, hmark, List.append_nil]
    exact .mk _ hentries

theorem readBlock_of_stops (hrest : Stops (· == '[') rest) : readBlock.read rest = .backtrack ⟨rest, []⟩ := by
  rw [readBlock, read_bind, sign_of_stops hrest, Reply.andThen]

theorem commitMark_append (committed : Bool) (hrest : Stops (· == '!') rest) :
    ∃ mark, (sign ['!']).optional.read (commitMark committed ++ rest) = .done mark rest ∧
      mark.isNone = committed := by
  cases committed with
  | true => exact ⟨none, by simp [commitMark, Reader.optional, Reader.orElse, read_map, sign_of_stops hrest,
      Reply.andThen, read_pure], rfl⟩
  | false => exact ⟨some (), rfl, rfl⟩

theorem readBlock_append (hblock : BlockText text block) (hrest : Stops (· == '!') rest) :
    readBlock.read (text ++ rest) = .done block rest := by
  rcases hblock with @⟨events, entries, committed, hentries⟩
  have hclose : ∀ {kind : Char → Bool}, kind ']' = false →
      Stops kind ([']'] ++ (commitMark committed ++ rest)) := fun hkind => Text.stops_cons hkind _
  have hevents := separated_append Char.isDigit (by decide) (by decide)
    (fun hentry hrest => ⟨readEvent_append hentry hrest, hentry.stops _⟩) hentries (hclose (by decide))
    (followed_of_stops (hclose (by decide)))
  rcases commitMark_append committed hrest with ⟨mark, hmark, rfl⟩
  have htext : '[' :: (events ++ ']' :: commitMark mark.isNone) ++ rest =
      ['['] ++ (events ++ ([']'] ++ (commitMark mark.isNone ++ rest))) := by
    simp
  rw [htext, readBlock, read_bind, sign_append, Reply.andThen, read_bind]
  simp only [remarked, Reader.committed, hevents, Reply.andThen, read_bind, sign_append, hmark, read_pure]

theorem BlockText.stops (hblock : BlockText text block) (rest : List Char) : Stops isBlank (text ++ rest) := by
  rcases hblock with ⟨committed, hentries⟩
  exact Text.stops_cons (by decide) _

end Blocks

section Lines

variable {text rest tail : List Char} {line : Line}

theorem LineTail.stops (htail : LineTail tail rest) {kind : Char → Bool} (hreturn : kind '\r' = false)
    (hfeed : kind '\n' = false) : Stops kind tail := by
  rcases htail with rfl | rfl | ⟨rfl, _⟩
  · exact Text.stops_cons hfeed _
  · exact Text.stops_cons hreturn _
  · exact stops_nil

theorem fits_restOfLine : restOfLine.Fits fun text _ => ∀ c ∈ text, isLineBreak c = false := by
  intro text
  have htext : text = text.takeWhile (!isLineBreak ·) ++ text.dropWhile (!isLineBreak ·) :=
    List.takeWhile_append_dropWhile.symm
  have hplain : ∀ c ∈ text.takeWhile (!isLineBreak ·), isLineBreak c = false :=
    fun c hc => by simpa using List.mem_takeWhile_imp hc
  simp only [restOfLine]
  split
  · exact ⟨_, htext, [], (), by rwa [List.append_nil]⟩
  · exact ⟨_, htext, hplain⟩

theorem restOfLine_append (hplain : ∀ c ∈ text, isLineBreak c = false) (htail : LineTail tail rest) :
    restOfLine.read (text ++ tail) = .done () tail := by
  have hrun : ∀ c ∈ text, (!isLineBreak c) = true := fun c hc => by rw [hplain c hc]; rfl
  have hdrop := Text.dropWhile_append_of_stops hrun (htail.stops (by decide) (by decide))
  simp only [restOfLine, hdrop]
  rcases htail with rfl | rfl | ⟨rfl, _⟩
  · rfl
  · rfl
  · rfl

theorem bodyText_dashes (hne : text ≠ []) (hdashes : ∀ c ∈ text, (c == '-') = true) :
    BodyText text .separator := by
  rcases List.exists_cons_of_ne_nil hne with ⟨c, more, rfl⟩
  have htext : c :: more = List.replicate (more.length + 1) '-' :=
    List.eq_replicate_of_mem fun d hd => by simpa using hdashes d hd
  rw [htext]
  exact .dashes _

theorem fits_readBody : readBody.Fits BodyText := by
  refine Fits.orElse ?_ (Fits.orElse ?_ ?_)
  · refine (fits_someRun (c := '-') (by decide)).bind fun hrun => fits_pure ?_
    rw [List.append_nil]
    exact bodyText_dashes hrun.2.1 hrun.2.2
  · refine (fits_sign _).bind fun hsign => fits_restOfLine.bind fun hplain => fits_pure ?_
    rw [hsign, List.append_nil]
    exact .comment hplain
  · exact (fits_separated fits_readBlock).map .blocks

theorem readBody_of_tail (htail : LineTail tail rest) : readBody.read tail = .backtrack ⟨tail, []⟩ := by
  have hstops : ∀ {c}, ('\r' == c) = false → ('\n' == c) = false → Stops (· == c) tail :=
    fun hreturn hfeed => htail.stops hreturn hfeed
  simp only [readBody, Reader.orElse, read_bind, read_map, separated,
    someRun_of_stops (· == '-') (hstops (by decide) (by decide)),
    sign_of_stops (hstops (c := '/') (by decide) (by decide)),
    readBlock_of_stops (hstops (c := '[') (by decide) (by decide)), Reply.andThen]

theorem followed_of_tail {blanksBehind : List Char} (hblanks : Blanks blanksBehind) (htail : LineTail tail rest) :
    (followed blanks blanks_consumes readBlock).read (blanksBehind ++ tail) =
      .done [] (blanksBehind ++ tail) := by
  have hstops : Stops isBlank tail := htail.stops (by decide) (by decide)
  by_cases hne : blanksBehind = []
  · rw [hne, List.nil_append]
    exact followed_of_stops hstops
  · exact followed_of_backtrack hne hblanks hstops
      (readBlock_of_stops (htail.stops (by decide) (by decide)))

/-- A body is read up to the blanks behind it. A comment takes these blanks, too. -/
theorem readBody_append {after : List Char} (hbody : BodyText text line) (hafter : Blanks after)
    (htail : LineTail tail rest) :
    ∃ left, readBody.read (text ++ (after ++ tail)) = .done line (left ++ tail) ∧ Blanks left := by
  have hstops : ∀ {kind : Char → Bool}, kind ' ' = false → kind '\t' = false → kind '\r' = false →
      kind '\n' = false → Stops kind (after ++ tail) := fun hspace htab hreturn hfeed =>
    stops_append (fun c hc => kind_eq_false_of_isBlank hspace htab c (hafter c hc)) (htail.stops hreturn hfeed)
  cases hbody with
  | dashes more =>
    have hne : List.replicate (more + 1) '-' ≠ [] := List.cons_ne_nil _ _
    have hrun := someRun_append (· == '-') hne (by simp)
      (hstops (by decide) (by decide) (by decide) (by decide))
    refine ⟨after, ?_, hafter⟩
    simp only [readBody, Reader.orElse, read_bind, hrun, Reply.andThen, read_pure]
  | @comment text hplain =>
    -- Blanks are no line breaks, so the comment goes on over them.
    have hwhole : ∀ c ∈ text ++ after, isLineBreak c = false := by
      intro c hc
      rcases List.mem_append.mp hc with hc | hc
      · exact hplain c hc
      · exact kind_eq_false_of_isBlank (by decide) (by decide) c (hafter c hc)
    have hline := restOfLine_append hwhole htail
    have hsign := sign_append ['/', '/'] (text ++ (after ++ tail))
    refine ⟨[], ?_, by simp [Blanks]⟩
    rw [List.append_assoc] at hline
    simp only [List.cons_append, List.nil_append] at hsign ⊢
    simp only [readBody, Reader.orElse, read_bind, hsign, hline, Reply.andThen, read_pure,
      someRun_of_stops (· == '-') (Text.stops_cons (c := '/') (by decide) _)]
  | blocks hlisted =>
    have hread := separated_append (· == '!') (by decide) (by decide)
      (fun hblock hrest => ⟨readBlock_append hblock hrest, hblock.stops _⟩) hlisted
      (hstops (by decide) (by decide) (by decide) (by decide)) (followed_of_tail hafter htail)
    have hstart : ∀ {kind : Char → Bool}, kind '[' = false → Stops kind (text ++ (after ++ tail)) := by
      intro kind hkind
      rcases hlisted with ⟨⟨committed, hentries⟩, hmore⟩
      exact Text.stops_cons hkind _
    refine ⟨after, ?_, hafter⟩
    simp only [readBody, Reader.orElse, read_bind, read_map, hread, Reply.andThen,
      someRun_of_stops (· == '-') (hstart (by decide)),
      sign_of_stops (c := '/') (hstart (by decide))]

theorem BodyText.stops (hbody : BodyText text line) (rest : List Char) : Stops isBlank (text ++ rest) := by
  cases hbody with
  | dashes more => exact Text.stops_cons (by decide) _
  | comment hplain => exact Text.stops_cons (by decide) _
  | blocks hlisted =>
    rcases hlisted with ⟨⟨committed, hentries⟩, hmore⟩
    exact Text.stops_cons (by decide) _

theorem Blanks.append {first second : List Char} (hfirst : Blanks first) (hsecond : Blanks second) :
    Blanks (first ++ second) :=
  List.forall_mem_append.mpr ⟨hfirst, hsecond⟩

theorem fits_readContent : readContent.Fits LineText := by
  refine (fits_run isBlank).bind fun hbefore =>
    (Fits.optional (fun text body => body = none ∧ text = [] ∨ ∃ line, body = some line ∧ BodyText text line)
      (fits_readBody.mono fun hbody => .inr ⟨_, rfl, hbody⟩) (.inl ⟨rfl, rfl⟩)).bind fun hbody =>
    (fits_run isBlank).bind fun hafter => fits_pure ?_
  rw [List.append_nil]
  rcases hbody with ⟨rfl, rfl⟩ | ⟨line, rfl, hbody⟩
  · exact .blank (Blanks.append hbefore hafter)
  · exact .body hbefore hbody hafter

theorem lineEnd_of_tail (htail : LineTail tail rest) : lineEnd.read tail = .done () rest := by
  rcases htail with rfl | rfl | ⟨rfl, rfl⟩
  · rfl
  · rfl
  · rfl

/-- A line of the form is read together with its line end. -/
theorem readLine_append (hline : LineText text line) (htail : LineTail tail rest) :
    readLine.read (text ++ tail) = .done line rest := by
  have hstops : Stops isBlank tail := htail.stops (by decide) (by decide)
  have hcontent : readContent.read (text ++ tail) = .done line tail := by
    cases hline with
    | blank hblanks =>
      have hagain : (run isBlank).read tail = .done [] tail :=
        run_append isBlank (List.forall_mem_nil _) hstops
      simp only [readContent, read_bind, run_append isBlank hblanks hstops, Reader.optional, Reader.orElse, read_map,
        readBody_of_tail htail, Reply.andThen, read_pure, hagain, Option.getD_none]
    | @body before body after _ hbefore hbody hafter =>
      rcases readBody_append hbody hafter htail with ⟨left, hread, hleft⟩
      rw [List.append_assoc, List.append_assoc]
      simp only [readContent, read_bind, run_append isBlank hbefore (hbody.stops _), Reader.optional, Reader.orElse, read_map,
        hread, Reply.andThen, read_pure, run_append isBlank hleft hstops, Option.getD_some]
  simp only [readLine, read_bind, hcontent, Reply.andThen, lineEnd_of_tail htail, read_pure]

end Lines

section Breaks

/-- There is no line break in the text. -/
def NoBreak (text : List Char) : Prop :=
  ∀ c ∈ text, isLineBreak c = false

variable {text rest : List Char}

theorem NoBreak.append (htext : NoBreak text) (hrest : NoBreak rest) : NoBreak (text ++ rest) :=
  List.forall_mem_append.mpr ⟨htext, hrest⟩

theorem NoBreak.cons {c : Char} (hc : isLineBreak c = false) (htext : NoBreak text) :
    NoBreak (c :: text) :=
  List.forall_mem_cons.mpr ⟨hc, htext⟩

theorem noBreak_nil : NoBreak [] := by
  simp [NoBreak]

theorem noBreak_of_kind {kind : Char → Bool} (hreturn : kind '\r' = false) (hfeed : kind '\n' = false)
    (htext : ∀ c ∈ text, kind c = true) : NoBreak text := by
  intro c hc
  have hkind := htext c hc
  -- There are only two line breaks, and neither is of the kind.
  by_contra hbreak
  simp only [isLineBreak, Bool.not_eq_false, Bool.or_eq_true, beq_iff_eq] at hbreak
  rcases hbreak with rfl | rfl
  · exact absurd hkind (by simp [hreturn])
  · exact absurd hkind (by simp [hfeed])

theorem Blanks.noBreak (hblanks : Blanks text) : NoBreak text :=
  noBreak_of_kind (by decide) (by decide) hblanks

theorem ValueText.noBreak {value : UInt64} (hvalue : ValueText text value) : NoBreak text := by
  cases hvalue with
  | zero => exact .cons (by decide) noBreak_nil
  | digits _ hdigits _ => exact noBreak_of_kind (by decide) (by decide) hdigits

theorem EntryText.noBreak {entry : Entry} (hentry : EntryText text entry) : NoBreak text := by
  rcases hentry with ⟨⟨_, hkey⟩, haccess⟩
  refine NoBreak.append (noBreak_of_kind (by decide) (by decide) hkey) ?_
  cases haccess with
  | write hvalue => exact .cons (by decide) (.cons (by decide) hvalue.noBreak)
  | initial => exact .cons (by decide) (.cons (by decide) (.cons (by decide) noBreak_nil))
  | read hvalue => exact .cons (by decide) (.cons (by decide) hvalue.noBreak)

variable {α : Type} {item : List Char → α → Prop} {items : List α}

theorem Separated.noBreak (hitem : ∀ {text a}, item text a → NoBreak text)
    (hitems : Separated item text items) : NoBreak text := by
  have hfollowed : ∀ {rest more}, Followed item rest more → NoBreak rest := by
    intro rest more hmore
    induction hmore with
    | nil => exact noBreak_nil
    | cons _ hblanks ha _ ih => exact hblanks.noBreak.append ((hitem ha).append ih)
  rcases hitems with ⟨ha, hmore⟩
  exact (hitem ha).append (hfollowed hmore)

theorem BlockText.noBreak {block : Block} (hblock : BlockText text block) : NoBreak text := by
  rcases hblock with ⟨committed, hentries⟩
  refine .cons (by decide) ((hentries.noBreak EntryText.noBreak).append (.cons (by decide) ?_))
  cases committed with
  | true => exact noBreak_nil
  | false => exact .cons (by decide) noBreak_nil

/-- A line has no line break in it. -/
theorem LineText.noBreak {line : Line} (hline : LineText text line) : NoBreak text := by
  cases hline with
  | blank hblanks => exact hblanks.noBreak
  | body hbefore hbody hafter =>
    refine hbefore.noBreak.append (NoBreak.append ?_ hafter.noBreak)
    cases hbody with
    | dashes more =>
      intro c hc
      rw [List.eq_of_mem_replicate hc]
      decide
    | comment hplain => exact .cons (by decide) (.cons (by decide) hplain)
    | blocks hlisted => exact hlisted.noBreak BlockText.noBreak

end Breaks

end Isolation.Transcript
