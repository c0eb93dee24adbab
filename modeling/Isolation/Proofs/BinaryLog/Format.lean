import Isolation.BinaryLog.Decode
import Isolation.BinaryLog.Encode
import Isolation.Proofs.Text.Utf8

/-!
# The Parts of Binary Logs

Readers and writers of the binary format are separate functions. `Exact` says that they fit together: the
reader takes a value off the front of its input exactly if the input starts with the bytes that the writer
makes of that value. It rules out that two inputs stand for one value, and that anything written cannot be
read. What cannot be written is a text or a list that is too long for the word in front of it, so a
condition on values comes with each part.

The parts are words, flags and texts. A list is exact if its items are, at any depth, so transactions and
sessions need nothing of their own.

## Main definitions

* `Exact`: A reader and a writer fit together.

## Theorems

* `encode_eq`: A log is written as the logged form of its sessions.
-/

namespace Isolation.BinaryLog

open Text (bind_eq_ok_iff map_eq_ok_iff)

/-- The reader takes off exactly what the writer puts in front, for values that fit the format. -/
def Exact {α : Type} (take : Reader α) (bytes : α → List UInt8) (Fits : α → Prop) : Prop :=
  ∀ (input : List UInt8) (x : α) (rest : List UInt8),
    take input = .ok (x, rest) ↔ Fits x ∧ input = bytes x ++ rest

section Words

theorem length_littleEndian (width n : Nat) : (littleEndian width n).length = width := by
  induction width generalizing n with
  | zero => rfl
  | succ width ih => rw [littleEndian, List.length_cons, ih]

theorem littleEndianValue_littleEndian {width n : Nat} (hn : n < 256 ^ width) :
    littleEndianValue (littleEndian width n) = n := by
  induction width generalizing n with
  | zero =>
    rw [pow_zero] at hn
    rw [littleEndian, littleEndianValue]
    omega
  | succ width ih =>
    have hhigh : n / 256 < 256 ^ width := by
      rw [pow_succ] at hn
      omega
    rw [littleEndian, littleEndianValue, ih hhigh, UInt8.toNat_ofNat']
    omega

theorem littleEndian_littleEndianValue (bytes : List UInt8) :
    littleEndian bytes.length (littleEndianValue bytes) = bytes := by
  induction bytes with
  | nil => rfl
  | cons b bytes ih =>
    have hb := b.toNat_lt
    have hlow : (b.toNat + 256 * littleEndianValue bytes) % 256 = b.toNat := by omega
    have hhigh : (b.toNat + 256 * littleEndianValue bytes) / 256 = littleEndianValue bytes := by
      omega
    rw [List.length_cons, littleEndianValue, littleEndian, hlow, hhigh, ih, UInt8.ofNat_toNat]

theorem littleEndianValue_lt (bytes : List UInt8) :
    littleEndianValue bytes < 256 ^ bytes.length := by
  induction bytes with
  | nil => exact Nat.one_pos
  | cons b bytes ih =>
    have hb := b.toNat_lt
    rw [List.length_cons, littleEndianValue, pow_succ]
    omega

theorem length_wordBytes (w : UInt64) : (wordBytes w).length = 8 :=
  length_littleEndian 8 w.toNat

/-- Words are exact, whatever the reader says about a word cut short. -/
theorem exact_takeWordFor (cause : Cause) : Exact (takeWordFor cause) wordBytes fun _ => True := by
  intro input w rest
  simp only [takeWordFor, true_and]
  constructor
  · intro hread
    split_ifs at hread with hlength
    obtain ⟨rfl, rfl⟩ := Prod.mk.inj (Except.ok.inj hread)
    -- The number that eight bytes denote is a word, so making a word of it changes nothing.
    have hlt := littleEndianValue_lt (input.take 8)
    rw [hlength] at hlt
    have hvalue : littleEndianValue (input.take 8) % 2 ^ 64 = littleEndianValue (input.take 8) :=
      Nat.mod_eq_of_lt hlt
    have hbytes := littleEndian_littleEndianValue (input.take 8)
    rw [hlength] at hbytes
    rw [wordBytes, UInt64.toNat_ofNat', hvalue, hbytes, List.take_append_drop]
  · rintro rfl
    have hvalue : littleEndianValue (wordBytes w) = w.toNat :=
      littleEndianValue_littleEndian w.toNat_lt
    rw [List.take_left' (length_wordBytes w), List.drop_left' (length_wordBytes w), hvalue,
      UInt64.ofNat_toNat, if_pos (length_wordBytes w)]

theorem exact_takeWord : Exact takeWord wordBytes fun _ => True :=
  exact_takeWordFor .shortWord

theorem exact_takeFlag : Exact takeFlag flagBytes fun _ => True := by
  intro input b rest
  simp only [true_and]
  constructor
  · intro hread
    unfold takeFlag at hread
    split at hread
    · cases hread
      rfl
    · cases hread
      rfl
    · cases hread
  · rintro rfl
    cases b <;> rfl

end Words

section Texts

/-- The number of bytes of a text fits a word. -/
def TextFits (text : String) : Prop :=
  (Text.encodeUtf8 text.toList).length < UInt64.size

theorem exact_takeText : Exact takeText textBytes TextFits := by
  intro input text rest
  unfold takeText TextFits textBytes
  rw [bind_eq_ok_iff]
  constructor
  · intro hread
    obtain ⟨⟨length, behind⟩, hword, hread⟩ := hread
    obtain ⟨-, rfl⟩ := (exact_takeWordFor _ _ _ _).1 hword
    dsimp only at hread ⊢
    split_ifs at hread with hshort
    split at hread
    case h_2 => cases hread
    case h_1 chars hchars =>
      obtain ⟨rfl, rfl⟩ := Prod.mk.inj (Except.ok.inj hread)
      rw [Text.decodeUtf8_eq_ok_iff] at hchars
      -- The text has as many bytes as the word in front of it says.
      have hlength : (Text.encodeUtf8 chars).length = length.toNat := by
        rw [← hchars, List.length_take]
        omega
      rw [String.toList_ofList, hlength, UInt64.ofNat_toNat, ← hchars, List.append_assoc,
        List.take_append_drop]
      exact ⟨length.toNat_lt, rfl⟩
  · intro hwritten
    obtain ⟨hfits, rfl⟩ := hwritten
    generalize hbytes : Text.encodeUtf8 text.toList = bytes at hfits ⊢
    have hlength : (UInt64.ofNat bytes.length).toNat = bytes.length :=
      UInt64.toNat_ofNat_of_lt' hfits
    refine ⟨(UInt64.ofNat bytes.length, bytes ++ rest),
      (exact_takeWordFor _ _ _ _).2 ⟨trivial, List.append_assoc _ _ _⟩, ?_⟩
    have hread : Text.decodeUtf8 bytes = .ok text.toList := Text.decodeUtf8_eq_ok_iff.2 hbytes.symm
    simp only [hlength, List.take_left, List.drop_left, hread, String.ofList_toList]
    rw [if_neg (by rw [List.length_append]; omega)]

end Texts

section Lists

variable {α : Type} {item : Reader α} {bytes : α → List UInt8} {Fits : α → Prop}

theorem Exact.takeItems (hitem : Exact item bytes Fits) (n : Nat) :
    Exact (takeItems item n) (List.flatMap bytes)
      fun items => items.length = n ∧ ∀ x ∈ items, Fits x := by
  induction n with
  | zero =>
    intro input items rest
    cases items with
    | nil => simp [BinaryLog.takeItems]
    | cons x items => simp [BinaryLog.takeItems]
  | succ n ih =>
    -- The first item is taken off, and the others are in what it leaves.
    intro input items rest
    simp only [BinaryLog.takeItems, bind_eq_ok_iff, map_eq_ok_iff, Prod.exists, hitem _ _ _, ih _ _ _]
    constructor
    · intro hread
      obtain ⟨x, _, ⟨hx, rfl⟩, items, _, ⟨⟨hlength, hitems⟩, rfl⟩, heq⟩ := hread
      obtain ⟨rfl, rfl⟩ := Prod.mk.inj heq
      rw [List.length_cons, hlength, List.forall_mem_cons, List.flatMap_cons, List.append_assoc]
      exact ⟨⟨rfl, hx, hitems⟩, rfl⟩
    · intro hwritten
      obtain ⟨⟨hlength, hfits⟩, rfl⟩ := hwritten
      cases items with
      | nil => simp at hlength
      | cons x items =>
        rw [List.forall_mem_cons] at hfits
        rw [List.length_cons] at hlength
        exact ⟨x, _, ⟨hfits.1, by rw [List.flatMap_cons, List.append_assoc]⟩, items, _,
          ⟨⟨by omega, hfits.2⟩, rfl⟩, rfl⟩

/-- The items of a list fit the format, and so does their number. -/
def ListFits (Fits : α → Prop) (items : List α) : Prop :=
  items.length < UInt64.size ∧ ∀ x ∈ items, Fits x

theorem Exact.takeList (hitem : Exact item bytes Fits) :
    Exact (takeList item) (listBytes bytes) (ListFits Fits) := by
  intro input items rest
  unfold BinaryLog.takeList listBytes ListFits
  simp only [bind_eq_ok_iff, Prod.exists, exact_takeWord _ _ _, hitem.takeItems _ _ _ _, true_and]
  constructor
  · intro hread
    obtain ⟨length, _, rfl, ⟨hlength, hfits⟩, rfl⟩ := hread
    rw [hlength, UInt64.ofNat_toNat, List.append_assoc]
    exact ⟨⟨length.toNat_lt, hfits⟩, rfl⟩
  · intro hwritten
    obtain ⟨⟨hlength, hfits⟩, rfl⟩ := hwritten
    exact ⟨_, _, List.append_assoc _ _ _, ⟨(UInt64.toNat_ofNat_of_lt' hlength).symm, hfits⟩, rfl⟩

end Lists

section Logs

/-- The bytes of a logged event. -/
def loggedEventBytes (e : LoggedEvent) : List UInt8 :=
  flagBytes e.isWrite ++ wordBytes e.key ++ wordBytes e.value ++ flagBytes e.succeeded

/-- The bytes of a logged transaction. -/
def loggedTransactionBytes (t : LoggedTransaction) : List UInt8 :=
  listBytes loggedEventBytes t.events ++ flagBytes t.succeeded

theorem exact_takeEvent : Exact takeEvent loggedEventBytes fun _ => True := by
  intro input e rest
  simp only [takeEvent, bind, pure, Except.pure, bind_eq_ok_iff, Prod.exists, exact_takeFlag _ _ _,
    exact_takeWord _ _ _, true_and, loggedEventBytes, Except.ok.injEq, Prod.mk.injEq,
    List.append_assoc]
  -- Both sides now say how the input is put together, field by field.
  constructor
  · intro hread
    obtain ⟨isWrite, _, rfl, key, _, rfl, value, _, rfl, succeeded, _, rfl, rfl, rfl⟩ := hread
    rfl
  · rintro rfl
    exact ⟨_, _, rfl, _, _, rfl, _, _, rfl, _, _, rfl, rfl, rfl⟩

/-- A transaction fits the format if the list of its events does. -/
def TransactionFits (t : LoggedTransaction) : Prop :=
  ListFits (fun _ => True) t.events

theorem exact_takeTransaction : Exact takeTransaction loggedTransactionBytes TransactionFits := by
  intro input t rest
  simp only [takeTransaction, bind, pure, Except.pure, bind_eq_ok_iff, Prod.exists,
    exact_takeEvent.takeList _ _ _, exact_takeFlag _ _ _, true_and, loggedTransactionBytes,
    Except.ok.injEq, Prod.mk.injEq, List.append_assoc]
  constructor
  · intro hread
    obtain ⟨events, _, ⟨hevents, rfl⟩, succeeded, _, rfl, rfl, rfl⟩ := hread
    exact ⟨hevents, rfl⟩
  · intro hwritten
    obtain ⟨hevents, rfl⟩ := hwritten
    exact ⟨_, _, ⟨hevents, rfl⟩, _, _, rfl, rfl, rfl⟩

/-- The texts of a header fit the format. -/
def HeaderFits (header : Header) : Prop :=
  TextFits header.info ∧ TextFits header.start ∧ TextFits header.stop

theorem exact_takeHeader : Exact takeHeader headerBytes HeaderFits := by
  intro input header rest
  simp only [takeHeader, bind, pure, Except.pure, bind_eq_ok_iff, Prod.exists, exact_takeWord _ _ _,
    exact_takeText _ _ _, true_and, headerBytes, HeaderFits, Except.ok.injEq, Prod.mk.injEq,
    List.append_assoc]
  constructor
  · intro hread
    obtain ⟨id, _, rfl, sessionCount, _, rfl, variableCount, _, rfl, transactionCount, _, rfl,
      eventCount, _, rfl, info, _, ⟨hinfo, rfl⟩, start, _, ⟨hstart, rfl⟩, stop, _, ⟨hstop, rfl⟩,
      rfl, rfl⟩ := hread
    exact ⟨⟨hinfo, hstart, hstop⟩, rfl⟩
  · intro hwritten
    obtain ⟨⟨hinfo, hstart, hstop⟩, rfl⟩ := hwritten
    exact ⟨_, _, rfl, _, _, rfl, _, _, rfl, _, _, rfl, _, _, rfl, _, _, ⟨hinfo, rfl⟩, _, _,
      ⟨hstart, rfl⟩, _, _, ⟨hstop, rfl⟩, rfl, rfl⟩

/-- The bytes of a header and of the logged sessions behind it. -/
def logBytes (log : Header × List (List LoggedTransaction)) : List UInt8 :=
  headerBytes log.1 ++ listBytes (listBytes loggedTransactionBytes) log.2

/-- No text and no list of a log is too long. -/
def LogFits (log : Header × List (List LoggedTransaction)) : Prop :=
  HeaderFits log.1 ∧ ListFits (ListFits TransactionFits) log.2

theorem exact_takeLog : Exact takeLog logBytes LogFits := by
  intro input log rest
  simp only [takeLog, bind, pure, Except.pure, bind_eq_ok_iff, Prod.exists, exact_takeHeader _ _ _,
    exact_takeTransaction.takeList.takeList _ _ _, logBytes, LogFits, Except.ok.injEq, Prod.mk.injEq,
    List.append_assoc]
  constructor
  · intro hread
    obtain ⟨header, _, ⟨hheader, rfl⟩, sessions, _, ⟨hsessions, rfl⟩, rfl, rfl⟩ := hread
    exact ⟨⟨hheader, hsessions⟩, rfl⟩
  · intro hwritten
    obtain ⟨⟨hheader, hsessions⟩, rfl⟩ := hwritten
    exact ⟨_, _, ⟨hheader, rfl⟩, _, _, ⟨hsessions, rfl⟩, rfl, rfl⟩

end Logs

section Logged

/-- What is written of an event: zero stands for an initial value, and events always succeed. -/
def loggedEvent : Recorded.Event UInt64 UInt64 → LoggedEvent
  | .write key value => ⟨true, key, value, true⟩
  | .read key value => ⟨false, key, value.getD 0, true⟩

/-- What is written of a transaction. -/
def loggedTransaction (t : Recorded.Transaction UInt64 UInt64) : LoggedTransaction :=
  ⟨t.events.map loggedEvent, t.committed⟩

/-- What is written of sessions. -/
def loggedSessions (sessions : Sessions) : List (List LoggedTransaction) :=
  sessions.map (List.map loggedTransaction)

theorem listBytes_map {α β : Type} (item : β → List UInt8) (f : α → β) (items : List α) :
    listBytes item (items.map f) = listBytes (fun x => item (f x)) items := by
  rw [listBytes, listBytes, List.length_map, List.flatMap_map]

theorem eventBytes_eq (e : Recorded.Event UInt64 UInt64) :
    eventBytes e = loggedEventBytes (loggedEvent e) := by
  cases e <;> rfl

theorem transactionBytes_eq (t : Recorded.Transaction UInt64 UInt64) :
    transactionBytes t = loggedTransactionBytes (loggedTransaction t) := by
  simp only [transactionBytes, loggedTransactionBytes, loggedTransaction, listBytes_map,
    ← eventBytes_eq]

/-- A log is written as the logged form of its sessions. -/
theorem encode_eq (log : BinaryLog) :
    encode log = logBytes (log.header, loggedSessions log.sessions) := by
  simp only [encode, logBytes, loggedSessions, listBytes_map, ← transactionBytes_eq]

end Logged

end Isolation.BinaryLog
