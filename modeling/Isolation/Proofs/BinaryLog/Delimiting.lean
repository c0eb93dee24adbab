import Isolation.Proofs.BinaryLog.RoundTrip

/-!
# Where a Log Ends

The lengths in a log are whatever its bytes say, up to the largest word, and the reader trusts them. That it
stops early all the same is due to the items: reading one takes at least a byte, even if it is a list
without items, because its length is in front. So no two items are read from the same place. `logInputs`
lists the inputs on which items are read, those of sessions, of transactions and of events, the last of
them possibly in vain. Each of them is further on in the bytes than the one before, so there are at most as
many as there are bytes, whatever was announced.

A fault points into the input, because readers only ever move on. And the end of a log is a matter of the
bytes in front of it: an input that starts with a log is read up to the end of that log and no further. So
a part of a log is not a log, and neither is a log with something behind it.

## Main definitions

* `logInputs`: The inputs on which the items of a log are read.
* `Within`: Reading ends inside its input, with or without a fault.

## Theorems

* `decode_self_delimiting`: A log says itself where it ends, and reading it ends no later.
-/

namespace Isolation.BinaryLog

open Text (bind_eq_ok_iff map_eq_ok_iff)

variable {bytes rest : List UInt8}

section Further

/-- The second input is what is left of the first one after at least one byte. -/
def Further (bytes rest : List UInt8) : Prop :=
  rest <:+ bytes ∧ rest.length < bytes.length

theorem Further.trans_suffix {bytes rest later : List UInt8} (hrest : Further bytes rest)
    (hlater : later <:+ rest) : Further bytes later :=
  ⟨hlater.trans hrest.1, lt_of_le_of_lt hlater.length_le hrest.2⟩

theorem Further.suffix_trans {bytes rest later : List UInt8} (hrest : rest <:+ bytes)
    (hlater : Further rest later) : Further bytes later :=
  ⟨hlater.1.trans hrest, lt_of_lt_of_le hlater.2 hrest.length_le⟩

/-- Each of the inputs is further on than all those before it. -/
def Forward (inputs : List (List UInt8)) : Prop :=
  inputs.Pairwise Further

theorem Forward.length_le {inputs : List (List UInt8)} (hforward : Forward (bytes :: inputs)) :
    inputs.length ≤ bytes.length := by
  induction inputs generalizing bytes with
  | nil => exact Nat.zero_le _
  | cons input inputs ih =>
    rw [Forward, List.pairwise_cons] at hforward
    have hfirst := (hforward.1 input List.mem_cons_self).2
    have hothers := ih hforward.2
    rw [List.length_cons]
    omega

theorem Exact.suffix {α : Type} {take : Reader α} {written : α → List UInt8} {Fits : α → Prop}
    (hexact : Exact take written Fits) {x : α} (hread : take bytes = .ok (x, rest)) : rest <:+ bytes :=
  ⟨written x, ((hexact bytes x rest).mp hread).2.symm⟩

theorem Exact.further {α : Type} {take : Reader α} {written : α → List UInt8} {Fits : α → Prop}
    (hexact : Exact take written Fits) (hwritten : ∀ x, 0 < (written x).length) {x : α}
    (hread : take bytes = .ok (x, rest)) : Further bytes rest := by
  refine ⟨hexact.suffix hread, ?_⟩
  rw [((hexact bytes x rest).mp hread).2, List.length_append]
  have hpos := hwritten x
  omega

theorem further_of_takeWord {w : UInt64} (hread : takeWord bytes = .ok (w, rest)) : Further bytes rest := by
  refine exact_takeWord.further (fun w => ?_) hread
  rw [length_wordBytes]
  omega

end Further

section Inputs

variable {α : Type}

/-- The inputs on which a number of items is read, each followed by the inputs inside it. The item that
    fails is the last one. -/
def itemInputs (item : Reader α) (inside : List UInt8 → List (List UInt8)) :
    Nat → List UInt8 → List (List UInt8)
  | 0, _ => []
  | n + 1, bytes =>
    (bytes :: inside bytes) ++ match item bytes with
      | .ok (_, rest) => itemInputs item inside n rest
      | .error _ => []

/-- The inputs on which the items of a list are read. -/
def listInputs (item : Reader α) (inside : List UInt8 → List (List UInt8)) (bytes : List UInt8) :
    List (List UInt8) :=
  match takeWord bytes with
  | .ok (length, rest) => itemInputs item inside length.toNat rest
  | .error _ => []

/-- The inputs on which the events of a transaction are read. -/
def transactionInputs : List UInt8 → List (List UInt8) :=
  listInputs takeEvent fun _ => []

/-- The inputs on which the transactions of a session and their events are read. -/
def sessionInputs : List UInt8 → List (List UInt8) :=
  listInputs takeTransaction transactionInputs

/-- The inputs on which the sessions of a log, their transactions and the events of those are read. -/
def logInputs (bytes : List UInt8) : List (List UInt8) :=
  match takeHeader bytes with
  | .ok (_, rest) => listInputs (takeList takeTransaction) sessionInputs rest
  | .error _ => []

variable {item : Reader α} {inside : List UInt8 → List (List UInt8)} {bytes : List UInt8}

theorem itemInputs_of_error {fault : Fault} (hitem : item bytes = .error fault) (n : Nat) :
    itemInputs item inside (n + 1) bytes = bytes :: inside bytes := by
  rw [itemInputs, hitem, List.append_nil]

theorem itemInputs_of_ok {x : α} (hitem : item bytes = .ok (x, rest)) (n : Nat) :
    itemInputs item inside (n + 1) bytes =
      (bytes :: inside bytes) ++ itemInputs item inside n rest := by
  rw [itemInputs, hitem]

theorem takeItems_succ_eq_ok_iff {n : Nat} {xs : List α} :
    takeItems item (n + 1) bytes = .ok (xs, rest) ↔ ∃ x behind more,
      item bytes = .ok (x, behind) ∧ takeItems item n behind = .ok (more, rest) ∧ xs = x :: more := by
  simp only [takeItems, bind_eq_ok_iff, map_eq_ok_iff, Prod.exists, Prod.mk.injEq]
  constructor
  · rintro ⟨x, behind, hitem, more, _, hmore, rfl, rfl⟩
    exact ⟨x, behind, more, hitem, hmore, rfl⟩
  · rintro ⟨x, behind, more, hitem, hmore, rfl⟩
    exact ⟨x, behind, hitem, more, rest, hmore, rfl, rfl⟩

theorem takeList_eq_ok_iff {xs : List α} :
    takeList item bytes = .ok (xs, rest) ↔ ∃ length behind,
      takeWord bytes = .ok (length, behind) ∧ takeItems item length.toNat behind = .ok (xs, rest) := by
  simp only [takeList, bind_eq_ok_iff, Prod.exists]

theorem listInputs_of_ok {length : UInt64} (hword : takeWord bytes = .ok (length, rest)) :
    listInputs item inside bytes = itemInputs item inside length.toNat rest := by
  rw [listInputs, hword]

theorem takeTransaction_eq_ok_iff {t : LoggedTransaction} :
    takeTransaction bytes = .ok (t, rest) ↔ ∃ behind,
      takeList takeEvent bytes = .ok (t.events, behind) ∧ takeFlag behind = .ok (t.succeeded, rest) := by
  simp only [takeTransaction, bind, pure, Except.pure, bind_eq_ok_iff, Prod.exists, Except.ok.injEq,
    Prod.mk.injEq]
  constructor
  · rintro ⟨events, behind, hevents, succeeded, _, hflag, rfl, rfl⟩
    exact ⟨behind, hevents, hflag⟩
  · rintro ⟨behind, hevents, hflag⟩
    exact ⟨t.events, behind, hevents, t.succeeded, rest, hflag, rfl, rfl⟩

theorem takeLog_eq_ok_iff {log : Header × List (List LoggedTransaction)} :
    takeLog bytes = .ok (log, rest) ↔ ∃ behind, takeHeader bytes = .ok (log.1, behind) ∧
      takeList (takeList takeTransaction) behind = .ok (log.2, rest) := by
  simp only [takeLog, bind, pure, Except.pure, bind_eq_ok_iff, Prod.exists, Except.ok.injEq,
    Prod.mk.injEq]
  constructor
  · rintro ⟨header, behind, hheader, sessions, _, hsessions, rfl, rfl⟩
    exact ⟨behind, hheader, hsessions⟩
  · rintro ⟨behind, hheader, hsessions⟩
    exact ⟨log.1, behind, hheader, log.2, rest, hsessions, rfl, rfl⟩

end Inputs

section Progress

variable {α β : Type} {item : Reader α} {inside : List UInt8 → List (List UInt8)}

/-- The inputs inside an item move on from the item's own, and what the item leaves is further on still. -/
structure Advances (item : Reader α) (inside : List UInt8 → List (List UInt8)) : Prop where
  forward : ∀ bytes, Forward (bytes :: inside bytes)
  further : ∀ bytes x rest, item bytes = .ok (x, rest) →
    ∀ input ∈ bytes :: inside bytes, Further input rest

theorem Advances.items (hitem : Advances item inside) (n : Nat) (bytes : List UInt8) :
    Forward (itemInputs item inside n bytes) ∧
    (∀ input ∈ itemInputs item inside n bytes, input <:+ bytes) ∧
    ∀ xs rest, takeItems item n bytes = .ok (xs, rest) →
      rest <:+ bytes ∧ ∀ input ∈ itemInputs item inside n bytes, Further input rest := by
  induction n generalizing bytes with
  | zero =>
    refine ⟨List.Pairwise.nil, fun input hinput => absurd hinput List.not_mem_nil, ?_⟩
    intro xs rest hread
    cases hread
    exact ⟨List.suffix_refl _, fun input hinput => absurd hinput List.not_mem_nil⟩
  | succ n ih =>
    have hown : ∀ input ∈ bytes :: inside bytes, input <:+ bytes := by
      intro input hinput
      rcases List.mem_cons.mp hinput with rfl | hinside
      · exact List.suffix_refl _
      · exact ((List.pairwise_cons.mp (hitem.forward bytes)).1 input hinside).1
    cases hfirst : item bytes with
    | error fault =>
      rw [itemInputs_of_error hfirst]
      refine ⟨hitem.forward bytes, hown, fun xs rest hread => ?_⟩
      rcases takeItems_succ_eq_ok_iff.mp hread with ⟨x, behind, more, hok, _, _⟩
      rw [hfirst] at hok
      cases hok
    | ok first =>
      rcases first with ⟨x, behind⟩
      rcases ih behind with ⟨hforward, hsuffix, hrest⟩
      have hbehind := hitem.further bytes x behind hfirst
      rw [itemInputs_of_ok hfirst]
      refine ⟨?_, ?_, ?_⟩
      · -- All that belongs to the first item comes before what it leaves.
        refine List.pairwise_append.mpr ⟨hitem.forward bytes, hforward, ?_⟩
        intro input hinput later hlater
        exact (hbehind input hinput).trans_suffix (hsuffix later hlater)
      · intro input hinput
        rcases List.mem_append.mp hinput with hinput | hinput
        · exact hown input hinput
        · exact (hsuffix input hinput).trans (hbehind bytes List.mem_cons_self).1
      · intro xs rest hread
        rcases takeItems_succ_eq_ok_iff.mp hread with ⟨_, _, more, hok, hmore, _⟩
        rw [hfirst] at hok
        cases hok
        rcases hrest more rest hmore with ⟨hend, hall⟩
        refine ⟨hend.trans (hbehind bytes List.mem_cons_self).1, fun input hinput => ?_⟩
        rcases List.mem_append.mp hinput with hinput | hinput
        · exact (hbehind input hinput).trans_suffix hend
        · exact hall input hinput

/-- A list moves on because its length is in front, even if it has no items. -/
theorem Advances.list (hitem : Advances item inside) :
    Advances (takeList item) (listInputs item inside) := by
  constructor
  · intro bytes
    unfold listInputs
    split
    · rename_i length rest hword
      rcases hitem.items length.toNat rest with ⟨hforward, hsuffix, _⟩
      refine List.pairwise_cons.mpr ⟨fun input hinput => ?_, hforward⟩
      exact (further_of_takeWord hword).trans_suffix (hsuffix input hinput)
    · exact List.pairwise_singleton _ _
  · intro bytes xs rest hread input hinput
    rcases takeList_eq_ok_iff.mp hread with ⟨length, behind, hword, hitems⟩
    rcases (hitem.items length.toNat behind).2.2 xs rest hitems with ⟨hend, hall⟩
    rw [listInputs_of_ok hword] at hinput
    rcases List.mem_cons.mp hinput with rfl | hinput
    · exact (further_of_takeWord hword).trans_suffix hend
    · exact hall input hinput

theorem Advances.andThen {whole : Reader β} (hitem : Advances item inside)
    (hwhole : ∀ bytes y rest, whole bytes = .ok (y, rest) →
      ∃ x behind, item bytes = .ok (x, behind) ∧ rest <:+ behind) : Advances whole inside := by
  refine ⟨hitem.forward, fun bytes y rest hread input hinput => ?_⟩
  rcases hwhole bytes y rest hread with ⟨x, behind, hx, hrest⟩
  exact (hitem.further bytes x behind hx input hinput).trans_suffix hrest

theorem advances_takeEvent : Advances takeEvent fun _ => [] := by
  refine ⟨fun bytes => List.pairwise_singleton _ _, fun bytes e rest hread input hinput => ?_⟩
  rw [List.mem_singleton] at hinput
  subst hinput
  refine exact_takeEvent.further (fun e => ?_) hread
  simp only [loggedEventBytes, List.length_append, length_wordBytes]
  omega

theorem advances_takeTransaction : Advances takeTransaction transactionInputs := by
  refine advances_takeEvent.list.andThen fun bytes t rest hread => ?_
  rcases takeTransaction_eq_ok_iff.mp hread with ⟨behind, hevents, hflag⟩
  exact ⟨t.events, behind, hevents, exact_takeFlag.suffix hflag⟩

/-- No two items of a log are read from the same place, and none from its beginning. -/
theorem forward_logInputs (bytes : List UInt8) : Forward (bytes :: logInputs bytes) := by
  unfold logInputs
  split
  · rename_i header rest hheader
    have hlist := advances_takeTransaction.list.list.forward rest
    rw [Forward, List.pairwise_cons] at hlist
    refine List.pairwise_cons.mpr ⟨fun input hinput => ?_, hlist.2⟩
    exact Further.suffix_trans (exact_takeHeader.suffix hheader) (hlist.1 input hinput)
  · exact List.pairwise_singleton _ _

end Progress

section Tallies

variable {α : Type} {item : Reader α} {inside : List UInt8 → List (List UInt8)} {size : α → Nat}

/-- An item that is read has as many inputs inside as its size says. -/
def Tallies (item : Reader α) (inside : List UInt8 → List (List UInt8)) (size : α → Nat) : Prop :=
  ∀ bytes x rest, item bytes = .ok (x, rest) → (inside bytes).length = size x

theorem Tallies.items (hitem : Tallies item inside size) {n : Nat} {xs : List α}
    (hread : takeItems item n bytes = .ok (xs, rest)) :
    (itemInputs item inside n bytes).length = (xs.map fun x => size x + 1).sum := by
  induction n generalizing bytes xs with
  | zero =>
    cases hread
    rfl
  | succ n ih =>
    rcases takeItems_succ_eq_ok_iff.mp hread with ⟨x, behind, more, hx, hmore, rfl⟩
    rw [itemInputs_of_ok hx, List.length_append, List.length_cons, hitem bytes x behind hx, ih hmore,
      List.map_cons, List.sum_cons]

theorem Tallies.list (hitem : Tallies item inside size) :
    Tallies (takeList item) (listInputs item inside) fun xs => (xs.map fun x => size x + 1).sum := by
  intro bytes xs rest hread
  rcases takeList_eq_ok_iff.mp hread with ⟨length, behind, hword, hitems⟩
  rw [listInputs_of_ok hword, hitem.items hitems]

theorem tallies_takeTransaction :
    Tallies takeTransaction transactionInputs fun t => t.events.length := by
  intro bytes t rest hread
  rcases takeTransaction_eq_ok_iff.mp hread with ⟨behind, hevents, _⟩
  have hevent : Tallies takeEvent (fun _ => []) fun _ => 0 := fun _ _ _ _ => rfl
  rw [transactionInputs, hevent.list bytes t.events behind hevents]
  simp

/-- A log that is read whole has an input for each session, each transaction and each event. -/
theorem length_logInputs {log : Header × List (List LoggedTransaction)}
    (hread : takeLog bytes = .ok (log, rest)) :
    (logInputs bytes).length = log.2.length + log.2.flatten.length +
      (log.2.flatten.flatMap LoggedTransaction.events).length := by
  rcases takeLog_eq_ok_iff.mp hread with ⟨behind, hheader, hsessions⟩
  have hcount := tallies_takeTransaction.list.list behind log.2 rest hsessions
  rw [logInputs, hheader]
  refine hcount.trans ?_
  dsimp only
  generalize log.2 = sessions
  induction sessions with
  | nil => rfl
  | cons session sessions ih =>
    have hsession : (session.map fun t => t.events.length + 1).sum =
        (session.map fun t => t.events.length).sum + session.length := by
      rw [List.sum_map_add, List.map_const', List.sum_replicate, smul_eq_mul, mul_one]
    have hevents : (session.flatMap LoggedTransaction.events).length =
        (session.map fun t => t.events.length).sum := List.length_flatMap
    rw [List.map_cons, List.sum_cons, ih, hsession, List.flatten_cons, List.flatMap_append,
      List.length_append, List.length_append, hevents, List.length_cons]
    omega

end Tallies

section Faults

variable {α β : Type}

/-- What reading leaves, or the place of its fault, is a part of the input. -/
structure Within (bytes : List UInt8) (outcome : Except Fault (α × List UInt8)) : Prop where
  rest : ∀ x rest, outcome = .ok (x, rest) → rest <:+ bytes
  fault : ∀ fault, outcome = .error fault → fault.rest <:+ bytes

theorem Within.mono {outcome : Except Fault (α × List UInt8)} (houtcome : Within rest outcome)
    (hrest : rest <:+ bytes) : Within bytes outcome :=
  ⟨fun x later hok => (houtcome.rest x later hok).trans hrest,
    fun fault herror => (houtcome.fault fault herror).trans hrest⟩

theorem within_ok (x : α) (hrest : rest <:+ bytes) : Within bytes (.ok (x, rest)) := by
  constructor
  · intro y later hok
    cases hok
    exact hrest
  · intro fault herror
    cases herror

theorem within_error {fault : Fault} (hfault : fault.rest <:+ bytes) :
    Within bytes (.error fault : Except Fault (α × List UInt8)) := by
  constructor
  · intro x rest hok
    cases hok
  · intro other herror
    cases herror
    exact hfault

theorem Within.bind {outcome : Except Fault (α × List UInt8)}
    {next : α × List UInt8 → Except Fault (β × List UInt8)} (houtcome : Within bytes outcome)
    (hnext : ∀ x rest, rest <:+ bytes → Within rest (next (x, rest))) :
    Within bytes (outcome.bind next) := by
  cases outcome with
  | error fault => exact within_error (houtcome.fault fault rfl)
  | ok read =>
    rcases read with ⟨x, rest⟩
    have hrest := houtcome.rest x rest rfl
    exact (hnext x rest hrest).mono hrest

theorem within_takeWordFor (cause : Cause) (bytes : List UInt8) :
    Within bytes (takeWordFor cause bytes) := by
  unfold takeWordFor
  dsimp only
  split_ifs
  · exact within_ok _ (List.drop_suffix 8 bytes)
  · exact within_error (List.suffix_refl bytes)

theorem within_takeWord (bytes : List UInt8) : Within bytes (takeWord bytes) :=
  within_takeWordFor .shortWord bytes

theorem within_takeFlag (bytes : List UInt8) : Within bytes (takeFlag bytes) := by
  unfold takeFlag
  split
  · exact within_ok _ (List.suffix_cons _ _)
  · exact within_ok _ (List.suffix_cons _ _)
  · exact within_error (List.suffix_refl _)

theorem within_takeText (bytes : List UInt8) : Within bytes (takeText bytes) := by
  have hword := within_takeWordFor .shortText bytes
  unfold takeText
  cases hread : takeWordFor .shortText bytes with
  | error fault => exact within_error (hword.fault fault hread)
  | ok read =>
    rcases read with ⟨length, rest⟩
    have hrest := hword.rest length rest hread
    -- A text that is no text is reported in front of its length, so the whole input counts here.
    simp only [Except.bind]
    split_ifs
    · exact within_error hrest
    · split
      · exact within_ok _ ((List.drop_suffix _ rest).trans hrest)
      · exact within_error (List.suffix_refl bytes)

theorem within_takeItems {item : Reader α} (hitem : ∀ bytes, Within bytes (item bytes)) (n : Nat)
    (bytes : List UInt8) : Within bytes (takeItems item n bytes) := by
  induction n generalizing bytes with
  | zero => exact within_ok _ (List.suffix_refl bytes)
  | succ n ih =>
    refine (hitem bytes).bind fun x rest _ => ?_
    have hmore := ih rest
    dsimp only
    cases hread : takeItems item n rest with
    | error fault => exact within_error (hmore.fault fault hread)
    | ok read => exact within_ok _ (hmore.rest read.1 read.2 hread)

theorem within_takeList {item : Reader α} (hitem : ∀ bytes, Within bytes (item bytes))
    (bytes : List UInt8) : Within bytes (takeList item bytes) :=
  (within_takeWord bytes).bind fun length rest _ => within_takeItems hitem length.toNat rest

theorem within_takeEvent (bytes : List UInt8) : Within bytes (takeEvent bytes) :=
  (within_takeFlag bytes).bind fun _ rest _ =>
    (within_takeWord rest).bind fun _ rest _ =>
      (within_takeWord rest).bind fun _ rest _ =>
        (within_takeFlag rest).bind fun _ rest _ => within_ok _ (List.suffix_refl rest)

theorem within_takeTransaction (bytes : List UInt8) : Within bytes (takeTransaction bytes) :=
  (within_takeList within_takeEvent bytes).bind fun _ rest _ =>
    (within_takeFlag rest).bind fun _ rest _ => within_ok _ (List.suffix_refl rest)

theorem within_takeHeader (bytes : List UInt8) : Within bytes (takeHeader bytes) :=
  (within_takeWord bytes).bind fun _ rest _ =>
    (within_takeWord rest).bind fun _ rest _ =>
      (within_takeWord rest).bind fun _ rest _ =>
        (within_takeWord rest).bind fun _ rest _ =>
          (within_takeWord rest).bind fun _ rest _ =>
            (within_takeText rest).bind fun _ rest _ =>
              (within_takeText rest).bind fun _ rest _ =>
                (within_takeText rest).bind fun _ rest _ => within_ok _ (List.suffix_refl rest)

theorem within_takeLog (bytes : List UInt8) : Within bytes (takeLog bytes) :=
  (within_takeHeader bytes).bind fun _ rest _ =>
    (within_takeList (within_takeList within_takeTransaction) rest).bind fun _ rest _ =>
      within_ok _ (List.suffix_refl rest)

end Faults

section Ends

variable {log : Header × List (List LoggedTransaction)}

theorem decode_of_fault {fault : Fault} (hread : takeLog bytes = .error fault) :
    decode bytes = .error (.binary (bytes.length - fault.rest.length) fault.cause) := by
  rw [decode, hread]

theorem decode_of_trailing (hread : takeLog bytes = .ok (log, rest)) (hrest : rest ≠ []) :
    decode bytes = .error (.binary (bytes.length - rest.length) .trailing) := by
  rw [decode, hread]
  simp [hrest]

theorem firstFailure?_ne_binary (sessions : List (List LoggedTransaction)) (offset : Nat)
    (cause : Cause) : firstFailure? sessions ≠ some (.binary offset cause) := by
  intro hfound
  rcases List.exists_of_findSome?_eq_some hfound with ⟨⟨transactions, session⟩, _, hsession⟩
  rcases List.exists_of_findSome?_eq_some hsession with ⟨⟨t, index⟩, _, hindex⟩
  dsimp only at hindex
  split_ifs at hindex
  · simp [failedEvent?] at hindex
  · cases hindex

theorem countMismatch?_ne_binary (header : Header) (sessions : Sessions) (offset : Nat)
    (cause : Cause) : countMismatch? header sessions ≠ some (.binary offset cause) := by
  intro hfound
  rcases List.exists_of_findSome?_eq_some hfound with ⟨⟨what, expected, found⟩, _, hcount⟩
  dsimp only at hcount
  split_ifs at hcount
  cases hcount

/-- Bytes are no log because of a fault in them, or because something stands behind the log. -/
theorem decode_eq_binary {offset : Nat} {cause : Cause}
    (hdecode : decode bytes = .error (.binary offset cause)) :
    offset ≤ bytes.length ∧
      (takeLog bytes = .error ⟨bytes.drop offset, cause⟩ ∨
        cause = .trailing ∧ offset < bytes.length ∧
          ∃ log, takeLog bytes = .ok (log, bytes.drop offset)) := by
  have hwithin := within_takeLog bytes
  cases hread : takeLog bytes with
  | error fault =>
    rw [decode_of_fault hread] at hdecode
    cases hdecode
    have hrest := List.suffix_iff_eq_drop.mp (hwithin.fault fault hread)
    refine ⟨Nat.sub_le _ _, Or.inl ?_⟩
    rw [← hrest]
  | ok read =>
    rcases read with ⟨log, rest⟩
    by_cases hrest : rest = []
    · -- The checks of the content find no fault of this kind.
      exfalso
      rw [decode, hread] at hdecode
      simp only [hrest, List.isEmpty_nil, Bool.not_true, Bool.false_eq_true, if_false] at hdecode
      split at hdecode
      · rename_i error hfailure
        cases hdecode
        exact firstFailure?_ne_binary _ _ _ hfailure
      · split at hdecode
        · rename_i error hmismatch
          cases hdecode
          exact countMismatch?_ne_binary _ _ _ _ hmismatch
        · cases hdecode
    · rw [decode_of_trailing hread hrest] at hdecode
      cases hdecode
      have hsuffix := hwithin.rest log rest hread
      have hlength := hsuffix.length_le
      have hpos := List.length_pos_of_ne_nil hrest
      refine ⟨Nat.sub_le _ _, Or.inr ⟨rfl, by omega, log, ?_⟩⟩
      rw [← List.suffix_iff_eq_drop.mp hsuffix]

theorem exists_takeLog_of_decode {log : BinaryLog} (hdecode : decode bytes = .ok log) :
    ∃ logged, takeLog bytes = .ok ((log.header, logged), []) ∧
      log.sessions = recordedSessions logged := by
  rcases (decode_eq_ok_iff bytes log).mp hdecode with ⟨logged, hfits, hbytes, _, hsessions, _⟩
  exact ⟨logged, (exact_takeLog _ _ _).mpr ⟨hfits, by rw [hbytes, List.append_nil]⟩, hsessions⟩

theorem takeLog_append (hread : takeLog bytes = .ok (log, rest)) (more : List UInt8) :
    takeLog (bytes ++ more) = .ok (log, rest ++ more) := by
  rcases (exact_takeLog _ _ _).mp hread with ⟨hfits, hbytes⟩
  exact (exact_takeLog _ _ _).mpr ⟨hfits, by rw [hbytes, List.append_assoc]⟩

theorem counts_recordedSessions (logged : List (List LoggedTransaction)) :
    (recordedSessions logged).length = logged.length ∧
      countTransactions (recordedSessions logged) = logged.flatten.length ∧
      countEvents (recordedSessions logged) =
        (logged.flatten.flatMap LoggedTransaction.events).length := by
  unfold recordedSessions countTransactions countEvents Recorded.events
  simp only [← List.map_flatten, List.length_map, List.flatMap_map, List.length_flatMap,
    and_self]

/-- A log says itself where it ends. Whatever lengths are announced, no two items are read from the same
    place of the bytes, so that no more items are read than there are bytes; if the bytes are accepted, the
    items are those of the log. A binary fault points into the bytes, at the place where reading failed or
    where the log had ended. Of bytes that are accepted no proper beginning is, and neither are the bytes
    with more behind them, which is noticed where the log ends. -/
theorem decode_self_delimiting (bytes : List UInt8) :
    (Forward (bytes :: logInputs bytes) ∧ (logInputs bytes).length ≤ bytes.length) ∧
    (∀ offset cause, decode bytes = .error (.binary offset cause) →
      offset ≤ bytes.length ∧
        (takeLog bytes = .error ⟨bytes.drop offset, cause⟩ ∨
          cause = .trailing ∧ offset < bytes.length ∧
            ∃ log, takeLog bytes = .ok (log, bytes.drop offset))) ∧
    ∀ log, decode bytes = .ok log →
      (logInputs bytes).length =
        log.sessions.length + countTransactions log.sessions + countEvents log.sessions ∧
      (∀ front, front <+: bytes → front ≠ bytes →
        ∃ offset cause, decode front = .error (.binary offset cause)) ∧
      ∀ more, more ≠ [] → decode (bytes ++ more) = .error (.binary bytes.length .trailing) := by
  have hforward := forward_logInputs bytes
  refine ⟨⟨hforward, hforward.length_le⟩, fun offset cause hdecode => decode_eq_binary hdecode,
    fun log hdecode => ?_⟩
  rcases exists_takeLog_of_decode hdecode with ⟨logged, hread, hsessions⟩
  rcases counts_recordedSessions logged with ⟨hcount, htransactions, hevents⟩
  refine ⟨?_, ?_, ?_⟩
  · rw [length_logInputs hread, hsessions, hcount, htransactions, hevents]
  · rintro front ⟨back, rfl⟩ hproper
    have hback : back ≠ [] := by
      rintro rfl
      exact hproper (List.append_nil front).symm
    cases hfront : takeLog front with
    | error fault => exact ⟨_, _, decode_of_fault hfront⟩
    | ok read =>
      -- What is read of the beginning is read of the whole, and would leave the rest of it.
      rcases read with ⟨other, rest⟩
      have hwhole := takeLog_append hfront back
      rw [hread, Except.ok.injEq, Prod.mk.injEq] at hwhole
      exact absurd (List.append_eq_nil_iff.mp hwhole.2.symm).2 hback
  · intro more hmore
    rw [decode_of_trailing (takeLog_append hread more) hmore, List.length_append, List.nil_append,
      Nat.add_sub_cancel]

/-- A log with a single event, a write. -/
def singleWrite : BinaryLog :=
  ⟨⟨3, 1, 1, 1, 1, "", "", ""⟩, [[⟨[.write 5 0], true⟩]]⟩

/-- An empty header, followed by the announcement of as many sessions as a word can say. -/
def endlessSessions : List UInt8 :=
  List.replicate 64 0 ++ List.replicate 8 255

theorem decode_self_delimiting_cutShort :
    decode (encode singleWrite) = .ok singleWrite ∧
      (logInputs (encode singleWrite)).length = 3 ∧
      (∃ offset cause, decode ((encode singleWrite).take 106) = .error (.binary offset cause)) ∧
      decode (encode singleWrite ++ [1]) = .error (.binary 107 .trailing) ∧
      decode endlessSessions = .error (.binary 72 .shortWord) ∧
      (logInputs endlessSessions).length ≤ 72 ∧
      takeLog endlessSessions = .error ⟨[], .shortWord⟩ := by
  have haccepted : decode (encode singleWrite) = .ok singleWrite := by rfl
  have hendless : decode endlessSessions = .error (.binary 72 .shortWord) := by rfl
  rcases (decode_self_delimiting (encode singleWrite)).2.2 _ haccepted with ⟨hitems, hcut, hmore⟩
  rcases decode_self_delimiting endlessSessions with ⟨⟨_, hfew⟩, hfault, _⟩
  rcases (hfault 72 .shortWord hendless).2 with hread | ⟨hcause, _⟩
  · exact ⟨haccepted, hitems, hcut _ (List.take_prefix _ _) (by decide), hmore [1] (by decide),
      hendless, hfew, hread⟩
  · cases hcause

end Ends

end Isolation.BinaryLog
