import Isolation.Proofs.Audit.SessionOrder
import Isolation.Proofs.History.Recording
import Isolation.Recorded.Numbering

/-!
# What Numbering Keeps

A recording can be given numbers as keys. Nothing depends on what keys are called, so the verdict stays the
same as long as different keys get different numbers. The number of a key is the place of its first
occurrence among the keys, which tells keys apart; or, if all keys read as numbers, it is the number as which
the key reads, and that does not. A number has several spellings, since leading zeros and a plus sign are
tolerated, and two keys that spell the same number become one key. Then writes that had nothing to do with
each other may repeat a value, and the recording is refused.

## Main definitions

* `Recorded.KeepsApart`: A renaming keeps the keys of a recording apart.

## Theorems

* `numberKeys_faithful`: What numbering does to a recording.
* `numberKeys_merges_spellings`: It can merge keys and change the verdict.
-/

namespace Isolation

open Isolation.Sat
open Isolation.History (loaded loadedTransaction)

namespace Recorded

variable {κ ν κ' : Type}

section Renaming

/-- The renaming keeps the keys of the recording apart. -/
def KeepsApart (f : κ → κ') (sessions : List (Session κ ν)) : Prop :=
  ∀ a ∈ keys sessions, ∀ b ∈ keys sessions, f a = f b → a = b

theorem events_mapKeys (f : κ → κ') (sessions : List (Session κ ν)) :
    events (mapKeys f sessions) = (events sessions).map (Event.mapKey f) := by
  unfold events mapKeys mapEvents
  rw [← List.map_flatten, List.flatMap_map, List.map_flatMap]
  rfl

/-- What is read or written under the new key was read or written under the old one. -/
theorem mapKey_eq_iff {f : κ → κ'} {a b : Event κ ν} (hkey : f a.key = f b.key → a.key = b.key) :
    a.mapKey f = b.mapKey f ↔ a = b := by
  refine ⟨fun heq => ?_, congrArg _⟩
  cases a with
  | read key seen =>
    cases b with
    | read key' seen' =>
      rcases Event.read.inj heq with ⟨hkeys, rfl⟩
      rw [show key = key' from hkey hkeys]
    | write key' stored => cases heq
  | write key stored =>
    cases b with
    | read key' seen' => cases heq
    | write key' stored' =>
      rcases Event.write.inj heq with ⟨hkeys, rfl⟩
      rw [show key = key' from hkey hkeys]

variable {f : κ → κ'} {sessions : List (Session κ ν)} (hf : KeepsApart f sessions)

include hf

theorem KeepsApart.mapKey_mem_iff {e : Event κ ν} (he : e.key ∈ keys sessions) :
    e.mapKey f ∈ events (mapKeys f sessions) ↔ e ∈ events sessions := by
  rw [events_mapKeys, List.mem_map]
  constructor
  · rintro ⟨a, ha, heq⟩
    rwa [← (mapKey_eq_iff (hf a.key (List.mem_map_of_mem ha) e.key he)).mp heq]
  · intro hmem
    exact ⟨e, hmem, rfl⟩

variable [DecidableEq κ] [DecidableEq ν] [Inhabited ν] [DecidableEq κ']

/-- A recording can be loaded under the new keys exactly if it can be loaded. -/
theorem KeepsApart.freshWrites_iff :
    FreshWrites (events (mapKeys f sessions)) ↔ FreshWrites (events sessions) := by
  rw [events_mapKeys, FreshWrites, List.pairwise_map]
  refine List.Pairwise.iff_of_mem fun {a b} ha hb => ?_
  -- An event supplies the value of a later write under the new keys if it does so under the old ones.
  have hsame : ∀ key value, b = .write key value →
      ((a.mapKey f).supplies (f key) value = true ↔ a.supplies key value = true) := by
    rintro key value rfl
    have hkey := hf a.key (List.mem_map_of_mem ha) key (List.mem_map_of_mem hb)
    rw [Event.supplies_iff, Event.supplies_iff]
    exact or_congr (mapKey_eq_iff (b := .write key value) hkey)
      (and_congr_left fun _ => mapKey_eq_iff (b := .read key none) hkey)
  constructor
  · rintro hfresh key value rfl
    rw [← Bool.not_eq_true, ← hsame key value rfl, Bool.not_eq_true]
    exact hfresh (f key) value rfl
  · intro hfresh key' value heq
    cases b with
    | read key seen => cases heq
    | write key stored =>
      rcases Event.write.inj heq with ⟨rfl, rfl⟩
      rw [← Bool.not_eq_true, hsame key stored rfl, Bool.not_eq_true]
      exact hfresh key stored rfl

theorem KeepsApart.renames_loaded (hfresh : FreshWrites (events sessions)) :
    History.Renames (Equiv.refl Nat) f (fun _ => id) (loaded sessions) (loaded (mapKeys f sessions)) where
  zero := rfl
  client := by
    rintro ⟨session, height⟩ hclient
    cases session with
    | zero => cases hclient
    | succ index =>
      have hlook := History.transaction?_loaded (mapKeys f sessions) index height
      refine hlook.trans ?_
      rw [History.transaction?_loaded, mapKeys, mapEvents, List.getElem?_map]
      cases sessions[index]? with
      | none => rfl
      | some session =>
        simp only [Option.map_some, Option.bind_some, List.getElem?_map, Option.map_map]
        refine congrArg (fun change => Option.map change _) (funext fun t => ?_)
        simp only [Function.comp_apply, loadedTransaction, Transaction.mapEvents,
          Isolation.Transaction.renamed, List.map_map, Equiv.refl_apply]
        refine congrArg (fun events => Isolation.Transaction.mk _ events _) ?_
        refine List.map_congr_left fun e _ => ?_
        cases e with
        | read key seen => rfl
        | write key stored => rfl
  keys a ha b hb := hf a.key (History.key_mem_keys ha) b.key (History.key_mem_keys hb)
  values _ _ _ _ _ hvalue := hvalue
  init e he _ := by
    have hkey := History.key_mem_keys he
    have hinit : ∀ {α : Type} [DecidableEq α] (s : List (Session α ν)),
        (loaded s).init = History.defaultInit (openedKeys (events s)) := fun _ => rfl
    have hopen := hf.mapKey_mem_iff (e := .read e.key none) hkey
    have hwrite := hf.mapKey_mem_iff (e := .write e.key default) hkey
    rw [hinit, hinit, History.finalValue?_defaultInit, History.finalValue?_defaultInit,
      mem_openedKeys_iff (hf.freshWrites_iff.mpr hfresh), mem_openedKeys_iff hfresh]
    exact and_congr_right fun _ => and_congr hopen (not_congr hwrite)

theorem KeepsApart.exists_checkWith_iff [Ord κ] [Ord κ'] {engine : Engine} (hsound : engine.Sound)
    (hrefuting : engine.Refuting) (hreliable : engine.Reliable) (level : IsolationLevel) :
    (∃ w, checkWith engine (mapKeys f sessions) level = .ok w) ↔
      ∃ w, checkWith engine sessions level = .ok w := by
  rw [Isolation.exists_checkWith_iff, Isolation.exists_checkWith_iff, hf.freshWrites_iff]
  refine and_congr_right fun hfresh => ?_
  exact (hf.renames_loaded hfresh).exists_auditWith_iff hsound hrefuting hreliable
    (History.built_loaded hfresh).wellFormed
    (History.built_loaded (hf.freshWrites_iff.mpr hfresh)).wellFormed _

end Renaming

section Numbers

/-- The number that a key of the recording gets. -/
def keyNumber (sessions : List (Session String ν)) (key : String) : UInt64 :=
  if allDecimal sessions then (Text.wordOfText? key.toList).getD 0
  else firstAppearance (keys sessions).eraseDups key

/-- The keys of the recording are numbered apart: if they all read as numbers, no two of them read as the same
    number, and otherwise there are not more of them than there are words. -/
def NumberedApart (sessions : List (Session String ν)) : Prop :=
  if allDecimal sessions then
    ∀ a ∈ keys sessions, ∀ b ∈ keys sessions,
      Text.wordOfText? a.toList = Text.wordOfText? b.toList → a = b
  else (keys sessions).eraseDups.length ≤ UInt64.size

theorem numberKeys_eq (sessions : List (Session String ν)) :
    numberKeys sessions = mapKeys (keyNumber sessions) sessions := by
  unfold numberKeys keyNumber
  by_cases hall : allDecimal sessions = true
  · simp only [hall, if_true]
  · simp only [hall, Bool.false_eq_true, if_false]

/-- Keys that read as numbers get the same number if they read as the same number. -/
theorem keyNumber_eq_iff_of_allDecimal {sessions : List (Session String ν)}
    (hall : allDecimal sessions = true) {a b : String} (ha : a ∈ keys sessions) (hb : b ∈ keys sessions) :
    keyNumber sessions a = keyNumber sessions b ↔
      Text.wordOfText? a.toList = Text.wordOfText? b.toList := by
  rcases Option.isSome_iff_exists.mp (List.all_eq_true.mp hall a ha) with ⟨word, hword⟩
  rcases Option.isSome_iff_exists.mp (List.all_eq_true.mp hall b hb) with ⟨word', hword'⟩
  simp only [keyNumber, hall, if_true, hword, hword', Option.getD_some, Option.some.injEq]

/-- Places among distinct keys are words that differ, if there are not more keys than words. -/
theorem firstAppearance_inj {distinct : List String} (hroom : distinct.length ≤ UInt64.size) {a b : String}
    (ha : a ∈ distinct) (hb : b ∈ distinct)
    (heq : firstAppearance distinct a = firstAppearance distinct b) : a = b := by
  have hlt := List.idxOf_lt_length_of_mem ha
  have hlt' := List.idxOf_lt_length_of_mem hb
  have hplace := congrArg UInt64.toNat heq
  rw [firstAppearance, firstAppearance, UInt64.toNat_ofNat_of_lt' (Nat.lt_of_lt_of_le hlt hroom),
    UInt64.toNat_ofNat_of_lt' (Nat.lt_of_lt_of_le hlt' hroom)] at hplace
  exact (List.idxOf_inj ha).mp hplace

theorem firstAppearance_not_inj {distinct : List String} (hnodup : distinct.Nodup)
    (hroom : UInt64.size < distinct.length) :
    ∃ a ∈ distinct, ∃ b ∈ distinct, firstAppearance distinct a = firstAppearance distinct b ∧ a ≠ b := by
  have hpos : 0 < distinct.length := Nat.lt_trans (by decide) hroom
  refine ⟨distinct[0], List.getElem_mem hpos, distinct[UInt64.size], List.getElem_mem hroom, ?_, ?_⟩
  · rw [firstAppearance, firstAppearance, hnodup.idxOf_getElem, hnodup.idxOf_getElem]
    rfl
  · intro heq
    exact absurd ((hnodup.getElem_inj_iff).mp heq) (by decide)

/-- The numbers tell the keys apart exactly if the keys are numbered apart. -/
theorem keepsApart_keyNumber_iff (sessions : List (Session String ν)) :
    KeepsApart (keyNumber sessions) sessions ↔ NumberedApart sessions := by
  unfold KeepsApart NumberedApart
  by_cases hall : allDecimal sessions = true
  · rw [if_pos hall]
    refine forall₂_congr fun a ha => forall₂_congr fun b hb => ?_
    rw [keyNumber_eq_iff_of_allDecimal hall ha hb]
  · rw [if_neg hall]
    have hmem : ∀ key, key ∈ keys sessions ↔ key ∈ (keys sessions).eraseDups :=
      fun key => List.mem_eraseDups.symm
    have hnumber : keyNumber sessions = firstAppearance (keys sessions).eraseDups := by
      funext key
      exact if_neg hall
    rw [hnumber]
    simp only [hmem]
    constructor
    · intro hapart
      by_contra hroom
      rcases firstAppearance_not_inj (nodup_eraseDups _) (Nat.lt_of_not_le hroom) with
        ⟨a, ha, b, hb, heq, hne⟩
      exact hne (hapart a ha b hb heq)
    · intro hroom a ha b hb
      exact firstAppearance_inj hroom ha hb

theorem numberedApart_of_repr {sessions : List (Session String ν)}
    (hkeys : ∀ key ∈ keys sessions, ∃ word : UInt64, key = Nat.repr word.toNat) :
    NumberedApart sessions := by
  have hread : ∀ word : UInt64, Text.wordOfText? (Nat.repr word.toNat).toList = some word := by
    intro word
    rw [Nat.repr, String.toList_ofList, Text.wordOfText?_toDigits]
  have hall : allDecimal sessions = true := by
    refine List.all_eq_true.mpr fun key hkey => ?_
    rcases hkeys key hkey with ⟨word, rfl⟩
    rw [hread]
    rfl
  rw [NumberedApart, if_pos hall]
  intro a ha b hb heq
  rcases hkeys a ha with ⟨word, rfl⟩
  rcases hkeys b hb with ⟨word', rfl⟩
  rw [hread, hread, Option.some.injEq] at heq
  rw [heq]

/-- What numbering does to a recording. It changes nothing but keys. Events have the same number as key if
    they have the same key, and the converse holds exactly if the keys are numbered apart; then the verdict is
    kept at every level, whichever engine decides. Keys in the usual spelling are numbered apart. -/
theorem numberKeys_faithful (sessions : List (Session String UInt64)) :
    numberKeys sessions = mapKeys (keyNumber sessions) sessions ∧
    ((∀ a ∈ events sessions, ∀ b ∈ events sessions,
        (a.key = b.key ↔ keyNumber sessions a.key = keyNumber sessions b.key)) ↔
      NumberedApart sessions) ∧
    (NumberedApart sessions → ∀ level,
      ((∃ w, check (numberKeys sessions) level = .ok w) ↔ ∃ w, check sessions level = .ok w) ∧
      ∀ engine : Engine, engine.Sound → engine.Refuting → engine.Reliable →
        ((∃ w, checkWith engine (numberKeys sessions) level = .ok w) ↔
          ∃ w, checkWith engine sessions level = .ok w)) ∧
    ((∀ key ∈ keys sessions, ∃ word : UInt64, key = Nat.repr word.toNat) → NumberedApart sessions) := by
  refine ⟨numberKeys_eq sessions, ?_, fun hapart level => ?_, numberedApart_of_repr⟩
  · rw [← keepsApart_keyNumber_iff, KeepsApart, keys, List.forall_mem_map]
    refine forall₂_congr fun a _ => ?_
    rw [List.forall_mem_map]
    exact forall₂_congr fun b _ => ⟨fun hiff => hiff.mpr, fun hback => ⟨congrArg _, hback⟩⟩
  · rw [numberKeys_eq]
    exact forall_engines id fun engine hsound hrefuting hreliable =>
      ((keepsApart_keyNumber_iff sessions).mpr hapart).exists_checkWith_iff hsound hrefuting hreliable
        level

/-- Two spellings of a number beside a key that is no number. -/
def oddSpellings : List (Session String UInt64) :=
  [[⟨[.write "x" 1, .write "01" 1], true⟩], [⟨[.read "x" (some 1), .read "1" none], true⟩]]

/-- Numbers as keys. -/
def usualSpellings : List (Session String UInt64) :=
  [[⟨[.write "7" 1], true⟩], [⟨[.read "7" (some 1), .read "3" none], true⟩]]

theorem numberKeys_faithful_oddSpellings :
    (NumberedApart oddSpellings ∧
      numberKeys oddSpellings =
        [[⟨[.write 0 1, .write 1 1], true⟩], [⟨[.read 0 (some 1), .read 2 none], true⟩]] ∧
      ∃ w, check (numberKeys oddSpellings) .serializable = .ok w) ∧
    ((∀ key ∈ keys usualSpellings, ∃ word : UInt64, key = Nat.repr word.toNat) ∧
      NumberedApart usualSpellings) := by
  have hapart : NumberedApart oddSpellings := by
    have hnot : allDecimal oddSpellings = false := by decide +kernel
    rw [NumberedApart, hnot]
    decide +kernel
  have husual : ∀ key ∈ keys usualSpellings, ∃ word : UInt64, key = Nat.repr word.toNat := by
    intro key hkey
    fin_cases hkey
    · exact ⟨7, by decide +kernel⟩
    · exact ⟨7, by decide +kernel⟩
    · exact ⟨3, by decide +kernel⟩
  refine ⟨⟨hapart, by decide +kernel, ?_⟩, husual, (numberKeys_faithful usualSpellings).2.2.2 husual⟩
  refine ((numberKeys_faithful oddSpellings).2.2.1 hapart .serializable).1.mpr ?_
  exact exists_ok_iff_isSome.mpr (by decide +kernel)

/-- Two sessions write the same value under two keys that are spellings of one number. -/
def twoSpellings : List (Session String UInt64) :=
  [[⟨[.write "1" 5], true⟩], [⟨[.write "01" 5], true⟩]]

/-- Numbering can merge keys: two spellings of one number become one key, and sessions that are accepted at
    both levels are refused afterwards. -/
theorem numberKeys_merges_spellings :
    keys twoSpellings = ["1", "01"] ∧
    numberKeys twoSpellings = [[⟨[.write 1 5], true⟩], [⟨[.write 1 5], true⟩]] ∧
    (∃ w, check twoSpellings .snapshotIsolation = .ok w) ∧
    (∃ w, check twoSpellings .serializable = .ok w) ∧
    ∀ level, ¬∃ w, check (numberKeys twoSpellings) level = .ok w := by
  have hnumbers : numberKeys twoSpellings = [[⟨[.write 1 5], true⟩], [⟨[.write 1 5], true⟩]] := by
    decide +kernel
  refine ⟨rfl, hnumbers, exists_ok_iff_isSome.mpr (by decide +kernel),
    exists_ok_iff_isSome.mpr (by decide +kernel), ?_⟩
  rintro level ⟨w, hcheck⟩
  -- The second write repeats the first one, so loading fails already.
  have hfresh := ((exists_checkWith_iff _ _ level).mp ⟨w, hcheck⟩).1
  rw [hnumbers, freshWrites_iff] at hfresh
  simp [WritesOnce, events] at hfresh

end Numbers

end Recorded

end Isolation
