import Isolation.Text.Decimal
import Mathlib

/-!
# Reading from the Front of a Text

Readers take something off the front of their input and pass on the rest, or they fail. A chain of readers
succeeds exactly if each of them does.

A reader of a run, such as a key or a number, takes as much as it can. It takes precisely what was printed
if the text behind it does not go on in the same way. `Stops` says so, and it is all that has to be known
about the rest of the text.

Numbers are printed without leading zeros. The strict reader of numbers stops behind a zero, so this is
what it needs in order to take all the digits.
-/

namespace Isolation.Text

section Outcomes

variable {ε α β : Type} {outcome : Except ε α}

theorem map_eq_ok_iff {f : α → β} {b : β} : outcome.map f = .ok b ↔ ∃ a, outcome = .ok a ∧ f a = b := by
  cases outcome with
  | error fault => simp [Except.map]
  | ok a => simp [Except.map]

theorem bind_eq_ok_iff {f : α → Except ε β} {b : β} :
    outcome.bind f = .ok b ↔ ∃ a, outcome = .ok a ∧ f a = .ok b := by
  cases outcome with
  | error fault => simp [Except.bind]
  | ok a => simp [Except.bind]

theorem map_eq_error_iff {f : α → β} {fault : ε} :
    outcome.map f = .error fault ↔ outcome = .error fault := by
  cases outcome with
  | error other => simp [Except.map]
  | ok a => simp [Except.map]

end Outcomes

section Runs

/-- The text does not start with a character of the kind. -/
def Stops (kind : Char → Bool) (text : List Char) : Prop :=
  ∀ c ∈ text.head?, kind c = false

variable {kind : Char → Bool} {run rest : List Char}

theorem stops_cons {c : Char} (hc : kind c = false) (text : List Char) : Stops kind (c :: text) := by
  intro d hd
  rw [List.head?_cons, Option.mem_some] at hd
  rw [← hd]
  exact hc

theorem takeWhile_append_of_stops (hrun : ∀ c ∈ run, kind c = true) (hrest : Stops kind rest) :
    (run ++ rest).takeWhile kind = run := by
  rw [List.takeWhile_append_of_pos hrun]
  cases rest with
  | nil => simp
  | cons c rest => simp [hrest c rfl]

theorem dropWhile_append_of_stops (hrun : ∀ c ∈ run, kind c = true) (hrest : Stops kind rest) :
    (run ++ rest).dropWhile kind = rest := by
  rw [List.dropWhile_append_of_pos hrun]
  cases rest with
  | nil => rfl
  | cons c rest => simp [hrest c rfl]

end Runs

section Numbers

theorem decimalValue_toDigits (n : Nat) : decimalValue (Nat.toDigits 10 n) = n :=
  Nat.ofDigitChars_ten_toDigits

theorem ne_zero_of_toDigits_eq_cons {n : Nat} (hn : 0 < n) {c : Char} {digits : List Char}
    (hdigits : Nat.toDigits 10 n = c :: digits) : c ≠ '0' := by
  induction n using Nat.strong_induction_on generalizing digits with
  | h n ih =>
    rw [Nat.toDigits_eq_if (by decide)] at hdigits
    by_cases hsmall : n < 10
    · rw [if_pos hsmall, List.cons.injEq] at hdigits
      rw [← hdigits.1, Ne, Nat.digitChar_eq_zero]
      omega
    · -- The first digit is that of the number without its last digit.
      rw [if_neg hsmall] at hdigits
      have hne : Nat.toDigits 10 (n / 10) ≠ [] := Nat.toDigits_ne_nil
      obtain ⟨d, front, hfront⟩ := List.exists_cons_of_ne_nil hne
      rw [hfront, List.cons_append, List.cons.injEq] at hdigits
      rw [hdigits.1] at hfront
      exact ih (n / 10) (by omega) (by omega) hfront

theorem wordOfText?_toDigits (w : UInt64) : wordOfText? (Nat.toDigits 10 w.toNat) = some w := by
  have hne : Nat.toDigits 10 w.toNat ≠ [] := Nat.toDigits_ne_nil
  have hall : ∀ c ∈ Nat.toDigits 10 w.toNat, c.isDigit = true :=
    fun c hc => Nat.isDigit_of_mem_toDigits (by decide) (by decide) hc
  have hfits : w.toNat < UInt64.size := w.toNat_lt
  unfold wordOfText?
  split
  · next rest hplus =>
      -- A plus sign is no digit.
      rw [hplus] at hall
      exact absurd (hall '+' List.mem_cons_self) (by decide)
  · simp only [hne, List.all_eq_true.mpr hall, ne_eq, not_false_eq_true, decide_true, Bool.and_self, if_true,
      decimalValue_toDigits, wordOfNat?, hfits, UInt64.ofNat_toNat]

end Numbers

end Isolation.Text
