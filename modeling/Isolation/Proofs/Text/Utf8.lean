import Isolation.Proofs.Text.Reading
import Isolation.Text.Utf8

/-!
# Reading Texts Back from Bytes

Bytes are read as text exactly if they are the bytes of that text. So no text has two spellings, and
every text can be read back.

A character is spelled in one to four bytes. `Spells` lists the four forms with the conditions that the
reader checks; it stands between the reader, which looks at bytes, and the writer, which takes a code
point apart. The reader takes off one spelling after the other.

## Main definitions

* `Spells`: The bytes that stand for a code point.

## Theorems

* `decodeUtf8_eq_ok_iff`: Bytes are read as a text exactly if they are its bytes.
-/

namespace Isolation.Text

variable {bytes : List UInt8}

section Ranges

theorem leadWidth_eq_iff (b : UInt8) :
    (leadWidth b = 1 ↔ b.toNat < 128) ∧ (leadWidth b = 2 ↔ 194 ≤ b.toNat ∧ b.toNat < 224) ∧
      (leadWidth b = 3 ↔ 224 ≤ b.toNat ∧ b.toNat < 240) ∧
      (leadWidth b = 4 ↔ 240 ≤ b.toNat ∧ b.toNat < 245) := by
  simp only [leadWidth, UInt8.lt_iff_toNat_lt, UInt8.reduceToNat]
  split_ifs <;> simp <;> omega

/-- What may follow the first byte. Four first bytes allow a part of the usual range only. -/
theorem isSecondByte_iff (lead b : UInt8) :
    isSecondByte lead b = true ↔ (128 ≤ b.toNat ∧ b.toNat ≤ 191) ∧
      (lead.toNat = 224 → 160 ≤ b.toNat) ∧ (lead.toNat = 237 → b.toNat ≤ 159) ∧
      (lead.toNat = 240 → 144 ≤ b.toNat) ∧ (lead.toNat = 244 → b.toNat ≤ 143) := by
  simp only [isSecondByte, ← UInt8.toNat_inj, UInt8.reduceToNat]
  split_ifs <;>
    simp only [Bool.and_eq_true, decide_eq_true_eq, UInt8.le_iff_toNat_le, UInt8.reduceToNat] <;>
    omega

theorem isLaterByte_iff (b : UInt8) : isLaterByte b = true ↔ 128 ≤ b.toNat ∧ b.toNat ≤ 191 := by
  simp only [isLaterByte, Bool.and_eq_true, decide_eq_true_eq, UInt8.le_iff_toNat_le,
    UInt8.reduceToNat]

end Ranges

/-- The bytes that stand for a code point. -/
inductive Spells : List UInt8 → Nat → Prop where
  | one {b : UInt8} : leadWidth b = 1 → Spells [b] b.toNat
  | two {b b₁ : UInt8} : leadWidth b = 2 → isSecondByte b b₁ = true →
      Spells [b, b₁] (b.toNat % 32 * 64 + payload b₁)
  | three {b b₁ b₂ : UInt8} : leadWidth b = 3 → isSecondByte b b₁ = true → isLaterByte b₂ = true →
      Spells [b, b₁, b₂] (b.toNat % 16 * 4096 + payload b₁ * 64 + payload b₂)
  | four {b b₁ b₂ b₃ : UInt8} : leadWidth b = 4 → isSecondByte b b₁ = true →
      isLaterByte b₂ = true → isLaterByte b₃ = true →
      Spells [b, b₁, b₂, b₃]
        (b.toNat % 8 * 262144 + payload b₁ * 4096 + payload b₂ * 64 + payload b₃)

theorem Spells.isValidChar {code : Nat} (hspells : Spells bytes code) : code.isValidChar := by
  unfold Nat.isValidChar
  cases hspells with
  | one hlead =>
    rw [(leadWidth_eq_iff _).1] at hlead
    omega
  | two hlead hsecond =>
    rw [(leadWidth_eq_iff _).2.1] at hlead
    simp only [payload]
    omega
  | three hlead hsecond hthird =>
    rw [(leadWidth_eq_iff _).2.2.1] at hlead
    rw [isSecondByte_iff] at hsecond
    simp only [payload]
    omega
  | four hlead hsecond hthird hfourth =>
    rw [(leadWidth_eq_iff _).2.2.2] at hlead
    rw [isSecondByte_iff] at hsecond
    simp only [payload]
    omega

/-- The bytes of the character with a spelled code point are its spelling. -/
theorem Spells.utf8EncodeChar_eq {code : Nat} (hspells : Spells bytes code) :
    String.utf8EncodeChar (Char.ofNat code) = bytes := by
  have hval : (Char.ofNat code).val.toNat = code :=
    (Char.toNat_ofNat code).trans (if_pos hspells.isValidChar)
  unfold String.utf8EncodeChar
  simp only [hval]
  clear hval
  -- The length of the form decides the branch; then the parts of the number are compared.
  cases hspells with
  | one hlead =>
    rw [(leadWidth_eq_iff _).1] at hlead
    rw [if_pos (by omega), UInt8.ofNat_toNat]
  | two hlead hsecond =>
    rw [(leadWidth_eq_iff _).2.1] at hlead
    rw [isSecondByte_iff] at hsecond
    unfold payload
    rw [if_neg (by omega), if_pos (by omega)]
    simp only [List.cons.injEq, and_true, ← UInt8.toNat_inj, UInt8.toNat_ofNat']
    omega
  | three hlead hsecond hthird =>
    rw [(leadWidth_eq_iff _).2.2.1] at hlead
    rw [isSecondByte_iff] at hsecond
    rw [isLaterByte_iff] at hthird
    unfold payload
    rw [if_neg (by omega), if_neg (by omega), if_pos (by omega)]
    simp only [List.cons.injEq, and_true, ← UInt8.toNat_inj, UInt8.toNat_ofNat']
    omega
  | four hlead hsecond hthird hfourth =>
    rw [(leadWidth_eq_iff _).2.2.2] at hlead
    rw [isSecondByte_iff] at hsecond
    rw [isLaterByte_iff] at hthird hfourth
    unfold payload
    rw [if_neg (by omega), if_neg (by omega), if_neg (by omega)]
    simp only [List.cons.injEq, and_true, ← UInt8.toNat_inj, UInt8.toNat_ofNat']
    omega

theorem spells_utf8EncodeChar (c : Char) : Spells (String.utf8EncodeChar c) c.toNat := by
  have hvalid : c.toNat.isValidChar := c.valid
  unfold Nat.isValidChar at hvalid
  unfold String.utf8EncodeChar
  simp only [show c.val.toNat = c.toNat from rfl]
  generalize c.toNat = code at hvalid ⊢
  -- The bytes become variables with known values, so that the conditions on them are arithmetic.
  split_ifs with hone htwo hthree
  · have hb : (UInt8.ofNat code).toNat = code := by
      rw [UInt8.toNat_ofNat']
      omega
    generalize UInt8.ofNat code = b at hb ⊢
    have hspells := Spells.one ((leadWidth_eq_iff b).1.2 (by omega))
    rwa [hb] at hspells
  · have hb := @UInt8.toNat_ofNat' (code / 64 % 32 + 192)
    have hb₁ := @UInt8.toNat_ofNat' (code % 64 + 128)
    generalize UInt8.ofNat (code / 64 % 32 + 192) = b at hb ⊢
    generalize UInt8.ofNat (code % 64 + 128) = b₁ at hb₁ ⊢
    have hspells := Spells.two ((leadWidth_eq_iff b).2.1.2 (by omega))
      ((isSecondByte_iff b b₁).2 (by omega))
    rwa [payload, show b.toNat % 32 * 64 + b₁.toNat % 64 = code by omega] at hspells
  · have hb := @UInt8.toNat_ofNat' (code / 4096 % 16 + 224)
    have hb₁ := @UInt8.toNat_ofNat' (code / 64 % 64 + 128)
    have hb₂ := @UInt8.toNat_ofNat' (code % 64 + 128)
    generalize UInt8.ofNat (code / 4096 % 16 + 224) = b at hb ⊢
    generalize UInt8.ofNat (code / 64 % 64 + 128) = b₁ at hb₁ ⊢
    generalize UInt8.ofNat (code % 64 + 128) = b₂ at hb₂ ⊢
    have hspells := Spells.three ((leadWidth_eq_iff b).2.2.1.2 (by omega))
      ((isSecondByte_iff b b₁).2 (by omega)) ((isLaterByte_iff b₂).2 (by omega))
    rwa [payload, payload,
      show b.toNat % 16 * 4096 + b₁.toNat % 64 * 64 + b₂.toNat % 64 = code by omega] at hspells
  · have hb := @UInt8.toNat_ofNat' (code / 262144 % 8 + 240)
    have hb₁ := @UInt8.toNat_ofNat' (code / 4096 % 64 + 128)
    have hb₂ := @UInt8.toNat_ofNat' (code / 64 % 64 + 128)
    have hb₃ := @UInt8.toNat_ofNat' (code % 64 + 128)
    generalize UInt8.ofNat (code / 262144 % 8 + 240) = b at hb ⊢
    generalize UInt8.ofNat (code / 4096 % 64 + 128) = b₁ at hb₁ ⊢
    generalize UInt8.ofNat (code / 64 % 64 + 128) = b₂ at hb₂ ⊢
    generalize UInt8.ofNat (code % 64 + 128) = b₃ at hb₃ ⊢
    have hspells := Spells.four ((leadWidth_eq_iff b).2.2.2.2 (by omega))
      ((isSecondByte_iff b b₁).2 (by omega)) ((isLaterByte_iff b₂).2 (by omega))
      ((isLaterByte_iff b₃).2 (by omega))
    rwa [payload, payload, payload, show b.toNat % 8 * 262144 + b₁.toNat % 64 * 4096 +
      b₂.toNat % 64 * 64 + b₃.toNat % 64 = code by omega] at hspells

/-- One character is read off the front. -/
theorem Spells.decodeUtf8From_append {code : Nat} (hspells : Spells bytes code) (index : Nat)
    (rest : List UInt8) :
    decodeUtf8From index (bytes ++ rest) =
      (decodeUtf8From (index + bytes.length) rest).map (Char.ofNat code :: ·) := by
  cases hspells with
  | one hlead =>
    rw [decodeUtf8From.eq_def]
    simp [hlead]
  | two hlead hsecond =>
    rw [decodeUtf8From.eq_def]
    simp [hlead, hsecond]
  | three hlead hsecond hthird =>
    rw [decodeUtf8From.eq_def]
    simp [hlead, hsecond, hthird]
  | four hlead hsecond hthird hfourth =>
    rw [decodeUtf8From.eq_def]
    simp [hlead, hsecond, hthird, hfourth]

theorem decodeUtf8From_encodeUtf8 (index : Nat) (text : List Char) :
    decodeUtf8From index (encodeUtf8 text) = .ok text := by
  induction text generalizing index with
  | nil => rfl
  | cons c text ih =>
    rw [encodeUtf8, List.flatMap_cons, (spells_utf8EncodeChar c).decodeUtf8From_append, ← encodeUtf8,
      ih, Char.ofNat_toNat]
    rfl

/-- If the reader goes on after a spelling and what follows is the bytes of the text it gives, so is the
whole. -/
theorem Spells.append_eq_encodeUtf8 {front rest : List UInt8} {code : Nat}
    (hspells : Spells front code) {outcome : Except Utf8Fault (List Char)} {text : List Char}
    (hread : outcome.map (Char.ofNat code :: ·) = .ok text)
    (ih : ∀ {tail : List Char}, outcome = .ok tail → rest = encodeUtf8 tail) :
    front ++ rest = encodeUtf8 text := by
  obtain ⟨tail, htail, rfl⟩ := map_eq_ok_iff.1 hread
  rw [ih htail, encodeUtf8, encodeUtf8, List.flatMap_cons, hspells.utf8EncodeChar_eq]

theorem eq_encodeUtf8_of_decodeUtf8From {index : Nat} {text : List Char}
    (hread : decodeUtf8From index bytes = .ok text) : bytes = encodeUtf8 text := by
  -- The reader succeeds at the end of the bytes and after a character of one of the four lengths.
  fun_induction decodeUtf8From index bytes generalizing text with
  | case1 index =>
    cases hread
    rfl
  | case2 index b rest hlead ih => exact (Spells.one hlead).append_eq_encodeUtf8 hread ih
  | case5 index b hlead b₁ rest hsecond ih =>
    rw [Bool.not_eq_true, Bool.not_eq_false'] at hsecond
    exact (Spells.two hlead hsecond).append_eq_encodeUtf8 hread ih
  | case10 index b hlead b₁ hsecond b₂ rest hthird ih =>
    rw [Bool.not_eq_true, Bool.not_eq_false'] at hsecond hthird
    exact (Spells.three hlead hsecond hthird).append_eq_encodeUtf8 hread ih
  | case17 index b hlead b₁ hsecond b₂ hthird b₃ rest hfourth ih =>
    rw [Bool.not_eq_true, Bool.not_eq_false'] at hsecond hthird hfourth
    exact (Spells.four hlead hsecond hthird hfourth).append_eq_encodeUtf8 hread ih
  | _ => cases hread

/-- Bytes are read as a text exactly if they are the bytes of that text. -/
theorem decodeUtf8_eq_ok_iff {text : List Char} :
    decodeUtf8 bytes = .ok text ↔ bytes = encodeUtf8 text := by
  constructor
  · intro hread
    exact eq_encodeUtf8_of_decodeUtf8From hread
  · intro hbytes
    rw [hbytes]
    exact decodeUtf8From_encodeUtf8 0 text

end Isolation.Text
