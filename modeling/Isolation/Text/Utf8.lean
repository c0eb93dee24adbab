/-!
# Texts as Bytes

Files and binary logs hold text as UTF-8. Reading it back either gives the characters or names the
first place where the bytes stop being text. Two kinds of fault are told apart: bytes that can never
continue a character, whose number is part of the answer, and a character cut short by the end of
the input.

The admissible second byte depends on the first, because overlong forms, surrogates and code points
beyond the last plane are excluded there; all later bytes share one range.

## Main definitions

* `decodeUtf8`, `encodeUtf8`: The characters of some bytes, and the bytes of some characters.
-/

namespace Isolation.Text

/-- The first place where bytes are no text. -/
structure Utf8Fault where
  index : Nat
  /-- Number of offending bytes, or nothing when the input ends inside a character. -/
  length : Option Nat
deriving DecidableEq

def Utf8Fault.message (fault : Utf8Fault) : String :=
  match fault.length with
  | some n =>
    "invalid utf-8 sequence of " ++ Nat.repr n ++ " bytes from index " ++ Nat.repr fault.index
  | none => "incomplete utf-8 byte sequence from index " ++ Nat.repr fault.index

/-- Number of bytes announced by the first byte of a character; zero for a byte that starts none. -/
def leadWidth (b : UInt8) : Nat :=
  if b < 0x80 then 1
  else if b < 0xc2 then 0
  else if b < 0xe0 then 2
  else if b < 0xf0 then 3
  else if b < 0xf5 then 4
  else 0

def isSecondByte (lead b : UInt8) : Bool :=
  if lead = 0xe0 then 0xa0 ≤ b && b ≤ 0xbf
  else if lead = 0xed then 0x80 ≤ b && b ≤ 0x9f
  else if lead = 0xf0 then 0x90 ≤ b && b ≤ 0xbf
  else if lead = 0xf4 then 0x80 ≤ b && b ≤ 0x8f
  else 0x80 ≤ b && b ≤ 0xbf

/-- The byte may stand in third or fourth place. -/
def isLaterByte (b : UInt8) : Bool :=
  0x80 ≤ b && b ≤ 0xbf

/-- The six payload bits of a byte behind the first. -/
def payload (b : UInt8) : Nat :=
  b.toNat % 64

/-- The characters of the bytes, the first of which has the given index. -/
def decodeUtf8From (index : Nat) : List UInt8 → Except Utf8Fault (List Char)
  | [] => .ok []
  | b :: rest =>
    match leadWidth b with
    | 1 => (decodeUtf8From (index + 1) rest).map (Char.ofNat b.toNat :: ·)
    | 2 =>
      match rest with
      | [] => .error ⟨index, none⟩
      | b₁ :: rest =>
        if !isSecondByte b b₁ then .error ⟨index, some 1⟩
        else (decodeUtf8From (index + 2) rest).map
          (Char.ofNat (b.toNat % 32 * 64 + payload b₁) :: ·)
    | 3 =>
      match rest with
      | [] => .error ⟨index, none⟩
      | b₁ :: rest =>
        if !isSecondByte b b₁ then .error ⟨index, some 1⟩
        else match rest with
          | [] => .error ⟨index, none⟩
          | b₂ :: rest =>
            if !isLaterByte b₂ then .error ⟨index, some 2⟩
            else (decodeUtf8From (index + 3) rest).map
              (Char.ofNat (b.toNat % 16 * 4096 + payload b₁ * 64 + payload b₂) :: ·)
    | 4 =>
      match rest with
      | [] => .error ⟨index, none⟩
      | b₁ :: rest =>
        if !isSecondByte b b₁ then .error ⟨index, some 1⟩
        else match rest with
          | [] => .error ⟨index, none⟩
          | b₂ :: rest =>
            if !isLaterByte b₂ then .error ⟨index, some 2⟩
            else match rest with
              | [] => .error ⟨index, none⟩
              | b₃ :: rest =>
                if !isLaterByte b₃ then .error ⟨index, some 3⟩
                else (decodeUtf8From (index + 4) rest).map
                  (Char.ofNat (b.toNat % 8 * 262144 + payload b₁ * 4096 + payload b₂ * 64 +
                    payload b₃) :: ·)
    | _ => .error ⟨index, some 1⟩

def decodeUtf8 (bytes : List UInt8) : Except Utf8Fault (List Char) :=
  decodeUtf8From 0 bytes

def encodeUtf8 (text : List Char) : List UInt8 :=
  text.flatMap String.utf8EncodeChar

end Isolation.Text
