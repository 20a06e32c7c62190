import ImpToC.Text.Hex

/-!
# Text from bytes

Strict decoding of UTF-8. A sequence that is no character stops the decoding:
the fault says which bytes are at issue, counted from the start of the input,
and what is wrong with them. The ranges for the second byte rule out overlong
forms, surrogates and numbers above the last character.
-/

namespace ImpToC.Text.Utf8

/-- What is wrong with a byte sequence. -/
inductive Reason
  /-- No character starts with this byte. -/
  | start
  /-- The input stops inside a character. -/
  | incomplete
  /-- A byte inside a character is none that may stand there. -/
  | continuation
  deriving DecidableEq, Repr

/-- The wording of a reason. -/
def Reason.describe : Reason → String
  | .start => "invalid start byte"
  | .incomplete => "unexpected end of data"
  | .continuation => "invalid continuation byte"

/-- A byte sequence that is no character: where it starts, its first byte, how
many bytes it has, and what is wrong. -/
structure Fault where
  position : Nat
  byte : UInt8
  size : Nat
  reason : Reason
  deriving DecidableEq, Repr

/-- A fault names its only byte, or the range of its bytes. -/
def Fault.message (f : Fault) : String :=
  let place :=
    if f.size = 1 then
      "byte 0x" ++ String.ofList (hex 2 f.byte.toNat) ++ " in position " ++ toString f.position
    else
      "bytes in position " ++ toString f.position ++ "-" ++ toString (f.position + f.size - 1)
  "'utf-8' codec can't decode " ++ place ++ ": " ++ f.reason.describe

/-- The shape of a character that takes more than one byte: how many bytes
follow the first, the range of the second, and the bits that the first gives. -/
structure Lead where
  following : Nat
  low : Nat
  high : Nat
  bits : Nat

/-- The shape that a first byte announces. -/
def lead? (b : Nat) : Option Lead :=
  if 0xC2 ≤ b ∧ b ≤ 0xDF then some ⟨1, 0x80, 0xBF, b - 0xC0⟩
  else if b = 0xE0 then some ⟨2, 0xA0, 0xBF, 0⟩
  else if b = 0xED then some ⟨2, 0x80, 0x9F, 0xD⟩
  else if 0xE1 ≤ b ∧ b ≤ 0xEF then some ⟨2, 0x80, 0xBF, b - 0xE0⟩
  else if b = 0xF0 then some ⟨3, 0x90, 0xBF, 0⟩
  else if 0xF1 ≤ b ∧ b ≤ 0xF3 then some ⟨3, 0x80, 0xBF, b - 0xF0⟩
  else if b = 0xF4 then some ⟨3, 0x80, 0x8F, 4⟩
  else none

/-- Where a decoding stands inside the input. -/
inductive Progress
  /-- Between two characters. -/
  | between
  /-- Inside a character: its first byte, the bytes read of it, those still to
  come, the range of the next one, and the bits so far. -/
  | inside (first : UInt8) (read following low high bits : Nat)

/-- Decode from a position on. -/
def decodeFrom (position : Nat) : Progress → List UInt8 → Except Fault (List Char)
  | .between, [] => .ok []
  | .inside first read _ _ _ _, [] => .error ⟨position - read, first, read, .incomplete⟩
  | .between, b :: rest =>
    if b.toNat < 0x80 then do
      let text ← decodeFrom (position + 1) .between rest
      return Char.ofNat b.toNat :: text
    else
      match lead? b.toNat with
      | none => .error ⟨position, b, 1, .start⟩
      | some l => decodeFrom (position + 1) (.inside b 1 l.following l.low l.high l.bits) rest
  | .inside first read following low high bits, b :: rest =>
    if b.toNat < low ∨ high < b.toNat then
      .error ⟨position - read, first, read, .continuation⟩
    else
      let bits := bits * 64 + (b.toNat - 0x80)
      if following ≤ 1 then do
        let text ← decodeFrom (position + 1) .between rest
        return Char.ofNat bits :: text
      else
        decodeFrom (position + 1) (.inside first (read + 1) (following - 1) 0x80 0xBF bits) rest

/-- The text that a byte sequence stands for. -/
def decode (bytes : List UInt8) : Except Fault (List Char) :=
  decodeFrom 0 .between bytes

end ImpToC.Text.Utf8
