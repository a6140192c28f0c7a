import Xaprun.Spec.Settings

/-! The numerals of `ext/str.cc`, for the integer types of any size. `none` is undefined behaviour:
a write in front of the buffer, or a negation that overflows. -/

namespace Xaprun.Numerals

open Frames

/-- What is left of the array `buf` in front of `p`, and the bytes from `p` on. -/
structure Buf where
  room : ℕ
  chars : Bytes

/-- `*(--p) = ch` -/
def Buf.push (buf : Buf) (ch : UInt8) : Option Buf :=
  match buf.room with
  | 0 => none
  | room + 1 => some ⟨room, ch :: buf.chars⟩

/-- The `do … while (value)` loop. Every round takes a byte of the buffer. -/
def digits : (room : ℕ) → (value : ℕ) → (chars : Bytes) → Option Buf
  | 0, _, _ => none
  | room + 1, value, chars =>
    let chars := digitByte (value % 10) :: chars
    if value / 10 = 0 then some ⟨room, chars⟩ else digits room (value / 10) chars

/-- For an unsigned type of `size` bytes. -/
def tostringUnsigned (size : ℕ) (value : BitVec (8 * size)) : Option Bytes :=
  if value.toNat < 10 then some [digitByte value.toNat]
  else (digits ((size * 5 + 1) / 2) value.toNat []).map Buf.chars

/-- For a signed type of `size` bytes. -/
def tostring (size : ℕ) (value : BitVec (8 * size)) : Option Bytes :=
  if value.toInt < 10 ∧ 0 ≤ value.toInt then some [digitByte value.toInt.toNat]
  else if value.toInt < 0 then
    if value.negOverflow then none
    else ((digits ((size * 5 + 1) / 2 + 1) (-value).toInt.toNat []).bind
      (·.push (byte '-'))).map Buf.chars
  else (digits ((size * 5 + 1) / 2 + 1) value.toInt.toNat []).map Buf.chars

end Xaprun.Numerals
