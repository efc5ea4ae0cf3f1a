import Oasys.Debug.DebugUtils
import Mathlib.Data.List.Basic

/-!
# Base16

`util/Base16.cc`: bytes as two digits each, the low half first. A buffer is the list of the
bytes that its length counts, and what is read or written beside it is a fault.
-/

namespace Oasys

namespace Base16

/-- `buf[i]` as a value. -/
def load (buf : List UInt8) (i : Nat) : Except Fault UInt8 :=
  match buf[i]? with
  | some c => pure c
  | none => throw .outOfBounds

/-- `buf[i] = c`. -/
def store (buf : List UInt8) (i : Nat) (c : UInt8) : Except Fault (List UInt8) :=
  if i < buf.length then pure (buf.set i c) else throw .outOfBounds

/-- A product in a `size_t`. -/
def sizeMul (m n : Nat) : Nat := m * n % 2 ^ 64

/-- `"0123456789ABCDEF"`. -/
def encoding : List UInt8 :=
  [48, 49, 50, 51, 52, 53, 54, 55, 56, 57, 65, 66, 67, 68, 69, 70]

/-- The loop of `encode` from `i` on, with `n` bytes to go. -/
def encodeFrom (in_ : List UInt8) : Nat → Nat → List UInt8 → Except Fault (Nat × List UInt8)
  | 0, i, out16 => pure (i, out16)
  | n + 1, i, out16 => do
    let c ← load in_ i
    let lower ← load encoding (c &&& 0xF).toNat
    let out16 ← store out16 (sizeMul 2 i) lower
    let upper ← load encoding ((c >>> 4) &&& 0xF).toNat
    let out16 ← store out16 (sizeMul 2 i + 1) upper
    encodeFrom in_ n (i + 1) out16

/-- `encode`: the number of bytes encoded, and the buffer that they were written to. -/
def encode (in_ out16 : List UInt8) : Except Fault (Nat × List UInt8) :=
  let in_len := in_.length
  let out16_len := out16.length
  let in_len := if out16_len < sizeMul in_len 2 then out16_len / 2 else in_len
  encodeFrom in_ in_len 0 out16

/-- The value of a digit, in the arithmetic of a `u_int8_t`. -/
def digit (c : UInt8) : UInt8 := if c ≤ 57 then c - 48 else c - 65 + 10

/-- The loop of `decode`, with `n` bytes of the input to go. The last round may have but one. -/
def decodeFrom (in16 : List UInt8) : Nat → Nat → List UInt8 → Except Fault (Nat × List UInt8)
  | 0, i, out => pure (i / 2, out)
  | n + 1, i, out => do
    let lower ← load in16 i
    let upper ← load in16 (i + 1)
    let out ← store out (i / 2) (digit lower ||| (digit upper <<< 4))
    decodeFrom in16 (n - 1) (i + 2) out

/-- `decode`: the number of bytes decoded, and the buffer that they were written to. -/
def decode (in16 out : List UInt8) : Except Fault (Nat × List UInt8) :=
  let in16_len := in16.length
  let out_len := out.length
  let in16_len := if out_len < in16_len / 2 then sizeMul out_len 2 else in16_len
  decodeFrom in16 in16_len 0 out

end Base16

end Oasys
