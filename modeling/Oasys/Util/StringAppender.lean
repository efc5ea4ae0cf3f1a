import Oasys.Debug.Vfprintf
import Oasys.Util.StringUtils

/-!
# StringAppender

`util/StringAppender.cc`: text at the tail of a buffer of fixed size. The buffer is the list
of its bytes, and `cur_` the position in it; a `size_t` is a natural number, and what is added
to `desired_` is taken modulo 2^64.
-/

namespace Oasys

/-- A `StringAppender`, with the memory of its buffer. -/
structure StringAppender where
  buf : List UInt8
  cur_ : Nat
  remaining_ : Nat
  len_ : Nat
  desired_ : Nat
  deriving DecidableEq, Repr

namespace StringAppender

/-- The constructor, for a buffer and its size. -/
def new (buf : List UInt8) : StringAppender := ⟨buf, 0, buf.length, 0, 0⟩

/-- A sum in a `size_t`. -/
def sizeAdd (m n : Nat) : Nat := (m + n) % 2 ^ 64

/-- `memcpy` to a position of the buffer. -/
def memcpy (buf : List UInt8) (pos : Nat) (bytes : List UInt8) : Except Fault (List UInt8) :=
  if pos + bytes.length ≤ buf.length then
    pure (buf.take pos ++ bytes ++ buf.drop (pos + bytes.length))
  else throw .outOfBounds

/-- The bytes that `memcpy` reads. -/
def source (str : List UInt8) (len : Nat) : Except Fault (List UInt8) :=
  if len ≤ str.length then pure (str.take len) else throw .outOfBounds

/-- The buffer after its front has been written. -/
def rewrite (buf front : List UInt8) : Except Fault (List UInt8) :=
  if front.length ≤ buf.length then pure (front ++ buf.drop front.length)
  else throw .outOfBounds

/-- The default of a length is that of the string up to its terminator. -/
def lengthOf (str : List UInt8) (len : Nat) : Except Fault Nat :=
  if len = 0 then strlen str else pure len

/-- `ASSERT(*cur_ == '\0')`. -/
def assertTerminated (sa : StringAppender) : Except Fault Unit :=
  match sa.buf[sa.cur_]? with
  | none => throw .outOfBounds
  | some c => assert (c = 0)

/-- `append` of a string, with what can be read through the pointer and the length. -/
def append (sa : StringAppender) (str : List UInt8) (len : Nat) :
    Except Fault (Nat × StringAppender) := do
  let len ← lengthOf str len
  let sa := { sa with desired_ := sizeAdd sa.desired_ len }
  if sa.remaining_ = 0 then
    return (0, sa)
  let len := min len (sa.remaining_ - 1)
  let bytes ← source str len
  let buf ← memcpy sa.buf sa.cur_ bytes
  let buf ← memcpy buf (sa.cur_ + len) [0]
  let sa : StringAppender :=
    { sa with
      buf := buf
      cur_ := sa.cur_ + len
      remaining_ := sa.remaining_ - len
      len_ := sa.len_ + len }
  sa.assertTerminated
  return (len, sa)

/-- `append` of a character. -/
def appendChar (sa : StringAppender) (c : UInt8) : Except Fault (Nat × StringAppender) := do
  let sa := { sa with desired_ := sizeAdd sa.desired_ 1 }
  if sa.remaining_ ≤ 1 then
    return (0, sa)
  let buf ← memcpy sa.buf sa.cur_ [c]
  let buf ← memcpy buf (sa.cur_ + 1) [0]
  let sa : StringAppender :=
    { sa with
      buf := buf
      cur_ := sa.cur_ + 1
      remaining_ := sa.remaining_ - 1
      len_ := sa.len_ + 1 }
  sa.assertTerminated
  return (1, sa)

/-- `vappendf`. The result of `log_vsnprintf`, an `int`, goes into a `size_t`. -/
def appendf (sa : StringAppender) (fmt : List Conversion) :
    Except Fault (Nat × StringAppender) := do
  let (str, ret) ← logVsnprintf (sa.buf.take sa.cur_) sa.remaining_ fmt
  let buf ← rewrite sa.buf str
  let ret := (IntType.u64.conv ret).toNat
  let sa := { sa with buf := buf, desired_ := sizeAdd sa.desired_ ret }
  if sa.remaining_ = 0 then
    return (0, sa)
  let ret := min ret (sa.remaining_ - 1)
  let sa : StringAppender :=
    { sa with
      cur_ := sa.cur_ + ret
      remaining_ := sa.remaining_ - ret
      len_ := sa.len_ + ret }
  sa.assertTerminated
  return (ret, sa)

def length (sa : StringAppender) : Nat := sa.len_

def desiredLength (sa : StringAppender) : Nat := sa.desired_

inductive Call where
  | append (str : List UInt8) (len : Nat)
  | appendChar (c : UInt8)
  | appendf (fmt : List Conversion)

def call (sa : StringAppender) : Call → Except Fault (Nat × StringAppender)
  | .append str len => sa.append str len
  | .appendChar c => sa.appendChar c
  | .appendf fmt => sa.appendf fmt

end StringAppender

end Oasys
