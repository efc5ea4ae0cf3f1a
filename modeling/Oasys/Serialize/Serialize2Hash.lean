import Oasys.Serialize.MarshalSerialize

/-!
# Serialize2Hash

The hash of an object in `serialize/Serialize2Hash.cc`, with the `ScratchBuffer` it keeps and
the hash function of `util/jenkins_hash.cc`.
-/

namespace Oasys

/-! ### jenkins_hash -/

/-- The registers `a`, `b` and `c`. -/
structure JenkinsState where
  a : UInt32
  b : UInt32
  c : UInt32
  deriving DecidableEq, Repr

namespace JenkinsState

/-- One line of `mix`: the first register loses the other two and a shift of the last. -/
def mixLine (x y z shifted : UInt32) : UInt32 := (x - y - z) ^^^ shifted

def mix (s : JenkinsState) : JenkinsState :=
  let ⟨a, b, c⟩ := s
  let a := mixLine a b c (c >>> 13)
  let b := mixLine b c a (a <<< 8)
  let c := mixLine c a b (b >>> 13)
  let a := mixLine a b c (c >>> 12)
  let b := mixLine b c a (a <<< 16)
  let c := mixLine c a b (b >>> 5)
  let a := mixLine a b c (c >>> 3)
  let b := mixLine b c a (a <<< 10)
  let c := mixLine c a b (b >>> 15)
  ⟨a, b, c⟩

/-- What byte `i` adds when it is moved to the left. A byte that is not there adds nothing. -/
def byteAt (k : List UInt8) (i : Nat) (shift : UInt32) : UInt32 :=
  (k.getD i 0).toUInt32 <<< shift

/-- The body of the loop, for the first twelve bytes. -/
def absorb (s : JenkinsState) (k : List UInt8) : JenkinsState :=
  mix {
    a := s.a + (byteAt k 0 0 + byteAt k 1 8 + byteAt k 2 16 + byteAt k 3 24)
    b := s.b + (byteAt k 4 0 + byteAt k 5 8 + byteAt k 6 16 + byteAt k 7 24)
    c := s.c + (byteAt k 8 0 + byteAt k 9 8 + byteAt k 10 16 + byteAt k 11 24) }

/-- The `switch`, whose cases fall through: the last bytes, fewer than twelve. The first byte
    of `c` is for the length. -/
def absorbLast (s : JenkinsState) (k : List UInt8) (length : UInt32) : JenkinsState :=
  mix {
    a := s.a + byteAt k 3 24 + byteAt k 2 16 + byteAt k 1 8 + byteAt k 0 0
    b := s.b + byteAt k 7 24 + byteAt k 6 16 + byteAt k 5 8 + byteAt k 4 0
    c := s.c + length + byteAt k 10 24 + byteAt k 9 16 + byteAt k 8 8 }

/-- The loop and the `switch`. -/
def run (s : JenkinsState) (k : List UInt8) (length : UInt32) : JenkinsState :=
  if 12 ≤ k.length then run (s.absorb k) (k.drop 12) length else s.absorbLast k length
termination_by k.length
decreasing_by
  rw [List.length_drop]
  omega

end JenkinsState

/-- `jenkins_hash`, over the `length` bytes at `k`, which is the memory from the pointer on. -/
def jenkinsHash (k : List UInt8) (length initval : UInt32) : Except Fault UInt32 :=
  if length.toNat ≤ k.length then
    pure (JenkinsState.run ⟨0x9e3779b9, 0x9e3779b9, initval⟩ (k.take length.toNat) length).c
  else throw .outOfBounds

/-! ### ScratchBuffer -/

/-- A `ScratchBuffer` whose memory is that of its `static_buf_`. -/
def ScratchBuffer.new (static_buf_ : List UInt8) : ExpandableBuffer := ⟨some static_buf_, 0⟩

/-- `buf` with a size: the memory grows, and `len_` stays what it is. -/
def ScratchBuffer.buf (b : ExpandableBuffer) (size : Nat) : ExpandableBuffer :=
  if size ≠ 0 then b.reserve size else b

/-! ### Serialize2Hash -/

structure Serialize2Hash where
  buf_ : ExpandableBuffer

namespace Serialize2Hash

/-- The constructor, with what is in the static buffer. What the actions return is not
    looked at. -/
def new (static_buf_ : List UInt8) (obj : SerializableObject) : Except Fault Serialize2Hash := do
  let (_, sizer) ← (MarshalSize.new false).action obj
  let buf_ := ScratchBuffer.buf (ScratchBuffer.new static_buf_) sizer.size_.toNat
  -- a marshaller for `len_` bytes at the start of the memory
  let (_, ms, _) ← (Marshal.new (buf_.bytes.take buf_.len_) false false).action obj
  assert (!ms.error_)
  pure ⟨{ buf_ with buf_ := some (ms.buf_ ++ buf_.bytes.drop buf_.len_) }⟩

def getHash32 (h : Serialize2Hash) : Except Fault UInt32 :=
  jenkinsHash h.buf_.bytes (.ofNat h.buf_.len_) 0

end Serialize2Hash

end Oasys
