import Oasys.Debug.Vfprintf
import Oasys.Util.ExpandableBuffer
import Oasys.Util.StringUtils

/-!
# StringBuffer

The string buffer of `util/StringBuffer.cc`. A `const char*` is given by the memory that can
be read through it.
-/

namespace Oasys

structure StringBuffer where
  buf_ : ExpandableBuffer
  deriving DecidableEq, Repr

namespace StringBuffer

/-- `StringBuffer(initsz)`. -/
def new (initsz : Nat) : Except Fault StringBuffer := do
  assert (initsz ≠ 0)
  return ⟨ExpandableBuffer.new.reserve initsz⟩

def data (s : StringBuffer) : Except Fault (List UInt8) := s.buf_.rawBuf

def length (s : StringBuffer) : Nat := s.buf_.len_

/-- What every `append` ends with: the bytes go behind those in the buffer. -/
def put (s : StringBuffer) (bytes : List UInt8) : Except Fault StringBuffer := do
  let b := s.buf_.reserve (s.buf_.len_ + bytes.length)
  let p ← b.endBuf
  let b ← b.store p bytes
  let b ← b.setLen (b.len_ + bytes.length)
  return ⟨b⟩

def append (s : StringBuffer) (str : List UInt8) (len : Nat) : Except Fault StringBuffer := do
  let len ← if len = 0 then strlen str else pure len
  -- might be a zero length string after all
  if len = 0 then
    return s
  assert (len ≤ (← strlen str))
  s.put (str.take len)

/-- `append(c)`. -/
def appendChar (s : StringBuffer) (c : UInt8) : Except Fault StringBuffer := s.put [c]

/-- `append_int`, with its scratch area of 16 bytes. -/
def appendInt (s : StringBuffer) (val : UInt64) (base : Nat) : Except Fault StringBuffer := do
  let tmp ← fastUltoa val base 16
  assert (tmp.length < 16)
  s.put tmp

def trim (s : StringBuffer) (cnt : Nat) : Except Fault StringBuffer := do
  assert (cnt ≤ s.buf_.len_)
  let b ← s.buf_.setLen (s.buf_.len_ - cnt)
  return ⟨b⟩

/-- `append_int` of a `u_int32_t`, which `fast_ultoa` is given as an `unsigned long`. -/
def appendInt32 (s : StringBuffer) (val : UInt32) (base : Nat) : Except Fault StringBuffer :=
  s.appendInt val.toUInt64 base

/-- `*buf_->at(buf_->len() - 1) != '\0'` where there is such a character. -/
def unterminated (s : StringBuffer) : Except Fault Bool :=
  if s.buf_.len_ = 0 then pure true
  else
    match s.buf_.bytes[s.buf_.len_ - 1]? with
    | none => throw .nullDeref
    | some c => pure (c ≠ 0)

/-- `c_str`, with the memory that can be read through its result. -/
def cStr (s : StringBuffer) : Except Fault (StringBuffer × List UInt8) := do
  if ← s.unterminated then
    let nfree ← s.buf_.nfree
    let b := if nfree = 0 then s.buf_.reserve (s.buf_.len_ + 1) else s.buf_
    let p ← b.endBuf
    let b ← b.store p [0]
    let mem ← b.rawBuf
    return (⟨b⟩, mem)
  else
    let mem ← s.buf_.rawBuf
    return (s, mem)

/-- The reservation of `vappendf`. -/
def reserveFor (b : ExpandableBuffer) (len : Nat) : Except Fault ExpandableBuffer := do
  let nfree ← b.nfree
  if nfree < len + 1 then
    assert (b.buf_len_ ≠ 0)
    let b := b.reserve (max (b.len_ + len + 1) (b.buf_len_ * 2))
    let nfree ← b.nfree
    assert (len + 1 ≤ nfree)
    return b
  else
    return b

/-- `vappendf`, with `*lenp` before and after it, and what it returns. A negative number is a
    large one as a `size_t`; the sum with the length is taken for one that `set_len` refuses. -/
def vappendf (s : StringBuffer) (fmt : List Conversion) (len : Nat) :
    Except Fault (StringBuffer × Nat × Nat) := do
  let b ← reserveFor s.buf_ len
  let p ← b.endBuf
  let nfree ← b.nfree
  let (mem, ret) ← logVsnprintf (b.bytes.take p) nfree fmt
  let b ← b.store 0 mem
  assert (0 ≤ ret)
  let len := (IntType.u64.conv (min ret (IntType.int.conv nfree))).toNat
  let b ← b.setLen (b.len_ + len)
  return (⟨b⟩, len, ret.toNat)

def appendf (s : StringBuffer) (fmt : List Conversion) : Except Fault StringBuffer := do
  -- call once optimistically with no known length
  let (s, len, ret) ← s.vappendf fmt 0
  if ret ≥ len then
    let s ← s.trim len
    -- call again with the known length
    let (s, len, ret) ← s.vappendf fmt ret
    assert (ret = len)
    return s
  else
    assert (ret = len)
    return s

/-! ### What the calls do -/

/-- The buffer holds a string. It has some memory, as the constructor reserves some. -/
structure Holds (s : StringBuffer) (text : List UInt8) : Prop where
  len : s.buf_.len_ = text.length
  take : s.buf_.bytes.take text.length = text
  fits : text.length ≤ s.buf_.buf_len_
  room : 0 < s.buf_.buf_len_

variable {s : StringBuffer} {text : List UInt8}

theorem new_ok {initsz : Nat} (h : 0 < initsz) : ∃ s, new initsz = .ok s ∧ s.Holds [] := by
  obtain ⟨more, hbytes, hcap, hlen⟩ := ExpandableBuffer.new.bytes_reserve initsz
  have hne : initsz ≠ 0 := by omega
  refine ⟨⟨ExpandableBuffer.new.reserve initsz⟩, by simp [new, hne], hlen, rfl, Nat.zero_le _, ?_⟩
  rw [hcap]
  omega

theorem Holds.data_eq (h : s.Holds text) : s.data = .ok s.buf_.bytes := by
  have hsome : s.buf_.buf_.isSome := by
    have hroom := h.room
    unfold ExpandableBuffer.buf_len_ ExpandableBuffer.bytes at hroom
    cases hbuf : s.buf_.buf_ with
    | none =>
      rw [hbuf] at hroom
      cases hroom
    | some mem => rfl
  simp [data, ExpandableBuffer.rawBuf, hsome]

/-- Bytes are put behind the string. -/
theorem Holds.put (h : s.Holds text) {bytes : List UInt8} (hbytes : bytes ≠ []) :
    ∃ s', s.put bytes = .ok s' ∧ s'.Holds (text ++ bytes) := by
  have hpos := List.length_pos_iff.2 hbytes
  have hroom := h.room
  have hfits := h.fits
  obtain ⟨more, hmore, hcap, hlen⟩ := s.buf_.bytes_reserve (s.buf_.len_ + bytes.length)
  rw [h.len] at hlen hcap hmore
  have hend : (s.buf_.reserve (text.length + bytes.length)).endBuf =
      .ok (s.buf_.reserve (text.length + bytes.length)).len_ :=
    ExpandableBuffer.endBuf_eq (by omega)
  have htake : (s.buf_.reserve (text.length + bytes.length)).bytes.take text.length = text := by
    rw [hmore, List.take_append_of_le_length hfits, h.take]
  obtain ⟨b, hstore, hlen', hcap', htake'⟩ := ExpandableBuffer.store_eq bytes [] hlen htake
    (by rw [List.append_nil]; omega)
  rw [List.append_nil] at hstore
  have hset : b.setLen (b.len_ + bytes.length) = .ok { b with len_ := b.len_ + bytes.length } := by
    have hle : b.len_ + bytes.length ≤ b.buf_len_ := by omega
    simp [ExpandableBuffer.setLen, hle]
  refine ⟨⟨{ b with len_ := b.len_ + bytes.length }⟩, ?_, ?_, htake', ?_, ?_⟩
  · simp [StringBuffer.put, h.len, hend, hstore, hset]
  · show b.len_ + bytes.length = _
    rw [List.length_append]
    omega
  · show (text ++ bytes).length ≤ b.buf_len_
    rw [List.length_append]
    omega
  · show 0 < b.buf_len_
    omega

theorem Holds.appendChar (h : s.Holds text) (c : UInt8) :
    ∃ s', s.appendChar c = .ok s' ∧ s'.Holds (text ++ [c]) :=
  h.put (List.cons_ne_nil c [])

theorem Holds.append (h : s.Holds text) {str : List UInt8} (hnul : 0 ∉ str) :
    ∃ s', s.append (str ++ [0]) str.length = .ok s' ∧ s'.Holds (text ++ str) := by
  by_cases hnil : str = []
  · subst hnil
    exact ⟨s, rfl, by rwa [List.append_nil]⟩
  · have hne : str.length ≠ 0 := fun hzero => hnil (List.length_eq_zero_iff.1 hzero)
    obtain ⟨s', hput, hs'⟩ := h.put hnil
    exact ⟨s', by simp [StringBuffer.append, hne, strlen_concat hnul, hput], hs'⟩

theorem append_error (s : StringBuffer) {str : List UInt8} (hnul : 0 ∈ str) :
    s.append (str ++ [0]) str.length = .error .assertFailed := by
  obtain ⟨n, hstrlen, hlt⟩ := strlen_concat_lt hnul
  have hne : str.length ≠ 0 := by omega
  have hlong : ¬ str.length ≤ n := by omega
  simp [StringBuffer.append, hne, hstrlen, hlong]

private theorem length_digits_lt_iff (n : Nat) : (Decimal.digits n).length < 16 ↔ n < 10 ^ 15 :=
  Nat.lt_succ_iff.trans (Decimal.length_digits_le_iff (by decide))

theorem Holds.appendInt (h : s.Holds text) {val : UInt64} (hlt : val.toNat < 10 ^ 15) :
    ∃ s', s.appendInt val 10 = .ok s' ∧ s'.Holds (text ++ Decimal.digits val.toNat) := by
  have hlen := (length_digits_lt_iff val.toNat).2 hlt
  obtain ⟨s', hput, hs'⟩ := h.put (Decimal.digits_ne_nil val.toNat)
  have hultoa := fastUltoa_eq val (show 0 < 16 by decide)
  rw [if_pos hlen.le] at hultoa
  exact ⟨s', by simp [StringBuffer.appendInt, hultoa, hlen, hput], hs'⟩

/-- One of 16 digits fails the assertion, and a longer one is written across the start of the
    scratch area. -/
theorem appendInt_error (s : StringBuffer) {val : UInt64} (hge : ¬ val.toNat < 10 ^ 15) :
    ∃ e, s.appendInt val 10 = .error e := by
  have hlen : ¬ (Decimal.digits val.toNat).length < 16 :=
    fun h => hge ((length_digits_lt_iff val.toNat).1 h)
  have hultoa := fastUltoa_eq val (show 0 < 16 by decide)
  split at hultoa
  · exact ⟨.assertFailed, by simp [StringBuffer.appendInt, hultoa, hlen]⟩
  · exact ⟨.outOfBounds, by simp [StringBuffer.appendInt, hultoa]⟩

theorem trim_back (b : ExpandableBuffer) {n k : Nat} (h : n ≤ b.buf_len_) :
    StringBuffer.trim ⟨{ b with len_ := n + k }⟩ k = .ok ⟨{ b with len_ := n }⟩ := by
  have hsub : n + k - k = n := Nat.add_sub_cancel n k
  have hle : k ≤ n + k := Nat.le_add_left k n
  have hset : ExpandableBuffer.setLen { b with len_ := n + k } n = .ok { b with len_ := n } :=
    ExpandableBuffer.setLen_eq h
  simp only [StringBuffer.trim, hle, decide_true, assert_true, ok_bind, hsub, hset, pure_eq_ok]

/-- What stands at the end is trimmed off. -/
theorem Holds.trim {bytes : List UInt8} (h : s.Holds (text ++ bytes)) :
    ∃ s', s.trim bytes.length = .ok s' ∧ s'.Holds text := by
  have hlen := h.len
  have hfits := h.fits
  have htake := congrArg (List.take text.length) h.take
  rw [List.length_append] at hlen hfits
  rw [List.take_take, List.take_left, List.length_append, Nat.min_eq_left (by omega)] at htake
  have hsub : s.buf_.len_ - bytes.length = text.length := by omega
  have hle : bytes.length ≤ s.buf_.len_ := by omega
  have hle' : text.length ≤ s.buf_.buf_len_ := by omega
  refine ⟨⟨{ s.buf_ with len_ := text.length }⟩, ?_, rfl, htake, hle', h.room⟩
  simp [StringBuffer.trim, ExpandableBuffer.setLen, hle, hsub, hle']

end StringBuffer

end Oasys
