import Oasys.Debug.DebugUtils

/-!
# ExpandableBuffer

The resizable memory of `util/ExpandableBuffer.h`. `buf_len_` is the size of the
allocation, and an allocation is a list of bytes; `realloc` is taken to succeed. A
pointer into the buffer is the offset it points at.
-/

namespace Oasys

structure ExpandableBuffer where
  /-- The allocation, if there is one. -/
  buf_ : Option (List UInt8)
  len_ : Nat
  deriving DecidableEq, Repr

namespace ExpandableBuffer

/-- A buffer for which nothing has been reserved. -/
def new : ExpandableBuffer := ⟨none, 0⟩

/-- The bytes of the allocation. -/
def bytes (b : ExpandableBuffer) : List UInt8 := b.buf_.getD []

def buf_len_ (b : ExpandableBuffer) : Nat := b.bytes.length

/-- `reserve`. What `realloc` adds is not initialised; zeros stand for it. -/
def reserve (b : ExpandableBuffer) (size : Nat) : ExpandableBuffer :=
  if b.buf_len_ < size then
    { b with buf_ := some (b.bytes ++ List.replicate (size - b.buf_len_) 0) }
  else b

/-- `tail_buf`. `buf_ + len_` is null when `buf_` is, for `len_` is 0 then. -/
def tailBuf (b : ExpandableBuffer) (size : Nat) :
    Except Fault (ExpandableBuffer × Option Nat) := do
  if size < b.buf_len_ - b.len_ then
    return (b, b.buf_.map fun _ => b.len_)
  let b := b.reserve (b.len_ + size)
  assert (size ≤ b.buf_len_ - b.len_)
  return (b, b.buf_.map fun _ => b.len_)

def setLen (b : ExpandableBuffer) (len : Nat) : Except Fault ExpandableBuffer := do
  assert (len ≤ b.buf_len_)
  return { b with len_ := len }

def incrLen (b : ExpandableBuffer) (amt : Nat) : Except Fault ExpandableBuffer := do
  assert (b.len_ + amt ≤ b.buf_len_)
  return { b with len_ := b.len_ + amt }

def nfree (b : ExpandableBuffer) : Except Fault Nat := do
  assert (b.len_ ≤ b.buf_len_)
  return b.buf_len_ - b.len_

def rawBuf (b : ExpandableBuffer) : Except Fault (List UInt8) := do
  assert b.buf_.isSome
  return b.bytes

/-- `end`, the offset behind the bytes that were asked for. -/
def endBuf (b : ExpandableBuffer) : Except Fault Nat := do
  assert b.buf_.isSome
  assert (b.len_ < b.buf_len_)
  return b.len_

/-- `memcpy` of `bytes` to a pointer into the buffer. -/
def store (b : ExpandableBuffer) (p : Nat) (bytes : List UInt8) :
    Except Fault ExpandableBuffer :=
  if p + bytes.length ≤ b.buf_len_ then
    .ok { b with
      buf_ := b.buf_.map fun buf => buf.take p ++ bytes ++ buf.drop (p + bytes.length) }
  else .error .outOfBounds

/-! ### What the calls do -/

/-- A buffer with more memory. -/
theorem bytes_reserve (b : ExpandableBuffer) (n : Nat) :
    ∃ more, (b.reserve n).bytes = b.bytes ++ more ∧
      (b.reserve n).buf_len_ = max b.buf_len_ n ∧ (b.reserve n).len_ = b.len_ := by
  unfold reserve
  split
  · rename_i hlt
    refine ⟨List.replicate (n - b.buf_len_) 0, rfl, ?_, rfl⟩
    show (b.bytes ++ List.replicate (n - b.buf_len_) 0).length = _
    rw [List.length_append, List.length_replicate]
    show b.buf_len_ + _ = _
    omega
  · exact ⟨[], (List.append_nil _).symm, by omega, rfl⟩

/-- It has memory, unless nothing was reserved where there was none. -/
theorem isSome_reserve {b : ExpandableBuffer} {n : Nat} (h : n = 0 → b.buf_.isSome) :
    (b.reserve n).buf_.isSome := by
  unfold reserve
  split
  · rfl
  · rename_i hle
    match hbuf : b.buf_, h with
    | some raw, _ => rfl
    | none, h =>
      -- a reservation of nothing allocates nothing
      have hzero : n = 0 := by
        rw [buf_len_, bytes, hbuf] at hle
        simpa using hle
      exact absurd (h hzero) (by decide)

theorem setLen_eq {b : ExpandableBuffer} {len : Nat} (h : len ≤ b.buf_len_) :
    b.setLen len = .ok { b with len_ := len } := by
  simp [setLen, h]

/-- `end` gives the offset behind the bytes where there is a byte more. -/
theorem endBuf_eq {b : ExpandableBuffer} (h : b.len_ < b.buf_len_) :
    b.endBuf = .ok b.len_ := by
  have hsome : b.buf_.isSome := by
    match hbuf : b.buf_ with
    | some buf => rfl
    | none =>
      have hzero : b.buf_len_ = 0 := by rw [buf_len_, bytes, hbuf]; rfl
      omega
  unfold endBuf
  rw [hsome, decide_eq_true h]
  rfl

theorem endBuf_error {b : ExpandableBuffer} (h : ¬ b.len_ < b.buf_len_) :
    b.endBuf = .error .assertFailed := by
  unfold endBuf
  rw [decide_eq_false h]
  cases b.buf_.isSome <;> rfl

/-- Bytes that are stored behind `front`, in a buffer that has room for them. -/
theorem store_eq {b : ExpandableBuffer} {front : List UInt8} (bytes tail : List UInt8)
    (hlen : b.len_ = front.length) (hfront : b.bytes.take front.length = front)
    (hfit : front.length + (bytes ++ tail).length ≤ b.buf_len_) :
    ∃ b', b.store b.len_ (bytes ++ tail) = .ok b' ∧ b'.len_ = b.len_ ∧
      b'.buf_len_ = b.buf_len_ ∧ b'.bytes.take (front ++ bytes).length = front ++ bytes := by
  refine ⟨{ b with buf_ := _ }, if_pos (hlen ▸ hfit), rfl, ?_⟩
  match hbuf : b.buf_ with
  | none =>
    -- there is nothing to store
    have hzero : b.bytes = [] := by rw [ExpandableBuffer.bytes, hbuf]; rfl
    rw [buf_len_, hzero, List.length_nil, List.length_append] at hfit
    have hnil : front = [] := List.length_eq_zero_iff.1 (by omega)
    have hnil' : bytes = [] := List.length_eq_zero_iff.1 (by omega)
    rw [hnil, hnil', buf_len_, buf_len_, hzero]
    exact ⟨rfl, rfl⟩
  | some buf =>
    have hbytes : b.bytes = buf := by rw [ExpandableBuffer.bytes, hbuf]; rfl
    rw [buf_len_, hbytes] at hfit
    rw [hbytes] at hfront
    have hnew : (mk ((some buf).map fun buf => buf.take b.len_ ++
        (bytes ++ tail) ++ buf.drop (b.len_ + (bytes ++ tail).length)) b.len_).bytes =
        (front ++ bytes) ++ (tail ++ buf.drop (front.length + (bytes ++ tail).length)) := by
      show buf.take b.len_ ++ (bytes ++ tail) ++ buf.drop (b.len_ + (bytes ++ tail).length) = _
      rw [hlen, hfront]
      simp only [List.append_assoc]
    rw [buf_len_, buf_len_, hnew, hbytes]
    refine ⟨?_, List.take_left⟩
    simp only [List.length_append, List.length_drop] at hfit ⊢
    omega

end ExpandableBuffer

end Oasys
