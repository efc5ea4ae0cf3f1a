import Oasys.Debug.DebugUtils

/-!
# StreamBuffer

The buffer of `util/StreamBuffer.cc`, which grows at its end and is consumed from its front.
The memory is a list of `size_` bytes, and memory is taken not to run out. A pointer into the
buffer is the offset it points at.
-/

namespace Oasys

/-- A `StreamBuffer`, with the invariant that its members keep. -/
structure StreamBuffer where
  start_ : Nat
  end_ : Nat
  buf_ : List UInt8
  start_le : start_ ≤ end_
  end_le : end_ ≤ buf_.length
  /-- A buffer that is consumed to its end starts over. -/
  reset : start_ = end_ → end_ = 0
  size_pos : 0 < buf_.length
  deriving Repr

namespace StreamBuffer

/-- The constructor. What `malloc` returns is not initialised; zeros stand for it. -/
def new (size : Nat) : StreamBuffer where
  start_ := 0
  end_ := 0
  buf_ := List.replicate (if size = 0 then 4 else size) 0
  start_le := Nat.le_refl 0
  end_le := Nat.zero_le _
  reset := fun _ => rfl
  size_pos := by rw [List.length_replicate]; split <;> omega

def size_ (b : StreamBuffer) : Nat := b.buf_.length

def fullbytes (b : StreamBuffer) : Nat := b.end_ - b.start_

def tailbytes (b : StreamBuffer) : Nat := b.size_ - b.end_

/-- The bytes from `start()` to `end()`. -/
def bytes (b : StreamBuffer) : List UInt8 := (b.buf_.drop b.start_).take b.fullbytes

@[simp] theorem length_bytes (b : StreamBuffer) : b.bytes.length = b.fullbytes := by
  have h₁ := b.start_le
  have h₂ := b.end_le
  simp only [bytes, fullbytes, List.length_take, List.length_drop]
  omega

def moveup (b : StreamBuffer) : StreamBuffer :=
  if b.start_ = 0 then b
  else
    { start_ := 0
      end_ := b.fullbytes
      buf_ := b.bytes ++ b.buf_.drop b.fullbytes
      start_le := Nat.zero_le _
      end_le := by simp
      reset := fun h => h.symm
      size_pos := by
        have h₁ := b.size_pos
        have h₂ := b.end_le
        simp only [List.length_append, length_bytes, List.length_drop, fullbytes]
        omega }

/-- `realloc`, to a size that is not smaller. -/
def realloc (b : StreamBuffer) (size : Nat) : StreamBuffer :=
  { b with
    buf_ := b.buf_ ++ List.replicate (size - b.size_) 0
    end_le := by
      have h := b.end_le
      rw [List.length_append]
      omega
    size_pos := by
      have h := b.size_pos
      rw [List.length_append]
      omega }

def reserve (b : StreamBuffer) (amount : Nat) : Except Fault StreamBuffer := do
  let b :=
    if amount ≤ b.tailbytes then b
    else if amount ≤ b.start_ + b.tailbytes then b.moveup
    else
      let b := b.moveup
      b.realloc
        (if amount + b.fullbytes > b.size_ * 2 then amount + b.fullbytes else b.size_ * 2)
  assert (amount ≤ b.tailbytes)
  pure b

/-- `fill`, of `data` that has been written to `end()`. -/
def fill (b : StreamBuffer) (data : List UInt8) : Except Fault StreamBuffer :=
  if h : data.length ≤ b.tailbytes then
    pure
      { b with
        end_ := b.end_ + data.length
        buf_ := b.buf_.take b.end_ ++ data ++ b.buf_.drop (b.end_ + data.length)
        start_le := Nat.le_trans b.start_le (Nat.le_add_right _ _)
        end_le := by
          have h₁ := b.end_le
          simp only [List.length_append, List.length_take, List.length_drop]
          omega
        reset := fun heq => by
          have h₁ := b.start_le
          have h₂ := b.reset (by omega)
          omega
        size_pos := by
          have h₁ := b.size_pos
          have h₂ := b.end_le
          unfold tailbytes size_ at h
          simp only [List.length_append, List.length_take, List.length_drop]
          omega }
  else throw .assertFailed

def consume (b : StreamBuffer) (amount : Nat) : Except Fault StreamBuffer :=
  if h : amount ≤ b.fullbytes then
    pure
      (if heq : b.start_ + amount = b.end_ then
        { b with
          start_ := 0
          end_ := 0
          start_le := Nat.le_refl 0
          end_le := Nat.zero_le _
          reset := fun _ => rfl }
      else
        { b with
          start_ := b.start_ + amount
          start_le := by
            have h₁ := b.start_le
            unfold fullbytes at h
            omega
          reset := fun h => absurd h heq })
  else throw .assertFailed

end StreamBuffer

end Oasys
