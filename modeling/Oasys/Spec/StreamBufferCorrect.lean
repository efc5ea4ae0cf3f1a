import Oasys.Util.StreamBuffer

/-!
# Correctness of StreamBuffer

What each member does to the bytes of a buffer: `reserve` keeps them wherever it moves them,
`fill` adds at their end, and `consume` drops from their front.
-/

namespace Oasys.StreamBuffer

@[simp] theorem bytes_new (size : Nat) : (new size).bytes = [] := by
  simp [new, bytes, fullbytes]

@[simp] theorem fullbytes_moveup (b : StreamBuffer) : b.moveup.fullbytes = b.fullbytes := by
  unfold moveup
  split
  · rfl
  · simp [fullbytes]

@[simp] theorem size_moveup (b : StreamBuffer) : b.moveup.size_ = b.size_ := by
  unfold moveup
  split
  · rfl
  · have h := b.end_le
    simp only [size_, List.length_append, length_bytes, List.length_drop, fullbytes]
    omega

@[simp] theorem bytes_moveup (b : StreamBuffer) : b.moveup.bytes = b.bytes := by
  unfold moveup
  split
  · rfl
  · show ((b.bytes ++ b.buf_.drop b.fullbytes).drop 0).take (b.fullbytes - 0) = b.bytes
    rw [Nat.sub_zero, List.drop_zero, List.take_left' (length_bytes b)]

theorem tailbytes_moveup (b : StreamBuffer) : b.moveup.tailbytes = b.size_ - b.fullbytes := by
  have hend : b.moveup.end_ = b.fullbytes := by
    unfold moveup
    split
    · rename_i hstart
      simp [fullbytes, hstart]
    · rfl
  simp [tailbytes, hend]

@[simp] theorem bytes_realloc (b : StreamBuffer) (size : Nat) :
    (b.realloc size).bytes = b.bytes := by
  have h₁ := b.start_le
  have h₂ := b.end_le
  simp only [bytes, realloc, fullbytes]
  rw [List.drop_append_of_le_length (by omega), List.take_append_of_le_length (by simp; omega)]

theorem tailbytes_realloc (b : StreamBuffer) (size : Nat) :
    (b.realloc size).tailbytes = b.size_ + (size - b.size_) - b.end_ := by
  simp [tailbytes, realloc, size_]

/-- `reserve` always returns, with the bytes as they were and the room that was asked for. -/
theorem reserve_spec (b : StreamBuffer) (amount : Nat) :
    ∃ b', b.reserve amount = .ok b' ∧ b'.bytes = b.bytes ∧ amount ≤ b'.tailbytes := by
  -- whichever way the room is made, the assertion at the end holds
  have hmade : ∀ b' : StreamBuffer, b'.bytes = b.bytes → amount ≤ b'.tailbytes →
      ∃ b'', (do assert (decide (amount ≤ b'.tailbytes)); pure b' : Except Fault StreamBuffer) =
        .ok b'' ∧ b''.bytes = b.bytes ∧ amount ≤ b''.tailbytes := by
    intro b' hbytes hroom
    rw [decide_eq_true hroom]
    exact ⟨b', rfl, hbytes, hroom⟩
  have h₁ := b.start_le
  have h₂ := b.end_le
  unfold reserve
  by_cases htail : amount ≤ b.tailbytes
  · rw [if_pos htail]
    exact hmade b rfl htail
  rw [if_neg htail]
  by_cases hfront : amount ≤ b.start_ + b.tailbytes
  · -- the space at the front is enough
    rw [if_pos hfront]
    apply hmade _ (bytes_moveup b)
    rw [tailbytes_moveup]
    simp only [tailbytes, fullbytes, size_] at *
    omega
  · rw [if_neg hfront]
    apply hmade
    · simp
    · have hend : b.moveup.end_ = b.fullbytes := by
        have h := tailbytes_moveup b
        have h₃ := b.moveup.end_le
        have h₄ := size_moveup b
        simp only [tailbytes, fullbytes, size_] at h h₄ ⊢
        omega
      -- the new size is at least what is needed, however it is chosen
      have hsize : ∀ size, (if amount + b.moveup.fullbytes > b.moveup.size_ * 2 then
          amount + b.moveup.fullbytes else b.moveup.size_ * 2) = size →
          amount + b.fullbytes ≤ size := by
        intro size hsize
        rw [fullbytes_moveup] at hsize
        split at hsize <;> omega
      have hroom := hsize _ rfl
      rw [tailbytes_realloc, hend]
      omega

theorem fill_spec {b : StreamBuffer} {data : List UInt8} (h : data.length ≤ b.tailbytes) :
    ∃ b', b.fill data = .ok b' ∧ b'.bytes = b.bytes ++ data := by
  have h₁ := b.start_le
  have h₂ := b.end_le
  unfold fill
  rw [dif_pos h]
  refine ⟨_, rfl, ?_⟩
  -- in front of the new bytes there is what was filled before
  have hfront : (b.buf_.take b.end_ ++ data ++ b.buf_.drop (b.end_ + data.length)).drop b.start_ =
      b.bytes ++ (data ++ b.buf_.drop (b.end_ + data.length)) := by
    rw [List.append_assoc, List.drop_append_of_le_length (by simp; omega), List.drop_take]
    rfl
  have hcount : b.end_ + data.length - b.start_ = b.bytes.length + data.length := by
    simp only [length_bytes, fullbytes]
    omega
  show List.take (b.end_ + data.length - b.start_) (List.drop b.start_ _) = _
  rw [hfront, hcount, List.take_length_add_append, List.take_left]

theorem consume_spec {b : StreamBuffer} {amount : Nat} (h : amount ≤ b.fullbytes) :
    ∃ b', b.consume amount = .ok b' ∧ b'.bytes = b.bytes.drop amount := by
  have h₁ := b.start_le
  unfold consume
  rw [dif_pos h]
  refine ⟨_, rfl, ?_⟩
  split
  · -- all of it, and the buffer starts over
    rename_i hall
    have hnil : b.bytes.drop amount = [] := by
      apply List.drop_of_length_le
      simp only [length_bytes, fullbytes]
      omega
    rw [hnil]
    simp [bytes, fullbytes]
  · simp only [bytes, fullbytes, List.drop_take, List.drop_drop]
    congr 1
    omega

end Oasys.StreamBuffer
