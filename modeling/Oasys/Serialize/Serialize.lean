import Oasys.Debug.DebugUtils

/-!
# Serialize

What `serialize/Serialize.h` serializes. `SerializableObject::serialize` calls
`process` on the fields of the object one after another, so an object is the list of
its fields, each with its value. The overloads for signed integers, `char` buffers and
`in_addr_t`, which only cast, are those of the types they cast to, and field names,
which only messages read, are left out.

A `SerializableVector` is a field together with the element that its loop constructs
from the `Builder`.
-/

/-!
### BufferCarrier

The carrier of `util/BufferCarrier.h`: a pointer and a length. A pointer that is not
null is given by the memory that can be read through it, from the byte it points at to
the end of the object it points into. `pass_ownership_`, which only says who frees the
memory, is left out.
-/

namespace Oasys

/-- The `len` bytes that `memcpy` or `hex2str` reads through a pointer. -/
def readBytes (buf : Option (List UInt8)) (len : Nat) : Except Fault (List UInt8) :=
  match buf with
  | none => if len = 0 then .ok [] else .error .nullDeref
  | some mem => if len ≤ mem.length then .ok (mem.take len) else .error .outOfBounds

structure BufferCarrier where
  /-- The memory behind the pointer, `none` for the null pointer. -/
  buf_ : Option (List UInt8)
  len_ : Nat
  deriving DecidableEq, Repr

namespace BufferCarrier

/-- `BufferCarrier()`. -/
def new : BufferCarrier := ⟨none, 0⟩

def setBuf (_c : BufferCarrier) (buf : Option (List UInt8)) (len : Nat) : BufferCarrier :=
  ⟨buf, len⟩

def setLen (c : BufferCarrier) (len : Nat) : BufferCarrier := { c with len_ := len }

/-- The carrier reports bytes and has no memory to find them in. -/
def HalfFilled (c : BufferCarrier) : Prop := c.buf_ = none ∧ c.len_ ≠ 0

instance (c : BufferCarrier) : Decidable c.HalfFilled := inferInstanceAs (Decidable (_ ∧ _))

end BufferCarrier

/-! ### What is read through a pointer -/

theorem readBytes_zero (buf : Option (List UInt8)) : readBytes buf 0 = .ok [] := by
  cases buf <;> rfl

theorem readBytes_append (data mem : List UInt8) :
    readBytes (some (data ++ mem)) data.length = .ok data := by
  rw [readBytes, if_pos (by rw [List.length_append]; omega), List.take_left]

theorem readBytes_self (data : List UInt8) : readBytes (some data) data.length = .ok data := by
  rw [readBytes, if_pos (Nat.le_refl _), List.take_length]

/-- As many bytes are read as were asked for. -/
theorem length_of_readBytes {buf : Option (List UInt8)} {len : Nat} {data : List UInt8}
    (h : readBytes buf len = .ok data) : data.length = len := by
  unfold readBytes at h
  split at h
  · split at h
    · rename_i h0
      cases h
      exact h0.symm
    · cases h
  · split at h
    · rename_i mem hle
      cases h
      exact List.length_take_of_le hle
    · cases h

/-- They are the first ones. -/
theorem bytes_of_readBytes {buf : Option (List UInt8)} {len : Nat} {data : List UInt8}
    (h : readBytes buf len = .ok data) : (buf.getD []).take len = data := by
  unfold readBytes at h
  split at h
  · split at h
    · cases h
      simp
    · cases h
  · split at h
    · cases h
      rfl
    · cases h

end Oasys

namespace Oasys

/-- A buffer of fixed length, given to `process` with its length, a `u_int32_t`. -/
structure FixedBuffer where
  bytes : List UInt8
  fits : bytes.length < 2 ^ 32
  deriving DecidableEq, Repr

/-- A field whose place in the buffer has the same size whatever its value is. -/
inductive FixedField where
  | u64 (i : UInt64)
  | u32 (i : UInt32)
  | u16 (i : UInt16)
  | u8 (i : UInt8)
  | bool (b : Bool)
  | buf (bp : FixedBuffer)
  deriving DecidableEq, Repr

/-- One call of `process`. -/
inductive Field where
  | fixed (x : FixedField)
  /-- `process(name, carrier)`. -/
  | carrier (c : BufferCarrier)
  /-- `process(name, carrier, terminator)`. -/
  | terminated (c : BufferCarrier) (terminator : UInt8)
  /-- `process(name, std::string*)`. -/
  | string (s : List UInt8)
  /-- `process(name, SerializableObject*)`. -/
  | object (fields : List Field)
  /-- The same for a `SerializableVector`; `builder` is the element `_Type(builder)`. -/
  | vector (builder : Field) (elems : List Field)
  deriving Repr

/-- An object, as the fields that its `serialize` processes. -/
abbrev SerializableObject := List Field

/-- Induction on a field, with a hypothesis for every field of an object and for every
    element of a vector. -/
@[elab_as_elim]
theorem Field.ind {motive : Field → Prop} (fixed : ∀ x, motive (.fixed x))
    (carrier : ∀ c, motive (.carrier c))
    (terminated : ∀ c terminator, motive (.terminated c terminator))
    (string : ∀ s, motive (.string s))
    (object : ∀ fields, (∀ f ∈ fields, motive f) → motive (.object fields))
    (vector : ∀ builder elems, motive builder → (∀ e ∈ elems, motive e) →
      motive (.vector builder elems)) :
    ∀ f, motive f
  | .fixed x => fixed x
  | .carrier c => carrier c
  | .terminated c terminator => terminated c terminator
  | .string s => string s
  | .object fields =>
    object fields fun f _ => Field.ind fixed carrier terminated string object vector f
  | .vector builder elems =>
    vector builder elems (Field.ind fixed carrier terminated string object vector builder)
      fun e _ => Field.ind fixed carrier terminated string object vector e

/-- The loop of `SerializableVector::serialize` that reads `n` elements, given what
    processes one. -/
def processEach {α : Type} (process : α → Except Fault (α × Field)) :
    Nat → α → Except Fault (α × List Field)
  | 0, a => return (a, [])
  | n + 1, a => do
    let (a, e) ← process a
    let (a, es) ← processEach process n a
    return (a, e :: es)

end Oasys
