import Oasys.Serialize.Serialize
import Oasys.Util.IntType

/-!
# Values with names

What `process` of `serialize/Serialize.h` is called with, for the actions that tell fields by
their names and signed integers from unsigned ones: a name, and a value of the type of the
overload. An object is the list of the calls its `serialize` makes. The elements of a
`SerializableVector` have no names of their own, for its `serialize` gives each of them the
name `element`.
-/

namespace Oasys

/-- The bytes of a text. -/
def ascii (s : String) : List UInt8 := s.toList.map fun c => .ofNat c.toNat

/-- The overloads of `process` for integers. -/
inductive IntKind where
  | u64
  | u32
  | u16
  | u8
  | i64
  | i32
  | i16
  | i8
  deriving DecidableEq, Repr

namespace IntKind

/-- The type the pointer points to. -/
def type : IntKind → IntType
  | u64 => .u64
  | u32 => .u32
  | u16 => ⟨false, 16⟩
  | u8 => .u8
  | i64 => .i64
  | i32 => .int
  | i16 => ⟨true, 16⟩
  | i8 => ⟨true, 8⟩

/-- The overload that `SerializeAction` passes the pointer on to. -/
def unsigned : IntKind → IntKind
  | u64 | i64 => u64
  | u32 | i32 => u32
  | u16 | i16 => u16
  | u8 | i8 => u8

end IntKind

/-- An integer of one of these types. -/
structure Integer where
  kind : IntKind
  val : Int
  inRange : kind.type.InRange val
  deriving DecidableEq, Repr

/-- The number of elements that `SerializableVector::serialize` processes, a `u_int`. -/
def Integer.size (n : Nat) : Integer where
  kind := .u32
  val := IntType.u32.conv n
  inRange := IntType.inRange_conv _ _

namespace Integer

/-- The value of the unsigned type that the pointer is cast to. -/
def cast (i : Integer) : Nat := (i.kind.unsigned.type.conv i.val).toNat

theorem cast_eq (i : Integer) : (i.cast : Int) = i.val % 2 ^ i.kind.type.width := by
  obtain ⟨kind, val, -⟩ := i
  cases kind <;>
    simp [cast, IntKind.unsigned, IntKind.type, IntType.conv, IntType.min, IntType.size,
      IntType.u64, IntType.u32, IntType.u8, IntType.i64, IntType.int] <;> omega

theorem cast_lt (i : Integer) : i.cast < 2 ^ 64 := by
  have hcast := i.cast_eq
  obtain ⟨kind, val, _⟩ := i
  cases kind <;>
    simp only [IntKind.type, IntType.u64, IntType.u32, IntType.u8, IntType.i64, IntType.int]
      at hcast <;> omega

theorem eq_of_val_eq {i j : Integer} (hkind : i.kind = j.kind) (h : i.val = j.val) : i = j := by
  obtain ⟨kind, x, hx⟩ := i
  obtain ⟨kind', y, hy⟩ := j
  obtain rfl : kind = kind' := hkind
  obtain rfl : x = y := h
  rfl

/-- Two integers of one type are cast to different values. -/
theorem eq_of_cast_eq {i j : Integer} (hkind : i.kind = j.kind) (h : i.cast = j.cast) :
    i = j := by
  have hi := i.cast_eq
  have hj := j.cast_eq
  apply eq_of_val_eq hkind
  rw [h, hkind] at hi
  -- the values differ by a multiple of the size
  have hconv := IntType.conv_eq_of_emod j.inRange (hi.symm.trans hj)
  have hrange := i.inRange
  rw [hkind] at hrange
  rw [← hconv, IntType.conv_of_inRange hrange]

end Integer

/-- A value that a `process` of the action itself is given. -/
inductive Basic where
  | int (i : Integer)
  | bool (b : Bool)
  /-- `process(name, u_char*, len)`. -/
  | buf (bp : FixedBuffer)
  /-- `process(name, carrier)`. -/
  | carrier (c : BufferCarrier)
  /-- `process(name, carrier, terminator)`. -/
  | terminated (c : BufferCarrier) (terminator : UInt8)
  /-- `process(name, std::string*)`. -/
  | string (s : List UInt8)
  deriving DecidableEq, Repr

/-- What a call of `process` is given besides the name. -/
inductive Value where
  | basic (x : Basic)
  /-- A `SerializableObject`, as the calls of `process` that its `serialize` makes. -/
  | object (fields : List (List UInt8 × Value))
  /-- A `SerializableVector`; `builder` is the element `_Type(builder)`. -/
  | vector (builder : Value) (elems : List Value)
  deriving Repr

/-- An object, as the calls of `process` that its `serialize` makes. -/
abbrev NamedObject := List (List UInt8 × Value)

/-- Induction on a value, with a hypothesis for every field of an object and for every
    element of a vector. -/
@[elab_as_elim]
theorem Value.ind {motive : Value → Prop} (basic : ∀ x, motive (.basic x))
    (object : ∀ fields, (∀ f ∈ fields, motive f.2) → motive (.object fields))
    (vector : ∀ builder elems, motive builder → (∀ e ∈ elems, motive e) →
      motive (.vector builder elems)) :
    ∀ v, motive v
  | .basic x => basic x
  | .object fields =>
    object fields fun f hf =>
      have hlt : sizeOf f.2 < sizeOf fields := by
        have hmem := List.sizeOf_lt_of_mem hf
        cases f
        simp only [Prod.mk.sizeOf_spec] at hmem ⊢
        omega
      Value.ind basic object vector f.2
  | .vector builder elems =>
    vector builder elems (Value.ind basic object vector builder)
      fun e _ => Value.ind basic object vector e

/-! ### Without names

The fields of the same calls, for the actions that ignore names.
-/

/-- The field that an integer is, once it is cast. -/
def Integer.toFixed (i : Integer) : FixedField :=
  match i.kind.unsigned with
  | .u64 | .i64 => .u64 (.ofNat i.cast)
  | .u32 | .i32 => .u32 (.ofNat i.cast)
  | .u16 | .i16 => .u16 (.ofNat i.cast)
  | .u8 | .i8 => .u8 (.ofNat i.cast)

def Basic.toField : Basic → Field
  | .int i => .fixed i.toFixed
  | .bool b => .fixed (.bool b)
  | .buf bp => .fixed (.buf bp)
  | .carrier c => .carrier c
  | .terminated c terminator => .terminated c terminator
  | .string s => .string s

mutual

def Value.toField : Value → Field
  | .basic x => x.toField
  | .object fields => .object (toFields fields)
  | .vector builder elems => .vector builder.toField (toElems elems)

/-- The fields of an object. -/
def toFields : NamedObject → SerializableObject
  | [] => []
  | (_, v) :: o => v.toField :: toFields o

/-- The elements of a vector. -/
def toElems : List Value → List Field
  | [] => []
  | e :: elems => e.toField :: toElems elems

end

end Oasys
