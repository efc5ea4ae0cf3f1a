import Oasys.Serialize.Serialize
import Oasys.Util.CRC32
import Oasys.Util.ExpandableBuffer

/-!
# MarshalSerialize

`Marshal`, `Unmarshal` and `MarshalSize` of `serialize/MarshalSerialize.cc`. An action takes an
object and returns it as the action leaves it: `Unmarshal` fills in the fields, and `Marshal`
sets the length of the carriers it looks for a terminator in.

Messages are left out, except where making one reads memory. The local `len` of
`Unmarshal::process` for carriers and strings is not initialised, and is read although
nothing was stored in it when the length prefix could not be read: the values of these
locals, one after another, are a parameter of `Unmarshal`. The shifts of a byte to the
sign bit of an `int` are those of the bit pattern.
-/

/-!
### BufferedSerializeAction

The part that `Marshal` and `Unmarshal` share: a buffer, either of fixed length or an
`ExpandableBuffer`, the offset of the next byte, and the error flag. A pointer into the
buffer is the offset it points at. Sizes are 64-bit and do not wrap: an offset is at
most the size of a buffer, and no length added to it exceeds 32 bits.
-/

namespace Oasys

structure BufferedSerializeAction where
  /-- The bit `USE_CRC` of `options_`. -/
  useCrc : Bool
  /-- Whether `log_` is set. -/
  log_ : Bool
  error_ : Bool
  expandable_buf_ : Option ExpandableBuffer
  /-- The buffer of fixed length; `length_` is its length. -/
  buf_ : List UInt8
  offset_ : Nat
  deriving DecidableEq, Repr

namespace BufferedSerializeAction

/-- The memory that slices point into. -/
def memory (a : BufferedSerializeAction) : List UInt8 :=
  match a.expandable_buf_ with
  | some b => b.bytes
  | none => a.buf_

def buf (a : BufferedSerializeAction) : Except Fault (List UInt8) :=
  match a.expandable_buf_ with
  | some b => b.rawBuf
  | none => return a.buf_

def length (a : BufferedSerializeAction) : Nat :=
  match a.expandable_buf_ with
  | some b => b.buf_len_
  | none => a.buf_.length

def offset (a : BufferedSerializeAction) : Nat :=
  match a.expandable_buf_ with
  | some b => b.len_
  | none => a.offset_

def signalError (a : BufferedSerializeAction) : BufferedSerializeAction :=
  { a with error_ := true }

def nextSlice (a : BufferedSerializeAction) (length : Nat) :
    Except Fault (BufferedSerializeAction × Option Nat) := do
  if a.error_ then
    return (a, none)
  match a.expandable_buf_ with
  | some b =>
    let (b, ret) ← b.tailBuf length
    let b ← b.incrLen length
    return ({ a with expandable_buf_ := some b }, ret)
  | none =>
    if a.buf_.length < a.offset_ + length then
      return (a.signalError, none)
    return ({ a with offset_ := a.offset_ + length }, some a.offset_)

/-- Writes through the pointer `p`. -/
def store (a : BufferedSerializeAction) (p : Nat) (bytes : List UInt8) :
    Except Fault BufferedSerializeAction :=
  let overwrite (mem : List UInt8) := mem.take p ++ bytes ++ mem.drop (p + bytes.length)
  if p + bytes.length ≤ a.memory.length then
    match a.expandable_buf_ with
    | some b => .ok { a with expandable_buf_ := some { b with buf_ := b.buf_.map overwrite } }
    | none => .ok { a with buf_ := overwrite a.buf_ }
  else .error .outOfBounds

/-- The memory behind the pointer `p`. -/
def pointee (a : BufferedSerializeAction) (p : Nat) : List UInt8 := a.memory.drop p

end BufferedSerializeAction

end Oasys

namespace Oasys

/-! ### Marshal -/

abbrev Marshal := BufferedSerializeAction

namespace Marshal

/-- The constructor for a buffer of fixed length. -/
def new (buf : List UInt8) (useCrc log_ : Bool) : Marshal where
  useCrc := useCrc
  log_ := log_
  error_ := false
  expandable_buf_ := none
  buf_ := buf
  offset_ := 0

/-- The constructor for an `ExpandableBuffer`. -/
def newExpandable (b : ExpandableBuffer) (useCrc log_ : Bool) : Except Fault Marshal := do
  let b ← b.setLen 0
  return { new [] useCrc log_ with expandable_buf_ := some b }

/-- What every `process` does: take the next `n` bytes of the buffer and, unless there
    was an error, write `bytes` there. -/
def put (m : Marshal) (n : Nat) (bytes : Except Fault (List UInt8)) : Except Fault Marshal := do
  let (m, ret) ← m.nextSlice n
  match ret with
  | none => return m
  | some p => m.store p (← bytes)

/-- `process(name, u_int64_t*)`. -/
def processU64 (m : Marshal) (i : UInt64) : Except Fault Marshal :=
  m.put 8 (.ok [((i >>> 56) &&& 0xff).toUInt8, ((i >>> 48) &&& 0xff).toUInt8,
    ((i >>> 40) &&& 0xff).toUInt8, ((i >>> 32) &&& 0xff).toUInt8, ((i >>> 24) &&& 0xff).toUInt8,
    ((i >>> 16) &&& 0xff).toUInt8, ((i >>> 8) &&& 0xff).toUInt8, (i &&& 0xff).toUInt8])

/-- `process(name, u_int32_t*)`. -/
def processU32 (m : Marshal) (i : UInt32) : Except Fault Marshal :=
  m.put 4 (.ok [((i >>> 24) &&& 0xff).toUInt8, ((i >>> 16) &&& 0xff).toUInt8,
    ((i >>> 8) &&& 0xff).toUInt8, (i &&& 0xff).toUInt8])

/-- `process(name, u_int16_t*)`. -/
def processU16 (m : Marshal) (i : UInt16) : Except Fault Marshal :=
  m.put 2 (.ok [((i >>> 8) &&& 0xff).toUInt8, (i &&& 0xff).toUInt8])

/-- `process(name, u_int8_t*)`. -/
def processU8 (m : Marshal) (i : UInt8) : Except Fault Marshal := m.put 1 (.ok [i])

/-- `process(name, bool*)`. -/
def processBool (m : Marshal) (b : Bool) : Except Fault Marshal :=
  m.put 1 (.ok [if b then 1 else 0])

/-- `process(name, u_char*, len)`. -/
def processBuf (m : Marshal) (bp : Option (List UInt8)) (len : UInt32) : Except Fault Marshal :=
  m.put len.toNat (readBytes bp len.toNat)

/-- The calls of `process` for values that take a fixed number of bytes. -/
def processFixed (m : Marshal) : FixedField → Except Fault Marshal
  | .u64 i => m.processU64 i
  | .u32 i => m.processU32 i
  | .u16 i => m.processU16 i
  | .u8 i => m.processU8 i
  | .bool b => m.processBool b
  | .buf bp => m.processBuf (some bp.bytes) (.ofNat bp.bytes.length)

/-- `process(name, carrier)`. The parameter `len` is a `u_int32_t` in both calls. -/
def processCarrier (m : Marshal) (c : BufferCarrier) : Except Fault Marshal := do
  let m ← m.processU32 (.ofNat c.len_)
  m.processBuf c.buf_ (.ofNat c.len_)

/-- The loop that looks for the terminator: how many bytes stand before it. -/
def findTerminator (terminator : UInt8) : List UInt8 → Except Fault Nat
  | [] => throw .outOfBounds
  | b :: buf => do
    if b = terminator then
      return 0
    let len ← findTerminator terminator buf
    return len + 1

/-- `process(name, carrier, terminator)`. -/
def processTerminated (m : Marshal) (c : BufferCarrier) (terminator : UInt8) :
    Except Fault (Marshal × BufferCarrier) := do
  match c.buf_ with
  | none => throw .nullDeref
  | some buf =>
    let len ← findTerminator terminator buf
    let c := c.setLen (len + 1) -- include terminator
    let m ← m.processBuf c.buf_ (.ofNat c.len_)
    return (m, c)

/-- `process(name, std::string*)`. -/
def processString (m : Marshal) (s : List UInt8) : Except Fault Marshal := do
  let len := UInt32.ofNat s.length
  let m ← m.processU32 len
  m.put len.toNat (readBytes (some s) len.toNat)

mutual

def process (m : Marshal) : Field → Except Fault (Marshal × Field)
  | .fixed x => do
    let m ← m.processFixed x
    return (m, .fixed x)
  | .carrier c => do
    let m ← m.processCarrier c
    return (m, .carrier c)
  | .terminated c terminator => do
    let (m, c) ← m.processTerminated c terminator
    return (m, .terminated c terminator)
  | .string s => do
    let m ← m.processString s
    return (m, .string s)
  | .object fields => do
    let (m, fields) ← processAll m fields
    return (m, .object fields)
  | .vector builder elems => do
    let m ← m.processU32 (.ofNat elems.length)
    let (m, elems) ← processAll m elems
    return (m, .vector builder elems)

/-- The `serialize` of an object: `process` on its fields, one after another. -/
def processAll (m : Marshal) : SerializableObject → Except Fault (Marshal × SerializableObject)
  | [] => return (m, [])
  | f :: o => do
    let (m, f) ← process m f
    let (m, o) ← processAll m o
    return (m, f :: o)

end

/-- `end_action`. A buffer of fixed length is not null, and `raw_buf` asserts that an
    expandable one is not. -/
def endAction (m : Marshal) : Except Fault Marshal := do
  if m.useCrc then
    let buf ← m.buf
    let crc ← CRC32.new.update buf m.offset
    m.processU32 crc.value
  else
    return m

def action (m : Marshal) (o : SerializableObject) :
    Except Fault (Int × Marshal × SerializableObject) := do
  let (m, o) ← processAll { m with error_ := false } o
  let m ← m.endAction
  return (if m.error_ then -1 else 0, m, o)

/-- One action after another, each on its object. -/
def actions (m : Marshal) :
    List SerializableObject → Except Fault (List Int × Marshal × List SerializableObject)
  | [] => return ([], m, [])
  | o :: os => do
    let (code, m, o) ← m.action o
    let (codes, m, os) ← actions m os
    return (code :: codes, m, o :: os)

/-- The bytes written so far. -/
def written (m : Marshal) : List UInt8 := m.memory.take m.offset

end Marshal

/-! ### Unmarshal -/

structure Unmarshal extends BufferedSerializeAction where
  /-- The values that the uninitialised locals still to come hold. -/
  uninitialised : Nat → UInt32

namespace Unmarshal

def new (buf : List UInt8) (useCrc log_ : Bool) (uninitialised : Nat → UInt32) : Unmarshal where
  useCrc := useCrc
  log_ := log_
  error_ := false
  expandable_buf_ := none
  buf_ := buf
  offset_ := 0
  uninitialised := uninitialised

def nextSlice (u : Unmarshal) (length : Nat) : Except Fault (Unmarshal × Option Nat) := do
  let (a, ret) ← u.toBufferedSerializeAction.nextSlice length
  return ({ u with toBufferedSerializeAction := a }, ret)

def signalError (u : Unmarshal) : Unmarshal := { u with error_ := true }

/-- The declaration of a local that is not initialised. -/
def newLocal (u : Unmarshal) : UInt32 × Unmarshal :=
  (u.uninitialised 0, { u with uninitialised := fun n => u.uninitialised (n + 1) })

/-- `begin_action`. In a buffer of less than four bytes, the pointer to the last four
    stands before its first byte. -/
def beginAction (u : Unmarshal) : Except Fault Unmarshal := do
  if u.useCrc then
    let buf ← u.buf
    if u.length < 4 then
      throw .outOfBounds
    let crc_val ← CRC32.fromBytes (buf.drop (u.length - 4))
    let crc ← CRC32.new.update buf (u.length - 4)
    if crc.value ≠ crc_val then
      if u.log_ then
        return u.signalError
  return u

/-- What `process` does for a value that takes the next `n` bytes of the buffer: unless
    there was an error, load it from there. -/
def get {α : Type} (u : Unmarshal) (n : Nat) (x : α) (load : List UInt8 → Except Fault α) :
    Except Fault (Unmarshal × α) := do
  let (u, ret) ← u.nextSlice n
  match ret with
  | none => return (u, x)
  | some p =>
    let x ← load (u.pointee p)
    return (u, x)

/-! What is loaded from the memory behind the slice. -/

def loadU64 : List UInt8 → Except Fault UInt64
  | b0 :: b1 :: b2 :: b3 :: b4 :: b5 :: b6 :: b7 :: _ =>
    .ok (b0.toUInt64 <<< 56 ||| b1.toUInt64 <<< 48 ||| b2.toUInt64 <<< 40 |||
      b3.toUInt64 <<< 32 ||| b4.toUInt64 <<< 24 ||| b5.toUInt64 <<< 16 |||
      b6.toUInt64 <<< 8 ||| b7.toUInt64)
  | _ => .error .outOfBounds

def loadU32 : List UInt8 → Except Fault UInt32
  | b0 :: b1 :: b2 :: b3 :: _ =>
    .ok (b0.toUInt32 <<< 24 ||| b1.toUInt32 <<< 16 ||| b2.toUInt32 <<< 8 ||| b3.toUInt32)
  | _ => .error .outOfBounds

def loadU16 : List UInt8 → Except Fault UInt16
  | b0 :: b1 :: _ => .ok (b0.toUInt16 <<< 8 ||| b1.toUInt16)
  | _ => .error .outOfBounds

def loadU8 : List UInt8 → Except Fault UInt8
  | b0 :: _ => .ok b0
  | _ => .error .outOfBounds

def loadBool : List UInt8 → Except Fault Bool
  | b0 :: _ => .ok (b0 != 0)
  | _ => .error .outOfBounds

/-- `memcpy` to a buffer, as many bytes as it has. -/
def loadBuf (bp : FixedBuffer) (buf : List UInt8) : Except Fault FixedBuffer :=
  if bp.bytes.length ≤ buf.length then
    .ok ⟨buf.take bp.bytes.length, Nat.lt_of_le_of_lt (List.length_take_le ..) bp.fits⟩
  else .error .outOfBounds

/-- `process(name, u_int64_t*)`. -/
def processU64 (u : Unmarshal) (i : UInt64) : Except Fault (Unmarshal × UInt64) :=
  u.get 8 i loadU64

/-- `process(name, u_int32_t*)`. -/
def processU32 (u : Unmarshal) (i : UInt32) : Except Fault (Unmarshal × UInt32) :=
  u.get 4 i loadU32

/-- `process(name, u_int16_t*)`. -/
def processU16 (u : Unmarshal) (i : UInt16) : Except Fault (Unmarshal × UInt16) :=
  u.get 2 i loadU16

/-- `process(name, u_int8_t*)`. -/
def processU8 (u : Unmarshal) (i : UInt8) : Except Fault (Unmarshal × UInt8) :=
  u.get 1 i loadU8

/-- `process(name, bool*)`. -/
def processBool (u : Unmarshal) (b : Bool) : Except Fault (Unmarshal × Bool) :=
  u.get 1 b loadBool

/-- `process(name, u_char*, len)`, where `len` is the length of the buffer. -/
def processBuf (u : Unmarshal) (bp : FixedBuffer) : Except Fault (Unmarshal × FixedBuffer) :=
  u.get bp.bytes.length bp (loadBuf bp)

/-- The calls of `process` for values that take a fixed number of bytes. -/
def processFixed (u : Unmarshal) : FixedField → Except Fault (Unmarshal × FixedField)
  | .u64 i => do
    let (u, i) ← u.processU64 i
    return (u, .u64 i)
  | .u32 i => do
    let (u, i) ← u.processU32 i
    return (u, .u32 i)
  | .u16 i => do
    let (u, i) ← u.processU16 i
    return (u, .u16 i)
  | .u8 i => do
    let (u, i) ← u.processU8 i
    return (u, .u8 i)
  | .bool b => do
    let (u, b) ← u.processBool b
    return (u, .bool b)
  | .buf bp => do
    let (u, bp) ← u.processBuf bp
    return (u, .buf bp)

/-- `process(name, carrier)`, after `len` was processed. -/
def fillCarrier (u : Unmarshal) (c : BufferCarrier) (len : UInt32) :
    Except Fault (Unmarshal × BufferCarrier) := do
  if len = 0 then
    return (u, c.setBuf none 0)
  let (u, ret) ← u.nextSlice len.toNat
  let c := c.setBuf (ret.map u.pointee) len.toNat
  if u.log_ ∧ c.len_ ≠ 0 then
    -- `hex2str` reads the bytes for the message
    let _ ← readBytes c.buf_ (if len < 16 then len.toNat else 16)
  return (u, c)

/-- `process(name, carrier)`. -/
def processCarrier (u : Unmarshal) (c : BufferCarrier) :
    Except Fault (Unmarshal × BufferCarrier) := do
  let (len, u) := u.newLocal
  let (u, len) ← u.processU32 len
  u.fillCarrier c len

/-- The loop that looks for the terminator, from the slice `cbuf` found first and the
    count `len` on. It returns both, or nothing when `next_slice` returned null. A loop
    over `fuel` bytes suffices when no more are left. -/
def findTerminator (terminator : UInt8) :
    Nat → Unmarshal → Option Nat → Nat → Except Fault (Unmarshal × Option (Option Nat × Nat))
  | 0, _, _, _ => throw .outOfFuel
  | fuel + 1, u, cbuf, len => do
    let (u, c) ← u.nextSlice 1
    let cbuf := if cbuf = none then c else cbuf
    match c with
    | none => return (u.signalError, none)
    | some p =>
      match u.pointee p with
      | [] => throw .outOfBounds
      | b :: _ =>
        if b = terminator then
          return (u, some (cbuf, len + 1))
        findTerminator terminator fuel u cbuf (len + 1)

/-- `process(name, carrier, terminator)`. -/
def processTerminated (u : Unmarshal) (c : BufferCarrier) (terminator : UInt8) :
    Except Fault (Unmarshal × BufferCarrier) := do
  let (u, found) ← findTerminator terminator (u.length + 1) u none 0
  match found with
  | none => return (u, c)
  | some (cbuf, len) =>
    return (u, c.setBuf (cbuf.map u.pointee) (len + 1)) -- include the terminator

/-- `process(name, std::string*)`. -/
def processString (u : Unmarshal) (s : List UInt8) : Except Fault (Unmarshal × List UInt8) := do
  let (len, u) := u.newLocal
  let (u, len) ← u.processU32 len
  u.get len.toNat s fun buf => readBytes (some buf) len.toNat

mutual

def process (u : Unmarshal) : Field → Except Fault (Unmarshal × Field)
  | .fixed x => do
    let (u, x) ← u.processFixed x
    return (u, .fixed x)
  | .carrier c => do
    let (u, c) ← u.processCarrier c
    return (u, .carrier c)
  | .terminated c terminator => do
    let (u, c) ← u.processTerminated c terminator
    return (u, .terminated c terminator)
  | .string s => do
    let (u, s) ← u.processString s
    return (u, .string s)
  | .object fields => do
    let (u, fields) ← processAll u fields
    return (u, .object fields)
  | .vector builder elems => do
    let (u, sz) ← u.processU32 (.ofNat elems.length)
    let (u, new) ← processEach (fun u => process u builder) sz.toNat u
    assert ((elems ++ new).length = sz.toNat)
    return (u, .vector builder (elems ++ new))

/-- The `serialize` of an object: `process` on its fields, one after another. -/
def processAll (u : Unmarshal) :
    SerializableObject → Except Fault (Unmarshal × SerializableObject)
  | [] => return (u, [])
  | f :: o => do
    let (u, f) ← process u f
    let (u, o) ← processAll u o
    return (u, f :: o)

end

def action (u : Unmarshal) (o : SerializableObject) :
    Except Fault (Int × Unmarshal × SerializableObject) := do
  let u ← { u with error_ := false }.beginAction
  let (u, o) ← u.processAll o
  return (if u.error_ then -1 else 0, u, o)

/-- One action after another, each on its object. -/
def actions (u : Unmarshal) :
    List SerializableObject → Except Fault (List Int × Unmarshal × List SerializableObject)
  | [] => return ([], u, [])
  | o :: os => do
    let (code, u, o) ← u.action o
    let (codes, u, os) ← actions u os
    return (code :: codes, u, o :: os)

end Unmarshal

/-! ### MarshalSize -/

structure MarshalSize where
  /-- The bit `USE_CRC` of `options_`. -/
  useCrc : Bool
  /-- A `size_t`. -/
  size_ : UInt64
  deriving DecidableEq, Repr

namespace MarshalSize

def new (useCrc : Bool) : MarshalSize := ⟨useCrc, 0⟩

/-- `size_ += n`. -/
def add (s : MarshalSize) (n : Nat) : MarshalSize := { s with size_ := s.size_ + .ofNat n }

/-- `get_size` of a value that takes a fixed number of bytes. -/
def getSize : FixedField → Nat
  | .u64 _ => 8
  | .u32 _ => 4
  | .u16 _ => 2
  | .u8 _ => 1
  | .bool _ => 1
  | .buf bp => bp.bytes.length

/-- `get_size(std::string*)`, a `u_int32_t`. -/
def getSizeString (str : List UInt8) : Nat := (str.length + 4) % 2 ^ 32

def beginAction (s : MarshalSize) : MarshalSize := if s.useCrc then s.add 4 else s

/-- `process(name, carrier)`. -/
def processCarrier (s : MarshalSize) (c : BufferCarrier) : MarshalSize := (s.add 4).add c.len_

/-- `process(name, carrier, terminator)`, with the same loop as `Marshal`. -/
def processTerminated (s : MarshalSize) (c : BufferCarrier) (terminator : UInt8) :
    Except Fault MarshalSize := do
  match c.buf_ with
  | none => throw .nullDeref
  | some buf =>
    let size ← Marshal.findTerminator terminator buf
    return s.add (size + 1) -- include terminator

mutual

def process (s : MarshalSize) : Field → Except Fault MarshalSize
  | .fixed x => return s.add (getSize x)
  | .carrier c => return s.processCarrier c
  | .terminated c terminator => s.processTerminated c terminator
  | .string str => return s.add (getSizeString str)
  | .object fields => processAll s fields
  | .vector _ elems => processAll (s.add 4) elems

/-- The `serialize` of an object: `process` on its fields, one after another. -/
def processAll (s : MarshalSize) : SerializableObject → Except Fault MarshalSize
  | [] => return s
  | f :: o => do
    let s ← process s f
    processAll s o

end

/-- `SerializeAction::action`. Nothing signals an error. -/
def action (s : MarshalSize) (o : SerializableObject) : Except Fault (Int × MarshalSize) := do
  let s ← processAll s.beginAction o
  return (0, s)

end MarshalSize

end Oasys
