import Oasys.Serialize.MarshalSerialize
import Oasys.Util.StringUtils

/-!
# KeySerialize

`KeyMarshal` and `KeyUnmarshal` of `serialize/KeySerialize.cc`. As in `MarshalSerialize`, an
action takes an object and returns it as the action leaves it. A `SerializableVector` is an
object whose `serialize` processes the number of its elements and then each of them.

The conversions of `snprintf` read an `unsigned int`, also where the argument is a
`u_int64_t`: it is passed in a register, of which the conversion reads the lower half.
`malloc` is taken to succeed.
-/

namespace Oasys

/-- The conversions of the formats that are used. -/
inductive Format where
  /-- `"%0<width>x"`. -/
  | zeroHex (width : Nat)
  /-- `"%<width>x"`. -/
  | spaceHex (width : Nat)
  /-- `"%<width>u"`. -/
  | dec (width : Nat)
  deriving DecidableEq, Repr

/-- What `snprintf` converts an `unsigned int` to. -/
def Format.print (i : UInt32) : Format → List UInt8
  | zeroHex width => Hex.pad 48 width (Hex.digits i.toNat)
  | spaceHex width => Hex.pad 32 width (Hex.digits i.toNat)
  | dec width =>
    Hex.pad 32 width ((Nat.toDigits 10 i.toNat).map fun c => .ofNat c.toNat)

/-! ### KeyMarshal -/

structure KeyMarshal where
  buf_ : ExpandableBuffer
  border_ : Option (List UInt8)
  error_ : Bool
  deriving DecidableEq, Repr

namespace KeyMarshal

def new (buf : ExpandableBuffer) (border : Option (List UInt8)) : KeyMarshal where
  buf_ := buf
  border_ := border
  error_ := false

def processInt (m : KeyMarshal) (i : UInt32) (size : UInt32) (format : Format) :
    Except Fault KeyMarshal := do
  if m.error_ then
    return m
  let b := m.buf_.reserve (m.buf_.len_ + size.toNat + 1)
  let p ← b.endBuf
  let b ← b.store p ((format.print i).take size.toNat ++ [0])
  assert ((format.print i).length = size.toNat)
  let b ← b.setLen (b.len_ + size.toNat)
  return { m with buf_ := b }

def processInt64 (m : KeyMarshal) (i : UInt64) (size : UInt32) (format : Format) :
    Except Fault KeyMarshal :=
  m.processInt i.toUInt32 size format

/-- What every `process` does for bytes that are stored directly. -/
def putBytes (m : KeyMarshal) (bp : Option (List UInt8)) (len : Nat) :
    Except Fault KeyMarshal := do
  let b := m.buf_.reserve (m.buf_.len_ + len)
  let p ← b.endBuf
  let bytes ← readBytes bp len
  let b ← b.store p bytes
  let b ← b.setLen (b.len_ + len)
  return { m with buf_ := b }

/-- `border`. The length is a `u_int32_t`, and it is all that is reserved. -/
def border (m : KeyMarshal) : Except Fault KeyMarshal := do
  if m.error_ then
    return m
  match m.border_ with
  | none => return m
  | some border =>
    let border_len := UInt32.ofNat border.length
    let b := m.buf_.reserve border_len.toNat
    let p ← b.endBuf
    let bytes ← readBytes (some border) border_len.toNat
    let b ← b.store p bytes
    let b ← b.setLen (b.len_ + border_len.toNat)
    return { m with buf_ := b }

def endAction (m : KeyMarshal) : Except Fault KeyMarshal := do
  let b := m.buf_.reserve 1
  let p ← b.endBuf
  let b ← b.store p [0]
  return { m with buf_ := b }

/-- The calls of `process` for values that take a fixed number of bytes. -/
def processFixed (m : KeyMarshal) : FixedField → Except Fault KeyMarshal
  | .u64 i => do
    let m ← m.processInt64 i 16 (.spaceHex 16)
    m.border
  | .u32 i => do
    let m ← m.processInt i 8 (.zeroHex 8)
    m.border
  | .u16 i => do
    let m ← m.processInt i.toUInt32 4 (.zeroHex 4)
    m.border
  | .u8 i => do
    let m ← m.processInt i.toUInt32 2 (.zeroHex 2)
    m.border
  | .bool b => do
    let m ← m.processInt (if b then 1 else 0) 1 (.dec 1)
    m.border
  | .buf bp =>
    if m.error_ then return m
    else do
      let m ← m.putBytes (some bp.bytes) bp.bytes.length
      m.border

/-- `process(name, carrier)`. -/
def processCarrier (m : KeyMarshal) (c : BufferCarrier) : Except Fault KeyMarshal :=
  if m.error_ then return m
  else do
    let m ← m.processInt (.ofNat c.len_) 8 (.zeroHex 8)
    let m ← m.putBytes c.buf_ c.len_
    m.border

/-- `process(name, carrier, terminator)`. -/
def processTerminated (m : KeyMarshal) (c : BufferCarrier) (terminator : UInt8) :
    Except Fault (KeyMarshal × BufferCarrier) :=
  if m.error_ then return (m, c)
  else
    match c.buf_ with
    | none => throw .nullDeref
    | some buf => do
      let size ← Marshal.findTerminator terminator buf
      let c := c.setLen size
      let m ← m.processCarrier c
      return (m, c)

/-- `process(name, std::string*)`. -/
def processString (m : KeyMarshal) (s : List UInt8) : Except Fault KeyMarshal :=
  if m.error_ then return m
  else do
    let m ← m.processInt (.ofNat s.length) 8 (.zeroHex 8)
    let m ← m.putBytes (some s) s.length
    m.border

/-- `process(name, object)`, given what the object processes: `action`, and the border. -/
def processObject {α : Type} (m : KeyMarshal) (x : α)
    (serialize : KeyMarshal → Except Fault (KeyMarshal × α)) : Except Fault (KeyMarshal × α) :=
  if m.error_ then return (m, x)
  else do
    let (m, x) ← serialize { m with error_ := false }
    let m ← m.endAction
    -- the error of the action is the error that is signalled
    let m ← m.border
    return (m, x)

mutual

def process (m : KeyMarshal) : Field → Except Fault (KeyMarshal × Field)
  | .fixed x => do
    let m ← m.processFixed x
    return (m, .fixed x)
  | .carrier c => do
    let m ← m.processCarrier c
    return (m, .carrier c)
  | .terminated c terminator => do
    let (m, c) ← m.processTerminated c terminator
    return (m, .terminated c terminator)
  | .string s => do
    let m ← m.processString s
    return (m, .string s)
  | .object fields => do
    let (m, fields) ← m.processObject fields fun m => processAll m fields
    return (m, .object fields)
  | .vector builder elems => do
    let (m, elems) ← m.processObject elems fun m => do
      let m ← m.processFixed (.u32 (.ofNat elems.length))
      processAll m elems
    return (m, .vector builder elems)

/-- The `serialize` of an object: `process` on its fields, one after another. -/
def processAll (m : KeyMarshal) :
    SerializableObject → Except Fault (KeyMarshal × SerializableObject)
  | [] => return (m, [])
  | f :: o => do
    let (m, f) ← process m f
    let (m, o) ← processAll m o
    return (m, f :: o)

end

def action (m : KeyMarshal) (o : SerializableObject) :
    Except Fault (Int × KeyMarshal × SerializableObject) := do
  let (m, o) ← processAll { m with error_ := false } o
  let m ← m.endAction
  return (if m.error_ then -1 else 0, m, o)

/-- The key: the bytes that were asked for. -/
def key (m : KeyMarshal) : List UInt8 := m.buf_.bytes.take m.buf_.len_

end KeyMarshal

/-! ### KeyUnmarshal -/

structure KeyUnmarshal where
  /-- The memory from the pointer on. -/
  buf_ : List UInt8
  buf_len_ : UInt32
  border_len_ : UInt32
  cur_ : UInt32
  error_ : Bool
  deriving DecidableEq, Repr

namespace KeyUnmarshal

def new (buf : List UInt8) (buf_len : UInt32) (border : Option (List UInt8)) : KeyUnmarshal where
  buf_ := buf
  buf_len_ := buf_len
  border_len_ := match border with
    | none => 0
    | some border => .ofNat border.length
  cur_ := 0
  error_ := false

def signalError (u : KeyUnmarshal) : KeyUnmarshal := { u with error_ := true }

/-- The memory at `&buf_[cur_]`. -/
def pointee (u : KeyUnmarshal) : List UInt8 := u.buf_.drop u.cur_.toNat

/-- `cur_ += n`. -/
def skip (u : KeyUnmarshal) (n : UInt32) : KeyUnmarshal := { u with cur_ := u.cur_ + n }

def border (u : KeyUnmarshal) : KeyUnmarshal := u.skip u.border_len_

/-- `process_int`. The end that `strtoul` reports points into the local buffer, so that it is
    never `&buf_[cur_]`. -/
def processInt (u : KeyUnmarshal) (size : UInt32) : Except Fault (KeyUnmarshal × UInt32) :=
  if u.cur_ + size > u.buf_len_ then return (u.signalError, 0)
  else do
    let bytes ← readBytes (some u.pointee) size.toNat
    -- what is left of the local buffer holds zeros, which end the text
    let val := strtoull (bytes ++ List.replicate (9 - size.toNat) 0)
    return (u.skip size, val.toUInt32)

def processInt64 (u : KeyUnmarshal) : Except Fault (KeyUnmarshal × UInt64) :=
  let size : UInt32 := 16
  if u.cur_ + size > u.buf_len_ then return (u.signalError, 0)
  else do
    let bytes ← readBytes (some u.pointee) size.toNat
    let val := strtoull (bytes ++ List.replicate (32 - size.toNat) 0)
    return (u.skip size, val)

/-- `process(name, bool*)`. -/
def processBool (u : KeyUnmarshal) (b : Bool) : Except Fault (KeyUnmarshal × Bool) :=
  if u.error_ then return (u, b)
  else if u.cur_ + 1 > u.buf_len_ then return (u.signalError, b)
  else
    match u.pointee with
    | [] => throw .outOfBounds
    | c :: _ => return ((u.skip 1).border, c == 49)

/-- `process(name, u_char*, len)`, where `len` is the length of the buffer. -/
def processBuf (u : KeyUnmarshal) (bp : FixedBuffer) : Except Fault (KeyUnmarshal × FixedBuffer) :=
  let len := UInt32.ofNat bp.bytes.length
  if u.error_ then return (u, bp)
  else if u.cur_ + len > u.buf_len_ then return (u.signalError, bp)
  else do
    let bp ← Unmarshal.loadBuf bp u.pointee
    return ((u.skip len).border, bp)

/-- The calls of `process` for values that take a fixed number of bytes. -/
def processFixed (u : KeyUnmarshal) : FixedField → Except Fault (KeyUnmarshal × FixedField)
  | .u64 i => do
    let (u, val) ← u.processInt64
    return (u.border, .u64 (if u.error_ then i else val))
  | .u32 i => do
    let (u, val) ← u.processInt 8
    return (u.border, .u32 (if u.error_ then i else val))
  | .u16 i => do
    let (u, val) ← u.processInt 4
    return (u.border, .u16 (if u.error_ then i else val.toUInt16))
  | .u8 i => do
    let (u, val) ← u.processInt 2
    return (u.border, .u8 (if u.error_ then i else val.toUInt8))
  | .bool b => do
    let (u, b) ← u.processBool b
    return (u, .bool b)
  | .buf bp => do
    let (u, bp) ← u.processBuf bp
    return (u, .buf bp)

/-- `process(name, carrier)`, with what is put behind the bytes. -/
def fillCarrier (u : KeyUnmarshal) (c : BufferCarrier) (tail : List UInt8) :
    Except Fault (KeyUnmarshal × BufferCarrier) := do
  assert c.buf_.isNone
  if u.error_ then
    return (u, c)
  let (u, len) ← u.processInt 8
  if u.cur_ + len > u.buf_len_ then
    return (u.signalError, c)
  let bytes ← readBytes (some u.pointee) len.toNat
  return ((u.skip len).border, c.setBuf (some (bytes ++ tail)) (len + .ofNat tail.length).toNat)

/-- `process(name, carrier)`. -/
def processCarrier (u : KeyUnmarshal) (c : BufferCarrier) :
    Except Fault (KeyUnmarshal × BufferCarrier) :=
  u.fillCarrier c []

/-- `process(name, carrier, terminator)`. -/
def processTerminated (u : KeyUnmarshal) (c : BufferCarrier) (terminator : UInt8) :
    Except Fault (KeyUnmarshal × BufferCarrier) :=
  u.fillCarrier c [terminator]

/-- `process(name, std::string*)`. -/
def processString (u : KeyUnmarshal) (s : List UInt8) :
    Except Fault (KeyUnmarshal × List UInt8) := do
  if u.error_ then
    return (u, s)
  let (u, len) ← u.processInt 8
  if u.error_ then
    return (u, s)
  let s ← readBytes (some u.pointee) len.toNat
  return ((u.skip len).border, s)

/-- `process(name, object)`, given what the object processes. -/
def processObject {α : Type} (u : KeyUnmarshal) (x : α)
    (serialize : KeyUnmarshal → Except Fault (KeyUnmarshal × α)) :
    Except Fault (KeyUnmarshal × α) :=
  if u.error_ then return (u, x)
  else do
    let (u, x) ← serialize { u with error_ := false }
    return (u.border, x)

mutual

def process (u : KeyUnmarshal) : Field → Except Fault (KeyUnmarshal × Field)
  | .fixed x => do
    let (u, x) ← u.processFixed x
    return (u, .fixed x)
  | .carrier c => do
    let (u, c) ← u.processCarrier c
    return (u, .carrier c)
  | .terminated c terminator => do
    let (u, c) ← u.processTerminated c terminator
    return (u, .terminated c terminator)
  | .string s => do
    let (u, s) ← u.processString s
    return (u, .string s)
  | .object fields => do
    let (u, fields) ← u.processObject fields fun u => processAll u fields
    return (u, .object fields)
  | .vector builder elems => do
    let (u, elems) ← u.processObject elems fun u => do
      let (u, sz) ← u.processInt 8
      let sz := if u.error_ then .ofNat elems.length else sz
      let (u, new) ← processEach (fun u => process u builder) sz.toNat u.border
      assert ((elems ++ new).length = sz.toNat)
      return (u, elems ++ new)
    return (u, .vector builder elems)

/-- The `serialize` of an object: `process` on its fields, one after another. -/
def processAll (u : KeyUnmarshal) :
    SerializableObject → Except Fault (KeyUnmarshal × SerializableObject)
  | [] => return (u, [])
  | f :: o => do
    let (u, f) ← process u f
    let (u, o) ← processAll u o
    return (u, f :: o)

end

def action (u : KeyUnmarshal) (o : SerializableObject) :
    Except Fault (Int × KeyUnmarshal × SerializableObject) := do
  let (u, o) ← processAll { u with error_ := false } o
  return (if u.error_ then -1 else 0, u, o)

end KeyUnmarshal

end Oasys
