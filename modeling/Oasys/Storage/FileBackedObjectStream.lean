import Oasys.Serialize.StreamSerialize
import Oasys.Storage.FileBackedObject

/-!
# FileBackedObjectStream

`FileBackedObjectOutStream` of `storage/FileBackedObjectStream.cc`, and `serialize` of
`FileBackedObject`, which runs a `StreamSerialize` on one. The `write` of this stream
returns 0 or fails an assertion, so the action hands it the buffers that any stream without
errors gets, one after the other. `FileBackedObjectInStream` and `unserialize`, which runs a
`StreamUnserialize` on one, read by read.
-/

namespace Oasys

namespace StreamSerialize

/-! ### The buffers of an action -/

/-- What a call that writes once hands to its stream. -/
def handed (call : StreamSerialize → Except Fault StreamSerialize) : Except Fault (List UInt8) := do
  let a ← call (new ⟨[], fun _ => none⟩)
  pure a.stream_.data

/-- `process(name, carrier)`. -/
def carrierBuffers (c : BufferCarrier) : Except Fault (List (List UInt8)) := do
  let len := UInt32.ofNat c.len_
  let length ← handed fun a => a.processU32 len
  let buf ← handed fun a => a.processBuf c.buf_ len
  return [length, buf]

/-- `process(name, carrier, terminator)`. -/
def terminatedBuffers (c : BufferCarrier) (terminator : UInt8) :
    Except Fault (List (List UInt8) × BufferCarrier) := do
  match c.buf_ with
  | none => throw .nullDeref
  | some buf =>
    let len ← Marshal.findTerminator terminator buf
    if 2 ^ 32 ≤ len then
      throw .outOfFuel
    let c := c.setLen (UInt32.ofNat len + 1).toNat
    let bufs ← carrierBuffers c
    return (bufs, c)

/-- `process(name, std::string*)`. -/
def stringBuffers (s : List UInt8) : Except Fault (List (List UInt8)) := do
  let len := UInt32.ofNat s.length
  let length ← handed fun a => a.processU32 len
  let buf ← readBytes (some s) len.toNat
  return [length, buf]

mutual

/-- The buffers that one call of `process` hands to a stream without errors, and the field
    afterwards. -/
def buffers : Field → Except Fault (List (List UInt8) × Field)
  | .fixed x => do
    let buf ← handed fun a => a.processFixed x
    return ([buf], .fixed x)
  | .carrier c => do
    let bufs ← carrierBuffers c
    return (bufs, .carrier c)
  | .terminated c terminator => do
    let (bufs, c) ← terminatedBuffers c terminator
    return (bufs, .terminated c terminator)
  | .string s => do
    let bufs ← stringBuffers s
    return (bufs, .string s)
  | .object fields => do
    let (bufs, fields) ← buffersAll fields
    return (bufs, .object fields)
  | .vector builder elems => do
    let size ← handed fun a => a.processU32 (.ofNat elems.length)
    let (bufs, elems) ← buffersAll elems
    return (size :: bufs, .vector builder elems)

/-- The buffers of an object, field by field. -/
def buffersAll : SerializableObject → Except Fault (List (List UInt8) × SerializableObject)
  | [] => return ([], [])
  | f :: o => do
    let (bufs, f) ← buffers f
    let (rest, o) ← buffersAll o
    return (bufs ++ rest, f :: o)

end

end StreamSerialize

open FileSystem

/-- A `FileBackedObjectOutStream` on an object, with the files. -/
structure FileBackedObjectOutStream where
  fs : FileSystem String
  object_ : FileBackedObject
  offset_ : Nat

/-- `write`. That `write_bytes` takes the whole buffer is its own assertion too. -/
def FileBackedObjectOutStream.write (s : FileBackedObjectOutStream) (buf : List UInt8) :
    Except Fault FileBackedObjectOutStream := do
  let (fs, object_) ← s.object_.writeBytes s.fs s.offset_ buf
  pure { fs, object_, offset_ := (s.offset_ + buf.length) % 2 ^ 64 }

namespace FileBackedObject

def size (fs : FileSystem String) (o : FileBackedObject) : Except Fault Nat :=
  match fs.size o.filename_ with
  | none => throw .assertFailed
  | some size => pure size

/-- The seek of `serialize`. Unlike `seekTo` it takes the result of `lseek` for the offset,
    a `-1` for a failure included. -/
def serializeSeek (fs : FileSystem String) (o : FileBackedObject) (fd abs_offset : Nat) :
    Except Fault (FileSystem String × FileBackedObject) :=
  if abs_offset = o.cur_offset_ then pure (fs, o)
  else if abs_offset < maxOffset then
    match fs.seek fd abs_offset with
    | none => throw .assertFailed
    | some fs => pure (fs, { o with cur_offset_ := abs_offset })
  else do
    let size ← o.size fs
    pure (fs, { o with cur_offset_ := if size = 0 then 0 else 2 ^ 64 - 1 })

/-- `serialize`, with its result and the object that it has serialized. -/
def serialize (fs : FileSystem String) (o : FileBackedObject) (obj : SerializableObject)
    (offset : Int) :
    Except Fault (Int × SerializableObject × FileSystem String × FileBackedObject) := do
  let (fs, o) ← openScope fs o
  let (fd, fs, o) ← openFd fs o
  let size ← o.size fs
  -- the sum is a `size_t`
  let abs_offset := ((size + offset) % 2 ^ 64).toNat
  let (fs, o) ← serializeSeek fs o fd abs_offset
  let (bufs, obj) ← StreamSerialize.buffersAll obj
  let stream ← bufs.foldlM FileBackedObjectOutStream.write
    { fs, object_ := o, offset_ := o.cur_offset_ }
  pure (0, obj, closeScope stream.fs stream.object_)

end FileBackedObject

/-! ### Unserializing -/

/-- A `FileBackedObjectInStream` on an object, with the files. -/
structure FileBackedObjectInStream where
  fs : FileSystem String
  object_ : FileBackedObject
  offset_ : Nat

/-- `read`: its result, and the bytes it stores. -/
def FileBackedObjectInStream.read (s : FileBackedObjectInStream) (len : Nat) :
    Except Fault (Int × List UInt8 × FileBackedObjectInStream) := do
  let (buf, fs, object_) ← s.object_.readBytes s.fs s.offset_ len
  let s := { fs, object_, offset_ := (s.offset_ + len) % 2 ^ 64 }
  assert (len = buf.length)
  pure (0, buf, s)

/-- A `StreamUnserialize` on such a stream. -/
structure FileUnserialize where
  error_ : Bool
  stream_ : FileBackedObjectInStream
  /-- The values that the uninitialised locals still to come hold. -/
  uninitialised : Nat → UInt32

namespace FileUnserialize

open StreamUnserialize (loadU64 loadU32 loadU16 loadBuf)

/-- The declaration of a local that is not initialised. -/
def newLocal (u : FileUnserialize) : UInt32 × FileUnserialize :=
  (u.uninitialised 0, { u with uninitialised := fun n => u.uninitialised (n + 1) })

/-- A read of `len` bytes: if it returns 0 the value becomes what `load` makes of them, and
    otherwise an error is signalled and the value becomes what `short` makes of those that it has
    stored. -/
def read {α : Type} (u : FileUnserialize) (len : Nat) (load short : List UInt8 → α) :
    Except Fault (FileUnserialize × α) := do
  let (err, buf, stream_) ← u.stream_.read len
  if err ≠ 0 then pure ({ u with error_ := true, stream_ }, short buf)
  else pure ({ u with stream_ }, load buf)

/-- What `process` does for a value in `len` bytes: unless there was an error, read it. -/
def get {α : Type} (u : FileUnserialize) (len : Nat) (x : α) (load : List UInt8 → α) :
    Except Fault (FileUnserialize × α) :=
  if u.error_ then pure (u, x) else u.read len load fun _ => x

/-- `process(name, u_int32_t*)`. -/
def processU32 (u : FileUnserialize) (i : UInt32) : Except Fault (FileUnserialize × UInt32) :=
  u.get 4 i loadU32

/-- `process(name, u_char*, len)`, where `len` is the length of the buffer. -/
def processBuf (u : FileUnserialize) (bp : FixedBuffer) :
    Except Fault (FileUnserialize × FixedBuffer) :=
  if u.error_ then pure (u, bp) else u.read bp.bytes.length (loadBuf bp) (loadBuf bp)

/-- The calls of `process` for values that take a fixed number of bytes. -/
def processFixed (u : FileUnserialize) :
    FixedField → Except Fault (FileUnserialize × FixedField)
  | .u64 i => .map id .u64 <$> u.get 8 i loadU64
  | .u32 i => .map id .u32 <$> u.processU32 i
  | .u16 i => .map id .u16 <$> u.get 2 i loadU16
  | .u8 i => .map id .u8 <$> u.get 1 i fun buf => buf.getD 0 0
  | .bool b => .map id .bool <$> u.get 1 b fun buf => buf.getD 0 0 != 0
  | .buf bp => .map id .buf <$> u.processBuf bp

/-- `process(name, carrier)`. There is no check of `error()`. -/
def processCarrier (u : FileUnserialize) (c : BufferCarrier) :
    Except Fault (FileUnserialize × BufferCarrier) := do
  let (len, u) := u.newLocal
  let (u, len) ← u.processU32 len
  u.read len.toNat (fun buf => c.setBuf (some buf) len.toNat) fun _ => c

/-- `process(name, carrier, terminator)`. -/
def processTerminated (u : FileUnserialize) (c : BufferCarrier) (_terminator : UInt8) :
    Except Fault (FileUnserialize × BufferCarrier) :=
  u.processCarrier c

/-- `process(name, std::string*)`. -/
def processString (u : FileUnserialize) (s : List UInt8) :
    Except Fault (FileUnserialize × List UInt8) :=
  if u.error_ then pure (u, s)
  else do
    let (len, u) := u.newLocal
    let (u, len) ← u.processU32 len
    if u.error_ then pure (u, s) else u.read len.toNat id fun _ => s

mutual

def process (u : FileUnserialize) : Field → Except Fault (FileUnserialize × Field)
  | .fixed x => .map id .fixed <$> u.processFixed x
  | .carrier c => .map id .carrier <$> u.processCarrier c
  | .terminated c terminator =>
    .map id (.terminated · terminator) <$> u.processTerminated c terminator
  | .string s => .map id .string <$> u.processString s
  | .object fields => .map id .object <$> processAll u fields
  | .vector builder elems => do
    let (u, sz) ← u.processU32 (.ofNat elems.length)
    let (u, new) ← processEach (fun u => process u builder) sz.toNat u
    assert ((elems ++ new).length = sz.toNat)
    return (u, .vector builder (elems ++ new))

/-- The `serialize` of an object: `process` on its fields, one after another. -/
def processAll (u : FileUnserialize) :
    SerializableObject → Except Fault (FileUnserialize × SerializableObject)
  | [] => return (u, [])
  | f :: o => do
    let (u, f) ← process u f
    let (u, o) ← processAll u o
    return (u, f :: o)

end

def action (u : FileUnserialize) (o : SerializableObject) :
    Except Fault (Int × FileUnserialize × SerializableObject) := do
  let (u, o) ← processAll { u with error_ := false } o
  return (if u.error_ then -1 else 0, u, o)

end FileUnserialize

namespace FileBackedObject

/-- `unserialize`, with its result and the object that it has unserialized. -/
def unserialize (fs : FileSystem String) (o : FileBackedObject) (obj : SerializableObject)
    (uninitialised : Nat → UInt32) :
    Except Fault (Int × SerializableObject × FileSystem String × FileBackedObject) := do
  let stream : FileBackedObjectInStream := { fs, object_ := o, offset_ := 0 }
  let serial : FileUnserialize := { error_ := false, stream_ := stream, uninitialised }
  let (ret, serial, obj) ← serial.action obj
  pure (ret, obj, serial.stream_.fs, serial.stream_.object_)

end FileBackedObject

end Oasys
