import Oasys.Serialize.MarshalSerialize

/-!
# StreamSerialize

`StreamSerialize` and `StreamUnserialize` of `serialize/StreamSerialize.cc`, on the streams of
`io/ByteStream.h`. What the calls of a stream to come do is part of the stream: each one works, or
it fails after some of the bytes. The results of `begin` and `end` are ignored by both actions, and
memory is taken not to run out.

An action keeps the events of its run: a value has been written or assigned, or a call of its
stream has failed.
-/

namespace Oasys

/-- What happens in a run of an action. -/
inductive StreamEvent where
  /-- A value was written to the stream, or assigned. -/
  | done
  /-- A call of the stream did not return 0. -/
  | failed
  deriving DecidableEq, Repr

/-! ### StreamSerialize -/

/-- An `OutByteStream`: what it has taken, and the writes to come, where `none` is one that
    returns 0 and `some k` is one that fails after `k` bytes. -/
structure OutByteStream where
  data : List UInt8
  writes : Nat → Option Nat

def OutByteStream.write (s : OutByteStream) (buf : List UInt8) : Int × OutByteStream :=
  let writes := fun n => s.writes (n + 1)
  match s.writes 0 with
  | none => (0, { data := s.data ++ buf, writes })
  | some k => (-1, { data := s.data ++ buf.take k, writes })

structure StreamSerialize where
  error_ : Bool
  stream_ : OutByteStream
  events : List StreamEvent

namespace StreamSerialize

def new (stream_ : OutByteStream) : StreamSerialize := { error_ := false, stream_, events := [] }

/-- What every `process` does that writes: unless there was an error, write `bytes`. -/
def put (a : StreamSerialize) (bytes : Except Fault (List UInt8)) :
    Except Fault StreamSerialize :=
  if a.error_ then return a
  else do
    let (err, stream_) := a.stream_.write (← bytes)
    if err ≠ 0 then return { error_ := true, stream_, events := a.events ++ [.failed] }
    else return { a with stream_, events := a.events ++ [.done] }

/-- `process(name, u_int64_t*)`. -/
def processU64 (a : StreamSerialize) (i : UInt64) : Except Fault StreamSerialize :=
  a.put (.ok [((i >>> 56) &&& 0xff).toUInt8, ((i >>> 48) &&& 0xff).toUInt8,
    ((i >>> 40) &&& 0xff).toUInt8, ((i >>> 32) &&& 0xff).toUInt8, ((i >>> 24) &&& 0xff).toUInt8,
    ((i >>> 16) &&& 0xff).toUInt8, ((i >>> 8) &&& 0xff).toUInt8, (i &&& 0xff).toUInt8])

/-- `process(name, u_int32_t*)`. -/
def processU32 (a : StreamSerialize) (i : UInt32) : Except Fault StreamSerialize :=
  a.put (.ok [((i >>> 24) &&& 0xff).toUInt8, ((i >>> 16) &&& 0xff).toUInt8,
    ((i >>> 8) &&& 0xff).toUInt8, (i &&& 0xff).toUInt8])

/-- `process(name, u_int16_t*)`. -/
def processU16 (a : StreamSerialize) (i : UInt16) : Except Fault StreamSerialize :=
  a.put (.ok [((i >>> 8) &&& 0xff).toUInt8, (i &&& 0xff).toUInt8])

/-- `process(name, u_int8_t*)`. -/
def processU8 (a : StreamSerialize) (i : UInt8) : Except Fault StreamSerialize := a.put (.ok [i])

/-- `process(name, bool*)`. -/
def processBool (a : StreamSerialize) (b : Bool) : Except Fault StreamSerialize :=
  a.put (.ok [if b then 1 else 0])

/-- `process(name, u_char*, len)`. -/
def processBuf (a : StreamSerialize) (bp : Option (List UInt8)) (len : UInt32) :
    Except Fault StreamSerialize :=
  a.put (readBytes bp len.toNat)

/-- The calls of `process` for values that take a fixed number of bytes. -/
def processFixed (a : StreamSerialize) : FixedField → Except Fault StreamSerialize
  | .u64 i => a.processU64 i
  | .u32 i => a.processU32 i
  | .u16 i => a.processU16 i
  | .u8 i => a.processU8 i
  | .bool b => a.processBool b
  | .buf bp => a.processBuf (some bp.bytes) (.ofNat bp.bytes.length)

/-- `process(name, carrier)`. -/
def processCarrier (a : StreamSerialize) (c : BufferCarrier) : Except Fault StreamSerialize := do
  let len := UInt32.ofNat c.len_
  let a ← a.processU32 len
  a.processBuf c.buf_ len

/-- `process(name, carrier, terminator)`. The count of the loop is a `u_int32_t`, and the loop
    does not end where it wraps around before the terminator. -/
def processTerminated (a : StreamSerialize) (c : BufferCarrier) (terminator : UInt8) :
    Except Fault (StreamSerialize × BufferCarrier) := do
  match c.buf_ with
  | none => throw .nullDeref
  | some buf =>
    let len ← Marshal.findTerminator terminator buf
    if 2 ^ 32 ≤ len then
      throw .outOfFuel
    let c := c.setLen (UInt32.ofNat len + 1).toNat -- also store the terminator
    let a ← a.processCarrier c
    return (a, c)

/-- `process(name, std::string*)`. -/
def processString (a : StreamSerialize) (s : List UInt8) : Except Fault StreamSerialize :=
  if a.error_ then return a
  else do
    let len := UInt32.ofNat s.length
    let a ← a.processU32 len
    if a.error_ then return a
    else a.put (readBytes (some s) len.toNat)

mutual

def process (a : StreamSerialize) : Field → Except Fault (StreamSerialize × Field)
  | .fixed x => do
    let a ← a.processFixed x
    return (a, .fixed x)
  | .carrier c => do
    let a ← a.processCarrier c
    return (a, .carrier c)
  | .terminated c terminator => do
    let (a, c) ← a.processTerminated c terminator
    return (a, .terminated c terminator)
  | .string s => do
    let a ← a.processString s
    return (a, .string s)
  | .object fields => do
    let (a, fields) ← processAll a fields
    return (a, .object fields)
  | .vector builder elems => do
    let a ← a.processU32 (.ofNat elems.length)
    let (a, elems) ← processAll a elems
    return (a, .vector builder elems)

/-- The `serialize` of an object: `process` on its fields, one after another. -/
def processAll (a : StreamSerialize) :
    SerializableObject → Except Fault (StreamSerialize × SerializableObject)
  | [] => return (a, [])
  | f :: o => do
    let (a, f) ← process a f
    let (a, o) ← processAll a o
    return (a, f :: o)

end

def action (a : StreamSerialize) (o : SerializableObject) :
    Except Fault (Int × StreamSerialize × SerializableObject) := do
  let (a, o) ← processAll { a with error_ := false } o
  return (if a.error_ then -1 else 0, a, o)

end StreamSerialize

/-! ### StreamUnserialize -/

/-- An `InByteStream`: what is left of it, and the reads to come, where `none` is one that
    returns 0 if as many bytes are left as it is asked for, and `some k` is one that fails after
    `k` bytes. -/
structure InByteStream where
  left : List UInt8
  reads : Nat → Option Nat

/-- `read`: its result, and the bytes it stores. -/
def InByteStream.read (s : InByteStream) (len : Nat) : Int × List UInt8 × InByteStream :=
  let reads := fun n => s.reads (n + 1)
  match s.reads 0 with
  | none =>
    (if len ≤ s.left.length then 0 else -1, s.left.take len, { left := s.left.drop len, reads })
  | some k => (-1, s.left.take (min k len), { left := s.left.drop (min k len), reads })

structure StreamUnserialize where
  error_ : Bool
  stream_ : InByteStream
  events : List StreamEvent
  /-- The values that the uninitialised locals still to come hold. -/
  uninitialised : Nat → UInt32

namespace StreamUnserialize

def new (stream_ : InByteStream) (uninitialised : Nat → UInt32) : StreamUnserialize :=
  { error_ := false, stream_, events := [], uninitialised }

/-- The declaration of a local that is not initialised. -/
def newLocal (u : StreamUnserialize) : UInt32 × StreamUnserialize :=
  (u.uninitialised 0, { u with uninitialised := fun n => u.uninitialised (n + 1) })

/-- A read of `len` bytes: if it returns 0 the value becomes what `load` makes of them, and
    otherwise an error is signalled and the value becomes what `short` makes of those that it has
    stored. -/
def read {α : Type} (u : StreamUnserialize) (len : Nat) (load short : List UInt8 → α) :
    StreamUnserialize × α :=
  let (err, buf, stream_) := u.stream_.read len
  if err ≠ 0 then
    ({ u with error_ := true, stream_, events := u.events ++ [.failed] }, short buf)
  else ({ u with stream_, events := u.events ++ [.done] }, load buf)

/-- What `process` does for a value in `len` bytes: unless there was an error, read it. -/
def get {α : Type} (u : StreamUnserialize) (len : Nat) (x : α) (load : List UInt8 → α) :
    StreamUnserialize × α :=
  if u.error_ then (u, x) else u.read len load fun _ => x

/-! What is made of the bytes that are read. -/

def loadU64 (buf : List UInt8) : UInt64 :=
  (buf.getD 0 0).toUInt64 <<< 56 ||| (buf.getD 1 0).toUInt64 <<< 48 |||
    (buf.getD 2 0).toUInt64 <<< 40 ||| (buf.getD 3 0).toUInt64 <<< 32 |||
    (buf.getD 4 0).toUInt64 <<< 24 ||| (buf.getD 5 0).toUInt64 <<< 16 |||
    (buf.getD 6 0).toUInt64 <<< 8 ||| (buf.getD 7 0).toUInt64

def loadU32 (buf : List UInt8) : UInt32 :=
  (buf.getD 0 0).toUInt32 <<< 24 ||| (buf.getD 1 0).toUInt32 <<< 16 |||
    (buf.getD 2 0).toUInt32 <<< 8 ||| (buf.getD 3 0).toUInt32

def loadU16 (buf : List UInt8) : UInt16 :=
  (buf.getD 0 0).toUInt16 <<< 8 ||| (buf.getD 1 0).toUInt16

/-- The bytes of a buffer after `read` has stored some of them. -/
def loadBuf (bp : FixedBuffer) (buf : List UInt8) : FixedBuffer :=
  ⟨(buf ++ bp.bytes.drop buf.length).take bp.bytes.length,
    Nat.lt_of_le_of_lt (List.length_take_le ..) bp.fits⟩

/-- `process(name, u_int64_t*)`. -/
def processU64 (u : StreamUnserialize) (i : UInt64) : StreamUnserialize × UInt64 :=
  u.get 8 i loadU64

/-- `process(name, u_int32_t*)`. -/
def processU32 (u : StreamUnserialize) (i : UInt32) : StreamUnserialize × UInt32 :=
  u.get 4 i loadU32

/-- `process(name, u_int16_t*)`. -/
def processU16 (u : StreamUnserialize) (i : UInt16) : StreamUnserialize × UInt16 :=
  u.get 2 i loadU16

/-- `process(name, u_int8_t*)`. -/
def processU8 (u : StreamUnserialize) (i : UInt8) : StreamUnserialize × UInt8 :=
  u.get 1 i fun buf => buf.getD 0 0

/-- `process(name, bool*)`. -/
def processBool (u : StreamUnserialize) (b : Bool) : StreamUnserialize × Bool :=
  u.get 1 b fun buf => buf.getD 0 0 != 0

/-- `process(name, u_char*, len)`, where `len` is the length of the buffer. The stream stores the
    bytes in the buffer itself. -/
def processBuf (u : StreamUnserialize) (bp : FixedBuffer) : StreamUnserialize × FixedBuffer :=
  if u.error_ then (u, bp) else u.read bp.bytes.length (loadBuf bp) (loadBuf bp)

/-- The calls of `process` for values that take a fixed number of bytes. -/
def processFixed (u : StreamUnserialize) : FixedField → StreamUnserialize × FixedField
  | .u64 i => (u.processU64 i).map id .u64
  | .u32 i => (u.processU32 i).map id .u32
  | .u16 i => (u.processU16 i).map id .u16
  | .u8 i => (u.processU8 i).map id .u8
  | .bool b => (u.processBool b).map id .bool
  | .buf bp => (u.processBuf bp).map id .buf

/-- `process(name, carrier)`. There is no check of `error()`. -/
def processCarrier (u : StreamUnserialize) (c : BufferCarrier) :
    StreamUnserialize × BufferCarrier :=
  let (len, u) := u.newLocal
  let (u, len) := u.processU32 len
  u.read len.toNat (fun buf => c.setBuf (some buf) len.toNat) fun _ => c

/-- `process(name, carrier, terminator)`. -/
def processTerminated (u : StreamUnserialize) (c : BufferCarrier) (_terminator : UInt8) :
    StreamUnserialize × BufferCarrier :=
  u.processCarrier c

/-- `process(name, std::string*)`. -/
def processString (u : StreamUnserialize) (s : List UInt8) : StreamUnserialize × List UInt8 :=
  if u.error_ then (u, s)
  else
    let (len, u) := u.newLocal
    let (u, len) := u.processU32 len
    if u.error_ then (u, s) else u.read len.toNat id fun _ => s

mutual

def process (u : StreamUnserialize) : Field → Except Fault (StreamUnserialize × Field)
  | .fixed x =>
    let (u, x) := u.processFixed x
    return (u, .fixed x)
  | .carrier c =>
    let (u, c) := u.processCarrier c
    return (u, .carrier c)
  | .terminated c terminator =>
    let (u, c) := u.processTerminated c terminator
    return (u, .terminated c terminator)
  | .string s =>
    let (u, s) := u.processString s
    return (u, .string s)
  | .object fields => do
    let (u, fields) ← processAll u fields
    return (u, .object fields)
  | .vector builder elems => do
    let (u, sz) := u.processU32 (.ofNat elems.length)
    let (u, new) ← processEach (fun u => process u builder) sz.toNat u
    assert ((elems ++ new).length = sz.toNat)
    return (u, .vector builder (elems ++ new))

/-- The `serialize` of an object: `process` on its fields, one after another. -/
def processAll (u : StreamUnserialize) :
    SerializableObject → Except Fault (StreamUnserialize × SerializableObject)
  | [] => return (u, [])
  | f :: o => do
    let (u, f) ← process u f
    let (u, o) ← processAll u o
    return (u, f :: o)

end

def action (u : StreamUnserialize) (o : SerializableObject) :
    Except Fault (Int × StreamUnserialize × SerializableObject) := do
  let (u, o) ← processAll { u with error_ := false } o
  return (if u.error_ then -1 else 0, u, o)

end StreamUnserialize

end Oasys
