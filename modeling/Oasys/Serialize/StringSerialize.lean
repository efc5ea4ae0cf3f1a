import Oasys.Serialize.Value
import Oasys.Util.StringBuffer

/-!
# StringSerialize

The action of `serialize/StringSerialize.cc`, which writes the fields of an object as text,
each followed by the separator, and takes the last separator off at the end. No `process`
signals an error, so `action` returns 0 where it returns.

`MemoryTable` and `DurableObjectCache` look an object up under the text that this action
makes of its key.
-/

namespace Oasys

/-- The options. -/
structure StringSerialize.Options where
  INCLUDE_NAME : Bool
  INCLUDE_TYPE : Bool
  SCHEMA_ONLY : Bool
  DOT_SEPARATED : Bool
  deriving DecidableEq, Repr

structure StringSerialize where
  options_ : StringSerialize.Options
  buf_ : StringBuffer
  sep_ : UInt8
  deriving DecidableEq, Repr

namespace StringSerialize

/-- The constructor. The buffer is one of 256 bytes. -/
def new (options : Options) : Except Fault StringSerialize := do
  let buf_ ← StringBuffer.new 256
  return { options_ := options, buf_ := buf_, sep_ := if options.DOT_SEPARATED then 46 else 32 }

/-- `buf_.append(str)` for a text, which has a zero behind it. -/
def appendText (b : StringBuffer) (str : List UInt8) : Except Fault StringBuffer :=
  b.append (str ++ [0]) 0

def addPreamble (s : StringSerialize) (name type : List UInt8) :
    Except Fault StringSerialize := do
  let b ← if s.options_.INCLUDE_NAME then do
      let b ← appendText s.buf_ name
      b.appendChar s.sep_
    else pure s.buf_
  let b ← if s.options_.INCLUDE_TYPE then do
      let b ← appendText b type
      b.appendChar s.sep_
    else pure b
  return { s with buf_ := b }

/-- What every `process` does: the preamble, and the value with a separator behind it. -/
def processWith (s : StringSerialize) (name type : List UInt8)
    (append : StringBuffer → Except Fault StringBuffer) : Except Fault StringSerialize := do
  let s ← s.addPreamble name type
  if s.options_.SCHEMA_ONLY then
    return s
  let b ← append s.buf_
  let b ← b.appendChar s.sep_
  return { s with buf_ := b }

/-- The names of the integer types. -/
def intType : IntKind → List UInt8
  | .u64 | .i64 => ascii "u_int64_t"
  | .u32 | .i32 => ascii "u_int32_t"
  | .u16 | .i16 => ascii "u_int16_t"
  | .u8 | .i8 => ascii "u_int8_t"

/-- `process` for an integer, of which a signed one is cast first. -/
def processInt (s : StringSerialize) (name : List UInt8) (i : Integer) :
    Except Fault StringSerialize :=
  s.processWith name (intType i.kind) (·.appendInt (.ofNat i.cast) 10)

/-- `process(name, bool*)`. -/
def processBool (s : StringSerialize) (name : List UInt8) (b : Bool) :
    Except Fault StringSerialize :=
  s.processWith name (ascii "bool") fun buf_ =>
    if b then buf_.append (ascii "true" ++ [0]) 4 else buf_.append (ascii "false" ++ [0]) 5

/-- `process(name, u_char*, len)`. -/
def processBuf (s : StringSerialize) (name : List UInt8) (bp : FixedBuffer) :
    Except Fault StringSerialize :=
  s.processWith name (ascii "char_buf") (·.append bp.bytes bp.bytes.length)

/-- `process(name, std::string*)`. There is a zero behind the bytes of a string. -/
def processString (s : StringSerialize) (name : List UInt8) (str : List UInt8) :
    Except Fault StringSerialize :=
  s.processWith name (ascii "string") (·.append (str ++ [0]) str.length)

/-- `process(name, carrier)`. -/
def processCarrier (s : StringSerialize) (name : List UInt8) (carrier : BufferCarrier) :
    Except Fault StringSerialize :=
  s.processWith name (ascii "char_buf_var") fun buf_ =>
    match carrier.buf_ with
    | none => throw .nullDeref
    | some mem => buf_.append mem carrier.len_

/-- `process(name, carrier, terminator)`. The loop looks for the terminator. -/
def processTerminated (s : StringSerialize) (name : List UInt8) (carrier : BufferCarrier)
    (terminator : UInt8) : Except Fault StringSerialize :=
  s.processWith name (ascii "char_buf_var") fun buf_ =>
    match carrier.buf_ with
    | none => throw .nullDeref
    | some mem =>
      if terminator ∈ mem then buf_.append mem (mem.idxOf terminator) else throw .outOfBounds

/-- The calls of `process` that the action does itself. -/
def processBasic (s : StringSerialize) (name : List UInt8) : Basic → Except Fault StringSerialize
  | .int i => s.processInt name i
  | .bool b => s.processBool name b
  | .buf bp => s.processBuf name bp
  | .carrier c => s.processCarrier name c
  | .terminated c terminator => s.processTerminated name c terminator
  | .string str => s.processString name str

mutual

def process (s : StringSerialize) (name : List UInt8) : Value → Except Fault StringSerialize
  | .basic x => s.processBasic name x
  | .object fields => serialize s fields
  | .vector _ elems => do
    let s ← s.processInt (ascii "size") (.size elems.length)
    processElems s elems

/-- `serialize` of an object. -/
def serialize (s : StringSerialize) : NamedObject → Except Fault StringSerialize
  | [] => return s
  | (name, v) :: o => do
    let s ← process s name v
    serialize s o

/-- The loop of `SerializableVector::serialize` over the elements. -/
def processElems (s : StringSerialize) : List Value → Except Fault StringSerialize
  | [] => return s
  | e :: elems => do
    let s ← process s (ascii "element") e
    processElems s elems

end

def endAction (s : StringSerialize) : Except Fault StringSerialize := do
  -- trim trailing separator
  if s.buf_.length ≠ 0 then
    let b ← s.buf_.trim 1
    return { s with buf_ := b }
  return s

def action (s : StringSerialize) (o : NamedObject) : Except Fault StringSerialize := do
  let s ← s.serialize o
  s.endAction

/-- The key that `MemoryTable` and, in `get_cache_key`, `DurableObjectCache` make of an
    object. -/
def tableKey (key : NamedObject) : Except Fault (List UInt8) := do
  let s ← new {
    INCLUDE_NAME := false
    INCLUDE_TYPE := false
    SCHEMA_ONLY := false
    DOT_SEPARATED := true }
  let s ← s.action key
  let data ← s.buf_.data
  return data.take s.buf_.length

end StringSerialize

end Oasys
