import Oasys.Serialize.KeySerialize
import Oasys.Serialize.Value

/-!
# StringPairSerialize

`StringPairSerialize::Marshal` and `Unmarshal` of `serialize/StringPairSerialize.cc`: every
field becomes a pair of its name and a text, and is looked up by its name again. Messages are
left out.

An action takes an object and returns it as the action leaves it: `Marshal` sets the length
of the carriers it looks for a terminator in, and `Unmarshal` fills in the fields, with
whether it has called `signal_error`. `atoi` is that of a library where it is `strtol` and a
conversion to `int`, and `malloc` is taken to succeed for any size that is not a negative
`int`.
-/

namespace Oasys

abbrev StringPair := List UInt8 × List UInt8

/-- `c_str`, read as a string: what stands before the first zero. -/
def cStr (s : List UInt8) : List UInt8 := s.takeWhile (· ≠ 0)

/-- `strchr`: where the character is, or null. -/
def strchr : List UInt8 → UInt8 → Except Fault (Option Nat)
  | [], _ => throw .outOfBounds
  | b :: mem, c =>
    if b = c then return some 0
    else if b = 0 then return none
    else do
      let p ← strchr mem c
      return p.map (· + 1)

/-- `strtoll` with base 10, which `strtol` does not differ from. -/
def strtoll (nptr : List UInt8) : Int :=
  let (neg, text) := skipSign (nptr.dropWhile isspace)
  let n : Int := Decimal.value text
  max (-2 ^ 63) (min (if neg then -n else n) (2 ^ 63 - 1))

def atoll (nptr : List UInt8) : Int := strtoll nptr

def atoi (nptr : List UInt8) : Int := IntType.int.conv (strtoll nptr)

/-! ### Marshal -/

namespace StringPairMarshal

/-- What `snprintf` writes: `%d` in the overloads for `int32_t`, `int16_t` and `int8_t`, and
    `%llu` or `%u` in the others, which get an `int64_t` cast. -/
def formatInt (i : Integer) : List UInt8 :=
  match i.kind with
  | .i32 | .i16 | .i8 =>
    if i.val < 0 then 45 :: Decimal.digits i.val.natAbs else Decimal.digits i.val.natAbs
  | _ => Decimal.digits i.cast

/-- `process(name, carrier)`: the text, which is hexadecimal. -/
def formatCarrier (c : BufferCarrier) : Except Fault (List UInt8) := do
  let bytes ← readBytes c.buf_ c.len_
  return hex2str bytes

/-- The calls of `process` that the action does itself. -/
def processBasic (rep_ : List StringPair) (name : List UInt8) :
    Basic → Except Fault (List StringPair × Basic)
  | .int i => return (rep_ ++ [(name, formatInt i)], .int i)
  | .bool b => return (rep_ ++ [(name, ascii (if b then "TRUE" else "FALSE"))], .bool b)
  | .string s => return (rep_ ++ [(name, s)], .string s)
  | .buf bp => return (rep_ ++ [(name, hex2str bp.bytes)], .buf bp)
  | .carrier c => do
    let text ← formatCarrier c
    return (rep_ ++ [(name, text)], .carrier c)
  | .terminated c terminator => do
    match c.buf_ with
    | none => throw .nullDeref
    | some mem =>
      let p ← strchr mem terminator
      let c := c.setLen (p.getD 0)
      let text ← formatCarrier c
      return (rep_ ++ [(name, text)], .terminated c terminator)

mutual

def process (rep_ : List StringPair) (name : List UInt8) :
    Value → Except Fault (List StringPair × Value)
  | .basic x => do
    let (rep_, x) ← processBasic rep_ name x
    return (rep_, .basic x)
  | .object fields => do
    let (rep_, fields) ← serialize rep_ fields
    return (rep_, .object fields)
  | .vector builder elems => do
    let (rep_, _) ← processBasic rep_ (ascii "size") (.int (.size elems.length))
    let (rep_, elems) ← processElems rep_ elems
    return (rep_, .vector builder elems)

/-- `serialize` of an object. -/
def serialize (rep_ : List StringPair) : NamedObject → Except Fault (List StringPair × NamedObject)
  | [] => return (rep_, [])
  | (name, v) :: o => do
    let (rep_, v) ← process rep_ name v
    let (rep_, o) ← serialize rep_ o
    return (rep_, (name, v) :: o)

/-- The loop of `SerializableVector::serialize` over the elements. -/
def processElems (rep_ : List StringPair) :
    List Value → Except Fault (List StringPair × List Value)
  | [] => return (rep_, [])
  | e :: elems => do
    let (rep_, e) ← process rep_ (ascii "element") e
    let (rep_, elems) ← processElems rep_ elems
    return (rep_, e :: elems)

end

/-- `action`, on a list that is empty at first. No `process` signals an error. -/
def action (o : NamedObject) : Except Fault (Int × List StringPair × NamedObject) := do
  let (rep_, o) ← serialize [] o
  return (0, rep_, o)

end StringPairMarshal

/-! ### Unmarshal -/

namespace StringPairUnmarshal

def find (rep_ : List StringPair) (name : List UInt8) : Nat := rep_.findIdx (·.1 = name)

/-- The text that `find` finds; it is asserted that there is one. -/
def textOf (rep_ : List StringPair) (name : List UInt8) : Except Fault (List UInt8) :=
  match rep_[find rep_ name]? with
  | some pair => return pair.2
  | none => throw .assertFailed

/-- What is stored in an integer. The cast of a pointer to an `int64_t` changes no bit. -/
def loadInt (kind : IntKind) (text : List UInt8) : Integer where
  kind := kind
  val := kind.type.conv <|
    match kind with
    | .u64 | .i64 => atoll (cStr text)
    | _ => atoi (cStr text)
  inRange := IntType.inRange_conv _ _

/-- What is stored in a `bool`, unless the text is unexpected. -/
def loadBool (text : List UInt8) : Option Bool :=
  match (cStr text).headD 0 with
  | 84 | 116 | 49 | 1 => some true
  | 70 | 102 | 48 | 0 => some false
  | _ => none

/-- `process(name, u_char*, len)`. Where the text is short, so is what is stored. -/
def loadBuf (bp : FixedBuffer) (text : List UInt8) : Except Fault FixedBuffer := do
  let s := cStr text
  let amt := min bp.bytes.length s.length
  let bytes ← str2hex (s ++ [0]) amt
  return ⟨(bytes ++ bp.bytes.drop amt).take bp.bytes.length,
    Nat.lt_of_le_of_lt (List.length_take_le ..) bp.fits⟩

/-- `process(name, carrier)` and, with the terminator, `process(name, carrier, terminator)`:
    the bytes, as many as the text has, and what is written behind them. -/
def loadCarrier (c : BufferCarrier) (text behind : List UInt8) : Except Fault BufferCarrier := do
  let len := IntType.int.conv text.length
  let size := len + behind.length
  if ¬ IntType.int.InRange size then
    throw .overflow
  -- `buf != 0`
  assert (0 ≤ size)
  -- as a `size_t`, -1 is more than any memory has
  if len < 0 then
    throw .outOfBounds
  let bytes ← str2hex (text ++ [0]) len.toNat
  return c.setBuf (some (bytes ++ behind)) len.toNat

/-- The calls of `process` that the action does itself. -/
def processBasic (rep_ : List StringPair) (name : List UInt8) : Basic → Except Fault (Bool × Basic)
  | .int i => do
    let text ← textOf rep_ name
    return (false, .int (loadInt i.kind text))
  | .bool b => do
    let text ← textOf rep_ name
    match loadBool text with
    | some b => return (false, .bool b)
    | none => return (true, .bool b)
  | .string _ => do
    let text ← textOf rep_ name
    return (false, .string (cStr text))
  | .buf bp => do
    let text ← textOf rep_ name
    let bp ← loadBuf bp text
    return (false, .buf bp)
  | .carrier c => do
    let text ← textOf rep_ name
    let c ← loadCarrier c text []
    return (false, .carrier c)
  | .terminated c terminator => do
    let text ← textOf rep_ name
    let c ← loadCarrier c text [terminator]
    return (false, .terminated c terminator)

/-- The loop of `SerializableVector::serialize` that adds `n` elements, given what processes
    one. -/
def processElems (process : Except Fault (Bool × Value)) : Nat → Except Fault (Bool × List Value)
  | 0 => return (false, [])
  | n + 1 => do
    let (signalled, e) ← process
    let (signalled', es) ← processElems process n
    return (signalled || signalled', e :: es)

mutual

def process (rep_ : List StringPair) (name : List UInt8) : Value → Except Fault (Bool × Value)
  | .basic x => do
    let (signalled, x) ← processBasic rep_ name x
    return (signalled, .basic x)
  | .object fields => do
    let (signalled, fields) ← serialize rep_ fields
    return (signalled, .object fields)
  | .vector builder elems => do
    let text ← textOf rep_ (ascii "size")
    let sz := (loadInt .u32 text).val.toNat
    let (signalled, new) ← processElems (process rep_ (ascii "element") builder) sz
    assert ((elems ++ new).length = sz)
    return (signalled, .vector builder (elems ++ new))

/-- `serialize` of an object. -/
def serialize (rep_ : List StringPair) : NamedObject → Except Fault (Bool × NamedObject)
  | [] => return (false, [])
  | (name, v) :: o => do
    let (signalled, v) ← process rep_ name v
    let (signalled', o) ← serialize rep_ o
    return (signalled || signalled', (name, v) :: o)

end

def action (rep_ : List StringPair) (o : NamedObject) : Except Fault (Int × NamedObject) := do
  let (error_, o) ← serialize rep_ o
  return (if error_ then -1 else 0, o)

end StringPairUnmarshal

end Oasys
