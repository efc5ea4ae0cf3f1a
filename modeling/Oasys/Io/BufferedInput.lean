import Oasys.Io.RwData
import Oasys.Util.StreamBuffer

/-!
# BufferedInput

The buffered reader of `io/BufferedIO.cc`. What the reads of its client return is in a list
that the loops take their rounds from. A timeout only goes on to the client; the logs are
left out.
-/

namespace Oasys

namespace Io

/-- What a read of the client returns: bytes, of which it stores as many as it is asked for
    and an `int` holds, none of them at the end of the file; or a negative result. -/
inductive Delivery where
  | bytes (data : List UInt8)
  | error (n : Nat)
  deriving DecidableEq, Repr

/-- The result of a read of `len` bytes, and the bytes it stores. -/
def Delivery.read (d : Delivery) (len : Nat) : Int × List UInt8 :=
  match d with
  | .bytes data =>
    let data := data.take (min len (2 ^ 31 - 1))
    (data.length, data)
  | .error n => (-(n + 1), [])

structure BufferedInput where
  buf_ : StreamBuffer
  seen_eof_ : Bool
  deriving Repr

/-- What a member of `BufferedInput` returns: its result, the bytes at `*buf` that the result
    counts, the object, and the bytes that the client has stored. -/
structure Input where
  ret : Int
  out : List UInt8
  input : BufferedInput
  delivered : List UInt8
  deriving Repr

namespace BufferedInput

def DEFAULT_BUFSIZE : Nat := 1024

def READ_AHEAD : Nat := 256

def new : BufferedInput := { buf_ := .new DEFAULT_BUFSIZE, seen_eof_ := false }

/-- `internal_read`. The smaller of what is in the buffer and of `len` is converted to
    `int`. -/
def internalRead (i : BufferedInput) (len : Nat) (d : Delivery) : Except Fault Input := do
  assert (len > 0)
  assert (len > i.buf_.fullbytes)
  let buf_ ← i.buf_.reserve len
  let (cc, data) := d.read buf_.tailbytes
  if cc = IOTIMEOUT then pure { ret := cc, out := [], input := { i with buf_ }, delivered := [] }
  else if cc = 0 then
    pure { ret := cc, out := [], input := { buf_, seen_eof_ := true }, delivered := [] }
  else if cc < 0 then pure { ret := cc, out := [], input := { i with buf_ }, delivered := [] }
  else do
    let buf_ ← buf_.fill data
    let ret := min buf_.fullbytes len
    pure { ret := IntType.int.conv ret, out := [], input := { i with buf_ }, delivered := data }

/-- The loop of `find_nl` over the bytes from `offset` on, `-1` where it finds none.
    `memchr` goes past the bytes that are not the first one of `nl`. -/
def findNlLoop (nl : List UInt8) (offset : Nat) : List UInt8 → Int
  | [] => -1
  | c :: bytes_left =>
    if c = nl.headD 0 then
      if IntType.int.conv (c :: bytes_left).length < nl.length then -1
      else if nl.isPrefixOf (c :: bytes_left) then IntType.int.conv offset
      else findNlLoop nl (offset + 1) bytes_left
    else findNlLoop nl (offset + 1) bytes_left

def findNl (i : BufferedInput) (nl : List UInt8) : Int := findNlLoop nl 0 i.buf_.bytes

/-- The conversion of an `int` to `size_t`. -/
def toSize (n : Int) : Nat := (n % 2 ^ 64).toNat

/-- The end of a member: `amount` bytes are consumed, and the result counts `ret` of them. -/
def finish (i : BufferedInput) (ret : Int) (amount : Nat) : Except Fault Input := do
  let out := i.buf_.bytes.take ret.toNat
  let buf_ ← i.buf_.consume amount
  pure { ret, out, input := { i with buf_ }, delivered := [] }

def readLine (nl : List UInt8) (i : BufferedInput) (ds : List Delivery) : Except Fault Input :=
  let endl := i.findNl nl
  if endl = -1 then
    match ds with
    | [] => throw .outOfFuel
    | d :: ds => do
      let r ← i.internalRead (i.buf_.fullbytes + READ_AHEAD) d
      if r.ret ≤ 0 then pure r
      else do
        let r' ← readLine nl r.input ds
        pure { r' with delivered := r.delivered ++ r'.delivered }
  else
    let n := endl + nl.length
    i.finish (IntType.int.conv n) (toSize n)

/-- The loop of `read_bytes`, and its end. -/
def readBytesLoop (len total : Nat) (i : BufferedInput) (ds : List Delivery) :
    Except Fault Input :=
  if total < len then
    match ds with
    | [] => throw .outOfFuel
    | d :: ds => do
      let r ← i.internalRead len d
      if r.ret ≤ 0 then pure r
      else do
        let r' ← readBytesLoop len r.ret.toNat r.input ds
        pure { r' with delivered := r.delivered ++ r'.delivered }
  else i.finish (IntType.int.conv len) len

def readBytes (len : Nat) (i : BufferedInput) (ds : List Delivery) : Except Fault Input := do
  assert (len > 0)
  readBytesLoop len i.buf_.fullbytes i ds

/-- `read_some_bytes` and `get_char`: the read where the buffer is empty, and the rest `f` of
    the member. -/
def fillFirst (i : BufferedInput) (ds : List Delivery) (f : BufferedInput → Except Fault Input) :
    Except Fault Input :=
  if i.buf_.fullbytes = 0 then
    match ds with
    | [] => throw .outOfFuel
    | d :: _ => do
      let r ← i.internalRead i.buf_.tailbytes d
      if r.ret ≤ 0 then pure r
      else do
        assert (r.input.buf_.fullbytes > 0)
        let r' ← f r.input
        pure { r' with delivered := r.delivered ++ r'.delivered }
  else f i

/-- `read_some_bytes`. Where the buffer is empty, its start is at its end. -/
def readSomeBytes (i : BufferedInput) (ds : List Delivery) : Except Fault Input :=
  i.fillFirst ds fun i =>
    let cc := IntType.int.conv i.buf_.fullbytes
    i.finish cc (toSize cc)

/-- `get_char`. The character is in `out`; where the read fails there is none, and 0 is
    returned for it. -/
def getChar (i : BufferedInput) (ds : List Delivery) : Except Fault Input :=
  i.fillFirst ds fun i => i.finish 1 1

def eof (i : BufferedInput) : Bool := i.buf_.fullbytes = 0 && i.seen_eof_

end BufferedInput

end Io

end Oasys
