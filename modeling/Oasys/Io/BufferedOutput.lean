import Oasys.Debug.Vfprintf
import Oasys.ForStd.Transition
import Oasys.Io.BufferedInput
import Oasys.Util.StringUtils

/-!
# BufferedOutput

The buffered writer of `io/BufferedIO.cc`. What the writes of its client return is in a list
that the loop of `flush` takes its rounds from; the logs are left out.
-/

namespace Oasys

namespace Io

/-- What a write of the client returns: how many bytes it takes, of those that it is offered
    and as an `int` counts them, possibly none; or a negative result. -/
inductive Acceptance where
  | took (n : Nat)
  | error (n : Nat)
  deriving DecidableEq, Repr

/-- The result of a write of `len` bytes. -/
def Acceptance.write (a : Acceptance) (len : Nat) : Int :=
  match a with
  | .took n => min n (min len (2 ^ 31 - 1))
  | .error n => -(n + 1)

structure BufferedOutput where
  buf_ : StreamBuffer
  flush_limit_ : Nat
  deriving Repr

/-- What a member of `BufferedOutput` returns: its result, the object, and the bytes that the
    client has taken. -/
structure Output where
  ret : Int
  output : BufferedOutput
  taken : List UInt8
  deriving Repr

namespace BufferedOutput

def DEFAULT_FLUSH_LIMIT : Nat := 256

def new : BufferedOutput :=
  { buf_ := .new BufferedInput.DEFAULT_BUFSIZE, flush_limit_ := DEFAULT_FLUSH_LIMIT }

/-- The loop of `flush`. -/
def flushLoop (B : Build) (total : Int) (o : BufferedOutput) (answers : List Acceptance) :
    Except Fault Output :=
  if o.buf_.fullbytes > 0 then
    match answers with
    | [] => throw .outOfFuel
    | a :: answers => do
      let cc := a.write o.buf_.fullbytes
      if cc < 0 then pure { ret := cc, output := o, taken := [] }
      else do
        let data := o.buf_.bytes.take cc.toNat
        let buf_ ← o.buf_.consume cc.toNat
        let total ← IntType.int.arith B (total + cc)
        let r ← flushLoop B total { o with buf_ } answers
        pure { r with taken := data ++ r.taken }
  else pure { ret := total, output := o, taken := [] }

def flush (B : Build) (o : BufferedOutput) (answers : List Acceptance) : Except Fault Output :=
  flushLoop B 0 o answers

/-- The end of the members that write: where the limit is exceeded the buffer is flushed, and
    the result of that is not looked at. -/
def flushOverLimit (B : Build) (o : BufferedOutput) (ret : Int) (answers : List Acceptance) :
    Except Fault Output :=
  if o.flush_limit_ > 0 && o.buf_.fullbytes > o.flush_limit_ then do
    let r ← o.flush B answers
    pure { r with ret }
  else pure { ret, output := o, taken := [] }

/-- `write`, with the memory from `bp` on. -/
def write (B : Build) (o : BufferedOutput) (bp : List UInt8) (len : Nat)
    (answers : List Acceptance) : Except Fault Output := do
  let len ← if len = 0 then strlen bp else pure len
  let buf_ ← o.buf_.reserve len
  if bp.length < len then throw .outOfBounds
  let buf_ ← buf_.fill (bp.take len)
  flushOverLimit B { o with buf_ } (IntType.int.conv len) answers

def setFlushLimit (o : BufferedOutput) (limit : Nat) : BufferedOutput :=
  { o with flush_limit_ := limit }

/-- The memory of the buffer up to `end()`. -/
def front (b : StreamBuffer) : List UInt8 := b.buf_.take b.end_

/-- The memory of the buffer when it has been written up to some place: `mem` is then what there
    is before that. -/
def store (b : StreamBuffer) (mem : List UInt8) : Except Fault StreamBuffer :=
  if h : mem.length ≤ b.buf_.length then
    pure
      { b with
        buf_ := mem ++ b.buf_.drop mem.length
        end_le := by
          have hend := b.end_le
          rw [List.length_append, List.length_drop]
          omega
        size_pos := by
          have hpos := b.size_pos
          rw [List.length_append, List.length_drop]
          omega }
  else throw .outOfBounds

/-- `buf_.fill(len)`, of what has been written at `end()`. A negative `len` is a `size_t` larger
    than any memory. -/
def fillLen (b : StreamBuffer) (len : Int) : Except Fault StreamBuffer := do
  assert (0 ≤ len)
  assert (len ≤ b.tailbytes)
  b.fill ((b.buf_.drop b.end_).take len.toNat)

/-- `log_vsnprintf(buf_.end(), nfree, fmt, ap)`. The `int` is converted to a `size_t`. -/
def logVsnprintfEnd (b : StreamBuffer) (nfree : Int) (fmt : List Conversion) :
    Except Fault (StreamBuffer × Int) := do
  let (mem, len) ← logVsnprintf (front b) (IntType.u64.conv nfree).toNat fmt
  let b ← store b mem
  pure (b, len)

/-- `vformat_buf`. The second formatting goes on with the `ap` that the first one has used;
    `again` is what it makes of the format then. -/
def vformatBuf (B : Build) (o : BufferedOutput) (fmt again : List Conversion)
    (answers : List Acceptance) : Except Fault Output := do
  let nfree := IntType.int.conv o.buf_.tailbytes
  let (buf_, len) ← logVsnprintfEnd o.buf_ nfree fmt
  assert (len ≠ -1)
  let (buf_, len) ←
    if len ≥ nfree then do
      let buf_ ← buf_.reserve (IntType.u64.conv len).toNat
      let nfree := len
      let (buf_, len) ← logVsnprintfEnd buf_ nfree again
      assert (len ≤ nfree)
      pure (buf_, len)
    else pure (buf_, len)
  let buf_ ← fillLen buf_ len
  flushOverLimit B { o with buf_ } len answers

def formatBuf (B : Build) (o : BufferedOutput) (format again : List Conversion)
    (answers : List Acceptance) : Except Fault Output :=
  vformatBuf B o format again answers

/-- `printf`. The result of its flush is not looked at. -/
def printf (B : Build) (o : BufferedOutput) (format again : List Conversion)
    (answers answers' : List Acceptance) : Except Fault Output := do
  let r ← vformatBuf B o format again answers
  let r' ← r.output.flush B answers'
  pure { ret := r.ret, output := r'.output, taken := r.taken ++ r'.taken }

/-! ### Runs -/

inductive Op where
  /-- `write` of these bytes, with their number as its `len`. -/
  | write (data : List UInt8)
  | flush
  | setFlushLimit (limit : Nat)
  deriving DecidableEq, Repr

/-- A call. -/
def Op.run (B : Build) (o : BufferedOutput) (answers : List Acceptance) :
    Op → Except Fault Output
  | write data => o.write B data data.length answers
  | flush => o.flush B answers
  | setFlushLimit limit => pure { ret := 0, output := o.setFlushLimit limit, taken := [] }

/-- The bytes that a call adds to the stream. -/
def Op.written : Op → List UInt8
  | write data => data
  | _ => []

/-- An object, with what its client has taken and what has been written so far. -/
structure State where
  output : BufferedOutput
  taken : List UInt8
  written : List UInt8

/-- The runs of an object with a flush limit: calls in any order, each with whatever the client
    answers to the writes that it makes. No write is of no bytes. -/
def system (B : Build) (limit : Nat) : TransitionSystem State (Op × List Acceptance) where
  init s := s = ⟨new.setFlushLimit limit, [], []⟩
  step s a s' := a.1 ≠ .write [] ∧ ∃ r, a.1.run B s.output a.2 = .ok r ∧
    s' = ⟨r.output, s.taken ++ r.taken, s.written ++ a.1.written⟩

end BufferedOutput

end Io

end Oasys
