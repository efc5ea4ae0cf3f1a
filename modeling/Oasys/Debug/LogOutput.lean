import Oasys.Debug.LogFile
import Oasys.Debug.Vfprintf
import Oasys.ForStd.Decimal
import Oasys.ForStd.Hex
import Oasys.Serialize.Value
import Oasys.Util.Time

/-!
# Log output

`gen_prefix`, `log`, `output` and `vlogf` of `debug/Log.cc`. A pointer into a buffer is an
index; what a buffer holds at first is arbitrary. The output is what `IO::writevall` is given,
which is all that `output` makes of it: its result is only printed where it is not the size.
No string is as long as `INT_MAX`, so that `snprintf` returns its length.
-/

namespace Oasys.Log

/-! ### Memory -/

/-- The memory after something has been written to it. -/
def store (mem : List UInt8) (ptr : Nat) (bytes : List UInt8) : Except Fault (List UInt8) :=
  if ptr + bytes.length ≤ mem.length then
    pure (mem.take ptr ++ bytes ++ mem.drop (ptr + bytes.length))
  else throw .outOfBounds

/-- What is at some place in the memory. -/
def load (mem : List UInt8) (ptr len : Nat) : Except Fault (List UInt8) :=
  if ptr + len ≤ mem.length then pure ((mem.drop ptr).take len) else throw .outOfBounds

def cStr (s : List UInt8) : List UInt8 := s.takeWhile (· ≠ 0)

/-- The memory after `snprintf(ptr, buflen, ...)` of a text. -/
def snprintf (mem : List UInt8) (ptr buflen : Nat) (text : List UInt8) :
    Except Fault (List UInt8) :=
  if buflen = 0 then pure mem else store mem ptr (text.take (buflen - 1) ++ [0])

/-! ### The object -/

/-- The part of a `Log` that the output depends on, with the rules. -/
structure Logger where
  rules : Log
  output_flags_ : UInt32
  prefix_ : List UInt8
  shutdown_ : Bool

/-- `output_flags_ & flag`. -/
def Logger.outputs (o : Logger) (flag : UInt32) : Bool := o.output_flags_ &&& flag ≠ 0

def level2str (level : LogLevel) : List UInt8 :=
  match logLevelnames.find? fun entry => entry.2 = level with
  | some entry => ascii entry.1
  | none => ascii "(unknown level)"

def Logger.logEnabled (o : Logger) (level : LogLevel) (path : List UInt8) : Except Fault Bool := do
  let threshold ← logLevel o.rules ((cStr path).map fun c => Char.ofNat c.toNat)
  pure (decide (level.value ≥ threshold.value))

/-- The test of `log` and `vlogf` for whether a message is put out. -/
def Logger.putsOut (o : Logger) (level : LogLevel) (path : List UInt8)
    (classname : Option (List UInt8)) : Except Fault Bool := do
  if ← o.logEnabled level path then pure true
  else
    match classname with
    | none => pure false
    | some classname => o.logEnabled level classname

/-! ### gen_prefix -/

/-- The variables of `gen_prefix`. -/
structure Prefix where
  mem : List UInt8
  ptr : Nat
  buflen : Nat
  prefix_len : Nat

/-- A `snprintf` of `gen_prefix`, and how it goes on from there. -/
def Prefix.put (g : Prefix) (text : List UInt8) : Except Fault Prefix := do
  let mem ← snprintf g.mem g.ptr g.buflen text
  let len := text.length
  let prefix_len := g.prefix_len + len
  let len := if len > g.buflen then g.buflen else len
  pure { mem, ptr := g.ptr + len, buflen := g.buflen - len, prefix_len }

/-- A `snprintf` of `gen_prefix` that is made under some condition. -/
def Prefix.putIf (g : Prefix) (cond : Bool) (text : List UInt8) : Except Fault Prefix :=
  if cond then g.put text else pure g

/-- `"%-19.19s "` or `"%s "`. -/
def Logger.nameText (o : Logger) (name : List UInt8) : List UInt8 :=
  if o.outputs OUTPUT_SHORT then
    (cStr name).take 19 ++ List.replicate (19 - ((cStr name).take 19).length) 32 ++ ascii " "
  else cStr name ++ ascii " "

/-- `"%u.%06u "`. -/
def timeText (t : Time) : List UInt8 :=
  Decimal.digits t.sec_.toNat ++ ascii "." ++ Hex.pad 48 6 (Decimal.digits t.usec_.toNat) ++
    ascii " "

/-- `"%p "`. -/
def objText (obj : Nat) : List UInt8 := ascii "0x" ++ Hex.digits obj ++ ascii " "

def Logger.colorBegin (o : Logger) : List UInt8 :=
  if o.outputs OUTPUT_COLOR then 27 :: ascii "[33m" else []

def Logger.colorEnd (o : Logger) : List UInt8 :=
  if o.outputs OUTPUT_COLOR then 27 :: ascii "[0m" else []

def Logger.colorLevel (o : Logger) : List UInt8 :=
  if o.outputs OUTPUT_COLOR then 27 :: ascii "[36m" else []

/-- The first `snprintf`. -/
def Logger.beginText (o : Logger) : List UInt8 :=
  if o.prefix_.length > 0 then o.colorBegin ++ ascii "[" ++ cStr o.prefix_ ++ ascii " "
  else o.colorBegin ++ ascii "["

/-- The level, or the upper case of its first letter. -/
def Logger.levelText (o : Logger) (level : LogLevel) : List UInt8 :=
  if o.outputs OUTPUT_SHORT then
    o.colorLevel ++ ((level2str level).take 1).map (fun c => if 97 ≤ c ∧ c ≤ 122 then c - 32 else c)
      ++ o.colorBegin
  else o.colorLevel ++ level2str level ++ o.colorBegin

/-- `gen_prefix`, into the memory from its start on. A `NULL` object is 0. -/
def Logger.genPrefix (o : Logger) (mem : List UInt8) (buflen : Nat) (path : List UInt8)
    (level : LogLevel) (classname : Option (List UInt8)) (obj : Nat) (t : Time) :
    Except Fault (List UInt8 × Nat) := do
  let g : Prefix := { mem, ptr := 0, buflen, prefix_len := 0 }
  let g ← g.put o.beginText
  let g ← g.putIf (o.outputs OUTPUT_TIME) (timeText t)
  let g ← g.putIf (o.outputs OUTPUT_PATH) (o.nameText path)
  let g ← g.putIf (o.outputs OUTPUT_CLASSNAME) (o.nameText (classname.getD (ascii "(No_Class)")))
  let g ← g.putIf (o.outputs OUTPUT_OBJ && obj ≠ 0) (objText obj)
  let g ← g.putIf (o.outputs OUTPUT_LEVEL) (o.levelText level)
  let g ← g.put (ascii "]" ++ o.colorEnd ++ ascii " ")
  pure (g.mem, g.prefix_len)

/-! ### output -/

/-- A `struct iovec`: the memory from its base on, and its length. -/
structure Entry where
  iov_base : List UInt8
  iov_len : Nat

def iovecSize (iov : List Entry) : Nat := (iov.map Entry.iov_len).sum

/-- `output`: what it returns, and what it writes. -/
def Logger.output (o : Logger) (iov : List Entry) : Except Fault (Int × List UInt8) :=
  if o.shutdown_ then pure (-1, [])
  else do
    let data ← iov.mapM fun entry => load entry.iov_base 0 entry.iov_len
    pure (IntType.int.conv (iovecSize iov), data.flatten)

/-! ### log -/

/-- The loop of `log` over the lines of a message, of which `msg` is the rest. `iov` is what has
    been accumulated. -/
def Logger.logLines (B : Build) (IOV_MAX : Nat) (o : Logger) (pre : Entry) :
    Nat → List UInt8 → Int → List Entry → Except Fault (Int × List UInt8)
  | 0, _, _, _ => throw .outOfFuel
  | fuel + 1, msg, rval, iov =>
    if 10 ∈ msg then do
      let line := msg.takeWhile (· ≠ 10) ++ [10]
      let iov := iov ++ [pre, { iov_base := msg, iov_len := line.length }]
      let msg := msg.drop line.length
      if iov.length = IOV_MAX then do
        let (size, data) ← o.output iov
        let rval ← IntType.int.arith B (rval + size)
        let (rval, rest) ← o.logLines B IOV_MAX pre fuel msg rval []
        pure (rval, data ++ rest)
      -- one more would be behind the end of the array
      else if iov.length > IOV_MAX then throw .outOfBounds
      else o.logLines B IOV_MAX pre fuel msg rval iov
    else do
      let (size, data) ← o.output iov
      let rval ← IntType.int.arith B (rval + size)
      pure (rval, data)

/-- `sizeof(prefix)`. -/
def sizeofPrefix : Nat := 1024

/-- `log`. The buffer for the prefix holds `buf` at first. -/
def Logger.log (B : Build) (IOV_MAX : Nat) (o : Logger) (buf : List UInt8) (path : List UInt8)
    (level : LogLevel) (classname : Option (List UInt8)) (obj : Nat) (t : Time)
    (msg : List UInt8) (prefix_each_line : Bool) : Except Fault (Int × List UInt8) := do
  assert o.rules.inited_
  if o.shutdown_ then pure (-1, [])
  else if !(← o.putsOut level path classname) then pure (0, [])
  else do
    let (buf, prefix_len) ← o.genPrefix buf sizeofPrefix path level classname obj t
    let pre : Entry := { iov_base := buf, iov_len := prefix_len }
    match msg.getLast? with
    | none => throw .outOfBounds
    | some last =>
      if prefix_each_line then do
        assert (last = 10)
        o.logLines B IOV_MAX pre (msg.length + 1) msg 0 []
      else
        let entry : Entry := { iov_base := msg, iov_len := msg.length }
        if last = 10 then o.output [pre, entry]
        else o.output [pre, entry, { iov_base := [10], iov_len := 1 }]

def Logger.logMultiline (B : Build) (IOV_MAX : Nat) (o : Logger) (buf : List UInt8)
    (path : List UInt8) (level : LogLevel) (classname : Option (List UInt8)) (obj : Nat) (t : Time)
    (msg : List UInt8) : Except Fault (Int × List UInt8) :=
  o.log B IOV_MAX buf path level classname obj t msg true

/-! ### vlogf -/

def LOG_MAX_PATHLEN : Nat := 64

def LOG_MAX_LINELEN : Nat := 512

/-- `guard`, with its terminator. -/
def guard : List UInt8 := ascii "[guard]" ++ [0]

def trunc : List UInt8 := ascii "... (truncated)"

/-- `sizeof(trunc)`: the size of a pointer. -/
def sizeofTrunc : Nat := 8

/-- What `vlogf` returns and puts out, and its buffer. -/
structure Vlogged where
  ret : Int
  lines : List (List UInt8)
  buf : List UInt8

/-- The path that `vlogf` goes on with. -/
def pathBuf (path : List UInt8) : List UInt8 :=
  if path.head? = some 47 then path else (47 :: cStr path).take (LOG_MAX_PATHLEN - 1)

/-- `vlogf` from the end of the message on: the newline, the check of the guard and the output. -/
def Logger.vlogfLine (B : Build) (o : Logger) (no_panic : Bool) (buf : List UInt8) (ptr : Nat) :
    Except Fault Vlogged := do
  let (buf, ptr) ←
    if ptr > 0 then do
      let last ← load buf (ptr - 1) 1
      if last ≠ [10] then do
        let buf ← store buf ptr [10]
        pure (buf, ptr + 1)
      else pure (buf, ptr)
    else pure (buf, ptr)
  let buf ← store buf ptr [0]
  if !B.ndebug && buf.drop (LOG_MAX_LINELEN + 1) ≠ guard then
    if no_panic then pure { ret := -1, lines := [], buf } else throw .panic
  else do
    let (ret, line) ← o.output [{ iov_base := buf, iov_len := ptr }]
    pure { ret, lines := [line], buf }

/-- `vlogf`. Its buffer holds `buf` at first; `fmt` is the format with its arguments. -/
def Logger.vlogf (B : Build) (o : Logger) (no_panic : Bool) (buf : List UInt8)
    (path : Option (List UInt8)) (level : LogLevel) (classname : Option (List UInt8)) (obj : Nat)
    (t : Time) (fmt : Option (List Conversion)) : Except Fault Vlogged := do
  assert o.rules.inited_
  if o.shutdown_ then pure { ret := -1, lines := [], buf }
  else
    match path, fmt with
    | some path, some fmt => do
      let path := pathBuf path
      if !(← o.putsOut level path classname) then pure { ret := 0, lines := [], buf }
      else do
        let buflen := LOG_MAX_LINELEN
        let buf ← store buf (LOG_MAX_LINELEN + 1) guard
        let (buf, prefix_len) ← o.genPrefix buf buflen path level classname obj t
        let (ptr, buflen) :=
          if prefix_len < buflen then (prefix_len, buflen - prefix_len) else (buflen, 0)
        let (str, data_len) ← logVsnprintf (buf.take ptr) buflen fmt
        let buf ← store buf 0 str
        let data_len := (IntType.u64.conv data_len).toNat
        if data_len < buflen then o.vlogfLine B no_panic buf (ptr + data_len)
        else do
          -- the marker, as much of it as there is in a pointer
          let chars_to_copy :=
            if LOG_MAX_LINELEN > sizeofTrunc then sizeofTrunc else LOG_MAX_LINELEN
          let buf ← store buf (LOG_MAX_LINELEN - chars_to_copy) (trunc.take (chars_to_copy - 1))
          let ptr := LOG_MAX_LINELEN - 1
          let buf ← store buf ptr [0]
          o.vlogfLine B no_panic buf ptr
    | _, _ => pure { ret := -1, lines := [], buf }

end Oasys.Log
