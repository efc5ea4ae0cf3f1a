import Oasys.Util.StringBuffer

/-!
# TextCode

`util/TextCode.cc`: bytes as text in lines of so many columns, in which what is not printable
is escaped, and the way back. The text ends with a line that has only a control-L in it.
-/

namespace Oasys

namespace TextCode

/-- `is_not_escaped`. A `char` from 128 on is negative. -/
def isNotEscaped (c : UInt8) : Bool := 32 ≤ c && c ≤ 126 && c != 92

def append (buf_ : StringBuffer) (c : UInt8) : Except Fault StringBuffer :=
  if isNotEscaped c then
    buf_.appendChar c
  else if c = 92 then
    buf_.appendf [.printed [92, 92]]
  else
    buf_.appendf [.printed [92], .printed (hexDigits c)]

/-- The tabs in front of a line. -/
def appendPad (buf_ : StringBuffer) : Nat → Except Fault StringBuffer
  | 0 => pure buf_
  | pad_ + 1 => do
    let buf_ ← buf_.appendChar 9
    appendPad buf_ pad_

/-- The start of a line, before the character with index `i`. -/
def startLine (buf_ : StringBuffer) (i pad_ : Nat) : Except Fault StringBuffer :=
  if i ≠ 0 then do
    let buf_ ← buf_.appendChar 10
    appendPad buf_ pad_
  else
    appendPad buf_ pad_

/-- The loop of `textcodify`, from the character with index `i` on. -/
def appendFrom (cols_ pad_ : Nat) : Nat → List UInt8 → StringBuffer → Except Fault StringBuffer
  | _, [], buf_ => pure buf_
  | i, c :: input, buf_ =>
    if cols_ = 0 then throw .divByZero
    else if i % cols_ = 0 then do
      let buf_ ← startLine buf_ i pad_
      let buf_ ← append buf_ c
      appendFrom cols_ pad_ (i + 1) input buf_
    else do
      let buf_ ← append buf_ c
      appendFrom cols_ pad_ (i + 1) input buf_

def textcodify (buf_ : StringBuffer) (input_buf_ : List UInt8) (cols_ pad_ : Nat) :
    Except Fault StringBuffer := do
  let buf_ ← appendFrom cols_ pad_ 0 input_buf_ buf_
  let buf_ ← buf_.appendChar 10
  let buf_ ← appendPad buf_ pad_
  buf_.append [12, 10, 0] 0

end TextCode

/-- The constructor of a `StringBuffer` for a buffer of someone else. -/
def StringBuffer.ofBuffer (buffer : ExpandableBuffer) : StringBuffer := ⟨buffer.reserve 256⟩

/-- The constructor of `TextCode`. The number of columns, which is an `int`, is not negative;
    a negative number of tabs is none. -/
def textCode (input_buf : List UInt8) (buf : ExpandableBuffer) (cols : Nat) (pad : Int) :
    Except Fault StringBuffer :=
  TextCode.textcodify (.ofBuffer buf) input_buf cols pad.toNat

namespace TextUncode

/-- The character that an escape is read as. -/
def charOf (value : Int) : UInt8 := .ofNat (IntType.u8.conv (IntType.int.conv value)).toNat

/-- `textuncodify`, with what there is from `cur_` on; and whether there was an error. It is one
    to come to the end of the buffer. -/
def textuncodify : List UInt8 → StringBuffer → Except Fault (StringBuffer × Bool)
  | [], buf_ => pure (buf_, true)
  | [c], buf_ =>
    if c = 12 then pure (buf_, false)
    else if c = 9 || c = 10 || c = 92 then pure (buf_, true)
    else do
      let buf_ ← buf_.appendChar c
      pure (buf_, true)
  | c :: d :: rest, buf_ =>
    if c = 12 then pure (buf_, false)
    else if c = 9 || c = 10 then textuncodify (d :: rest) buf_
    else if c = 92 then
      if d = 92 then do
        let buf_ ← buf_.appendChar 92
        textuncodify rest buf_
      else if rest.length < 2 then pure (buf_, true)
      else do
        -- only the backslash is passed over
        let value ← strtol (d :: rest)
        let buf_ ← buf_.appendChar (charOf value)
        textuncodify (d :: rest) buf_
    else do
      let buf_ ← buf_.appendChar c
      textuncodify (d :: rest) buf_
termination_by structural text => text

end TextUncode

/-- The constructor of `TextUncode`. -/
def textUncode (input_buf : List UInt8) (buf : ExpandableBuffer) :
    Except Fault (StringBuffer × Bool) :=
  TextUncode.textuncodify input_buf (.ofBuffer buf)

end Oasys
