import Oasys.Util.StdString
import Oasys.Util.StrTo
import Oasys.Util.StringBuffer

/-!
# Options

`set` and `get` of the options of `util/Options.cc`. An option either stores a value through
`valp_`, sets the flag at `setp_` and returns 0, or it does none of this and returns -1: `set`
gives the value, if there is one. A string is given by the characters that can be read before its terminator,
which are more than `len` where it is a part of a longer one.

The Bluetooth address, for which a build has to be configured, is left out.
-/

namespace Oasys

open StdString (tolower)

/-- `strncasecmp(a, b, n) == 0`. -/
def strncasecmp (a b : List UInt8) (n : Nat) : Bool :=
  (a.take n).map tolower = (b.take n).map tolower

/-- `strcasecmp(a, b) == 0`. -/
def strcasecmp (a b : List UInt8) : Bool := a.map tolower = b.map tolower

/-- What an option calls that is not in the library: `strtod`, with its end pointer, and the
    lookup of a host, which finds an address or not. -/
structure Platform (D : Type) where
  strtod : List UInt8 → D × Nat
  gethostbyname : List UInt8 → Option UInt32

/-- What is stored. -/
inductive OptValue (D : Type) where
  | bool (b : Bool)
  | int (n : Int)
  | double (d : D)
  | chars (s : List UInt8)
  | inAddr (addr : UInt32)
  /-- The bits that are added to those that are there. -/
  | bits (n : Int)
  deriving DecidableEq, Repr

/-! ### The numbers -/

/-- `IntOpt::set`. -/
def IntOpt.set (val : List UInt8) (len : Nat) : Option Int :=
  if len = 0 then none
  else
    let (newval, endptr) := strtolBase0 val
    if endptr ≠ len then none else some (IntType.int.conv newval)

/-- `u_int newval = strtoul(..)`, and what is made of it by the members that look at its value. -/
def setUInt (limit : Int) (val : List UInt8) (len : Nat) : Option Int :=
  if len = 0 then none
  else
    let (newval, endptr) := strtoulBase0 val
    if endptr ≠ len then none
    else if IntType.u32.conv newval > limit then none
    else some (IntType.u32.conv newval)

/-- `UIntOpt::set`, which stores every `u_int`. -/
def UIntOpt.set (val : List UInt8) (len : Nat) : Option Int := setUInt (2 ^ 32 - 1) val len

def UInt16Opt.set (val : List UInt8) (len : Nat) : Option Int := setUInt 65535 val len

def UInt8Opt.set (val : List UInt8) (len : Nat) : Option Int := setUInt 255 val len

def UInt64Opt.set (val : List UInt8) (len : Nat) : Option Int :=
  if len = 0 then none
  else
    let (newval, endptr) := strtoulBase0 val
    if endptr ≠ len then none else some newval

namespace SizeOpt

/-- The factor of a unit. -/
def unit (c : UInt8) : Option Nat :=
  if c = 66 || c = 98 then some 1
  else if c = 75 || c = 107 then some 1024
  else if c = 77 || c = 109 then some 1048576
  else if c = 71 || c = 103 then some 1073741824
  else none

def set (val : List UInt8) (len : Nat) : Option Int :=
  if len = 0 then none
  else
    let (newval, endptr) := strtoulBase0 val
    if endptr = 0 then none
    else if endptr ≠ len then
      if endptr + 1 ≠ len then none
      else
        match val[endptr]? with
        | none => none
        | some c => (unit c).map fun factor : Nat => IntType.u64.conv (newval * factor)
    else some newval

end SizeOpt

namespace RateOpt

/-- The units and their factors. -/
def units : List (List UInt8 × Nat) :=
  [("bps".toUTF8.toList, 1), ("kbps".toUTF8.toList, 1000), ("mbps".toUTF8.toList, 1000000),
    ("gbps".toUTF8.toList, 1000000000)]

/-- `RateOpt::set`. Where the number is longer than `len` the length of the unit wraps around. -/
def set (val : List UInt8) (len : Nat) : Option Int :=
  let (newval, endptr) := strtoulBase0 val
  if endptr = 0 || len = 0 then none
  else if endptr ≠ len then
    let unitlen := (IntType.u64.conv ((len : Int) - endptr)).toNat
    match units.find? fun u => strncasecmp (val.drop endptr) u.1 unitlen with
    | none => none
    | some u => some (IntType.u64.conv (newval * u.2))
  else some newval

end RateOpt

/-! ### The options -/

/-- The classes of options, with what they are constructed with. -/
inductive OptKind where
  | bool
  | int
  | uint
  | uint64
  | uint16
  | uint8
  | size
  | rate
  | double
  | string
  | charBuf (buflen_ : Nat)
  | inAddr
  | enum (cases_ : List (List UInt8 × Int)) (is_bitflag_ : Bool)
  deriving DecidableEq, Repr

variable {D : Type}

namespace OptKind

/-- `needval_`, which only a `BoolOpt` does not set. -/
def needval_ (kind : OptKind) : Bool := kind ≠ .bool

/-- `BoolOpt::set`. -/
def setBool (val : Option (List UInt8)) (len : Nat) : Option Bool :=
  match val with
  | none => some true
  | some val =>
    if strncasecmp val "t".toUTF8.toList len || strncasecmp val "true".toUTF8.toList len ||
        strncasecmp val "1".toUTF8.toList len then some true
    else if strncasecmp val "f".toUTF8.toList len || strncasecmp val "false".toUTF8.toList len ||
        strncasecmp val "0".toUTF8.toList len then some false
    else none

/-- `set` with a value. -/
def setValue (env : Platform D) (val : List UInt8) (len : Nat) : OptKind → Option (OptValue D)
  | bool => (setBool (some val) len).map .bool
  | int => (IntOpt.set val len).map .int
  | uint => (UIntOpt.set val len).map .int
  | uint64 => (UInt64Opt.set val len).map .int
  | uint16 => (UInt16Opt.set val len).map .int
  | uint8 => (UInt8Opt.set val len).map .int
  | size => (SizeOpt.set val len).map .int
  | rate => (RateOpt.set val len).map .int
  | double =>
    if len = 0 then none
    else
      let (newval, endptr) := env.strtod val
      if endptr ≠ len then none else some (.double newval)
  | string => some (.chars (val.take len))
  | charBuf buflen_ => if len > buflen_ then none else some (.chars (val.take len))
  | inAddr => (env.gethostbyname val).map .inAddr
  | enum cases_ is_bitflag_ =>
    (cases_.find? fun c => strcasecmp c.1 val).map fun c =>
      if is_bitflag_ then .bits c.2 else .int c.2

/-- `set`. Only a `BoolOpt` is called without a value. -/
def set (env : Platform D) (val : Option (List UInt8)) (len : Nat) (kind : OptKind) :
    Except Fault (Option (OptValue D)) :=
  match val with
  | some val => pure (kind.setValue env val len)
  | none =>
    match kind with
    | bool => pure ((setBool none len).map .bool)
    | _ => throw .nullDeref

end OptKind

/-! ### The texts -/

/-- `%f`, which the C library prints. There is no zero byte in what it does. -/
structure DoubleFormat (D : Type) where
  print : D → List UInt8
  print_nul : ∀ d, 0 ∉ print d

/-- `%d`, `%u` and `%llu` of a number that the type holds. -/
def decimal (n : Int) : List UInt8 :=
  if n < 0 then 45 :: Decimal.digits (-n).toNat else Decimal.digits n.toNat

/-- A digit of `_intoa`. -/
def digitChar (n : Nat) : UInt8 := .ofNat (n + 48)

/-- The digits of a byte in `_intoa`, which go in front of `cp` from the last one on. -/
def intoaByte (byte : Nat) (cp : List UInt8) : List UInt8 :=
  let cp := digitChar (byte % 10) :: cp
  let byte := byte / 10
  if byte > 0 then
    let cp := digitChar (byte % 10) :: cp
    let byte := byte / 10
    if byte > 0 then digitChar byte :: cp else cp
  else cp

/-- The loop of `_intoa` in `io/NetUtils.cc`. -/
def intoaLoop : Nat → UInt32 → List UInt8 → List UInt8
  | 0, _, cp => cp.drop 1
  | n + 1, addr, cp => intoaLoop n (addr >>> 8) (46 :: intoaByte (addr &&& 0xff).toNat cp)

/-- `_intoa`, of an address in the order of the host, which is what `ntohl` makes of it. -/
def intoa (addr : UInt32) : List UInt8 := intoaLoop 4 addr []

namespace OptValue

/-- `*valp_ |= val`, of two `int`s. -/
def bitOr (x y : Int) : Int := (BitVec.ofInt 32 x ||| BitVec.ofInt 32 y).toInt

/-- `val & cases_[i].val`, as a condition. -/
def bitAnd (x y : Int) : Bool := BitVec.ofInt 32 x &&& BitVec.ofInt 32 y ≠ 0

/-- What is in a variable when something has been stored there. -/
def store (old new : OptValue D) : Except Fault (OptValue D) :=
  match new with
  | .bits n =>
    match old with
    | .int x => pure (.int (bitOr x n))
    | _ => throw .indeterminate
  | new => pure new

end OptValue

namespace OptKind

/-- The loop of `EnumOpt::get`. -/
def getEnum (is_bitflag_ : Bool) (val : Int) :
    List (List UInt8 × Int) → StringBuffer → Except Fault StringBuffer
  | [], buf => pure buf
  | (key, v) :: cases_, buf =>
    if val = v || (is_bitflag_ && OptValue.bitAnd val v) then do
      let buf ← buf.append (key ++ [0]) 0
      if is_bitflag_ then getEnum is_bitflag_ val cases_ buf else pure buf
    else getEnum is_bitflag_ val cases_ buf

/-- `get`, for what is in the variable. -/
def get (fmt : DoubleFormat D) (kind : OptKind) (val : OptValue D) (buf : StringBuffer) :
    Except Fault StringBuffer :=
  match kind, val with
  | bool, .bool b =>
    if b then buf.appendf [.printed "true".toUTF8.toList]
    else buf.appendf [.printed "false".toUTF8.toList]
  | int, .int n => buf.appendf [.printed (decimal n)]
  | uint, .int n => buf.appendf [.printed (decimal n)]
  | uint64, .int n => buf.appendf [.printed (decimal n)]
  | uint16, .int n => buf.appendf [.printed (decimal n)]
  | uint8, .int n => buf.appendf [.printed (decimal n)]
  | size, .int n => buf.appendf [.printed (decimal n)]
  | rate, .int n => buf.appendf [.printed (decimal n)]
  | double, .double d => buf.appendf [.printed (fmt.print d)]
  | string, .chars s => buf.appendf [.printed (s.takeWhile (· ≠ 0))]
  | charBuf _, .chars s =>
    -- a negative precision is none
    let precision := IntType.int.conv s.length
    if precision < 0 then throw .outOfBounds
    else buf.appendf [.printed ((s.take precision.toNat).takeWhile (· ≠ 0))]
  | inAddr, .inAddr addr => buf.appendf [.printed (intoa addr)]
  | enum cases_ is_bitflag_, .int n => getEnum is_bitflag_ n cases_ buf
  | _, _ => throw .indeterminate

end OptKind

/-- `Opt`, as far as it is parsed. -/
structure Opt where
  longopt_ : List UInt8
  kind : OptKind
  deriving DecidableEq, Repr

end Oasys
