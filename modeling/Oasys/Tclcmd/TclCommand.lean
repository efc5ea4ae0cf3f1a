import Mathlib.Data.List.AList
import Oasys.Util.Options

/-!
# TclCommand

The `set` command of `tclcmd/TclCommand.cc`, for the variables that are bound to a command. The
variables and the flags of their options are at places of a memory that the options point to;
several options may point to one place.
-/

namespace Oasys

/-- `TCL_OK` and `TCL_ERROR`. -/
inductive TclStatus where
  | ok
  | error
  deriving DecidableEq, Repr

/-- A string that `Tcl_GetStringFromObj` gives: it has no zero byte, and its length is an `int`. -/
structure TclString where
  text : List UInt8
  no_zero : 0 ∉ text
  short : text.length < 2 ^ 31

/-- An option that is bound, with the places of its variable and of the flag that tells whether
    it has been set. The names of its cases are C strings. -/
structure BoundOpt extends Opt where
  valp_ : Nat
  setp_ : Option Nat
  keys_no_zero : ∀ cases_ is_bitflag_, kind = .enum cases_ is_bitflag_ → ∀ c ∈ cases_, 0 ∉ c.1

/-- The memory of the process, as far as the options point to it, and the result of the
    interpreter. -/
structure TclState (D : Type) where
  vals : Nat → OptValue D
  flags : Nat → Bool
  result : List UInt8

/-- `TclCommand`. The `validate` hook, which a command may override, looks at the name, at the
    text of the value, at the option and at the memory; it returns a number and leaves a result. -/
structure TclCommand (D : Type) where
  bindings_ : AList fun _ : List UInt8 => BoundOpt
  validate : List UInt8 → List UInt8 → BoundOpt → TclState D → Int × List UInt8

variable {D : Type}

namespace TclState

/-- `set_result`, which copies the string at the start of some memory. -/
def setResult (s : TclState D) (mem : List UInt8) : Except Fault (TclState D) := do
  let len ← strlen mem
  return { s with result := mem.take len }

def resultf (s : TclState D) (fmt : List Conversion) : Except Fault (TclState D) := do
  let buf ← StringBuffer.new 256
  let buf ← buf.appendf fmt
  let (_, mem) ← buf.cStr
  s.setResult mem

/-- What `set` of an option does to the memory when it has parsed the value. -/
def assign (s : TclState D) (opt : BoundOpt) (new : OptValue D) : Except Fault (TclState D) := do
  let val ← (s.vals opt.valp_).store new
  return { s with
    vals := Function.update s.vals opt.valp_ val
    flags := match opt.setp_ with
      | none => s.flags
      | some setp => Function.update s.flags setp true }

end TclState

namespace TclCommand

/-- The default of the `validate` hook. -/
def noValidate : List UInt8 → List UInt8 → BoundOpt → TclState D → Int × List UInt8 :=
  fun _ _ _ s => (0, s.result)

/-- The end of `cmd_set`: the value of the variable is the result. -/
def getVar (fmt : DoubleFormat D) (opt : BoundOpt) (s : TclState D) :
    Except Fault (TclStatus × TclState D) := do
  let buf ← StringBuffer.new 256
  let buf ← opt.kind.get fmt (s.vals opt.valp_) buf
  let (_, mem) ← buf.cStr
  let s ← s.setResult mem
  return (.ok, s)

/-- `cmd_set` with a value: the option is set, and then the hook is asked. -/
def setVar (env : Platform D) (fmt : DoubleFormat D) (cmd : TclCommand D)
    (name var val : TclString) (opt : BoundOpt) (s : TclState D) :
    Except Fault (TclStatus × TclState D) :=
  match opt.kind.setValue env val.text val.text.length with
  | none => do
    let s ← s.resultf [.printed name.text, .printed " set ".toUTF8.toList, .printed var.text,
      .printed ": invalid value '".toUTF8.toList, .printed val.text, .printed "'".toUTF8.toList]
    return (.error, s)
  | some new => do
    let s ← s.assign opt new
    let (ret, result) := cmd.validate var.text val.text opt s
    let s := { s with result }
    if ret ≠ 0 then return (.error, s)
    else getVar fmt opt s

def cmdSet (env : Platform D) (fmt : DoubleFormat D) (cmd : TclCommand D)
    (objv : List TclString) (s : TclState D) : Except Fault (TclStatus × TclState D) := do
  assert (2 ≤ objv.length)
  -- handle "set binding [value]" command
  if objv.length < 3 || objv.length > 4 then
    let s ← s.resultf [.printed "wrong number of args: expected 3-4, got ".toUTF8.toList,
      .printed (decimal objv.length)]
    return (.error, s)
  match objv with
  | name :: _ :: var :: more =>
    match cmd.bindings_.lookup var.text with
    | none =>
      let s ← s.resultf [.printed "set: binding for ".toUTF8.toList, .printed var.text,
        .printed " does not exist".toUTF8.toList]
      return (.error, s)
    | some opt =>
      -- set value (if any)
      match more with
      | val :: _ => cmd.setVar env fmt name var val opt s
      | [] => getVar fmt opt s
  | _ => throw .outOfBounds

end TclCommand

end Oasys
