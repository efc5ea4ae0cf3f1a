import Oasys.Debug.DebugUtils

/-!
# COWIoVec

The copy-on-write `iovec` of `io/IO.cc`, with the arrays that its pointer goes to: the one of
the caller, the one inside the object, and the one from `malloc`, which does not fail.
-/

namespace Oasys

namespace Io

structure IoVec where
  iov_base : Nat
  iov_len : Nat
  deriving DecidableEq, Repr

/-- The addresses of the bytes of vectors, in order. -/
def addresses (iov : List IoVec) : List Nat :=
  iov.flatMap fun v => List.range' v.iov_base v.iov_len

/-- The number of bytes of vectors. -/
def totalLen (iov : List IoVec) : Nat := (iov.map IoVec.iov_len).sum

/-- The arrays of vectors. -/
inductive IovArray where
  | caller
  | static_iov_
  | dynamic_iov_
  deriving DecidableEq, Repr

/-- A pointer to an entry of an array, `none` where it is null. -/
abbrev IovPtr := Option (IovArray × Nat)

structure COWIoVec where
  iov_ : IovPtr
  iovcnt_ : Nat
  bytes_left_ : Nat
  copied_ : Bool
  /-- The entries of `static_iov_` that have been written. -/
  static_iov_ : List IoVec
  /-- The array that `dynamic_iov_` points to, if it is not null. -/
  dynamic_iov_ : Option (List IoVec)
  /-- The array of the caller. -/
  caller : List IoVec
  deriving DecidableEq, Repr

namespace COWIoVec

/-- The constructor. `bytes_left_` is a `size_t`. -/
def new (iov : List IoVec) : COWIoVec where
  iov_ := some (.caller, 0)
  iovcnt_ := iov.length
  bytes_left_ := totalLen iov % 2 ^ 64
  copied_ := false
  static_iov_ := []
  dynamic_iov_ := none
  caller := iov

/-- What an array holds. -/
def array (c : COWIoVec) : IovArray → List IoVec
  | .caller => c.caller
  | .static_iov_ => c.static_iov_
  | .dynamic_iov_ => c.dynamic_iov_.getD []

/-- An assignment to an array. -/
def setArray (c : COWIoVec) : IovArray → List IoVec → COWIoVec
  | .caller, iov => { c with caller := iov }
  | .static_iov_, iov => { c with static_iov_ := iov }
  | .dynamic_iov_, iov => { c with dynamic_iov_ := some iov }

/-- The `iovcnt()` entries from `iov()`. -/
def entries (c : COWIoVec) : Except Fault (List IoVec) :=
  match c.iov_ with
  | none => if c.iovcnt_ = 0 then pure [] else throw .nullDeref
  | some (a, k) =>
    let iov := ((c.array a).drop k).take c.iovcnt_
    if iov.length = c.iovcnt_ then pure iov else throw .outOfBounds

def copy (c : COWIoVec) : Except Fault COWIoVec := do
  assert (!c.copied_)
  let iov ← c.entries
  if c.iovcnt_ ≤ 16 then
    pure { c with copied_ := true, static_iov_ := iov, iov_ := some (.static_iov_, 0) }
  else
    pure { c with copied_ := true, dynamic_iov_ := some iov, iov_ := some (.dynamic_iov_, 0) }

/-- The loop of `consume`, a round for each entry that is left. -/
def consumeLoop (iovcnt cc : Nat) (c : COWIoVec) : Except Fault COWIoVec :=
  if cc > 0 then
    match iovcnt with
    | 0 => throw .assertFailed
    | iovcnt + 1 =>
      match c.iov_ with
      | none => throw .nullDeref
      | some (a, k) =>
        match (c.array a)[k]? with
        | none => throw .outOfBounds
        | some v =>
          if v.iov_len ≤ cc then
            consumeLoop iovcnt (cc - v.iov_len)
              { c with iovcnt_ := iovcnt, iov_ := some (a, k + 1) }
          else
            pure (c.setArray a ((c.array a).set k
              { iov_base := v.iov_base + cc, iov_len := v.iov_len - cc }))
  else pure c

def consume (c : COWIoVec) (cc : Nat) : Except Fault COWIoVec := do
  assert (cc ≤ c.bytes_left_)
  if !c.copied_ && cc = c.bytes_left_ then
    pure { c with iov_ := none, bytes_left_ := 0 }
  else
    let c ← if c.copied_ then pure c else c.copy
    let c ← consumeLoop c.iovcnt_ cc { c with bytes_left_ := c.bytes_left_ - cc }
    pure (if c.bytes_left_ = 0 then { c with iov_ := none } else c)

/-- The destructor: the pointers that it gives to `free`. -/
def freed (c : COWIoVec) : List IovPtr := if c.dynamic_iov_.isSome then [c.iov_] else []

/-- The pointers that `malloc` has returned. -/
def allocated (c : COWIoVec) : List IovPtr :=
  if c.dynamic_iov_.isSome then [some (.dynamic_iov_, 0)] else []

end COWIoVec

end Io

end Oasys
