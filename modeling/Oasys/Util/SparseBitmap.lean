import Oasys.Util.IntType

/-!
# SparseBitmap

The vector of set ranges and the operations `set`, `clear` and `is_set` on it, as
`util/SparseBitmap.tcc` computes them.

The C++ code walks the vector with an iterator `i`. Here the vector is split at
the iterator: `left` holds the entries before `*i`, nearest first, and the list
that the loops recurse on starts with `*i`; the empty list is `end()`.
-/

namespace Oasys.SparseBitmap

/-- `SparseBitmap::Range`: the bits `start_` to `end_`, both included. -/
structure Range where
  start_ : Int
  end_ : Int
  deriving DecidableEq, Repr

/-- An iterator that points at `entry`. -/
structure Cursor where
  left : List Range
  entry : Range
  right : List Range
  deriving DecidableEq, Repr

/-- The vector the iterator points into. -/
def Cursor.vector (c : Cursor) : List Range := c.left.reverse ++ c.entry :: c.right

variable (B : Build) (T : IntType)

/-- `_inttype_t end = start + len - 1`. -/
def lastBit (start len : Int) : Except Fault Int := do
  let sum ← T.arith B (start + len)
  let last ← T.arith B (sum - 1)
  return T.conv last

/-- The test of case 2, `start >= i->start_ && start <= (i->end_ + 1)`. -/
def extendsRight (start : Int) (r : Range) : Except Fault Bool :=
  if r.start_ ≤ start then do
    let next ← T.arith B (r.end_ + 1)
    return decide (start ≤ next)
  else
    return false

/-- The test of case 3, `end >= (i->start_ - 1) && end <= i->end_`. -/
def extendsLeft (end_ : Int) (r : Range) : Except Fault Bool := do
  let prev ← T.arith B (r.start_ - 1)
  return decide (prev ≤ end_ ∧ end_ ≤ r.end_)

/-- The `while (1)` loop of `set`. `none` is its `return` when there is nothing to
    do; otherwise the iterator it leaves at the new or extended entry. -/
def search (start end_ : Int) : List Range → List Range → Except Fault (Option Cursor)
  -- case 1: reached the end of the line
  | left, [] => return some ⟨left, ⟨start, end_⟩, []⟩
  | left, r :: right => do
    let toRight ← extendsRight B T start r
    if toRight then
      -- case 2: extend a range to the right
      return if end_ ≤ r.end_ then none else some ⟨left, { r with end_ := end_ }, right⟩
    else
      let toLeft ← extendsLeft B T end_ r
      if toLeft then
        -- case 3: extend a range to the left
        return if r.start_ ≤ start then none
          else some ⟨left, { r with start_ := start }, right⟩
      else if end_ < r.start_ then
        -- case 4: insert a new entry
        return some ⟨left, ⟨start, end_⟩, r :: right⟩
      else
        search start end_ (r :: left) right

/-- The first compaction loop of `set`: removes the entries to the right that the
    new entry covers. -/
def compactRight (i : Range) : List Range → Except Fault (Range × List Range)
  | [] => return (i, [])
  | j :: right => do
    let prev ← T.arith B (j.start_ - 1)
    if prev ≤ i.end_ then
      compactRight (if i.end_ < j.end_ then { i with end_ := j.end_ } else i) right
    else
      return (i, j :: right)

/-- The second compaction loop of `set`, over the entries to the left. -/
def compactLeft (i : Range) : List Range → Except Fault (List Range × Range)
  | [] => return ([], i)
  | j :: left => do
    let prev ← T.arith B (i.start_ - 1)
    if prev ≤ j.end_ then
      let i := if j.start_ < i.start_ then { i with start_ := j.start_ } else i
      let i := if i.end_ < j.end_ then { i with end_ := j.end_ } else i
      compactLeft i left
    else
      return (j :: left, i)

/-- The loop of `validate`. -/
def validateFrom : Range → List Range → Except Fault Unit
  | _, [] => return ()
  | i, j :: right => do
    assert (j.start_ ≤ j.end_)
    assert (i.end_ < j.start_)
    validateFrom j right

/-- `validate`, which does nothing under `NDEBUG`. -/
def validate (v : List Range) : Except Fault Unit :=
  if B.ndebug then return ()
  else
    match v with
    | [] => throw .outOfBounds
    | i :: right => do
      assert (i.start_ ≤ i.end_)
      validateFrom i right

def set (v : List Range) (start len : Int) : Except Fault (List Range) := do
  assert (len ≠ 0)
  let end_ ← lastBit B T start len
  let found ← search B T start end_ [] v
  match found with
  | none => return v
  | some c =>
    let (i, right) ← compactRight B T c.entry c.right
    let (left, i) ← compactLeft B T i c.left
    let v' := left.reverse ++ i :: right
    validate B v'
    return v'

/-- The loop of `clear`, over a vector that has room for `capacity` entries.
    `fuel` bounds its iterations. -/
def clearFrom (capacity : Nat) (start end_ : Int) :
    Nat → List Range → List Range → Except Fault (List Range)
  | 0, _, _ => throw .outOfFuel
  | _ + 1, left, [] => return left.reverse
  | fuel + 1, left, r :: right =>
    if start ≤ r.start_ ∧ r.end_ ≤ end_ then
      -- case 1: the entire entry is cleared
      clearFrom capacity start end_ fuel left right
    else if start ≤ r.start_ ∧ end_ < r.end_ ∧ r.start_ ≤ end_ then do
      -- case 2: shrink an entry on the left
      let next ← T.arith B (end_ + 1)
      clearFrom capacity start end_ fuel ({ r with start_ := T.conv next } :: left) right
    else if r.start_ < start ∧ start ≤ r.end_ then
      if r.end_ ≤ end_ then do
        -- case 3: shrink an entry on the right
        let prev ← T.arith B (start - 1)
        clearFrom capacity start end_ fuel ({ r with end_ := T.conv prev } :: left) right
      else if left.length + (r :: right).length < capacity then
        -- case 4: split an entry into two
        clearFrom capacity start end_ fuel ({ r with end_ := start } :: left)
          (⟨end_, r.end_⟩ :: right)
      else
        -- the insertion moved the vector, and `i` still points into the old one
        throw .invalidIterator
    else
      clearFrom capacity start end_ fuel (r :: left) right

def clear (capacity fuel : Nat) (v : List Range) (start len : Int) :
    Except Fault (List Range) := do
  let end_ ← lastBit B T start len
  clearFrom B T capacity start end_ fuel [] v

def isSet (v : List Range) (start len : Int) : Except Fault Bool :=
  match v with
  | [] => return false
  | r :: v =>
    if r.start_ ≤ start then do
      let sum ← T.arith B (start + len)
      let last ← T.arith B (sum - 1)
      if last ≤ r.end_ then return true else isSet v start len
    else
      isSet v start len

end Oasys.SparseBitmap

/-!
### SparseBitmap: iterators

`SparseBitmap::iterator` and the operations of the bitmap that go through its entries. The
iterator of the vector is the index of the entry it points at, and that of `end()` is the
length. `diff` is an `unsigned int` and `space` a `size_t`, and what they meet an
`_inttype_t` in has the type that the usual arithmetic conversions give.
-/

namespace Oasys.SparseBitmap

structure Iterator where
  iter_ : Nat
  offset_ : Int
  deriving DecidableEq, Repr

variable (B : Build) (T : IntType) (v : List Range)

def begin : Iterator := ⟨0, 0⟩

/-- `SparseBitmap::end`. -/
def «end» : Iterator := ⟨v.length, 0⟩

namespace Iterator

/-- The entry that `iter_` points at. -/
def entry (iter_ : Nat) : Except Fault Range :=
  match v[iter_]? with
  | some r => pure r
  | none => throw .invalidIterator

/-- The type of an operation between an `_inttype_t` and an `unsigned int`. -/
def withUnsigned : IntType := if T.width ≤ IntType.intWidth then .u32 else T

/-- `offset_ = iter_->end_ - iter_->start_`. -/
def lastOffset (r : Range) : Except Fault Int := do
  let diff ← T.arith B (r.end_ - r.start_)
  return T.conv diff

/-- `operator*`. -/
def deref (i : Iterator) : Except Fault Int := do
  let r ← entry v i.iter_
  let sum ← T.arith B (r.start_ + i.offset_)
  return T.conv sum

/-- `operator++`. -/
def increment (i : Iterator) : Except Fault Iterator := do
  let r ← entry v i.iter_
  let sum ← T.arith B (r.start_ + i.offset_)
  if sum = r.end_ then
    return ⟨i.iter_ + 1, 0⟩
  else
    let next ← T.arith B (i.offset_ + 1)
    return { i with offset_ := T.conv next }

/-- `operator--`. -/
def decrement (i : Iterator) : Except Fault Iterator :=
  if i.offset_ = 0 then
    match i.iter_ with
    | 0 => throw .invalidIterator
    | k + 1 => do
      let r ← entry v k
      let last ← lastOffset B T r
      return ⟨k, last⟩
  else do
    let prev ← T.arith B (i.offset_ - 1)
    return { i with offset_ := T.conv prev }

/-- `offset_ += diff`. -/
def forth (offset_ diff : Int) : Except Fault Int := do
  let sum ← (withUnsigned T).arith B ((withUnsigned T).conv offset_ + (withUnsigned T).conv diff)
  return T.conv sum

/-- `offset_ -= diff`. -/
def back (offset_ diff : Int) : Except Fault Int := do
  let left ← (withUnsigned T).arith B ((withUnsigned T).conv offset_ - (withUnsigned T).conv diff)
  return T.conv left

/-- `diff -= (space + 1)`. -/
def passSpace (diff space : Int) : Except Fault Int := do
  let used ← IntType.u64.arith B (space + 1)
  let left ← IntType.u64.arith B (IntType.u64.conv diff - used)
  return IntType.u32.conv left

/-- `diff -= (offset_ + 1)`. -/
def passOffset (diff offset_ : Int) : Except Fault Int := do
  let used ← T.arith B (offset_ + 1)
  let left ← (withUnsigned T).arith B ((withUnsigned T).conv diff - (withUnsigned T).conv used)
  return IntType.u32.conv left

/-- The loop of `operator+=`, where `iter_` points at the first entry of the list. -/
def addFrom (iter_ : Nat) (offset_ diff : Int) : List Range → Except Fault Iterator
  | [] => if diff = 0 then pure ⟨iter_, offset_⟩ else throw .invalidIterator
  | r :: right =>
    if diff = 0 then pure ⟨iter_, offset_⟩
    else do
      let sum ← T.arith B (r.start_ + offset_)
      let left ← T.arith B (r.end_ - sum)
      let space := IntType.u64.conv left
      if IntType.u64.conv diff ≤ space then
        let offset ← forth B T offset_ diff
        return ⟨iter_, offset⟩
      else
        let diff ← passSpace B diff space
        addFrom (iter_ + 1) 0 diff right

/-- `operator+=`. -/
def addAssign (i : Iterator) (diff : Int) : Except Fault Iterator :=
  addFrom B T i.iter_ i.offset_ diff (v.drop i.iter_)

/-- The loop of `operator-=`. -/
def subFrom (offset_ diff : Int) : Nat → Except Fault Iterator
  | 0 =>
    if diff = 0 then pure ⟨0, offset_⟩
    else if T.conv diff ≤ offset_ then do
      let offset ← back B T offset_ diff
      return ⟨0, offset⟩
    else throw .invalidIterator
  | k + 1 =>
    if diff = 0 then pure ⟨k + 1, offset_⟩
    else if T.conv diff ≤ offset_ then do
      let offset ← back B T offset_ diff
      return ⟨k + 1, offset⟩
    else do
      let diff ← passOffset B T diff offset_
      let r ← entry v k
      let last ← lastOffset B T r
      subFrom last diff k

/-- `operator-=`. -/
def subAssign (i : Iterator) (diff : Int) : Except Fault Iterator :=
  subFrom B T v i.offset_ diff i.iter_

def skipContiguous (i : Iterator) : Except Fault Iterator := do
  let r ← entry v i.iter_
  let last ← lastOffset B T r
  return { i with offset_ := last }

/-- `n` calls of an operator, one after the other. -/
def times (step : Iterator → Except Fault Iterator) : Nat → Iterator → Except Fault Iterator
  | 0, i => pure i
  | n + 1, i => do
    let i ← step i
    times step n i

end Iterator

/-- The loop of `num_set`. -/
def numSetFrom (ret : Int) : List Range → Except Fault Int
  | [] => pure ret
  | i :: right => do
    let diff ← T.arith B (i.end_ - i.start_)
    let len ← T.arith B (diff + 1)
    let sum ← T.arith B (ret + len)
    numSetFrom (T.conv sum) right

def numSet : Except Fault Int := numSetFrom B T 0 v

end Oasys.SparseBitmap
