import Oasys.Debug.DebugUtils
import Oasys.ForStd.Transition

/-!
# SparseArray

The array of `util/SparseArray.h`. A block's memory is the list of the whole elements that
fit in it, `none` where it was allocated and not yet written. Allocations succeed, and
offsets and sizes add up to what a `size_t` holds.
-/

namespace Oasys

/-- What the code knows of its template parameter `_Type`. -/
structure ElemType (α : Type) where
  /-- `sizeof(_Type)`. -/
  sizeof : Nat
  /-- The value whose bytes are all 0. -/
  zero : α
  /-- `_Type()`. -/
  default : α
  deriving DecidableEq, Repr

namespace SparseArray

variable {α : Type}

structure Block (α : Type) where
  offset_ : Nat
  size_ : Nat
  data_ : List (Option α)
  deriving DecidableEq, Repr

/-- The offset behind the block. -/
def Block.finish (b : Block α) : Nat := b.offset_ + b.size_

/-- The constructor of `Block`, with its `calloc`. -/
def Block.new (T : ElemType α) (offset size : Nat) : Block α :=
  { offset_ := offset, size_ := size, data_ := List.replicate size (some T.zero) }

/-- `realloc` to `n` whole elements. -/
def realloc (data : List (Option α)) (n : Nat) : List (Option α) :=
  data.take n ++ List.replicate (n - data.length) none

/-- A read of `data[i]`. -/
def load (data : List (Option α)) (i : Nat) : Except Fault (Option α) :=
  match data[i]? with
  | some v => pure v
  | none => throw .outOfBounds

/-- A write of `data[i]`. -/
def store (data : List (Option α)) (i : Nat) (v : Option α) : Except Fault (List (Option α)) :=
  if i < data.length then pure (data.set i v) else throw .outOfBounds

/-- The loop `for (i...) dest[offset + i] = src[i]`, with `n` rounds left. -/
def copy (src : List (Option α)) (offset : Nat) :
    Nat → Nat → List (Option α) → Except Fault (List (Option α))
  | _, 0, dest => pure dest
  | i, n + 1, dest => do
    let v ← load src i
    let dest ← store dest (offset + i) v
    copy src offset (i + 1) n dest

/-- `operator[]`. -/
def get (T : ElemType α) (offset : Nat) : List (Block α) → Except Fault (Option α)
  | [] => pure (some T.default)
  | itr :: blocks =>
    if itr.offset_ ≤ offset ∧ itr.offset_ + itr.size_ > offset then
      load itr.data_ (offset - itr.offset_)
    else if itr.offset_ > offset then pure (some T.default)
    else get T offset blocks

def size (blocks : List (Block α)) : Nat :=
  match blocks.getLast? with
  | none => 0
  | some i => i.offset_ + i.size_

/-- Where the first loop of `allocate` ends. -/
inductive Search (α : Type) where
  /-- In a block that has room for all of it, with those behind it. -/
  | contained (itr : Block α) (rest : List (Block α))
  /-- At a block it runs out of. -/
  | merge (itr : Block α) (rest : List (Block α))
  /-- In front of these. -/
  | insert (rest : List (Block α))
  deriving DecidableEq, Repr

/-- The first loop of `allocate`, with the blocks it has stepped over. -/
def search (offset size : Nat) :
    List (Block α) → Except Fault (List (Block α) × Search α)
  | [] => pure ([], .insert [])
  | itr :: blocks =>
    -- case 1
    if itr.offset_ + itr.size_ ≤ offset then do
      let (before, found) ← search offset size blocks
      pure (itr :: before, found)
    -- case 2
    else if itr.offset_ ≤ offset ∧ itr.offset_ + itr.size_ ≥ offset + size then
      pure ([], .contained itr blocks)
    -- case 3
    else if itr.offset_ ≤ offset ∧ itr.offset_ + itr.size_ > offset ∧
        itr.offset_ + itr.size_ < offset + size then
      pure ([], .merge itr blocks)
    else if itr.offset_ > offset then pure ([], .insert (itr :: blocks))
    else throw .panic

/-- The second loop of `allocate`, which takes the blocks behind `itr` into it. -/
def absorb (T : ElemType α) (itr : Block α) :
    List (Block α) → Except Fault (Block α × List (Block α))
  | [] => pure (itr, [])
  | tail :: blocks =>
    if tail.offset_ > itr.offset_ + itr.size_ then pure (itr, tail :: blocks)
    -- case 1
    else if tail.offset_ ≤ itr.offset_ + itr.size_ ∧
        tail.offset_ + tail.size_ ≤ itr.offset_ + itr.size_ then do
      let data ← copy tail.data_ (tail.offset_ - itr.offset_) 0 tail.size_ itr.data_
      absorb T { itr with data_ := data } blocks
    -- case 2
    else if tail.offset_ ≤ itr.offset_ + itr.size_ then do
      let new_size := tail.offset_ + tail.size_ - itr.offset_
      -- `new_size` counts elements, and `realloc` takes bytes
      let data := realloc itr.data_ (new_size / T.sizeof)
      let data ← copy tail.data_ (tail.offset_ - itr.offset_) 0 tail.size_ data
      absorb T { itr with size_ := new_size, data_ := data } blocks
    else throw .panic

/-- `allocate`: the blocks before the one that has room for the elements, that block, and
    those behind it. -/
def allocate (T : ElemType α) (blocks : List (Block α)) (offset size : Nat) :
    Except Fault (List (Block α) × Block α × List (Block α)) := do
  let (before, found) ← search offset size blocks
  match found with
  | .contained itr rest => pure (before, itr, rest)
  | .merge itr rest =>
    let new_size := offset + size - itr.offset_
    let itr := { itr with size_ := new_size, data_ := realloc itr.data_ new_size }
    let (itr, rest) ← absorb T itr rest
    pure (before, itr, rest)
  | .insert rest =>
    let (itr, rest) ← absorb T (.new T offset size) rest
    pure (before, itr, rest)

/-- `range_write`, where `elts` is the length of `vals`. -/
def rangeWrite (T : ElemType α) (blocks : List (Block α)) (offset : Nat) (vals : List α) :
    Except Fault (List (Block α)) := do
  let (before, itr, rest) ← allocate T blocks offset vals.length
  let data ← copy (vals.map some) (offset - itr.offset_) 0 vals.length itr.data_
  pure (before ++ { itr with data_ := data } :: rest)

/-! ### Runs -/

/-- An array, with the value written last at each index. -/
structure State (α : Type) where
  blocks_ : List (Block α)
  written : Nat → Option α

/-- What is written at each index after a write. -/
def overwrite (written : Nat → Option α) (offset : Nat) (vals : List α) : Nat → Option α :=
  fun i => if offset ≤ i ∧ i < offset + vals.length then vals[i - offset]? else written i

/-- The runs of an array: one `range_write` after the other, as long as none of them faults. -/
def system (T : ElemType α) : TransitionSystem (State α) (Nat × List α) where
  init s := s = ⟨[], fun _ => none⟩
  step s a s' := rangeWrite T s.blocks_ a.1 a.2 = .ok s'.blocks_ ∧
    s'.written = overwrite s.written a.1 a.2

end SparseArray

end Oasys
