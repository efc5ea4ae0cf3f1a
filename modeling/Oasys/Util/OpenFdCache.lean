import Mathlib.Data.List.AList
import Oasys.Util.IntType
import Oasys.Util.LRUList

/-!
# OpenFdCache

`OpenFdCache` of `util/OpenFdCache.h`, which keeps files open. Every operation holds the
lock of the cache from its start to its end. A descriptor is an `int`, as is a pin count,
in a build that leaves the overflow of one undefined; what `_CloseFcn::close` is called on
is written down in `closed`.
-/

namespace Oasys

/-- An entry of the list. -/
structure FdListEnt (Key : Type) where
  key_ : Key
  fd_ : Int
  pin_count_ : Int
  deriving DecidableEq, Repr

/-- The cache. -/
structure OpenFdCache (Key : Type) where
  open_fds_ : LRUList (FdListEnt Key)
  open_fds_map_ : AList fun _ : Key => LRUList.Iterator
  max_ : Nat
  /-- The descriptors that have been closed, each with the node it was in, latest first. -/
  closed : List (LRUList.Iterator × Int)

namespace OpenFdCache

variable {Key : Type}

def new (max : Nat) : OpenFdCache Key where
  open_fds_ := .new
  open_fds_map_ := ∅
  max_ := max
  closed := []

/-- The largest descriptor an eviction expects to see, and one. -/
def fdLimit : Int := 8 * 1024

/-- `++it->pin_count_` or `--it->pin_count_`, with the descriptor of the entry. -/
def addPins (c : OpenFdCache Key) (it : LRUList.Iterator) (d : Int) :
    Except Fault (Int × OpenFdCache Key) :=
  match c.open_fds_.deref it with
  | none => throw .invalidIterator
  | some ent =>
    if IntType.int.InRange (ent.pin_count_ + d) then
      pure (ent.fd_, { c with
        open_fds_ := c.open_fds_.set it { ent with pin_count_ := ent.pin_count_ + d } })
    else throw .overflow

variable [DecidableEq Key]

/-- The entry `ent` at `it` is closed, and leaves the cache. -/
def remove (c : OpenFdCache Key) (it : LRUList.Iterator) (ent : FdListEnt Key) :
    OpenFdCache Key :=
  { c with
    closed := (it, ent.fd_) :: c.closed
    open_fds_map_ := c.open_fds_map_.erase ent.key_
    open_fds_ := c.open_fds_.erase it }

def getAndPin (c : OpenFdCache Key) (key : Key) : Except Fault (Int × OpenFdCache Key) :=
  match c.open_fds_map_.lookup key with
  | none => pure (-1, c)
  | some it => do
    let (fd, c) ← { c with open_fds_ := c.open_fds_.moveToBack it }.addPins it 1
    assert (fd ≠ -1)
    pure (fd, c)

/-- `unpin`, which does not look at the count. -/
def unpin (c : OpenFdCache Key) (key : Key) : Except Fault (OpenFdCache Key) :=
  match c.open_fds_map_.lookup key with
  | none => throw .assertFailed
  | some it => Prod.snd <$> c.addPins it (-1)

/-- `evict`: closes the first entry without a pin, `none` where all are busy. -/
def evict (c : OpenFdCache Key) : Except Fault (Option (OpenFdCache Key)) :=
  match c.open_fds_.nodes.find? (·.2.pin_count_ = 0) with
  | none => pure none
  | some (it, ent) => do
    assert (ent.fd_ < fdLimit)
    pure (some (c.remove it ent))

/-- `put_and_pin`: the loop that evicts. A round takes one node off the list. -/
def makeRoom : Nat → OpenFdCache Key → Except Fault (OpenFdCache Key)
  | 0, _ => throw .outOfFuel
  | fuel + 1, c =>
    if c.open_fds_map_.entries.length + 1 > c.max_ then do
      match ← c.evict with
      | none => pure c
      | some c => makeRoom fuel c
    else pure c

/-- The entry of `key` goes to the end of the list, with one pin. -/
def append (c : OpenFdCache Key) (key : Key) (fd : Int) : OpenFdCache Key :=
  { c with
    open_fds_ := c.open_fds_.pushBack { key_ := key, fd_ := fd, pin_count_ := 1 }
    open_fds_map_ := c.open_fds_map_.insert key c.open_fds_.next }

/-- `put_and_pin`, with the descriptor that is cached for the key. -/
def putAndPin (c : OpenFdCache Key) (key : Key) (fd : Int) :
    Except Fault (Int × OpenFdCache Key) := do
  assert (fd ≠ -1)
  match c.open_fds_map_.lookup key with
  | some it => c.addPins it 1
  | none =>
    let c ← makeRoom (c.open_fds_.nodes.length + 1) c
    pure (fd, c.append key fd)

def close (c : OpenFdCache Key) (key : Key) : Except Fault (OpenFdCache Key) :=
  match c.open_fds_map_.lookup key with
  | none => pure c
  | some it =>
    match c.open_fds_.deref it with
    | none => throw .invalidIterator
    | some ent => do
      assert (ent.pin_count_ = 0)
      -- the map entry that goes is the one that was found
      pure { c with
        closed := (it, ent.fd_) :: c.closed
        open_fds_ := c.open_fds_.erase it
        open_fds_map_ := c.open_fds_map_.erase key }

/-- `close_all`, which closes what is pinned too. -/
def closeAll (c : OpenFdCache Key) : OpenFdCache Key :=
  { c with
    closed := (c.open_fds_.nodes.map fun n => (n.1, n.2.fd_)).reverse ++ c.closed
    open_fds_ := c.open_fds_.clear
    open_fds_map_ := ∅ }

end OpenFdCache

end Oasys
