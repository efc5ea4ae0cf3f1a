import Mathlib.Data.List.AList
import Oasys.Util.IntType
import Oasys.Util.LRUList

/-!
# Cache

`Cache` of `util/Cache.h`, with the `CacheCapacityHelper` of `util/CacheCapacityHelper.h`.
An operation that takes the lock of the cache holds it from its start to its end, and so
does one that takes the lock of an entry. A pin count is an `int`, in a build that leaves
the overflow of one undefined; the count of the helper, which counts entries in memory, is
a `size_t` that does not overflow.
-/

namespace Oasys

/-- What the cache asks of its `_CacheHelper`. -/
class CacheHelper (H : Type) (Key Val : outParam Type) where
  /-- Whether adding this value would exceed the limits. -/
  over_limit : H → Key → Val → Bool
  /-- A value has been added. -/
  put : H → Key → Val → H
  /-- A value is removed. -/
  cleanup : H → Key → Val → H

structure CacheCapacityHelper (Key Val : Type) where
  capacity_ : Nat
  count_ : Nat
  deriving DecidableEq, Repr

instance {Key Val : Type} : CacheHelper (CacheCapacityHelper Key Val) Key Val where
  over_limit h _ _ := h.count_ + 1 > h.capacity_
  put h _ _ := { h with count_ := h.count_ + 1 }
  cleanup h _ _ := { h with count_ := h.count_ - 1 }

/-- The constructor of `CacheCapacityHelper`. -/
def CacheCapacityHelper.new {Key Val : Type} (capacity : Nat) :
    CacheCapacityHelper Key Val where
  capacity_ := capacity
  count_ := 0

/-- An entry of the list. -/
structure LRUListEnt (Key Val : Type) where
  key_ : Key
  val_ : Val
  pin_count_ : Int
  deriving DecidableEq, Repr

/-- The cache. -/
structure Cache (Key Val H : Type) where
  cache_list_ : LRUList (LRUListEnt Key Val)
  cache_map_ : AList fun _ : Key => LRUList.Iterator
  helper_ : H
  reorder_on_access_ : Bool

namespace Cache

variable {Key Val H : Type}

def new (helper : H) (reorder_on_access : Bool) : Cache Key Val H where
  cache_list_ := .new
  cache_map_ := ∅
  helper_ := helper
  reorder_on_access_ := reorder_on_access

/-- `++it->pin_count_` or `--it->pin_count_`, with the new count. -/
def addPins (c : Cache Key Val H) (it : LRUList.Iterator) (d : Int) :
    Except Fault (Int × Cache Key Val H) :=
  match c.cache_list_.deref it with
  | none => throw .invalidIterator
  | some ent =>
    if IntType.int.InRange (ent.pin_count_ + d) then
      pure (ent.pin_count_ + d, { c with
        cache_list_ := c.cache_list_.set it { ent with pin_count_ := ent.pin_count_ + d } })
    else throw .overflow

/-- `pin(handle)`. -/
def pinHandle (c : Cache Key Val H) (itr_ : LRUList.Iterator) :
    Except Fault (Int × Cache Key Val H) :=
  c.addPins itr_ 1

/-- `unpin(handle)`. -/
def unpinHandle (c : Cache Key Val H) (itr_ : LRUList.Iterator) :
    Except Fault (Int × Cache Key Val H) :=
  c.addPins itr_ (-1)

variable [DecidableEq Key]

def pin (c : Cache Key Val H) (key : Key) : Except Fault (Int × Cache Key Val H) :=
  match c.cache_map_.lookup key with
  | none => throw .assertFailed
  | some it => c.addPins it 1

def unpin (c : Cache Key Val H) (key : Key) : Except Fault (Int × Cache Key Val H) :=
  match c.cache_map_.lookup key with
  | none => throw .assertFailed
  | some it =>
    match c.cache_list_.deref it with
    | none => throw .invalidIterator
    | some ent => do
      assert (ent.pin_count_ > 0)
      c.addPins it (-1)

/-- `get`: the entry at `it` goes to the end of the list, where the cache reorders. -/
def access (c : Cache Key Val H) (it : LRUList.Iterator) : Cache Key Val H :=
  if c.reorder_on_access_ then { c with cache_list_ := c.cache_list_.moveToBack it } else c

/-- `get`: the entry at `it` is pinned, where that is asked for. -/
def pinIf (c : Cache Key Val H) (it : LRUList.Iterator) (pin : Bool) :
    Except Fault (Cache Key Val H) :=
  if pin then Prod.snd <$> c.addPins it 1 else pure c

/-- `get`, with the value and the iterator of the handle where the key is there. -/
def get (c : Cache Key Val H) (key : Key) (pin : Bool) :
    Except Fault (Option (Val × LRUList.Iterator) × Cache Key Val H) :=
  match c.cache_map_.lookup key with
  | none => pure (none, c)
  | some it => do
    let c ← (c.access it).pinIf it pin
    match c.cache_list_.deref it with
    | none => throw .invalidIterator
    | some ent => pure (some (ent.val_, it), c)

def getAndPin (c : Cache Key Val H) (key : Key) :
    Except Fault (Option (Val × LRUList.Iterator) × Cache Key Val H) :=
  c.get key true

variable [CacheHelper H Key Val]

/-- The entry `ent` at `it` leaves the cache. -/
def remove (c : Cache Key Val H) (it : LRUList.Iterator) (ent : LRUListEnt Key Val) :
    Cache Key Val H :=
  { c with
    helper_ := CacheHelper.cleanup c.helper_ ent.key_ ent.val_
    cache_map_ := c.cache_map_.erase ent.key_
    cache_list_ := c.cache_list_.erase it }

/-- `evict_last`: throws out the first entry without a pin, `none` where all are busy. -/
def evictLast (c : Cache Key Val H) : Option (Cache Key Val H) :=
  match c.cache_list_.nodes.find? (·.2.pin_count_ = 0) with
  | none => none
  | some (it, ent) => some (c.remove it ent)

/-- `put_and_pin`: the loop that evicts. A round takes one node off the list. -/
def makeRoom (key : Key) (val : Val) : Nat → Cache Key Val H → Except Fault (Cache Key Val H)
  | 0, _ => throw .outOfFuel
  | fuel + 1, c =>
    if CacheHelper.over_limit c.helper_ key val then
      match c.evictLast with
      | none => pure c
      | some c => makeRoom key val fuel c
    else pure c

/-- The entry of `key` goes to the end of the list, with one pin. -/
def append (c : Cache Key Val H) (key : Key) (val : Val) : Cache Key Val H :=
  { c with
    cache_list_ := c.cache_list_.pushBack { key_ := key, val_ := val, pin_count_ := 1 }
    cache_map_ := c.cache_map_.insert key c.cache_list_.next
    helper_ := CacheHelper.put c.helper_ key val }

/-- `put_and_pin`, with the iterator of the handle where the key was not there. -/
def putAndPin (c : Cache Key Val H) (key : Key) (val : Val) :
    Except Fault (Option LRUList.Iterator × Cache Key Val H) :=
  match c.cache_map_.lookup key with
  | some _ => pure (none, c)
  | none => do
    let c ← makeRoom key val (c.cache_list_.nodes.length + 1) c
    pure (some c.cache_list_.next, c.append key val)

/-- `evict`: forcibly. -/
def evict (c : Cache Key Val H) (key : Key) : Except Fault (Cache Key Val H) :=
  match c.cache_map_.lookup key with
  | none => pure c
  | some it =>
    match c.cache_list_.deref it with
    | none => throw .invalidIterator
    | some ent => do
      assert (key = ent.key_)
      pure (c.remove it ent)

def evictAll (c : Cache Key Val H) : Cache Key Val H :=
  { c with
    helper_ := c.cache_list_.elts.foldl
      (fun helper ent => CacheHelper.cleanup helper ent.key_ ent.val_) c.helper_
    cache_list_ := c.cache_list_.clear
    cache_map_ := ∅ }

end Cache

end Oasys
