import Oasys.ForStd.AssocList
import Oasys.ForStd.Transition
import Oasys.Storage.DurableStore
import Oasys.Util.LRUList

/-!
# DurableObjectCache

The operations of `storage/DurableObjectCache.tcc`, each of which holds the lock of the
cache from its start to its end. A key is the string `get_cache_key` builds, an object the
address it is stored at, never null, and `put` is given the size that `MarshalSize`
computes for the object. The sizes of the objects in memory add up to a `size_t`.
-/

namespace Oasys.DurableObjectCache

inductive CachePolicy where
  | CAP_BY_SIZE
  | CAP_BY_COUNT
  deriving DecidableEq, Repr

/-- An entry of the cache table. -/
structure CacheElement (Obj : Type) where
  object_ : Obj
  object_size_ : Nat
  live_ : Bool
  /-- `none` is an iterator that was never assigned. -/
  lru_iter_ : Option LRUList.Iterator
  deriving DecidableEq, Repr

/-- The cache. -/
structure State (Key Obj : Type) where
  size_ : Nat
  capacity_ : Nat
  hits_ : Nat
  misses_ : Nat
  evictions_ : Nat
  lru_ : LRUList Key
  cache_ : AList fun _ : Key => CacheElement Obj
  policy_ : CachePolicy
  /-- The entries whose object the last operation has deleted, as they were then. -/
  deleted : List (CacheElement Obj)

variable {Key Obj : Type}

def State.new (capacity : Nat) (policy : CachePolicy) : State Key Obj where
  size_ := 0
  capacity_ := capacity
  hits_ := 0
  misses_ := 0
  evictions_ := 0
  lru_ := .new
  cache_ := ∅
  policy_ := policy
  deleted := []

/-- The number of elements in the cache. -/
def State.count (s : State Key Obj) : Nat := s.cache_.entries.length

/-- Whether an added item of `size` puts the cache over the capacity. -/
def State.isOverCapacity (s : State Key Obj) (size : Nat) : Bool :=
  match s.policy_ with
  | .CAP_BY_SIZE => s.capacity_ < s.size_ + size
  | .CAP_BY_COUNT => s.capacity_ < s.count + 1

/-- The node an iterator names, with its key; the use of an iterator that names none is
    undefined. -/
def node (lru_ : LRUList Key) (it : Option LRUList.Iterator) :
    Except Fault (LRUList.Iterator × Key) :=
  match it with
  | none => throw .invalidIterator
  | some it =>
    match lru_.deref it with
    | none => throw .invalidIterator
    | some key => pure (it, key)

variable [DecidableEq Key]

/-- `evict_last`: kicks the least recently used element out of the cache. -/
def evictLast (s : State Key Obj) : Except Fault (State Key Obj) := do
  assert (!s.lru_.empty)
  let (lru_iter, key) ← node s.lru_ s.lru_.begin
  match s.cache_.lookup key with
  | none => throw .assertFailed
  | some cache_elem =>
    assert (cache_elem.lru_iter_ = some lru_iter)
    assert (!cache_elem.live_)
    pure { s with
      cache_ := s.cache_.erase key
      lru_ := s.lru_.popFront
      size_ := s.size_ - cache_elem.object_size_
      evictions_ := s.evictions_ + 1
      deleted := cache_elem :: s.deleted }

/-- `put`: the loop that evicts elements until there is room for the new one, or none but
    live ones are left. A round takes one node off the list. -/
def makeRoom (object_size : Nat) : Nat → State Key Obj → Except Fault (State Key Obj)
  | 0, _ => throw .outOfFuel
  | fuel + 1, s =>
    if s.isOverCapacity object_size then
      if s.lru_.empty then pure s
      else do makeRoom object_size fuel (← evictLast s)
    else pure s

def put [DecidableEq Obj] (s : State Key Obj) (key : Key) (object : Obj) (object_size : Nat)
    (flags : DurableStoreFlags) : Except Fault (DurableStoreResult × State Key Obj) := do
  let s := { s with deleted := [] }
  match s.cache_.lookup key with
  | some cache_elem =>
    if flags.DS_EXCL then pure (.DS_EXISTS, s)
    else if cache_elem.object_ = object then pure (.DS_OK, s)
    else throw .panic
  | none =>
    let s ← makeRoom object_size (s.lru_.nodes.length + 1) s
    -- the element is not put on the list: the object is assumed to be live
    let cache_elem : CacheElement Obj :=
      { object_ := object, object_size_ := object_size, live_ := true, lru_iter_ := none }
    assert (s.cache_.lookup key).isNone
    pure (.DS_OK, { s with
      cache_ := s.cache_.insert key cache_elem
      size_ := s.size_ + object_size })

def get (s : State Key Obj) (key : Key) :
    Except Fault ((DurableStoreResult × Option Obj) × State Key Obj) := do
  let s := { s with deleted := [] }
  match s.cache_.lookup key with
  | none => pure ((.DS_NOTFOUND, none), { s with misses_ := s.misses_ + 1 })
  | some cache_elem =>
    let s := { s with hits_ := s.hits_ + 1 }
    if cache_elem.live_ then pure ((.DS_OK, some cache_elem.object_), s)
    else
      let (lru_iter, cache_key) ← node s.lru_ cache_elem.lru_iter_
      assert (cache_key = key)
      pure ((.DS_OK, some cache_elem.object_), { s with
        cache_ := s.cache_.insert key { cache_elem with live_ := true }
        lru_ := s.lru_.erase lru_iter })

def release [DecidableEq Obj] (s : State Key Obj) (key : Key) (data : Obj) :
    Except Fault (DurableStoreResult × State Key Obj) := do
  let s := { s with deleted := [] }
  match s.cache_.lookup key with
  | none => pure (.DS_ERR, s)
  | some cache_elem =>
    assert (cache_elem.object_ = data)
    let s ←
      if !cache_elem.live_ then do
        let (lru_iter, _) ← node s.lru_ cache_elem.lru_iter_
        pure { s with lru_ := s.lru_.moveToBack lru_iter }
      else do
        let lru_ := s.lru_.pushBack key
        let (_, cache_key) ← node lru_ lru_.last
        assert (cache_key = key)
        pure { s with
          lru_ := lru_
          cache_ := s.cache_.insert key { cache_elem with
            live_ := false, lru_iter_ := lru_.last } }
    if s.isOverCapacity 0 then do
      let s ← evictLast s
      pure (.DS_OK, s)
    else pure (.DS_OK, s)

/-- `del`: removes an object from the cache and deletes it. -/
def del (s : State Key Obj) (key : Key) :
    Except Fault (DurableStoreResult × State Key Obj) := do
  let s := { s with deleted := [] }
  match s.cache_.lookup key with
  | none => pure (.DS_NOTFOUND, s)
  | some cache_elem =>
    if cache_elem.live_ then pure (.DS_ERR, s)
    else
      let (lru_iter, _) ← node s.lru_ cache_elem.lru_iter_
      pure (.DS_OK, { s with
        lru_ := s.lru_.erase lru_iter
        cache_ := s.cache_.erase key
        size_ := s.size_ - cache_elem.object_size_
        deleted := [cache_elem] })

/-- `remove`: removes an entry from the cache, and leaves its object alone. -/
def remove (s : State Key Obj) (key : Key) :
    Except Fault (DurableStoreResult × State Key Obj) := do
  let s := { s with deleted := [] }
  match s.cache_.lookup key with
  | none => pure (.DS_NOTFOUND, s)
  | some cache_elem =>
    let lru_ ←
      if cache_elem.live_ then pure s.lru_
      else do
        let (lru_iter, _) ← node s.lru_ cache_elem.lru_iter_
        pure (s.lru_.erase lru_iter)
    pure (.DS_OK, { s with
      lru_ := lru_
      cache_ := s.cache_.erase key
      size_ := s.size_ - cache_elem.object_size_ })

/-- `flush`: the loop, with `count` evicted so far. -/
def flushFrom : Nat → Nat → State Key Obj → Except Fault (Nat × State Key Obj)
  | 0, _, _ => throw .outOfFuel
  | fuel + 1, count, s =>
    if s.lru_.empty then pure (count, s)
    else do flushFrom fuel (count + 1) (← evictLast s)

/-- `flush`: evicts all elements that are not live, and counts them. -/
def flush (s : State Key Obj) : Except Fault (Nat × State Key Obj) :=
  flushFrom (s.lru_.nodes.length + 1) 0 { s with deleted := [] }

/-- An operation of the cache, with its arguments. -/
inductive Op (Key Obj : Type) where
  | put (key : Key) (object : Obj) (object_size : Nat) (flags : DurableStoreFlags)
  | get (key : Key)
  | release (key : Key) (data : Obj)
  | del (key : Key)
  | remove (key : Key)
  | flush
  deriving DecidableEq, Repr

/-- The state an operation leaves. -/
def exec [DecidableEq Obj] (s : State Key Obj) : Op Key Obj → Except Fault (State Key Obj)
  | .put key object object_size flags => Prod.snd <$> put s key object object_size flags
  | .get key => Prod.snd <$> get s key
  | .release key data => Prod.snd <$> release s key data
  | .del key => Prod.snd <$> del s key
  | .remove key => Prod.snd <$> remove s key
  | .flush => Prod.snd <$> flush s

variable (Key Obj) in
/-- The cache under any sequence of operations, with any capacity and policy. -/
def system [DecidableEq Obj] : TransitionSystem (State Key Obj) (Op Key Obj) where
  init s := ∃ capacity policy, s = .new capacity policy
  step s op s' := exec s op = .ok s'

end Oasys.DurableObjectCache
