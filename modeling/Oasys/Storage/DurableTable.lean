import Oasys.Storage.DurableObjectCache

/-!
# DurableTable

The single-type and the multi-type table of `storage/DurableTable.tcc`, over any
implementation of `DurableTableImpl` and with or without an object cache. An object is an
address with a content in the heap; `get` is given the address that `new` returns should
it allocate one. What the client sees of a call is its result code and the content of the
object it returns. `from_cache` is left out.
-/

namespace Oasys

/-- The virtual functions of `DurableTableImpl` that a table calls. -/
structure DurableTableImpl (Store Key Content : Type) where
  /-- `get` into the given object. -/
  get : Store → Key → Content → Except Fault (DurableStoreResult × Content)
  /-- `get` with an allocator, which is given the type code that was stored. -/
  getTyped : Store → Key → (Nat → Option Content) →
    Except Fault (DurableStoreResult × Option Content)
  put : Store → Key → Nat → Content → DurableStoreFlags → DurableStoreResult × Store
  del : Store → Key → DurableStoreResult × Store

/-- The two kinds of table. -/
inductive TableKind (Content : Type) where
  /-- `SingleTypeDurableTable`, with the object `_DataType(Builder())` makes. -/
  | single (builder : Content)
  /-- `MultiTypeDurableTable`, with the `new_object` of its collection; `none` is its
      error for a type code that is not registered. -/
  | multi (newObject : Nat → Option Content)

/-- A table, without its state. -/
structure DurableTable (Store Key CacheKey Content : Type) where
  impl_ : DurableTableImpl Store Key Content
  kind : TableKind Content
  /-- `DurableObjectCache::get_cache_key`. -/
  getCacheKey : Key → CacheKey
  /-- The size `MarshalSize` computes. -/
  marshalSize : Content → Nat

namespace DurableTable

/-- `TypeCollection::UNKNOWN_TYPE`. -/
def UNKNOWN_TYPE : Nat := 0xffffffff

/-- The data behind a table, its cache if it has one, and the objects. -/
structure State (Store CacheKey Ptr Content : Type) where
  store : Store
  cache_ : Option (DurableObjectCache.State CacheKey Ptr)
  heap : Ptr → Content

variable {Store Key CacheKey Ptr Content : Type}

def cleanupPutFlags (flags : DurableStoreFlags) : DurableStoreFlags :=
  if flags.DS_EXCL then { flags with DS_CREATE := true } else flags

/-- The type code under which `put` stores an object given with code `type`: a single-type
    table has none. -/
def typecode (T : DurableTable Store Key CacheKey Content) (type : Nat) : Nat :=
  match T.kind with
  | .single _ => UNKNOWN_TYPE
  | .multi _ => type

/-- `get`: the part that reads the object from the implementation into a new one, with no
    object on an error. -/
def load (T : DurableTable Store Key CacheKey Content) (store : Store) (key : Key) :
    Except Fault (DurableStoreResult × Option Content) :=
  match T.kind with
  | .single builder => do
    let (err, d) ← T.impl_.get store key builder
    pure (err, if err = .DS_OK then some d else none)
  | .multi newObject => do
    let (err, generic_data) ← T.impl_.getTyped store key newObject
    if err ≠ .DS_OK then pure (err, none)
    else do
      assert generic_data.isSome
      pure (.DS_OK, generic_data)

variable [DecidableEq CacheKey] [DecidableEq Ptr]

def put (T : DurableTable Store Key CacheKey Content) (s : State Store CacheKey Ptr Content)
    (key : Key) (type : Nat) (data : Ptr) (flags : DurableStoreFlags) :
    Except Fault (DurableStoreResult × State Store CacheKey Ptr Content) := do
  let flags := cleanupPutFlags flags
  let (ret, store) := T.impl_.put s.store key (T.typecode type) (s.heap data) flags
  let s := { s with store := store }
  if ret ≠ .DS_OK then pure (ret, s)
  else
    match s.cache_ with
    | none => pure (ret, s)
    | some cache_ => do
      let (ret, cache_) ← DurableObjectCache.put cache_ (T.getCacheKey key) data
        (T.marshalSize (s.heap data)) flags
      assert (ret = .DS_OK)
      pure (ret, { s with cache_ := some cache_ })

/-- `get`: what follows a miss of the cache. -/
def fetch (T : DurableTable Store Key CacheKey Content) (s : State Store CacheKey Ptr Content)
    (key : Key) (address : Ptr) :
    Except Fault ((DurableStoreResult × Option Ptr) × State Store CacheKey Ptr Content) := do
  let (err, d) ← T.load s.store key
  match d with
  | none => pure ((err, none), s)
  | some d =>
    let s := { s with heap := Function.update s.heap address d }
    match s.cache_ with
    | none => pure ((.DS_OK, some address), s)
    | some cache_ => do
      let (err, cache_) ← DurableObjectCache.put cache_ (T.getCacheKey key) address
        (T.marshalSize d) { DS_CREATE := true, DS_EXCL := true }
      assert (err = .DS_OK)
      pure ((.DS_OK, some address), { s with cache_ := some cache_ })

def get (T : DurableTable Store Key CacheKey Content) (s : State Store CacheKey Ptr Content)
    (key : Key) (address : Ptr) :
    Except Fault ((DurableStoreResult × Option Ptr) × State Store CacheKey Ptr Content) :=
  match s.cache_ with
  | none => T.fetch s key address
  | some cache_ => do
    let ((err, data), cache_) ← DurableObjectCache.get cache_ (T.getCacheKey key)
    let s := { s with cache_ := some cache_ }
    if err = .DS_OK then pure ((.DS_OK, data), s)
    else T.fetch s key address

/-- `get_copy`: what follows a miss of the cache. The object to copy into is blank; a
    multi-type table has no `get_copy`. -/
def fetchCopy (T : DurableTable Store Key CacheKey Content)
    (s : State Store CacheKey Ptr Content) (key : Key) :
    Except Fault ((DurableStoreResult × Option Content) × State Store CacheKey Ptr Content) :=
  match T.kind with
  | .single blank => do
    let (err, data) ← T.impl_.get s.store key blank
    pure ((err, if err = .DS_OK then some data else none), s)
  | .multi _ => throw .panic

def getCopy (T : DurableTable Store Key CacheKey Content)
    (s : State Store CacheKey Ptr Content) (key : Key) :
    Except Fault ((DurableStoreResult × Option Content) × State Store CacheKey Ptr Content) :=
  match T.kind, s.cache_ with
  | .multi _, _ => throw .panic
  | .single _, none => T.fetchCopy s key
  | .single _, some cache_ => do
    let ((err, cache_data), cache_) ← DurableObjectCache.get cache_ (T.getCacheKey key)
    let s := { s with cache_ := some cache_ }
    if err = .DS_OK then pure ((.DS_OK, cache_data.map s.heap), s)
    else T.fetchCopy s key

def del (T : DurableTable Store Key CacheKey Content) (s : State Store CacheKey Ptr Content)
    (key : Key) : Except Fault (DurableStoreResult × State Store CacheKey Ptr Content) :=
  match s.cache_ with
  | none =>
    let (err, store) := T.impl_.del s.store key
    pure (err, { s with store := store })
  | some cache_ => do
    let (err, cache_) ← DurableObjectCache.del cache_ (T.getCacheKey key)
    let s := { s with cache_ := some cache_ }
    if err = .DS_ERR then pure (err, s)
    else
      let (err, store) := T.impl_.del s.store key
      pure (err, { s with store := store })

inductive Call (Key Ptr Content : Type) where
  /-- `put` of the object at `data`, once the client has given it its content. -/
  | put (key : Key) (type : Nat) (data : Ptr) (content : Content) (flags : DurableStoreFlags)
  /-- `get`, with the address a new object would have. -/
  | get (key : Key) (address : Ptr)
  | getCopy (key : Key)
  | del (key : Key)
  /-- `release` of the cache; without one the client just deletes the object. -/
  | release (key : Key) (data : Ptr)

/-- What a client sees of a call. -/
inductive Outcome (Content : Type) where
  | returned (err : DurableStoreResult) (content : Option Content)
  | released
  deriving DecidableEq, Repr

/-- A call of a client, with what it sees of it. -/
def exec (T : DurableTable Store Key CacheKey Content) (s : State Store CacheKey Ptr Content) :
    Call Key Ptr Content → Except Fault (Outcome Content × State Store CacheKey Ptr Content)
  | .put key type data content flags => do
    let (ret, s) ← T.put { s with heap := Function.update s.heap data content } key type data flags
    pure (.returned ret none, s)
  | .get key address => do
    let ((err, data), s) ← T.get s key address
    pure (.returned err (data.map s.heap), s)
  | .getCopy key => do
    let ((err, data), s) ← T.getCopy s key
    pure (.returned err data, s)
  | .del key => do
    let (err, s) ← T.del s key
    pure (.returned err none, s)
  | .release key data =>
    match s.cache_ with
    | none => pure (.released, s)
    | some cache_ => do
      let (_, cache_) ← DurableObjectCache.release cache_ (T.getCacheKey key) data
      pure (.released, { s with cache_ := some cache_ })

/-- The calls of a client one after another, with what it sees of them. -/
def run (T : DurableTable Store Key CacheKey Content) (s : State Store CacheKey Ptr Content) :
    List (Call Key Ptr Content) → Except Fault (List (Outcome Content))
  | [] => pure []
  | call :: calls => do
    let (outcome, s) ← T.exec s call
    let outcomes ← T.run s calls
    pure (outcome :: outcomes)

/-- A table with an object cache and the same table without one, under the same calls. -/
def system (T : DurableTable Store Key CacheKey Content) :
    TransitionSystem (State Store CacheKey Ptr Content × State Store CacheKey Ptr Content)
      (Call Key Ptr Content) where
  init p := ∃ store heap capacity policy,
    p = ({ store, heap, cache_ := some (.new capacity policy) }, { store, heap, cache_ := none })
  step p call p' := ∃ outcome outcome',
    T.exec p.1 call = .ok (outcome, p'.1) ∧ T.exec p.2 call = .ok (outcome', p'.2)

end DurableTable

end Oasys

/-!
### MemoryTable

The table of `storage/MemoryStore.cc`, which keeps its items in a map. A key is the string
`StringSerialize` builds, the bytes of an item are what `Marshal` writes for the object.
The bytes of the key, which only the iterator reads, are left out.
-/

namespace Oasys.MemoryTable

/-- How objects are written and read. -/
structure Codec (Content Bytes : Type) where
  /-- `Marshal`. -/
  marshal : Content → Bytes
  /-- `Unmarshal` into the given object, with whether it succeeds. -/
  unmarshal : Content → Bytes → Bool × Content

structure Item (Bytes : Type) where
  data_ : Bytes
  typecode_ : Nat
  deriving DecidableEq, Repr

/-- `items_`. -/
abbrev ItemMap (Key Bytes : Type) : Type := AList fun _ : Key => Item Bytes

variable {Key Content Bytes : Type} [DecidableEq Key]

/-- `get` into the given object. -/
def get (C : Codec Content Bytes) (multitype_ : Bool) (items_ : ItemMap Key Bytes) (key : Key)
    (data : Content) : Except Fault (DurableStoreResult × Content) := do
  assert (!multitype_)
  match items_.lookup key with
  | none => pure (.DS_NOTFOUND, data)
  | some item =>
    let (success, data) := C.unmarshal data item.data_
    pure (if success then .DS_OK else .DS_ERR, data)

/-- `get` with an allocator. -/
def getTyped (C : Codec Content Bytes) (multitype_ : Bool) (items_ : ItemMap Key Bytes)
    (key : Key) (allocator : Nat → Option Content) :
    Except Fault (DurableStoreResult × Option Content) := do
  assert multitype_
  match items_.lookup key with
  | none => pure (.DS_NOTFOUND, none)
  | some item =>
    match allocator item.typecode_ with
    | none => pure (.DS_ERR, none)
    | some data =>
      let (success, data) := C.unmarshal data item.data_
      pure (if success then .DS_OK else .DS_ERR, some data)

def put (C : Codec Content Bytes) (items_ : ItemMap Key Bytes) (key : Key) (typecode : Nat)
    (data : Content) (flags : DurableStoreFlags) : DurableStoreResult × ItemMap Key Bytes :=
  match items_.lookup key with
  | none =>
    if !flags.DS_CREATE then (.DS_NOTFOUND, items_)
    else (.DS_OK, items_.insert key { data_ := C.marshal data, typecode_ := typecode })
  | some _ =>
    if flags.DS_EXCL then (.DS_EXISTS, items_)
    else (.DS_OK, items_.insert key { data_ := C.marshal data, typecode_ := typecode })

def del (items_ : ItemMap Key Bytes) (key : Key) : DurableStoreResult × ItemMap Key Bytes :=
  match items_.lookup key with
  | none => (.DS_NOTFOUND, items_)
  | some _ => (.DS_OK, items_.erase key)

/-- The functions a table calls. -/
def impl (C : Codec Content Bytes) (multitype_ : Bool) :
    DurableTableImpl (ItemMap Key Bytes) Key Content where
  get := get C multitype_
  getTyped := getTyped C multitype_
  put := put C
  del := del

/-- A table of this kind, with a size for each object. -/
def table (C : Codec Content Bytes) (kind : TableKind Content) (marshalSize : Content → Nat) :
    DurableTable (ItemMap Key Bytes) Key Key Content where
  impl_ := impl C (match kind with | .single _ => false | .multi _ => true)
  kind := kind
  getCacheKey := id
  marshalSize := marshalSize

end Oasys.MemoryTable
