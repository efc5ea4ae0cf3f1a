import Oasys.Serialize.MarshalSerialize
import Oasys.Serialize.StringSerialize
import Oasys.Storage.DurableStore
import Std.Data.TreeMap

/-!
# MemoryStore

The tables of `storage/MemoryStore.cc` down to the bytes: a table finds an item under the
string that `StringSerialize` makes of the key, and an item keeps the key and the object as
`Marshal` wrote them, in two buffers that every `put` uses again. A `MemoryTable` points to
the items of its table in the store, so that all handles on a name share them.

A `std::map` of strings is a tree in the order of their bytes. An object given to `put` has
its bytes elsewhere than in the buffers of the table, and what the marshallers leave of it
is not looked at.
-/

namespace Oasys.MemoryStore

structure Item where
  key_ : ExpandableBuffer
  data_ : ExpandableBuffer
  typecode_ : UInt32
  deriving DecidableEq, Repr

/-- `new Item()`. The type code is not initialised. -/
def Item.new : Item := ⟨.new, .new, 0⟩

abbrev ItemMap := Std.TreeMap (List UInt8) Item

/-! ### MemoryTable -/

/-- An object in a buffer that is used again: what the action returns, and the buffer. -/
def marshalInto (b : ExpandableBuffer) (o : SerializableObject) :
    Except Fault (Int × ExpandableBuffer) := do
  let m ← Marshal.newExpandable b false false
  let (err, m, _) ← m.action o
  return (err, m.expandable_buf_.getD b)

/-- An object out of the bytes of a buffer, read into the given one. -/
def unmarshalFrom (b : ExpandableBuffer) (o : SerializableObject)
    (uninitialised : Nat → UInt32) : Except Fault (Int × SerializableObject) := do
  let un := Unmarshal.new (b.bytes.take b.len_) false false uninitialised
  let (err, _, o) ← un.action o
  return (err, o)

def get (multitype_ : Bool) (items_ : ItemMap) (key : NamedObject) (data : SerializableObject)
    (uninitialised : Nat → UInt32) : Except Fault (DurableStoreResult × SerializableObject) := do
  assert (!multitype_)
  let table_key ← StringSerialize.tableKey key
  match items_[table_key]? with
  | none => return (.DS_NOTFOUND, data)
  | some item =>
    let (err, data) ← unmarshalFrom item.data_ data uninitialised
    return (if err ≠ 0 then .DS_ERR else .DS_OK, data)

/-- `MemoryTable::get` with an allocator. -/
def getTyped (multitype_ : Bool) (items_ : ItemMap) (key : NamedObject)
    (allocator : UInt32 → Option SerializableObject) (uninitialised : Nat → UInt32) :
    Except Fault (DurableStoreResult × Option SerializableObject) := do
  assert multitype_
  let table_key ← StringSerialize.tableKey key
  match items_[table_key]? with
  | none => return (.DS_NOTFOUND, none)
  | some item =>
    match allocator item.typecode_ with
    | none => return (.DS_ERR, none)
    | some data =>
      let (err, data) ← unmarshalFrom item.data_ data uninitialised
      return (if err ≠ 0 then .DS_ERR else .DS_OK, some data)

/-- `MemoryTable::put`. A new item is in the map before anything is marshalled. -/
def put (items_ : ItemMap) (key : NamedObject) (typecode : UInt32) (data : SerializableObject)
    (flags : DurableStoreFlags) : Except Fault (DurableStoreResult × ItemMap) := do
  let table_key ← StringSerialize.tableKey key
  let store (item : Item) : Except Fault (DurableStoreResult × ItemMap) := do
    let item := { item with typecode_ := typecode }
    let (err, key_) ← marshalInto item.key_ (toFields key) -- first the key
    let item := { item with key_ := key_ }
    if err ≠ 0 then
      return (.DS_ERR, items_.insert table_key item)
    let (err, data_) ← marshalInto item.data_ data -- then the data
    let item := { item with data_ := data_ }
    return (if err ≠ 0 then .DS_ERR else .DS_OK, items_.insert table_key item)
  match items_[table_key]? with
  | none => if !flags.DS_CREATE then return (.DS_NOTFOUND, items_) else store .new
  | some item => if flags.DS_EXCL then return (.DS_EXISTS, items_) else store item

def del (items_ : ItemMap) (key : NamedObject) : Except Fault (DurableStoreResult × ItemMap) := do
  let table_key ← StringSerialize.tableKey key
  match items_[table_key]? with
  | none => return (.DS_NOTFOUND, items_)
  | some _ => return (.DS_OK, items_.erase table_key)

def size (items_ : ItemMap) : Nat := items_.size

/-! ### MemoryIterator -/

structure MemoryIterator where
  first_ : Bool
  /-- The items from `iter_` on. -/
  iter_ : List (List UInt8 × Item)

def MemoryIterator.new : MemoryIterator := ⟨true, []⟩

def MemoryIterator.next (i : MemoryIterator) (items_ : ItemMap) :
    Except Fault (DurableStoreResult × MemoryIterator) := do
  let iter_ ← if i.first_ then pure items_.toList
    else
      match i.iter_ with
      | [] => throw .invalidIterator
      | _ :: iter_ => pure iter_
  return (if iter_.isEmpty then .DS_NOTFOUND else .DS_OK, ⟨false, iter_⟩)

def MemoryIterator.getKey (i : MemoryIterator) (key : SerializableObject)
    (uninitialised : Nat → UInt32) : Except Fault (DurableStoreResult × SerializableObject) :=
  match i.iter_ with
  | [] => throw .invalidIterator
  | (_, item) :: _ => do
    let (err, key) ← unmarshalFrom item.key_ key uninitialised
    return (if err ≠ 0 then .DS_ERR else .DS_OK, key)

/-- The loop of a client over the keys of a table, each read into a new `key`. -/
def enumerate (items_ : ItemMap) (key : SerializableObject) (uninitialised : Nat → UInt32) :
    Nat → MemoryIterator → Except Fault (List (DurableStoreResult × SerializableObject))
  | 0, _ => throw .outOfFuel
  | fuel + 1, i => do
    let (err, i) ← i.next items_
    if err ≠ .DS_OK then
      return []
    let k ← i.getKey key uninitialised
    let ks ← enumerate items_ key uninitialised fuel i
    return k :: ks

/-! ### MemoryStore -/

/-- `MemoryTable`: the table whose items it points to. -/
structure MemoryTable where
  items_ : List UInt8
  multitype_ : Bool
  deriving DecidableEq, Repr

/-- `tables_`. -/
abbrev TableMap := Std.TreeMap (List UInt8) ItemMap

def getTable (tables_ : TableMap) (name : List UInt8) (flags : DurableStoreFlags)
    (multitype : Bool) : DurableStoreResult × Option MemoryTable × TableMap :=
  match tables_[name]? with
  | none =>
    if !flags.DS_CREATE then (.DS_NOTFOUND, none, tables_)
    else (.DS_OK, some ⟨name, multitype⟩, tables_.insert name ∅)
  | some _ =>
    if flags.DS_EXCL then (.DS_EXISTS, none, tables_)
    else (.DS_OK, some ⟨name, multitype⟩, tables_)

end Oasys.MemoryStore
