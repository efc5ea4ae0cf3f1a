import Oasys.Storage.FileSystemTable
import Oasys.Storage.MemoryTables

/-!
# BerkeleyDBTable

The table of `storage/BerkeleyDBStore.cc`, with `DurableTableImpl::flatten`. The handle of
Berkeley DB is the map that it keeps; its calls meet no internal error. What `get` reads a
record from is freed when it returns, as the buffer of a `FileSystemTable` is. Memory that
is not initialised is all zero where the marshallers write over it.
-/

namespace Oasys.BerkeleyDBTable

/-! ### Berkeley DB -/

/-- What is behind a `DB*`. -/
abbrev Db := List UInt8 → Option (List UInt8)

/-- What a call of the handle returns. -/
inductive DbResult where
  | ok
  | DB_NOTFOUND
  | DB_KEYEXIST
  deriving DecidableEq, Repr

/-- `DB->put`, with `DB_NOOVERWRITE` or without. -/
def Db.put (db : Db) (key data : List UInt8) (noOverwrite : Bool) : DbResult × Db :=
  if noOverwrite && (db key).isSome then (.DB_KEYEXIST, db)
  else (.ok, Function.update db key (some data))

/-- `DB->del`. -/
def Db.del (db : Db) (key : List UInt8) : DbResult × Db :=
  if (db key).isSome then (.ok, Function.update db key none) else (.DB_NOTFOUND, db)

/-- `DBTRef(data, size)`. The size of a `DBT` is a `u_int32_t`. -/
def dbtRef (data : List UInt8) : List UInt8 := data.take (data.length % 2 ^ 32)

/-! ### DurableTableImpl -/

/-- The buffer that `get` and `put` flatten the key into. -/
def scratch : ExpandableBuffer := ⟨some (List.replicate 256 0), 0⟩

/-- `flatten` into a buffer that can grow. What `action` returns is not looked at. -/
def flatten (key : SerializableObject) : Except Fault (List UInt8) := do
  let (_, key_buf) ← MemoryStore.marshalInto scratch key
  pure (key_buf.bytes.take key_buf.len_)

/-- `flatten` into a buffer of `size` bytes, with how many of them are the key. -/
def flattenInto (key : SerializableObject) (size : Nat) : Except Fault (Nat × List UInt8) := do
  let (_, sizer) ← (MarshalSize.new false).action key
  if sizer.size_.toNat > size then
    pure (0, [])
  else do
    let (_, marshaller, _) ← (Marshal.new (List.replicate size 0) false false).action key
    pure (sizer.size_.toNat, marshaller.buf_)

/-! ### The table -/

/-- An object in a buffer of the size that `MarshalSize` finds for it, `none` where that
    goes wrong. -/
def marshalSized (o : SerializableObject) : Except Fault (Option (List UInt8)) := do
  let (err, sizer) ← (MarshalSize.new false).action o
  if err ≠ 0 then
    pure none
  else do
    let (err, m, _) ← (Marshal.new (List.replicate sizer.size_.toNat 0) false false).action o
    pure (if err ≠ 0 then none else some m.buf_)

/-- `put`: the type code goes before the object in a table of several types. -/
def marshalTypecode (multitype_ : Bool) (typecode : UInt32) :
    Except Fault (Option (List UInt8)) :=
  if multitype_ then marshalSized [.fixed (.u32 typecode)] else pure (some [])

/-- `get` into the given object, with what the uninitialised locals of `Unmarshal` hold. -/
def get (multitype_ : Bool) (db : Db) (key data : SerializableObject)
    (uninitialised : Nat → UInt32) : Except Fault (DurableStoreResult × SerializableObject) := do
  assert (!multitype_)
  let key_buf ← flatten key
  assert (key_buf.length ≠ 0)
  match db (dbtRef key_buf) with
  | none => pure (.DS_NOTFOUND, data)
  | some d => do
    let (err, _, data) ← (Unmarshal.new d false false uninitialised).action data
    pure (if err ≠ 0 then .DS_ERR else .DS_OK, dangleAll data)

/-- `get` with an allocator. A `UIntShim` is one field, which the first four bytes hold. -/
def getTyped (multitype_ : Bool) (db : Db) (key : SerializableObject)
    (allocator : UInt32 → Option SerializableObject) (uninitialised : Nat → UInt32) :
    Except Fault (DurableStoreResult × Option SerializableObject) := do
  assert multitype_
  let key_buf ← flatten key
  if key_buf.length = 0 then
    pure (.DS_ERR, none)
  else
    match db (dbtRef key_buf) with
    | none => pure (.DS_NOTFOUND, none)
    | some d =>
      if d.length < 4 then
        throw .outOfBounds
      else do
        let type_unmarshaller := Unmarshal.new (d.take 4) false false uninitialised
        let (type_unmarshaller, typecode) ← type_unmarshaller.processU32 (uninitialised 0)
        if type_unmarshaller.error_ then
          pure (.DS_ERR, none)
        else
          match allocator typecode with
          | none => pure (.DS_ERR, none)
          | some data => do
            let (err, _, data) ← (Unmarshal.new (d.drop 4) false false uninitialised).action data
            pure (if err ≠ 0 then (.DS_ERR, none) else (.DS_OK, some (dangleAll data)))

def put (multitype_ : Bool) (db : Db) (key : SerializableObject) (typecode : UInt32)
    (data : SerializableObject) (flags : DurableStoreFlags) :
    Except Fault (DurableStoreResult × Db) := do
  let key_buf ← flatten key
  if !flags.DS_CREATE && (db (dbtRef key_buf)).isNone then
    pure (.DS_NOTFOUND, db)
  else do
    match ← marshalTypecode multitype_ typecode, ← marshalSized data with
    | some type_bytes, some bytes =>
      match db.put (dbtRef key_buf) (dbtRef (type_bytes ++ bytes)) flags.DS_EXCL with
      | (.DB_KEYEXIST, db) => pure (.DS_EXISTS, db)
      | (.ok, db) => pure (.DS_OK, db)
      | (.DB_NOTFOUND, db) => pure (.DS_ERR, db)
    | _, _ => pure (.DS_ERR, db)

def del (db : Db) (key : SerializableObject) : Except Fault (DurableStoreResult × Db) := do
  let (key_buf_len, key_buf) ← flattenInto key 256
  if key_buf_len = 0 then
    pure (.DS_ERR, db)
  else
    match db.del (dbtRef (key_buf.take key_buf_len)) with
    | (.ok, db) => pure (.DS_OK, db)
    | (_, db) => pure (.DS_NOTFOUND, db)

end Oasys.BerkeleyDBTable
