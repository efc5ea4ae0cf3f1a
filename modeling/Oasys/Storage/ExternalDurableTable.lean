import Oasys.Serialize.StringPairSerialize
import Oasys.Storage.FileSystemTable

/-!
# ExternalDurableTableImpl

The table of `storage/ExternalDurableTableImpl.cc`, with the `do_` functions of
`storage/DataStoreProxy.cc` that it calls. The server behind the proxy has one table, or not
yet, which maps keys to rows, and reports a key that is absent as `ERR_NOTFOUND`. A request
meets no error on the way to the server and back. Memory that is not initialised is all zero
where the marshallers write over it.
-/

namespace Oasys

/-! ### The server -/

/-- `errorcodes_t`, as far as the server answers with it. -/
inductive DataStoreError where
  | ERR_NONE
  | ERR_BADTABLE
  | ERR_EXISTS
  | ERR_CANTDELETE
  | ERR_INVALID
  | ERR_NOTFOUND
  deriving DecidableEq, Repr

/-- A row of a table: the texts of its fields. -/
abbrev DataStoreRow := List StringPair

/-- What the server has under the name of the table, if it has a table of that name. -/
abbrev DataStoreTable := Option (List UInt8 → Option DataStoreRow)

namespace DataStoreTable

/-- `table_create`. -/
def create (table : DataStoreTable) : DataStoreError × DataStoreTable :=
  match table with
  | none => (.ERR_NONE, some fun _ => none)
  | some rows => (.ERR_EXISTS, some rows)

def get (table : DataStoreTable) (keyval : List UInt8) : DataStoreError × DataStoreRow :=
  match table with
  | none => (.ERR_BADTABLE, [])
  | some rows =>
    match rows keyval with
    | none => (.ERR_NOTFOUND, [])
    | some row => (.ERR_NONE, row)

/-- `put`. The proxy does not ask the server when there are no fields to set. -/
def put (table : DataStoreTable) (key : List UInt8) (fields : List StringPair) :
    DataStoreError × DataStoreTable :=
  if fields.length = 0 then
    (.ERR_INVALID, table)
  else
    match table with
    | none => (.ERR_BADTABLE, none)
    | some rows => (.ERR_NONE, some (Function.update rows key (some fields)))

def del (table : DataStoreTable) (keyval : List UInt8) : DataStoreError × DataStoreTable :=
  match table with
  | none => (.ERR_BADTABLE, none)
  | some rows =>
    match rows keyval with
    | none => (.ERR_NOTFOUND, some rows)
    | some _ => (.ERR_NONE, some (Function.update rows keyval none))

end DataStoreTable

/-! ### DataStoreProxy -/

namespace DataStoreProxy

/-- `storetype_t`, once the proxy is initialised. -/
inductive StoreType where
  | PAIR
  /-- `FIELD` and `ADVANCED`, which are treated alike. -/
  | FIELD
  deriving DecidableEq, Repr

/-- An object that has been read: with its fields alone, or with their names. -/
inductive Loaded where
  | pair (data : SerializableObject)
  | fields (data : NamedObject)

/-- `u_char buf[need_size]`. The size is an `int`, and there is no array of a negative one. -/
def buffer (size : Nat) : Except Fault (List UInt8) :=
  if IntType.int.conv size < 0 then throw .outOfBounds
  else pure (List.replicate (IntType.int.conv size).toNat 0)

/-- `do_serialize` to a string. What the actions return is not looked at. -/
def doSerialize (obj : SerializableObject) : Except Fault (List UInt8) := do
  let (_, sizer) ← (MarshalSize.new false).action obj
  let buf ← buffer sizer.size_.toNat
  let (_, marshaller, _) ← (Marshal.new buf false false).action obj
  pure (hex2str marshaller.buf_)

/-- `do_unserialize` of a string, which is freed when `do_get` returns. -/
def doUnserialize (str : List UInt8) (obj : SerializableObject) (uninitialised : Nat → UInt32) :
    Except Fault (Bool × SerializableObject) := do
  let (err, _, obj) ← (Unmarshal.new str false false uninitialised).action obj
  pure (err = 0, dangleAll obj)

/-- What `do_get` makes of a row, with whether it has succeeded. -/
def readRow (st_ : StoreType) (data_fields : DataStoreRow) (data : NamedObject)
    (uninitialised : Nat → UInt32) : Except Fault (Bool × Loaded) :=
  match st_ with
  | .PAIR =>
    match data_fields with
    | [] => throw .outOfBounds
    | (_, str) :: _ => do
      let (ok, data) ← doUnserialize str (toFields data) uninitialised
      pure (ok, .pair data)
  | .FIELD => do
    let (err, data) ← StringPairUnmarshal.action data_fields data
    pure (err = 0, .fields data)

/-- The row that `do_put` makes of an object. `Marshal` never signals an error. -/
def writeRow (st_ : StoreType) (data : NamedObject) : Except Fault DataStoreRow :=
  match st_ with
  | .PAIR => do
    let dataval ← doSerialize (toFields data)
    pure [(ascii "data", dataval)]
  | .FIELD => do
    let (_, data_fields, _) ← StringPairMarshal.action data
    pure data_fields

end DataStoreProxy

open DataStoreProxy

/-! ### The table -/

/-- The table with what the server has for it. `multitype` is asserted to be false. -/
structure ExternalDurableTable where
  exists_ : Bool
  table : DataStoreTable

namespace ExternalDurableTable

def get (st_ : StoreType) (T : ExternalDurableTable) (key data : NamedObject)
    (uninitialised : Nat → UInt32) : Except Fault (DurableStoreResult × Option Loaded) :=
  if !T.exists_ then
    pure (.DS_NOTFOUND, none)
  else do
    let keyval ← doSerialize (toFields key)
    match T.table.get keyval with
    | (.ERR_NONE, data_fields) => do
      let (ok, data) ← readRow st_ data_fields data uninitialised
      pure (if ok then .DS_OK else .DS_ERR, some data)
    | (.ERR_NOTFOUND, _) => pure (.DS_NOTFOUND, none)
    | _ => pure (.DS_ERR, none)

/-- The start of `put`: the table is created when there is something to put into it. -/
def ensureExists (T : ExternalDurableTable) : Option ExternalDurableTable :=
  if T.exists_ then
    some T
  else
    match T.table.create with
    | (.ERR_NONE, table) => some ⟨true, table⟩
    | _ => none

/-- `put`. The type code is ignored, and so is `DS_EXCL`. -/
def put (st_ : StoreType) (T : ExternalDurableTable) (key data : NamedObject)
    (flags : DurableStoreFlags) : Except Fault (DurableStoreResult × ExternalDurableTable) :=
  match T.ensureExists with
  | none => pure (.DS_ERR, T)
  | some T => do
    let keyval ← doSerialize (toFields key)
    if !flags.DS_CREATE && (T.table.get keyval).1 ≠ .ERR_NONE then
      pure (.DS_NOTFOUND, T)
    else do
      let data_fields ← writeRow st_ data
      match T.table.put keyval data_fields with
      | (.ERR_NONE, table) => pure (.DS_OK, { T with table })
      | (_, table) => pure (.DS_ERR, { T with table })

def del (T : ExternalDurableTable) (key : NamedObject) :
    Except Fault (DurableStoreResult × ExternalDurableTable) :=
  if !T.exists_ then
    pure (.DS_NOTFOUND, T)
  else do
    let keyval ← doSerialize (toFields key)
    match T.table.del keyval with
    | (.ERR_NONE, table) => pure (.DS_OK, { T with table })
    | (.ERR_CANTDELETE, table) | (.ERR_NOTFOUND, table) => pure (.DS_NOTFOUND, { T with table })
    | (_, table) => pure (.DS_ERR, { T with table })

end ExternalDurableTable

end Oasys
