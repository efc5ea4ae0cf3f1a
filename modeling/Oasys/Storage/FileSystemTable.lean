import Oasys.ForStd.DirTree
import Oasys.Serialize.KeySerialize
import Oasys.Storage.DurableStore
import Oasys.Util.OpenFdCache

/-!
# FileSystemTable

The table of `storage/FileSystemStore.cc`, which keeps each object in a file of its own,
and the descriptors of its files in an `OpenFdCache` where the store has one. The system
calls meet no I/O error, every path is one that a file can have, and `writeall` writes on
until nothing is left. A descriptor of `-1` is `none`.

`get` reads a file into a buffer of its own, unmarshals from there, and returns: the buffer
goes, and with it what the carriers of the object point at. `putOpen` alone looks at what the
names of a path mean.
-/

namespace Oasys

/-! ### What is left of an object -/

/-- The memory that a carrier points at is freed: nothing can be read through it any more. -/
def BufferCarrier.dangle (c : BufferCarrier) : BufferCarrier :=
  { c with buf_ := c.buf_.map fun _ => [] }

mutual

/-- A field once the buffer that it was unmarshalled from is freed. -/
def Field.dangle : Field → Field
  | .fixed x => .fixed x
  | .carrier c => .carrier c.dangle
  | .terminated c terminator => .terminated c.dangle terminator
  | .string s => .string s
  | .object fields => .object (dangleAll fields)
  | .vector builder elems => .vector builder (dangleAll elems)

/-- An object then. -/
def dangleAll : SerializableObject → SerializableObject
  | [] => []
  | f :: o => f.dangle :: dangleAll o

end

/-- A `FileSystemTable`; its `cache_` is part of the state. -/
structure FileSystemTable where
  path_ : List UInt8
  multitype_ : Bool
  deriving DecidableEq, Repr

namespace FileSystemTable

/-- The path of a file. -/
abbrev Path := List UInt8

/-- The files of the process, and the cache with the descriptors that it keeps open. -/
structure State where
  fs : FileSystem Path
  cache_ : Option (OpenFdCache Path)

/-! ### The cache -/

namespace State

/-- `FileSystemStore::init`, with `fs_fd_cache_size_` where it is not 0. -/
def new (fs : FileSystem Path) (fs_fd_cache_size : Option Nat) : State where
  fs := fs
  cache_ := fs_fd_cache_size.map OpenFdCache.new

/-- `cache_->get_and_pin(filename)`, where there is a cache. -/
def getAndPin (s : State) (filename : Path) : Except Fault (Option Nat × State) :=
  match s.cache_ with
  | none => pure (none, s)
  | some c => do
    let (fd, c) ← c.getAndPin filename
    pure (if fd = -1 then none else some fd.toNat, { s with cache_ := some c })

/-- `OpenFdCacheClose::close`, on what the cache has closed. -/
def closeFds (fs : FileSystem Path) (c : OpenFdCache Path) : State where
  fs := c.closed.foldr (fun e fs => fs.close e.2.toNat) fs
  cache_ := some { c with closed := [] }

/-- `put` and `get_common`: a descriptor that was just opened goes to the cache. -/
def putAndPin (s : State) (filename : Path) (fd : Nat) : Except Fault (Nat × State) :=
  match s.cache_ with
  | none => pure (fd, s)
  | some c => do
    let old_fd := fd
    let (fd, c) ← c.putAndPin filename fd
    let s := closeFds s.fs c
    pure (fd.toNat, if fd ≠ old_fd then { s with fs := s.fs.close old_fd } else s)

/-- `cache_->unpin(filename)`, where there is a cache. -/
def unpin (s : State) (filename : Path) : Except Fault State :=
  match s.cache_ with
  | none => pure s
  | some c => do
    let c ← c.unpin filename
    pure { s with cache_ := some c }

/-- `put` and `get_common`: the descriptor goes back to the cache, or is closed. -/
def release (s : State) (filename : Path) (fd : Nat) : Except Fault State :=
  match s.cache_ with
  | none => pure { s with fs := s.fs.close fd }
  | some _ => s.unpin filename

/-- `cache_->close(filename)`, where there is a cache. -/
def closeCached (s : State) (filename : Path) : Except Fault State :=
  match s.cache_ with
  | none => pure s
  | some c => do
    let c ← c.close filename
    pure (closeFds s.fs c)

/-- `put` and `get_common`: a cached descriptor can stand anywhere, and goes to the start. -/
def rewind (s : State) (fd : Nat) : Except Fault State :=
  match s.cache_ with
  | none => pure s
  | some _ =>
    match s.fs.seek fd 0 with
    | none => throw .assertFailed
    | some fs => pure { s with fs }

end State

/-! ### Keys -/

/-- The string at a pointer. -/
def cString (buf : List UInt8) : Except Fault (List UInt8) := do
  let len ← Marshal.findTerminator 0 buf
  pure (buf.take len)

/-- The path that `put`, `del` and `get_common` make out of the key, `none` where it cannot
    be marshalled. -/
def filename (T : FileSystemTable) (key : SerializableObject) : Except Fault (Option Path) := do
  let key_str : ExpandableBuffer := ⟨some (List.replicate 512 0), 0⟩
  let (err, s_key, _) ← (KeyMarshal.new key_str (some [45])).action key
  if err ≠ 0 then
    pure none
  else do
    let name ← cString (← s_key.buf_.rawBuf)
    pure (some (T.path_ ++ 47 :: name))

/-! ### put -/

/-- `put`: the type code goes before the object in a table of several types. -/
def processTypecode (T : FileSystemTable) (m : Marshal) (typecode : UInt32) :
    Except Fault Marshal :=
  if T.multitype_ then m.processU32 typecode else pure m

/-- `put`: the bytes for the file, `none` where the object cannot be marshalled. -/
def marshal (T : FileSystemTable) (typecode : UInt32) (data : SerializableObject) :
    Except Fault (Option (List UInt8)) := do
  let scratch : ExpandableBuffer := ⟨some (List.replicate 4096 0), 0⟩
  let m ← Marshal.newExpandable scratch false false
  let m ← T.processTypecode m typecode
  let (err, m, _) ← m.action data
  pure (if err ≠ 0 then none else some m.written)

/-- `put`: the `open_flags`. -/
def openFlags (flags : DurableStoreFlags) : OpenFlags where
  creat := flags.DS_CREATE
  excl := flags.DS_EXCL
  trunc := true

/-- `put`: the descriptor to write to, or what is returned instead. -/
def openForPut (s : State) (filename : Path) (flags : DurableStoreFlags) :
    Except Fault (Except DurableStoreResult Nat × State) := do
  match ← s.getAndPin filename with
  | (none, s) =>
    match s.fs.openFile filename (openFlags flags) with
    | some (fd, fs) => do
      let (fd, s) ← { s with fs }.putAndPin filename fd
      pure (.ok fd, s)
    | none =>
      match s.fs.dir.lookup filename with
      | none => do
        -- `ENOENT`
        assert (!flags.DS_CREATE)
        pure (.error .DS_NOTFOUND, s)
      | some _ => do
        -- `EEXIST`
        assert flags.DS_EXCL
        pure (.error .DS_EXISTS, s)
  | (some fd, s) =>
    if flags.DS_EXCL then do
      let s ← s.unpin filename
      pure (.error .DS_EXISTS, s)
    else pure (.ok fd, s)

/-- `put`. What the marshallers leave of the key and of the object is not looked at. -/
def put (T : FileSystemTable) (s : State) (key : SerializableObject) (typecode : UInt32)
    (data : SerializableObject) (flags : DurableStoreFlags) :
    Except Fault (DurableStoreResult × State) := do
  match ← T.filename key with
  | none => pure (.DS_ERR, s)
  | some filename =>
    match ← T.marshal typecode data with
    | none => pure (.DS_ERR, s)
    | some scratch =>
      match ← openForPut s filename flags with
      | (.error code, s) => pure (code, s)
      | (.ok fd, s) => do
        let s ← s.rewind fd
        match s.fs.write fd scratch with
        | none => do
          let s ← s.unpin filename
          pure (.DS_ERR, s)
        | some fs => do
          let s ← { s with fs }.release filename fd
          pure (.DS_OK, s)

/-- `put`, over a tree of directories: what `open` gives where the cache has no descriptor, or
    what is returned instead. -/
def putOpen (t : DirTree) (cwd : t.Dir) (filename : Path) (flags : DurableStoreFlags) :
    Except Fault (Except DurableStoreResult (t.Dir × List UInt8)) :=
  match t.openFile cwd filename (openFlags flags) with
  | .ok entry => pure (.ok entry)
  | .error .ENOENT => do
    assert (!flags.DS_CREATE)
    pure (.error .DS_NOTFOUND)
  | .error .EEXIST => do
    assert flags.DS_EXCL
    pure (.error .DS_EXISTS)
  | .error _ => pure (.error .DS_ERR)

/-! ### del -/

def del (T : FileSystemTable) (s : State) (key : SerializableObject) :
    Except Fault (DurableStoreResult × State) := do
  match ← T.filename key with
  | none => pure (.DS_ERR, s)
  | some filename => do
    let s ← s.closeCached filename
    match s.fs.unlink filename with
    | none => pure (.DS_NOTFOUND, s)
    | some fs => pure (.DS_OK, { s with fs })

/-! ### get -/

/-- `get_common`: the descriptor to read from. -/
def openForGet (s : State) (filename : Path) : Except Fault (Option Nat × State) := do
  match ← s.getAndPin filename with
  | (some fd, s) => pure (some fd, s)
  | (none, s) =>
    match s.fs.openFile filename {} with
    | none => pure (none, s)
    | some (fd, fs) => do
      let (fd, s) ← { s with fs }.putAndPin filename fd
      pure (some fd, s)

/-- `get_common`: the loop that reads. A round but the last one reads a byte at least. -/
def readLoop (fd : Nat) : Nat → FileSystem Path → ExpandableBuffer →
    Except Fault (FileSystem Path × ExpandableBuffer)
  | 0, _, _ => throw .outOfFuel
  | fuel + 1, fs, buf => do
    let buf := buf.reserve (buf.len_ + 4096)
    let p ← buf.endBuf
    match fs.read fd 4096 with
    | none => throw .assertFailed
    | some (bytes, fs) => do
      let buf ← buf.store p bytes
      let buf ← buf.setLen (buf.len_ + bytes.length)
      if bytes.length > 0 then readLoop fd fuel fs buf else pure (fs, buf)

def getCommon (T : FileSystemTable) (s : State) (key : SerializableObject)
    (buf : ExpandableBuffer) : Except Fault (DurableStoreResult × ExpandableBuffer × State) := do
  match ← T.filename key with
  | none => pure (.DS_ERR, buf, s)
  | some file_path =>
    match ← openForGet s file_path with
    | (none, s) => pure (.DS_NOTFOUND, buf, s)
    | (some fd, s) => do
      let s ← s.rewind fd
      let (fs, buf) ← readLoop fd ((s.fs.size file_path).getD 0 + 1) s.fs buf
      let s ← { s with fs }.release file_path fd
      pure (.DS_OK, buf, s)

/-- The buffer that `get` reads into. -/
def scratch : ExpandableBuffer := ⟨some (List.replicate 4096 0), 0⟩

/-- `get` into the given object, with what the uninitialised locals of `Unmarshal` hold. -/
def get (T : FileSystemTable) (s : State) (key data : SerializableObject)
    (uninitialised : Nat → UInt32) :
    Except Fault (DurableStoreResult × SerializableObject × State) := do
  assert (!T.multitype_)
  let (err, buf, s) ← T.getCommon s key scratch
  if err ≠ .DS_OK then
    pure (err, data, s)
  else do
    let um := Unmarshal.new (buf.bytes.take buf.len_) false false uninitialised
    let (err, _, data) ← um.action data
    pure (if err ≠ 0 then .DS_ERR else .DS_OK, dangleAll data, s)

/-- `get` with an allocator. The type code is a local that is not initialised. -/
def getTyped (T : FileSystemTable) (s : State) (key : SerializableObject)
    (allocator : UInt32 → Option SerializableObject) (uninitialised : Nat → UInt32) :
    Except Fault (DurableStoreResult × Option SerializableObject × State) := do
  assert T.multitype_
  let (err, buf, s) ← T.getCommon s key scratch
  if err ≠ .DS_OK then
    pure (err, none, s)
  else do
    let um := Unmarshal.new (buf.bytes.take buf.len_) false false uninitialised
    let (typecode, um) := um.newLocal
    let (um, typecode) ← um.processU32 typecode
    match allocator typecode with
    | none => pure (.DS_ERR, none, s)
    | some data => do
      let (err, _, data) ← um.action data
      pure (if err ≠ 0 then .DS_ERR else .DS_OK, some (dangleAll data), s)

end FileSystemTable

end Oasys

/-!
### FileSystemTable: errors

`put` of `storage/FileSystemStore.cc` where `open` fails for another reason than the name, or
a write stops short, and `get` with an allocator that can fail: the `new_object` of
`storage/DurableTable.tcc` and `serialize/TypeCollection.h`. Reading a file meets no error.
-/

namespace Oasys

/-! ### TypeCollection -/

/-- What is registered for a type code. -/
structure TypeCollectionHelper where
  /-- The object that `new_object` makes, by the `Builder` constructor of the class. -/
  object : SerializableObject
  /-- The class is derived from the type that is asked for. -/
  isType : Bool

/-- A `TypeCollectionInstance`, with the range of the type that is asked for. -/
structure TypeCollection where
  dispatch_ : UInt32 → Option TypeCollectionHelper
  TYPECODE_LOW : UInt32
  TYPECODE_HIGH : UInt32

namespace TypeCollection

def TYPECODE : Int := 1

def MEMORY : Int := 2

/-- `TypeCollectionInstance::new_object`, which checks the type. -/
def newObject (C : TypeCollection) (typecode : UInt32) :
    Except Fault (Int × Option SerializableObject) :=
  if typecode < C.TYPECODE_LOW ∨ C.TYPECODE_HIGH < typecode then pure (TYPECODE, none)
  else
    match C.dispatch_ typecode with
    | none => throw .assertFailed
    | some helper => pure (if helper.isType then (0, some helper.object) else (MEMORY, none))

end TypeCollection

namespace FileSystemTable

/-! ### get -/

/-- What `get` makes of the bytes of a file, with the given object. -/
def unmarshal (data : SerializableObject) (uninitialised : Nat → UInt32) (bytes : List UInt8) :
    Except Fault (DurableStoreResult × SerializableObject) := do
  let um := Unmarshal.new bytes false false uninitialised
  let (err, _, data) ← um.action data
  pure (if err ≠ 0 then .DS_ERR else .DS_OK, dangleAll data)

/-- `get` with an allocator: the type code that it reads first, into a local that is not
    initialised. -/
def readTypecode (uninitialised : Nat → UInt32) (bytes : List UInt8) :
    Except Fault (UInt32 × Unmarshal) := do
  let um := Unmarshal.new bytes false false uninitialised
  let (typecode, um) := um.newLocal
  let (um, typecode) ← um.processU32 typecode
  pure (typecode, um)

/-- What it makes of the bytes. -/
def unmarshalTyped (allocator : UInt32 → Except Fault (Int × Option SerializableObject))
    (uninitialised : Nat → UInt32) (bytes : List UInt8) :
    Except Fault (DurableStoreResult × Option SerializableObject) := do
  let (typecode, um) ← readTypecode uninitialised bytes
  let (err, data) ← allocator typecode
  if err ≠ 0 then pure (.DS_ERR, none)
  else
    match data with
    | none => throw .nullDeref
    | some data => do
      let (err, _, data) ← um.action data
      pure (if err ≠ 0 then .DS_ERR else .DS_OK, some (dangleAll data))

/-- `get` with an allocator. -/
def getWith (T : FileSystemTable) (s : State) (key : SerializableObject)
    (allocator : UInt32 → Except Fault (Int × Option SerializableObject))
    (uninitialised : Nat → UInt32) :
    Except Fault (DurableStoreResult × Option SerializableObject × State) := do
  assert T.multitype_
  let (err, buf, s) ← T.getCommon s key scratch
  if err ≠ .DS_OK then
    pure (err, none, s)
  else do
    let (err, data) ← unmarshalTyped allocator uninitialised (buf.bytes.take buf.len_)
    pure (err, data, s)

/-- `MultiTypeDurableTable::get`, where there is no object cache. -/
def multiGet (T : FileSystemTable) (C : TypeCollection) (s : State) (key : SerializableObject)
    (uninitialised : Nat → UInt32) :
    Except Fault (DurableStoreResult × Option SerializableObject × State) := do
  let (err, generic_data, s) ← T.getWith s key C.newObject uninitialised
  if err ≠ .DS_OK then
    pure (err, none, s)
  else do
    -- the cast is from what `new_object` has cast to the same type
    assert generic_data.isSome
    pure (.DS_OK, generic_data, s)

/-! ### put -/

/-- How the system calls of a `put` come out. -/
structure PutOutcome where
  /-- `open` fails, for another reason than the name. -/
  openFails : Bool
  /-- `writeall` fails behind so many bytes, if it is given more. -/
  written : Nat
  deriving DecidableEq, Repr

/-- `put`: the descriptor to write to, or what is returned instead. -/
def openForPutWith (openFails : Bool) (s : State) (filename : Path) (flags : DurableStoreFlags) :
    Except Fault (Except DurableStoreResult Nat × State) := do
  match ← s.getAndPin filename with
  | (none, s) =>
    if openFails then pure (.error .DS_ERR, s)
    else
      match s.fs.openFile filename (openFlags flags) with
      | some (fd, fs) => do
        let (fd, s) ← { s with fs }.putAndPin filename fd
        pure (.ok fd, s)
      | none =>
        match s.fs.dir.lookup filename with
        | none => do
          -- `ENOENT`
          assert (!flags.DS_CREATE)
          pure (.error .DS_NOTFOUND, s)
        | some _ => do
          -- `EEXIST`
          assert flags.DS_EXCL
          pure (.error .DS_EXISTS, s)
  | (some fd, s) =>
    if flags.DS_EXCL then do
      let s ← s.unpin filename
      pure (.error .DS_EXISTS, s)
    else pure (.ok fd, s)

/-- `put`. Without a cache, the descriptor stays open where the write fails. -/
def putWith (T : FileSystemTable) (out : PutOutcome) (s : State) (key : SerializableObject)
    (typecode : UInt32) (data : SerializableObject) (flags : DurableStoreFlags) :
    Except Fault (DurableStoreResult × State) := do
  match ← T.filename key with
  | none => pure (.DS_ERR, s)
  | some filename =>
    match ← T.marshal typecode data with
    | none => pure (.DS_ERR, s)
    | some scratch =>
      match ← openForPutWith out.openFails s filename flags with
      | (.error code, s) => pure (code, s)
      | (.ok fd, s) => do
        let s ← s.rewind fd
        match s.fs.write fd (scratch.take out.written) with
        | none => do
          let s ← s.unpin filename
          pure (.DS_ERR, s)
        | some fs =>
          if out.written < scratch.length then do
            let s ← { s with fs }.unpin filename
            pure (.DS_ERR, s)
          else do
            let s ← { s with fs }.release filename fd
            pure (.DS_OK, s)

end FileSystemTable

end Oasys

/-!
### FileSystemStore

`init` and `end_transaction` of `storage/FileSystemStore.cc`, as far as they are about the
cache that the tables of the store share, and the `sync_all` of `util/OpenFdCache.h`.
`begin_transaction` does nothing to a store of this kind.
-/

namespace Oasys

/-- `sync_all`, with the descriptors that it calls `fsync` on. -/
def OpenFdCache.syncAll {Key : Type} (c : OpenFdCache Key) : List Int :=
  c.open_fds_.nodes.map (·.2.fd_)

namespace FileSystemStore

open FileSystemTable (Path)

/-- `init`, with the `fs_fd_cache_size_` of the configuration, over files that may be there
    already. -/
def init (fs : FileSystem Path) (fs_fd_cache_size_ : Int) : FileSystemTable.State :=
  .new fs (if fs_fd_cache_size_ > 0 then some fs_fd_cache_size_.toNat else none)

/-- `end_transaction`, with the descriptors that it calls `fsync` on. -/
def endTransaction (s : FileSystemTable.State) (be_durable : Bool) :
    Except Fault (DurableStoreResult × List Int) :=
  if be_durable then
    match s.cache_ with
    | none => throw .nullDeref
    | some fd_cache_ => pure (.DS_OK, fd_cache_.syncAll)
  else pure (.DS_OK, [])

/-- `fsync`, with the inode that it writes to the disk. -/
def fsync (fs : FileSystem Path) (fd : Int) : Option Nat :=
  (fs.files fd.toNat).map fun f => f.inode

end FileSystemStore

end Oasys
