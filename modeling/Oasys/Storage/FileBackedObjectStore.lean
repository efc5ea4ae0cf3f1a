import Mathlib.Data.UInt
import Oasys.Storage.FileBackedObject

/-!
# FileBackedObjectStore

`FileBackedObjectStore` of `storage/FileBackedObjectStore.cc`, a directory whose files are
the objects. The directory is there, and the system calls meet no I/O error. A directory
that is open for `readdir` is the list of the names that it has still to return.
-/

namespace Oasys

open FileSystem

/-- A `FileBackedObjectStore`. Nothing looks at its `open_handles_`. -/
structure FileBackedObjectStore where
  root_ : String
  deriving DecidableEq, Repr

namespace FileBackedObjectStore

variable (s : FileBackedObjectStore) (fs : FileSystem String)

structure Stats where
  total_objects_ : UInt32 := 0
  open_handles_ : UInt32 := 0
  deriving DecidableEq, Repr

def objectPath (key : String) : String := s.root_ ++ "/" ++ key

def objectExists (key : String) : Bool := (fs.size (s.objectPath key)).isSome

def newObject (key : String) : Except Fault (Int × FileSystem String) :=
  if s.objectExists fs key then pure (-1, fs)
  else
    match fs.openFile (s.objectPath key) { creat := true, excl := true } with
    | none => throw .assertFailed
    | some (fd, fs) => pure (0, fs.close fd)

/-- `get_handle`, with the offset that is in the memory of the object. -/
def getHandle (key : String) (cur_offset : Nat) : Except Fault FileBackedObject := do
  assert (s.objectExists fs key)
  pure (.new (s.objectPath key) cur_offset)

def delObject (key : String) : Except Fault (Int × FileSystem String) :=
  if !s.objectExists fs key then pure (-1, fs)
  else
    match fs.unlink (s.objectPath key) with
    | none => throw .assertFailed
    | some fs => pure (0, fs)

def copyObject (src dest : String) : Except Fault (Int × FileSystem String) :=
  if !s.objectExists fs src then pure (-1, fs)
  else if s.objectExists fs dest then pure (-1, fs)
  else do
    match ← FileUtils.fastCopy fs (s.objectPath src) (s.objectPath dest) with
    | none => throw .assertFailed
    | some fs => pure (0, fs)

/-- `get_stats`: the loop, which counts every result of `readdir`, also the last one, 0. -/
def statsLoop : List String → Stats → Stats
  | [], stats => { stats with total_objects_ := stats.total_objects_ + 1 }
  | _ :: dir, stats => statsLoop dir { stats with total_objects_ := stats.total_objects_ + 1 }

def getStats (dir : List String) : Stats := statsLoop dir {}

/-- `get_object_names`: the loop. -/
def namesLoop : List String → List String → List String
  | [], names => names
  | d_name :: dir, names =>
    namesLoop dir (if d_name = "." ∨ d_name = ".." then names else names ++ [d_name])

def getObjectNames (dir : List String) : List String := namesLoop dir []

end FileBackedObjectStore

end Oasys
