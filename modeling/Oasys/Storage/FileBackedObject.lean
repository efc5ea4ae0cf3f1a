import Oasys.ForStd.FileSystem
import Oasys.Util.IntType

/-!
# FileBackedObject

`FileBackedObject` of `storage/FileBackedObject.cc`, its transactions and its open scopes,
with the `fast_copy` of `io/FileUtils.cc`. A member holds the lock of its object from its
start to its end. The system calls meet no I/O error, `read` and `write` transfer what they
are asked to up to the most that the kernel does at a time, and a descriptor of `-1` is
`none`.
-/

namespace Oasys

open FileSystem

/-- The most bytes that `read` and `write` transfer at a time. -/
def maxRwCount : Nat := 0x7ffff000

namespace FileUtils

/-- The size of the buffer of `fast_copy`. -/
def BUFSIZE : Nat := 1024 * 8

/-- `fast_copy`: the loop that copies, a round for each buffer. -/
def copyLoop (src_fd dest_fd : Nat) : Nat → FileSystem String → Except Fault (FileSystem String)
  | 0, _ => throw .outOfFuel
  | fuel + 1, fs =>
    match fs.read src_fd BUFSIZE with
    | none => throw .assertFailed
    | some (buf, fs) =>
      match fs.write dest_fd buf with
      | none => throw .assertFailed
      | some fs => if buf.length > 0 then copyLoop src_fd dest_fd fuel fs else pure fs

/-- `fast_copy`, `none` where it returns -1. -/
def fastCopy (fs : FileSystem String) (src_filename dest_filename : String) :
    Except Fault (Option (FileSystem String)) :=
  match fs.openFile src_filename {} with
  | none => pure none
  | some (src_fd, fs) =>
    match fs.openFile dest_filename { creat := true, excl := true } with
    | none => pure none
    | some (dest_fd, fs) => do
      -- a round but the last one reads a byte at least
      let size := (fs.size src_filename).getD 0
      let fs ← copyLoop src_fd dest_fd (size + 1) fs
      pure (some ((fs.close src_fd).close dest_fd))

end FileUtils

structure FileBackedObject where
  filename_ : String
  fd_ : Option Nat
  /-- `flags_ & UNLINKED`; the object does not look at the other flags. -/
  unlinked : Bool
  cur_offset_ : Nat
  open_count_ : Int
  deriving DecidableEq, Repr

namespace FileBackedObject

/-- The constructor, with the offset that is in the memory of the object. -/
def new (filename : String) (cur_offset : Nat) : FileBackedObject where
  filename_ := filename
  fd_ := none
  unlinked := false
  cur_offset_ := cur_offset
  open_count_ := 0

/-- `open()`, with the descriptor that the object has then. -/
def openFd (fs : FileSystem String) (o : FileBackedObject) :
    Except Fault (Nat × FileSystem String × FileBackedObject) := do
  assert (!o.unlinked)
  match o.fd_ with
  | some fd => pure (fd, fs, o)
  | none =>
    match fs.openFile o.filename_ {} with
    | none => throw .assertFailed
    | some (fd, fs) => pure (fd, fs, { o with fd_ := some fd, cur_offset_ := 0 })

def close (fs : FileSystem String) (o : FileBackedObject) :
    FileSystem String × FileBackedObject :=
  match o.fd_ with
  | none => (fs, o)
  | some fd =>
    if o.open_count_ > 0 then (fs, o) else (fs.close fd, { o with fd_ := none })

def reload (fs : FileSystem String) (o : FileBackedObject) :
    Except Fault (FileSystem String × FileBackedObject) := do
  let (fs, o) := close fs o
  let (_, fs, o) ← openFd fs o
  pure (fs, o)

/-- `unlink()`, which closes every descriptor but 0. -/
def unlink (fs : FileSystem String) (o : FileBackedObject) :
    Except Fault (FileSystem String × FileBackedObject) :=
  let (fs, o) : FileSystem String × FileBackedObject :=
    match o.fd_ with
    | none => (fs, o)
    | some fd => if fd ≠ 0 then (fs.close fd, { o with fd_ := none }) else (fs, o)
  match fs.unlink o.filename_ with
  | none => throw .assertFailed
  | some fs => pure (fs, { o with filename_ := "/INVALID_FILE", unlinked := true })

def destroy (fs : FileSystem String) (o : FileBackedObject) : FileSystem String :=
  match o.fd_ with
  | none => fs
  | some fd => fs.close fd

/-- The offset of `lseek` that the `size_t` converts to is not negative. -/
def maxOffset : Nat := 2 ^ 63

/-- `read_bytes` and `write_bytes`: moving the descriptor to `offset`. The kernel refuses an
    offset that is negative once converted to `off_t`, and `-1` converted back is the
    largest `size_t`. -/
def seekTo (fs : FileSystem String) (o : FileBackedObject) (fd offset : Nat) :
    Except Fault (FileSystem String × FileBackedObject) :=
  if o.cur_offset_ = offset then pure (fs, o)
  else if offset < maxOffset then
    match fs.seek fd offset with
    | none => throw .assertFailed
    | some fs => pure (fs, { o with cur_offset_ := offset })
  else
    match fs.size o.filename_ with
    | none => throw .assertFailed
    | some size => do
      let off := if size = 0 then 0 else 2 ^ 64 - 1
      assert (off = offset)
      pure (fs, { o with cur_offset_ := offset })

/-- `read_bytes`, with the bytes it reads. -/
def readBytes (fs : FileSystem String) (o : FileBackedObject) (offset length : Nat) :
    Except Fault (List UInt8 × FileSystem String × FileBackedObject) := do
  let (fd, fs, o) ← openFd fs o
  let (fs, o) ← seekTo fs o fd offset
  match fs.read fd (min length maxRwCount) with
  | none => throw .assertFailed
  | some (buf, fs) =>
    pure (buf, close fs { o with cur_offset_ := (o.cur_offset_ + buf.length) % 2 ^ 64 })

def writeBytes (fs : FileSystem String) (o : FileBackedObject) (offset : Nat)
    (buf : List UInt8) : Except Fault (FileSystem String × FileBackedObject) := do
  let (fd, fs, o) ← openFd fs o
  let (fs, o) ← seekTo fs o fd offset
  -- a write that stops short fails the assertion on its result
  assert (buf.length ≤ maxRwCount)
  match fs.write fd buf with
  | none => throw .assertFailed
  | some fs => pure (close fs { o with cur_offset_ := (o.cur_offset_ + buf.length) % 2 ^ 64 })

def appendBytes (fs : FileSystem String) (o : FileBackedObject) (buf : List UInt8) :
    Except Fault (FileSystem String × FileBackedObject) := do
  let (fd, fs, o) ← openFd fs o
  match fs.seekEnd fd with
  | none => throw .assertFailed
  | some (off, fs) => writeBytes fs { o with cur_offset_ := off } off buf

def truncate (fs : FileSystem String) (o : FileBackedObject) (size : Nat) :
    Except Fault (FileSystem String × FileBackedObject) := do
  let (fd, fs, o) ← openFd fs o
  assert (size < maxOffset)
  match fs.truncate fd size with
  | none => throw .assertFailed
  | some fs => pure (close fs o)

/-- `fsync_data`: the inode that it writes to the disk. Its result is not looked at, and
    without a descriptor it writes none. -/
def fsyncData (fs : FileSystem String) (o : FileBackedObject) : Option Nat :=
  o.fd_.bind fun fd => (fs.files fd).map fun f => f.inode

/-- The constructor of `OpenScope`. -/
def openScope (fs : FileSystem String) (o : FileBackedObject) :
    Except Fault (FileSystem String × FileBackedObject) := do
  let (_, fs, o) ← openFd fs { o with open_count_ := o.open_count_ + 1 }
  pure (fs, o)

/-- The destructor of `OpenScope`. -/
def closeScope (fs : FileSystem String) (o : FileBackedObject) :
    FileSystem String × FileBackedObject :=
  let o := { o with open_count_ := o.open_count_ - 1 }
  if o.open_count_ = 0 then close fs o else (fs, o)

namespace Tx

/-- `tx_filename`. -/
def filename (original_file_ : FileBackedObject) : String := original_file_.filename_ ++ ".tx"

/-- The constructor, with `tx_file_`; `INIT_BLANK` is the flag it looks at. The result of
    the `open` that makes a blank file is not looked at, but closed. -/
def start (fs : FileSystem String) (original_file_ : FileBackedObject) (INIT_BLANK : Bool)
    (cur_offset : Nat) : Except Fault (FileSystem String × FileBackedObject) := do
  let tx_filename := filename original_file_
  if INIT_BLANK then
    match fs.openFile tx_filename { creat := true, excl := true } with
    | none => pure (fs, new tx_filename cur_offset)
    | some (fd, fs) => pure (fs.close fd, new tx_filename cur_offset)
  else
    match ← FileUtils.fastCopy fs original_file_.filename_ tx_filename with
    | none => throw .assertFailed
    | some fs => pure (fs, new tx_filename cur_offset)

/-- `commit`, of a transaction that has its `tx_file_`. Its `fsync_data` makes no difference
    to what the files hold. -/
def commit (fs : FileSystem String) (original_file_ tx_file_ : FileBackedObject) :
    Except Fault (FileSystem String × FileBackedObject) :=
  match fs.rename tx_file_.filename_ original_file_.filename_ with
  | none => throw .assertFailed
  | some fs => do
    let (fs, original_file_) ← reload fs original_file_
    pure (tx_file_.destroy fs, original_file_)

def abort (fs : FileSystem String) (tx_file_ : FileBackedObject) :
    Except Fault (FileSystem String) := do
  let (fs, tx_file_) ← unlink fs tx_file_
  pure (tx_file_.destroy fs)

end Tx

end FileBackedObject

end Oasys

/-!
### replace_with_file

`replace_with_file`, with the `copy_contents` of `io/FileIOClient.cc` that it falls back on. How
the kernel answers the `link`, the two `open`s and each `read` and `write` of the copy is up to
`Outcomes`.
-/

namespace Oasys

open FileSystem

/-- What the code tells apart of the errors of a call. -/
inductive Errno where
  | EXDEV
  | other
  deriving DecidableEq, Repr

namespace FileIOClient

/-- How the calls of a round of `copy_contents` come out. -/
structure Round where
  /-- `read` fails, or it gives one byte and up to so many more, as far as there are any. -/
  read : Option Nat
  /-- `writeall` fails behind so many bytes, if it is given more. -/
  write : Nat
  deriving DecidableEq, Repr

/-- `sizeof(buf)` of `copy_contents`. -/
def bufSize : Nat := 4096

/-- The loop of `copy_contents`, for its `len` of 0: what it returns, where `none` is -1. -/
def copyContents (B : Build) (rounds : Nat → Round) (src dest : Nat) :
    Nat → Nat → Int → FileSystem String → Except Fault (Option Int × FileSystem String)
  | 0, _, _, _ => throw .outOfFuel
  | fuel + 1, k, total, fs =>
    match (rounds k).read with
    | none => pure (none, fs)
    | some more =>
      match fs.read src (min (more + 1) bufSize) with
      | none => pure (none, fs)
      | some (buf, fs) =>
        if buf.length = 0 then pure (some total, fs)
        else
          match fs.write dest (buf.take (rounds k).write) with
          | none => pure (none, fs)
          | some fs =>
            if (rounds k).write < buf.length then pure (none, fs)
            else do
              let total ← IntType.int.arith B (total + buf.length)
              copyContents B rounds src dest fuel (k + 1) total fs

end FileIOClient

namespace FileBackedObject

/-- How the calls of `replace_with_file` come out: the errors that the kernel has for them
    beyond those that the names account for. -/
structure Outcomes where
  link : Option Errno
  openSrc : Option Errno
  openDst : Option Errno
  rounds : Nat → FileIOClient.Round

/-- `::link`. -/
def linkCall (err : Option Errno) (fs : FileSystem String) (old new : String) :
    Except Errno (FileSystem String) :=
  match err with
  | some err => .error err
  | none =>
    match fs.link old new with
    | none => .error .other
    | some fs => .ok fs

/-- `open` of a `FileIOClient`, `none` where it gives no descriptor. -/
def openCall (err : Option Errno) (fs : FileSystem String) (path : String) (flags : OpenFlags) :
    Option (Nat × FileSystem String) :=
  match err with
  | some _ => none
  | none => fs.openFile path flags

/-- `replace_with_file`. The result of `copy_contents` is not looked at. -/
def replaceWithFile (B : Build) (env : Outcomes) (fs : FileSystem String) (o : FileBackedObject)
    (filename : String) : Except Fault (Bool × FileSystem String × FileBackedObject) := do
  let old_filename := o.filename_
  let (fs, o) ← unlink fs o
  assert (o.fd_ = none)
  match linkCall env.link fs filename old_filename with
  | .ok fs =>
    -- `unlink` clobbered the file name and the flags
    pure (true, fs, { o with filename_ := old_filename, unlinked := false })
  | .error .EXDEV =>
    match openCall env.openSrc fs filename {} with
    | none => pure (false, fs, o)
    | some (src, fs) =>
      match openCall env.openDst fs old_filename { creat := true, excl := true } with
      | none => pure (false, fs.close src, o)
      | some (dst, fs) => do
        -- a round but the last one reads a byte at least
        let size := (fs.size filename).getD 0
        let (_, fs) ← FileIOClient.copyContents B env.rounds src dst (size + 1) 0 0 fs
        pure (true, (fs.close src).close dst,
          { o with filename_ := old_filename, unlinked := false })
  | .error .other => pure (false, fs, o)

end FileBackedObject

end Oasys
