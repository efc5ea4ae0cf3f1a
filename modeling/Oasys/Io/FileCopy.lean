import Oasys.Io.BufferedOutput

/-!
# Copy loops

`fast_copy` of `io/FileUtils.cc` and `copy_contents` of `io/FileIOClient.cc`, with the
`writeall` that it calls. What the reads and the writes return is in lists that the loops take
their rounds from; a file is the bytes from its current position on. The logs are left out.
`Storage/FileBackedObject` has the loop of `copy_contents` over descriptors, for a `len` of 0.
-/

namespace Oasys.Io

namespace FileCopy

/-- What a read of a file returns: as many bytes as it is asked for and as are left, or fewer,
    but one at least where there is one; or a negative result. -/
inductive Reading where
  | upTo (n : Nat)
  | error (n : Nat)
  deriving DecidableEq, Repr

/-- How many bytes a read gets at most that is asked for `len` of them. -/
def readSize (n len : Nat) : Nat := min len (max n 1)

/-- The result of a read of `len` bytes where `rest` is left of the file, and the bytes. -/
def Reading.read (r : Reading) (rest : List UInt8) (len : Nat) : Int × List UInt8 :=
  match r with
  | .upTo n => ((rest.take (readSize n len)).length, rest.take (readSize n len))
  | .error n => (-(n + 1), [])

/-! ### fast_copy -/

def BUFSIZE : Nat := 1024 * 8

/-- A round of the loop of `fast_copy`: its read and its write. -/
structure FastCopyRound where
  read : Reading
  write : Acceptance
  deriving Repr

/-- The loop of `fast_copy`, which appends to `dest`. The count of the write is the result of
    the read, as a `size_t`. -/
def fastCopyLoop (rest dest : List UInt8) : List FastCopyRound → Except Fault (List UInt8)
  | [] => throw .outOfFuel
  | r :: rounds => do
    let (cc, data) := r.read.read rest BUFSIZE
    let dd := r.write.write (BufferedInput.toSize cc)
    assert (dd = cc)
    let dest := dest ++ data.take dd.toNat
    if cc > 0 then fastCopyLoop (rest.drop data.length) dest rounds
    else pure dest

/-- `fast_copy` of `source`, with the results of the two `open`s and of `fstat`: the result, and
    what is in the destination, which `open` has made. -/
def fastCopy (src_fd dest_fd err : Int) (source : List UInt8) (rounds : List FastCopyRound) :
    Except Fault (Int × List UInt8) :=
  if src_fd = -1 then pure (-1, [])
  else if dest_fd = -1 then pure (-1, [])
  else do
    assert (err ≠ -1)
    let dest ← fastCopyLoop source [] rounds
    pure (0, dest)

/-! ### copy_contents -/

/-- The loop of `writeall`, with what is left to write: the result, and what has been
    written. -/
def writeallLoop (total_bytes : Int) (left : List UInt8) (answers : List Acceptance) :
    Except Fault (Int × List UInt8) :=
  if left.length > 0 then
    match answers with
    | [] => throw .outOfFuel
    | a :: answers => do
      let cc := a.write left.length
      if cc ≤ 0 then pure (cc, [])
      else do
        let (ret, written) ← writeallLoop total_bytes (left.drop cc.toNat) answers
        pure (ret, left.take cc.toNat ++ written)
  else pure (total_bytes, [])

def writeall (bp : List UInt8) (answers : List Acceptance) : Except Fault (Int × List UInt8) :=
  writeallLoop (IntType.int.conv bp.length) bp answers

/-- `sizeof(buf)` of `copy_contents`. -/
def sizeofBuf : Nat := 4096

/-- A round of the loop of `copy_contents`: its read, and the writes of its `writeall`. -/
structure CopyRound where
  read : Reading
  writes : List Acceptance
  deriving Repr

/-- The loop of `copy_contents`, which appends to `dest`. -/
def copyContentsLoop (B : Build) (origlen : Int) (len : Nat) (total : Int)
    (rest dest : List UInt8) : List CopyRound → Except Fault (Int × List UInt8)
  | [] => throw .outOfFuel
  | r :: rounds => do
    let n := if origlen = 0 then sizeofBuf else min len sizeofBuf
    let (cc, data) := r.read.read rest n
    if cc < 0 then pure (-1, dest)
    else if cc = 0 then
      if origlen ≠ 0 && len ≠ 0 then pure (-1, dest) else pure (total, dest)
    else do
      let (ret, written) ← writeall data r.writes
      let dest := dest ++ written
      if ret ≠ cc then pure (-1, dest)
      else do
        let total ← IntType.int.arith B (total + cc)
        let rest := rest.drop data.length
        if origlen ≠ 0 then
          let len := len - data.length
          if len = 0 then pure (total, dest)
          else copyContentsLoop B origlen len total rest dest rounds
        else copyContentsLoop B origlen len total rest dest rounds

/-- `copy_contents` of a file that has `source` from its position on: the result, and what has
    been written to the destination. -/
def copyContents (B : Build) (source : List UInt8) (len : Nat) (rounds : List CopyRound) :
    Except Fault (Int × List UInt8) :=
  copyContentsLoop B (IntType.int.conv len) len 0 source [] rounds

end FileCopy

end Oasys.Io
