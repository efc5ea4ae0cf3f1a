import Oasys.Storage.FileBackedObject
import Oasys.Util.CRC32
import Oasys.Util.ExpandableBuffer

/-!
# CheckedLog

The log of `storage/CheckedLog.cc` and the part of `io/FdIOClient.cc` under it. A
descriptor is the bytes of its file and an offset. A system call meets no error and
transfers what it is asked to, up to the most that the kernel does at a time and, for
`read`, up to the end of the file. `char` is signed.
-/

namespace Oasys

open FileSystem

structure FdIOClient where
  data : List UInt8
  offset : Nat
  deriving DecidableEq, Repr

namespace FdIOClient

/-- `lseek` to the end. -/
def seekEnd (fd : FdIOClient) : FdIOClient := { fd with offset := fd.data.length }

/-- `read`, with the bytes it reads; their number is what it returns. -/
def read (fd : FdIOClient) (len : Nat) : List UInt8 × FdIOClient :=
  let bytes := (fd.data.drop fd.offset).take (min len maxRwCount)
  (bytes, { fd with offset := fd.offset + bytes.length })

/-- `write` of `buf`. -/
def write (fd : FdIOClient) (buf : List UInt8) : FdIOClient :=
  let bytes := buf.take maxRwCount
  { data := writeAt fd.data fd.offset bytes
    offset := fd.offset + bytes.length }

def sync (fd : FdIOClient) : FdIOClient := fd

end FdIOClient

structure CheckedLogWriter where
  fd_ : FdIOClient
  deriving DecidableEq, Repr

namespace CheckedLogWriter

def new (fd : FdIOClient) : CheckedLogWriter := ⟨fd.seekEnd⟩

/-- The bytes that `write_record` takes out of a word. -/
def wordBuf (w : UInt32) : List UInt8 :=
  [((w >>> 24) &&& 0xFF).toUInt8, ((w >>> 16) &&& 0xFF).toUInt8, ((w >>> 8) &&& 0xFF).toUInt8,
    (w &&& 0xFF).toUInt8]

/-- `write_record`, of the memory from the pointer on. -/
def writeRecord (wr : CheckedLogWriter) (buf : List UInt8) (len : UInt32) :
    Except Fault CheckedLogWriter := do
  let ignore : UInt8 := 42
  let len_buf := wordBuf len
  let crc ← CRC32.new.update len_buf 4
  let crc ← crc.update buf len.toNat
  let crc_buf := wordBuf crc.value
  let fd_ := ((wr.fd_.write [ignore]).write crc_buf).write len_buf
  pure { fd_ := fd_.write (buf.take len.toNat) }

def force (wr : CheckedLogWriter) : CheckedLogWriter := { fd_ := wr.fd_.sync }

end CheckedLogWriter

structure CheckedLogReader where
  fd_ : FdIOClient
  cur_offset_ : Nat
  deriving DecidableEq, Repr

namespace CheckedLogReader

def NO_ERR : Int := 0

def END : Int := -1

def BAD_CRC : Int := -2

def IGNORE : Int := -3

def new (fd : FdIOClient) : CheckedLogReader := ⟨fd, 0⟩

/-- `read_record`: the length out of the bytes of `len_buf`. A `char` is promoted to `int`
    with its sign. -/
def recordLen (b0 b1 b2 b3 : UInt8) : Int :=
  (b0.toInt8.toInt32 <<< 24 ||| b1.toInt8.toInt32 <<< 16 ||| b2.toInt8.toInt32 <<< 8 |||
    b3.toInt8.toInt32).toInt

/-- `read_record`: what it has read before the data. -/
structure Header where
  ignore : UInt8
  crc_buf : List UInt8
  len_buf : List UInt8
  len : Int
  deriving DecidableEq, Repr

/-- `read_record`: the three reads before the data, with the header where none of them is
    short. -/
def readHeader (rd : CheckedLogReader) : Option Header × CheckedLogReader :=
  match rd.fd_.read 1 with
  | ([ignore], fd) =>
    let rd : CheckedLogReader := { fd_ := fd, cur_offset_ := rd.cur_offset_ + 1 }
    match rd.fd_.read 4 with
    | (crc_buf, fd) =>
      if crc_buf.length ≠ 4 then (none, { rd with fd_ := fd })
      else
        let rd : CheckedLogReader := { fd_ := fd, cur_offset_ := rd.cur_offset_ + 4 }
        match rd.fd_.read 4 with
        | ([b0, b1, b2, b3], fd) =>
          (some { ignore, crc_buf, len_buf := [b0, b1, b2, b3], len := recordLen b0 b1 b2 b3 },
            { fd_ := fd, cur_offset_ := rd.cur_offset_ + 4 })
        | (_, fd) => (none, { rd with fd_ := fd })
  | (_, fd) => (none, { rd with fd_ := fd })

/-- `read_record`: the length that it reserves and reads, where it comes that far. -/
def reservedLen (rd : CheckedLogReader) : Option Int :=
  match rd.readHeader with
  | (some h, rd') =>
    if h.len > (rd.fd_.data.length : Int) - rd'.cur_offset_ then none else some h.len
  | (none, _) => none

/-- `buf->reserve(len)`. A negative length converts to a size for which no memory is left. -/
def reserveLen (buf : ExpandableBuffer) (len : Int) : Except Fault ExpandableBuffer :=
  if len < 0 then throw .panic else pure (buf.reserve len.toNat)

/-- The bytes that a call put at the start of the allocation. -/
def fillBuf (buf : ExpandableBuffer) (bytes : List UInt8) : ExpandableBuffer :=
  { buf with buf_ := some (bytes ++ buf.bytes.drop bytes.length) }

/-- `read_record`: the check of the data. -/
def checkData (h : Header) (buf : ExpandableBuffer) : Except Fault Int := do
  let crc ← CRC32.new.update h.len_buf 4
  let crc ← crc.update (← buf.rawBuf) h.len.toNat
  let expected ← CRC32.fromBytes h.crc_buf
  pure (if crc.value ≠ expected then BAD_CRC else if h.ignore = 33 then IGNORE else NO_ERR)

/-- `read_record`: the data. -/
def readData (rd : CheckedLogReader) (h : Header) (buf : ExpandableBuffer) :
    Except Fault (Int × CheckedLogReader × ExpandableBuffer) := do
  let buf ← reserveLen buf h.len
  let _ ← buf.rawBuf
  let (bytes, fd) := rd.fd_.read h.len.toNat
  let buf := fillBuf buf bytes
  let rd := { fd_ := fd, cur_offset_ := rd.cur_offset_ + bytes.length }
  if bytes.length ≠ h.len.toNat then pure (BAD_CRC, rd, buf)
  else
    let code ← checkData h buf
    pure (code, rd, buf)

def readRecord (rd : CheckedLogReader) (buf : ExpandableBuffer) :
    Except Fault (Int × CheckedLogReader × ExpandableBuffer) :=
  let st_size := rd.fd_.data.length
  if rd.cur_offset_ = st_size then pure (END, rd, buf)
  else
    match rd.readHeader with
    | (none, rd) => pure (BAD_CRC, rd, buf)
    | (some h, rd) =>
      if h.len > (st_size : Int) - rd.cur_offset_ then pure (BAD_CRC, rd, buf)
      else rd.readData h buf

end CheckedLogReader

end Oasys
