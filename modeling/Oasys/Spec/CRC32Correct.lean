import Oasys.Util.CRC32
import Oasys.ForStd.BigEndian
import Oasys.ForStd.CRC

/-!
# CRC32: the table computes CRC-32

`crc32` is CRC-32 by its definition: the reflected polynomial `0xEDB88320`, the
register and the result inverted. The checksum of `util/CRC32.cc` is this function
(`value_update`), and the four bytes it is compared with are a big-endian numeral
(`fromBytes_eq`).
-/

namespace Oasys.CRC32

def polynomial : BitVec 32 := 0xEDB88320#32

def crc32 (bs : List UInt8) : UInt32 :=
  .ofBitVec (CRC.register polynomial 0xFFFFFFFF#32 bs ^^^ 0xFFFFFFFF#32)

/-! ### The table -/

theorem CRCTABLE_get (i : Fin 256) :
    (CRCTABLE.get i).toBitVec = (CRC.shift polynomial)^[8] (BitVec.ofNat 32 i) := by
  revert i
  decide +kernel

private theorem index_eq (x : UInt32) : ((x &&& 0xFF).toUInt8.toFin : Nat) = x.toNat % 256 := by
  have hmask : x.toNat &&& 255 = x.toNat % 2 ^ 8 := Nat.and_two_pow_sub_one_eq_mod x.toNat 8
  show (x &&& 0xFF).toUInt8.toNat = x.toNat % 256
  rw [UInt32.toNat_toUInt8, UInt32.toNat_and]
  show (x.toNat &&& 255) % 2 ^ 8 = x.toNat % 256
  rw [hmask]
  omega

theorem updateByte_toBitVec (crc_ : CRC32) (b : UInt8) :
    (updateByte crc_ b).toBitVec = CRC.byte polynomial crc_.toBitVec b := by
  have hindex : BitVec.ofNat 32 ((crc_ ^^^ b.toUInt32) &&& 0xFF).toUInt8.toFin =
      ((crc_.toBitVec ^^^ b.toBitVec.setWidth 32).setWidth 8).setWidth 32 := by
    apply BitVec.eq_of_toNat_eq
    rw [index_eq, BitVec.toNat_ofNat, BitVec.toNat_setWidth, BitVec.toNat_setWidth]
    rfl
  unfold updateByte
  rw [CRC.byte_eq_table, UInt32.toBitVec_xor, CRCTABLE_get, hindex]
  rfl

theorem foldl_updateByte (crc_ : CRC32) (bs : List UInt8) :
    (bs.foldl updateByte crc_).toBitVec = CRC.register polynomial crc_.toBitVec bs := by
  induction bs generalizing crc_ with
  | nil => rfl
  | cons b bs ih => rw [List.foldl_cons, ih, updateByte_toBitVec, CRC.register_cons]

/-! ### The checksum -/

theorem value_foldl (bs : List UInt8) : value (bs.foldl updateByte new) = crc32 bs := by
  apply UInt32.toBitVec_inj.mp
  show (bs.foldl updateByte new).toBitVec ^^^ 0xFFFFFFFF#32 = _
  rw [foldl_updateByte]
  rfl

theorem update_eq (crc_ : CRC32) {buf : List UInt8} {length : Nat} (h : length ≤ buf.length) :
    update crc_ buf length = .ok ((buf.take length).foldl updateByte crc_) := if_pos h

theorem fromBytes_eq {bs : List UInt8} (h : bs.length = 4) :
    fromBytes bs = .ok (.ofNat (BigEndian.value bs)) := by
  match bs, h with
  | [b0, b1, b2, b3], _ =>
    rw [← BigEndian.toNat_ofBytes32, UInt32.ofNat_toNat]
    rfl

end Oasys.CRC32

/-!
### CRC32: the object computes CRC-32

The standard gives CRC-32 bit by bit, with the polynomial `0x04C11DB7`; bytes come with the
low bit first, and the register is mirrored before it is inverted. `update` has the mirror
image of this register, however a message is cut into pieces, and `value` only reads it.
-/

namespace Oasys

namespace CRC32

/-- CRC-32 of a message as the standard defines it. -/
def standard (bs : List UInt8) : UInt32 :=
  .ofBitVec ((CRC.serial 0x04C11DB7#32 0xFFFFFFFF#32 bs).reverse ^^^ 0xFFFFFFFF#32)

/-- The check value of the standard, which is that of the digits from 1 to 9. -/
example : standard [49, 50, 51, 52, 53, 54, 55, 56, 57] = 0xCBF43926 := by decide +kernel

theorem crc32_eq_standard (bs : List UInt8) : crc32 bs = standard bs := by
  have hpoly : polynomial = (0x04C11DB7#32).reverse := by decide +kernel
  have hones : 0xFFFFFFFF#32 = (0xFFFFFFFF#32).reverse := by decide +kernel
  have hmirror := CRC.register_reverse 0x04C11DB7#32 (by omega) 0xFFFFFFFF#32 bs
  rw [← hpoly, ← hones] at hmirror
  rw [crc32, standard, hmirror]

end CRC32

namespace CRC32Object

/-- What is done with an object. The bytes of an `update` are somewhere in memory. -/
inductive Call where
  | update (data behind : List UInt8)
  | value

/-- The calls one after another, with what `value` returns. -/
def run (c : CRC32Object) : List Call → Except Fault (List UInt32 × CRC32Object)
  | [] => pure ([], c)
  | .update data behind :: calls => do
    let c ← c.update (data ++ behind) data.length
    run c calls
  | .value :: calls => do
    let (crc, c) := c.value
    let (crcs, c) ← run c calls
    pure (crc :: crcs, c)

/-- What `value` is to return, after some bytes: the CRC of all of them. -/
def reads (message : List UInt8) : List Call → List UInt32
  | [] => []
  | .update data _ :: calls => reads (message ++ data) calls
  | .value :: calls => CRC32.standard message :: reads message calls

def message : List Call → List UInt8
  | [] => []
  | .update data _ :: calls => data ++ message calls
  | .value :: calls => message calls

def Seen (c : CRC32Object) (bs : List UInt8) : Prop :=
  c.crc_ = bs.foldl CRC32.updateByte CRC32.new

variable {c : CRC32Object} {bs : List UInt8}

theorem Seen.value (h : c.Seen bs) : c.value.1 = CRC32.standard bs ∧ c.value.2.Seen bs := by
  refine ⟨?_, h⟩
  have hcrc : c.value.1 = CRC32.value c.crc_ := rfl
  rw [hcrc, h, CRC32.value_foldl, CRC32.crc32_eq_standard]

theorem Seen.update (h : c.Seen bs) (data behind : List UInt8) :
    ∃ c', c.update (data ++ behind) data.length = .ok c' ∧ c'.Seen (bs ++ data) := by
  have hlen : data.length ≤ (data ++ behind).length := by simp
  refine ⟨{ c with crc_ := data.foldl CRC32.updateByte c.crc_ }, ?_, ?_⟩
  · simp [CRC32Object.update, CRC32.update_eq c.crc_ hlen]
  · rw [Seen, List.foldl_append, ← h]

theorem Seen.run (h : c.Seen bs) (calls : List Call) :
    ∃ c', c.run calls = .ok (reads bs calls, c') ∧ c'.Seen (bs ++ message calls) := by
  induction calls generalizing c bs with
  | nil => exact ⟨c, rfl, by simpa [message] using h⟩
  | cons call calls ih =>
    cases call with
    | update data behind =>
      obtain ⟨c₁, hupdate, hseen⟩ := h.update data behind
      obtain ⟨c', hrun, hseen'⟩ := ih hseen
      refine ⟨c', ?_, ?_⟩
      · rw [CRC32Object.run, hupdate, ok_bind, hrun, reads]
      · rwa [List.append_assoc] at hseen'
    | value =>
      obtain ⟨hvalue, hseen⟩ := h.value
      obtain ⟨c', hrun, hseen'⟩ := ih hseen
      refine ⟨c', ?_, hseen'⟩
      simp [CRC32Object.run, hrun, reads, hvalue]

/-- From its constructor on, however a message is cut into updates and wherever values are
    read in between, `value` returns the CRC-32 of the bytes so far: those read on the way,
    and the one that is read at the end. -/
theorem values_eq_standard (uninitialised : UInt32) (calls : List Call) :
    ∃ c', (new uninitialised).run calls = .ok (reads [] calls, c') ∧
      c'.value.1 = CRC32.standard (message calls) := by
  have hnew : (new uninitialised).Seen [] := rfl
  obtain ⟨c', hrun, hseen⟩ := hnew.run calls
  exact ⟨c', hrun, hseen.value.1⟩

end CRC32Object

end Oasys
