import Oasys.Spec.CRC32Correct
import Oasys.Storage.CheckedLog

/-!
# CheckedLog correctness

What the writer puts at the end of its file is the concatenation of one image for each
record. The reader is followed over the bytes that lie before it. Its step on a whole header
depends on the four bytes of the length: where one of them is a negative `char` the length is
negative, and the reservation of it ends the run; otherwise they are the numeral that the
writer wrote. From the steps come the two results of the module: when a log is read back, and
when damage to it is reported.
-/

namespace Oasys

open FileSystem

/-! ### The length field -/

namespace CheckedLogReader

/-- Every byte is a `char` that is not negative. -/
def Small (bs : List UInt8) : Prop := ∀ c ∈ bs, c < 128

instance (bs : List UInt8) : Decidable (Small bs) := List.decidableBAll (· < 128) bs

private theorem toInt32_of_small {b : UInt8} (h : b < 128) :
    b.toInt8.toInt32.toBitVec = b.toUInt32.toBitVec := by
  have hmsb : b.toBitVec.msb = false := by
    rw [BitVec.msb_eq_false_iff_two_mul_lt]
    have : b.toNat < 128 := h
    have : b.toBitVec.toNat = b.toNat := rfl
    omega
  rw [Int8.toBitVec_toInt32, UInt8.toBitVec_toInt8, BitVec.signExtend_eq_setWidth_of_msb_false hmsb]
  rfl

theorem recordLen_of_small {b0 b1 b2 b3 : UInt8} (h : Small [b0, b1, b2, b3]) :
    recordLen b0 b1 b2 b3 = BigEndian.value [b0, b1, b2, b3] := by
  have h0 : b0 < 128 := h b0 (by simp)
  have h1 : b1 < 128 := h b1 (by simp)
  have h2 : b2 < 128 := h b2 (by simp)
  have h3 : b3 < 128 := h b3 (by simp)
  have hword : (b0.toInt8.toInt32 <<< 24 ||| b1.toInt8.toInt32 <<< 16 |||
      b2.toInt8.toInt32 <<< 8 ||| b3.toInt8.toInt32).toBitVec =
      (b0.toUInt32 <<< 24 ||| b1.toUInt32 <<< 16 ||| b2.toUInt32 <<< 8 |||
        b3.toUInt32).toBitVec := by
    simp only [Int32.toBitVec_or, Int32.toBitVec_shiftLeft, UInt32.toBitVec_or,
      UInt32.toBitVec_shiftLeft, toInt32_of_small h0, toInt32_of_small h1, toInt32_of_small h2,
      toInt32_of_small h3]
    rfl
  have hvalue := BigEndian.toNat_ofBytes32 b0 b1 b2 b3
  -- the first byte leaves the sign bit of the length alone
  have hlt : 2 * BigEndian.value [b0, b1, b2, b3] < 2 ^ 32 := by
    have : b0.toNat < 128 := h0
    have := b1.toNat_lt
    have := b2.toNat_lt
    have := b3.toNat_lt
    simp only [BigEndian.value, List.foldl_cons, List.foldl_nil]
    omega
  unfold recordLen
  show (Int32.toBitVec _).toInt = _
  rw [hword, BitVec.toInt_eq_toNat_of_lt, ← hvalue]
  · rfl
  · rw [← hvalue] at hlt
    exact hlt

private theorem msb_promoted (b : UInt8) {k : Nat} (hk : k ≤ 24) :
    (b.toBitVec.signExtend 32 <<< k).msb = b.toBitVec.msb := by
  rw [BitVec.msb_shiftLeft, BitVec.getMsbD_signExtend]
  have hlt : k < 32 := by omega
  simp only [hlt, decide_true, Bool.true_and]
  split
  · have : k + 8 - 32 = 0 := by omega
    rw [this]
    rfl
  · rfl

theorem recordLen_neg {b0 b1 b2 b3 : UInt8} (h : ¬ Small [b0, b1, b2, b3]) :
    recordLen b0 b1 b2 b3 < 0 := by
  have hword : (b0.toInt8.toInt32 <<< 24 ||| b1.toInt8.toInt32 <<< 16 |||
      b2.toInt8.toInt32 <<< 8 ||| b3.toInt8.toInt32).toBitVec =
      b0.toBitVec.signExtend 32 <<< 24 ||| b1.toBitVec.signExtend 32 <<< 16 |||
        b2.toBitVec.signExtend 32 <<< 8 ||| b3.toBitVec.signExtend 32 <<< 0 := by
    rw [BitVec.shiftLeft_zero]
    rfl
  have hsign : ∀ b : UInt8, b.toBitVec.msb = true ↔ ¬ b < 128 := by
    intro b
    rw [BitVec.msb_eq_true_iff_two_mul_ge, UInt8.lt_iff_toNat_lt]
    show 2 ^ 8 ≤ 2 * b.toNat ↔ ¬ b.toNat < 128
    omega
  unfold recordLen
  apply BitVec.toInt_neg_of_msb_true
  rw [hword]
  -- the sign bit of the disjunction is that of one of the four parts
  simp only [BitVec.msb_or, msb_promoted _ (show 24 ≤ 24 by decide),
    msb_promoted _ (show 16 ≤ 24 by decide), msb_promoted _ (show 8 ≤ 24 by decide),
    msb_promoted _ (show 0 ≤ 24 by decide), Bool.or_eq_true, hsign]
  simp only [Small, List.forall_mem_cons, List.not_mem_nil, false_implies, implies_true,
    and_true] at h
  by_contra hno
  simp only [not_or, not_not] at hno
  obtain ⟨⟨⟨h0, h1⟩, h2⟩, h3⟩ := hno
  exact h ⟨h0, h1, h2, h3⟩

theorem value_le_of_small {bs : List UInt8} (hlen : bs.length = 4) (h : Small bs) :
    BigEndian.value bs ≤ maxRwCount := by
  match bs, hlen with
  | [b0, b1, b2, b3], _ =>
    have h0 : b0.toNat < 128 := h b0 (by simp)
    have h1 : b1.toNat < 128 := h b1 (by simp)
    have := b2.toNat_lt
    have := b3.toNat_lt
    simp only [BigEndian.value, List.foldl_cons, List.foldl_nil, maxRwCount]
    omega

end CheckedLogReader

/-! ### Reading forward -/

namespace FdIOClient

variable {fd : FdIOClient} {rest : List UInt8}

/-- The bytes that lie before the descriptor. -/
structure At (fd : FdIOClient) (rest : List UInt8) : Prop where
  le : fd.offset ≤ fd.data.length
  drop : fd.data.drop fd.offset = rest

theorem At.length (h : At fd rest) : fd.data.length = fd.offset + rest.length := by
  have := h.le
  rw [← h.drop, List.length_drop]
  omega

def advance (fd : FdIOClient) (n : Nat) : FdIOClient := { fd with offset := fd.offset + n }

theorem At.read {bytes : List UInt8} (h : At fd (bytes ++ rest))
    (hmax : bytes.length ≤ maxRwCount) :
    fd.read bytes.length = (bytes, fd.advance bytes.length) ∧
      At (fd.advance bytes.length) rest := by
  have hlen := h.length
  rw [List.length_append] at hlen
  constructor
  · unfold FdIOClient.read
    rw [h.drop, Nat.min_eq_left hmax, List.take_left]
    rfl
  · refine ⟨?_, ?_⟩
    · show fd.offset + bytes.length ≤ fd.data.length
      omega
    · show fd.data.drop (fd.offset + bytes.length) = rest
      rw [← List.drop_drop, h.drop, List.drop_left]

theorem At.read_short {n : Nat} (h : At fd rest) (hlt : rest.length < n) (hmax : n ≤ maxRwCount) :
    fd.read n = (rest, fd.advance rest.length) := by
  unfold FdIOClient.read
  rw [h.drop, Nat.min_eq_left hmax, List.take_of_length_le (by omega)]
  rfl

end FdIOClient

namespace CheckedLogReader

open FdIOClient BigEndian

variable {rd : CheckedLogReader} {rest body : List UInt8}

/-- The bytes that lie before the reader, whose offset is that of its descriptor. -/
structure At (rd : CheckedLogReader) (rest : List UInt8) : Prop where
  cur_offset : rd.cur_offset_ = rd.fd_.offset
  fd : FdIOClient.At rd.fd_ rest

def advance (rd : CheckedLogReader) (n : Nat) : CheckedLogReader where
  fd_ := rd.fd_.advance n
  cur_offset_ := rd.cur_offset_ + n

theorem at_new (content : List UInt8) : At (new ⟨content, 0⟩) content :=
  ⟨rfl, Nat.zero_le _, rfl⟩

variable {bytes : List UInt8}

theorem At.advance (h : At rd (bytes ++ rest))
    (hmax : bytes.length ≤ maxRwCount) : At (rd.advance bytes.length) rest where
  cur_offset := congrArg (· + bytes.length) h.cur_offset
  fd := (h.fd.read hmax).2

theorem readRecord_end (h : At rd []) (b : ExpandableBuffer) :
    rd.readRecord b = .ok (END, rd, b) := by
  have hlen := h.fd.length
  rw [List.length_nil, Nat.add_zero, ← h.cur_offset] at hlen
  unfold readRecord
  rw [if_pos hlen.symm]
  rfl

theorem At.cur_offset_ne (h : At rd rest) (hne : rest ≠ []) :
    rd.cur_offset_ ≠ rd.fd_.data.length := by
  have hlen := h.fd.length
  have hpos := List.length_pos_iff.2 hne
  have := h.cur_offset
  omega

private theorem one_le : 1 ≤ maxRwCount := by decide

private theorem four_le : 4 ≤ maxRwCount := by decide

theorem readHeader_eq {ignore b0 b1 b2 b3 : UInt8} {crc_buf : List UInt8}
    (hcrc : crc_buf.length = 4)
    (h : At rd ([ignore] ++ (crc_buf ++ ([b0, b1, b2, b3] ++ body)))) :
    rd.readHeader = (some ⟨ignore, crc_buf, [b0, b1, b2, b3], recordLen b0 b1 b2 b3⟩,
      rd.advance 9) ∧ At (rd.advance 9) body := by
  -- three reads: the first byte, the checksum and the length
  obtain ⟨hread1, -⟩ := h.fd.read one_le
  have h1 : At (rd.advance 1) _ := h.advance one_le
  obtain ⟨hread2, -⟩ := h1.fd.read (hcrc.le.trans four_le)
  have h2 := h1.advance (hcrc.le.trans four_le)
  rw [hcrc] at hread2 h2
  obtain ⟨hread3, -⟩ := h2.fd.read four_le
  have h3 : At (((rd.advance 1).advance 4).advance 4) body := h2.advance four_le
  refine ⟨?_, h3⟩
  have hread1 : rd.fd_.read 1 = ([ignore], rd.fd_.advance 1) := hread1
  have hread2 : (rd.fd_.advance 1).read 4 = (crc_buf, (rd.fd_.advance 1).advance 4) := hread2
  have hread3 : ((rd.fd_.advance 1).advance 4).read 4 =
    ([b0, b1, b2, b3], ((rd.fd_.advance 1).advance 4).advance 4) := hread3
  unfold readHeader
  simp only [hread1, hread2, hcrc, hread3]
  rfl

theorem readHeader_short (h : FdIOClient.At rd.fd_ rest) (hlt : rest.length < 9) :
    ∃ rd', rd.readHeader = (none, rd') ∧ rd'.fd_.data = rd.fd_.data ∧
      rd'.fd_.offset = rd.fd_.data.length := by
  have hlength := h.length
  unfold readHeader
  -- the cut is before the first byte, in the checksum, or in the length
  match rest, hlt with
  | [], _ =>
    have hread1 := h.read_short Nat.zero_lt_one one_le
    simp only [hread1]
    exact ⟨_, rfl, rfl, hlength.symm⟩
  | ignore :: rest, hlt =>
    have h : FdIOClient.At rd.fd_ ([ignore] ++ rest) := h
    obtain ⟨hread1, h1⟩ := h.read one_le
    have hread1 : rd.fd_.read 1 = ([ignore], rd.fd_.advance 1) := hread1
    rw [List.length_cons] at hlt hlength
    simp only [hread1]
    by_cases hcrc : rest.length < 4
    · have hread2 : (rd.fd_.advance 1).read 4 = (rest, _) := h1.read_short hcrc four_le
      have hne : rest.length ≠ 4 := by omega
      have hoffset : rd.fd_.offset + 1 + rest.length = rd.fd_.data.length := by omega
      simp only [hread2, hne, ne_eq, not_false_iff, if_true]
      exact ⟨_, rfl, rfl, hoffset⟩
    · have hcrc : (rest.take 4).length = 4 := by
        rw [List.length_take]
        omega
      have h1 : FdIOClient.At (rd.fd_.advance 1) (rest.take 4 ++ rest.drop 4) := by
        rwa [List.take_append_drop]
      obtain ⟨hread2, h2⟩ := h1.read (hcrc.le.trans four_le)
      rw [hcrc] at hread2 h2
      have hlen : (rest.drop 4).length < 4 := by
        rw [List.length_drop]
        omega
      have hoffset : rd.fd_.offset + 1 + 4 + (rest.drop 4).length = rd.fd_.data.length := by
        rw [List.length_take] at hcrc
        rw [List.length_drop]
        omega
      have hread3 := h2.read_short hlen four_le
      simp only [hread2, hcrc, ne_eq, not_true_eq_false, if_false, hread3]
      split
      · rename_i heq
        rw [Prod.mk.injEq] at heq
        rw [heq.1] at hlen
        exact absurd hlen (Nat.lt_irrefl 4)
      · rename_i heq
        rw [Prod.mk.injEq] at heq
        obtain ⟨-, rfl⟩ := heq
        exact ⟨_, rfl, rfl, hoffset⟩

/-! ### The data -/

def filled (b : ExpandableBuffer) (bytes : List UInt8) : ExpandableBuffer :=
  fillBuf (b.reserve bytes.length) bytes

theorem take_filled (b : ExpandableBuffer) (bytes : List UInt8) :
    (filled b bytes).bytes.take bytes.length = bytes := List.take_left

@[simp] theorem len_filled (b : ExpandableBuffer) (bytes : List UInt8) :
    (filled b bytes).len_ = b.len_ := by
  show (b.reserve bytes.length).len_ = b.len_
  unfold ExpandableBuffer.reserve
  split <;> rfl

/-- The code for data whose checksum was checked. -/
def codeOf (h : Header) (bytes : List UInt8) : Int :=
  if CRC32.crc32 (h.len_buf ++ bytes) ≠ .ofNat (value h.crc_buf) then BAD_CRC
  else if h.ignore = 33 then IGNORE else NO_ERR

theorem checkData_filled {h : Header} (hlen_buf : h.len_buf.length = 4)
    (hcrc_buf : h.crc_buf.length = 4) (hlen : h.len = bytes.length) (b : ExpandableBuffer) :
    checkData h (filled b bytes) = .ok (codeOf h bytes) := by
  have hraw : (filled b bytes).rawBuf = .ok (filled b bytes).bytes := rfl
  have hle : bytes.length ≤ (filled b bytes).bytes.length := by
    show bytes.length ≤ (bytes ++ _).length
    rw [List.length_append]
    exact Nat.le_add_right _ _
  -- the checksum is over the length field and the data
  have hupdate : CRC32.new.update h.len_buf 4 = .ok (h.len_buf.foldl CRC32.updateByte .new) := by
    rw [CRC32.update_eq _ hlen_buf.ge, List.take_of_length_le hlen_buf.le]
  have hcrc : CRC32.value (bytes.foldl CRC32.updateByte
      (h.len_buf.foldl CRC32.updateByte .new)) = CRC32.crc32 (h.len_buf ++ bytes) := by
    rw [← List.foldl_append, CRC32.value_foldl]
  unfold checkData
  rw [hupdate, hraw, hlen, Int.toNat_natCast]
  show (CRC32.update _ (filled b bytes).bytes bytes.length >>= _) = _
  rw [CRC32.update_eq _ hle, take_filled, CRC32.fromBytes_eq hcrc_buf]
  show Except.ok (if CRC32.value _ ≠ _ then _ else _) = _
  rw [hcrc]
  rfl

theorem rawBuf_reserve {b : ExpandableBuffer} {n : Nat} (h : n = 0 → b.buf_.isSome) :
    ∃ raw, (b.reserve n).rawBuf = .ok raw :=
  ⟨_, by rw [ExpandableBuffer.rawBuf, ExpandableBuffer.isSome_reserve h]; rfl⟩

theorem readData_eq {h : Header} (hlen_buf : h.len_buf.length = 4)
    (hcrc_buf : h.crc_buf.length = 4) (hlen : h.len = bytes.length)
    (hmax : bytes.length ≤ maxRwCount) (hat : At rd (bytes ++ rest)) {b : ExpandableBuffer}
    (halloc : bytes.length = 0 → b.buf_.isSome) :
    rd.readData h b = .ok (codeOf h bytes, rd.advance bytes.length, filled b bytes) := by
  obtain ⟨raw, hraw⟩ := rawBuf_reserve halloc
  have hreserve : reserveLen b h.len = .ok (b.reserve bytes.length) := by
    unfold reserveLen
    rw [hlen, if_neg (by omega), Int.toNat_natCast]
    rfl
  have hread : rd.fd_.read h.len.toNat = (bytes, rd.fd_.advance bytes.length) := by
    rw [hlen, Int.toNat_natCast]
    exact (hat.fd.read hmax).1
  have hwhole : ¬ bytes.length ≠ h.len.toNat := by
    rw [hlen, Int.toNat_natCast]
    exact not_not.2 rfl
  have hcheck : checkData h (fillBuf (b.reserve bytes.length) bytes) = .ok (codeOf h bytes) :=
    checkData_filled hlen_buf hcrc_buf hlen b
  unfold readData
  simp only [hreserve, hraw, hread, bind, Except.bind, if_neg hwhole, hcheck]
  rfl

/-! ### One step of the reader -/

/-- What a run needs of the length fields that it meets, one after the other: no negative
    `char` in them, and memory for a length of zero that comes first. -/
def Readable (b : ExpandableBuffer) (lens : List (List UInt8)) : Prop :=
  (∀ l ∈ lens, Small l) ∧ ∀ l ∈ lens.head?, value l = 0 → b.buf_.isSome

instance (b : ExpandableBuffer) (lens : List (List UInt8)) : Decidable (Readable b lens) :=
  inferInstanceAs (Decidable (_ ∧ _))

theorem readable_cons {b b' : ExpandableBuffer} (hb' : b'.buf_.isSome) (l : List UInt8)
    (lens : List (List UInt8)) : Readable b (l :: lens) ↔ Readable b [l] ∧ Readable b' lens := by
  simp only [Readable, List.forall_mem_cons, List.head?_cons, Option.mem_some_iff, hb',
    implies_true, and_true, List.not_mem_nil, false_implies]
  tauto

theorem readHeader_at {ignore : UInt8} {crc_buf len_buf : List UInt8} (hcrc : crc_buf.length = 4)
    (hlen : len_buf.length = 4) (h : At rd ([ignore] ++ (crc_buf ++ (len_buf ++ body)))) :
    ∃ len, rd.readHeader = (some ⟨ignore, crc_buf, len_buf, len⟩, rd.advance 9) ∧
      At (rd.advance 9) body ∧ (Small len_buf → len = value len_buf) ∧
      (¬ Small len_buf → len < 0) := by
  match len_buf, hlen with
  | [b0, b1, b2, b3], _ =>
    obtain ⟨hread, hat⟩ := readHeader_eq hcrc h
    exact ⟨_, hread, hat, recordLen_of_small, recordLen_neg⟩

theorem At.left_eq (h : At rd body) :
    (rd.fd_.data.length : Int) - rd.cur_offset_ = body.length := by
  rw [h.cur_offset, h.fd.length]
  omega

variable {ignore : UInt8} {crc_buf len_buf : List UInt8}

theorem readRecord_short (h : FdIOClient.At rd.fd_ rest)
    (hcur : rd.cur_offset_ ≠ rd.fd_.data.length) (hlt : rest.length < 9) (b : ExpandableBuffer) :
    ∃ rd', rd.readRecord b = .ok (BAD_CRC, rd', b) ∧ rd'.fd_.data = rd.fd_.data ∧
      rd'.fd_.offset = rd.fd_.data.length := by
  obtain ⟨rd', hread, hend⟩ := readHeader_short h hlt
  unfold readRecord
  simp only [if_neg hcur, hread]
  exact ⟨rd', rfl, hend⟩

/-- A negative `char` in the length, or a length of zero without memory for it, ends the
    run. -/
theorem readRecord_error (hcrc : crc_buf.length = 4) (hlen : len_buf.length = 4)
    (h : At rd ([ignore] ++ (crc_buf ++ (len_buf ++ body)))) {b : ExpandableBuffer}
    (hbad : ¬ Readable b [len_buf]) : ∃ e, rd.readRecord b = .error e := by
  obtain ⟨len, hread, hat, hsmall, hneg⟩ := readHeader_at hcrc hlen h
  unfold readRecord
  simp only [if_neg (h.cur_offset_ne (by simp)), hread]
  have hleft : (rd.fd_.data.length : Int) - (rd.advance 9).cur_offset_ = body.length := hat.left_eq
  rw [hleft]
  by_cases hs : Small len_buf
  · -- the length is zero, and the buffer has no memory yet
    have hzero : value len_buf = 0 ∧ b.buf_ = none := by
      simp only [Readable, List.forall_mem_cons, hs, List.head?_cons, Option.mem_some_iff] at hbad
      simpa using hbad
    have hraw : b.rawBuf = .error .assertFailed := by
      rw [ExpandableBuffer.rawBuf, hzero.2]
      rfl
    have hreserve : b.reserve 0 = b := if_neg (Nat.not_lt_zero _)
    rw [hsmall hs, hzero.1, if_neg (by omega)]
    refine ⟨.assertFailed, ?_⟩
    show (reserveLen b 0 >>= _) = _
    show ((b.reserve 0).rawBuf >>= _) = _
    rw [hreserve, hraw]
    rfl
  · -- `reserve` is called with a negative length
    have hneg := hneg hs
    rw [if_neg (by omega)]
    refine ⟨.panic, ?_⟩
    show (reserveLen b len >>= _) = _
    rw [reserveLen, if_pos hneg]
    rfl

theorem readRecord_cut (hcrc : crc_buf.length = 4) (hlen : len_buf.length = 4)
    (h : At rd ([ignore] ++ (crc_buf ++ (len_buf ++ body)))) (hsmall : Small len_buf)
    (hgt : body.length < value len_buf) (b : ExpandableBuffer) :
    rd.readRecord b = .ok (BAD_CRC, rd.advance 9, b) := by
  obtain ⟨len, hread, hat, hvalue, -⟩ := readHeader_at hcrc hlen h
  have hleft : (rd.fd_.data.length : Int) - (rd.advance 9).cur_offset_ = body.length := hat.left_eq
  unfold readRecord
  simp only [if_neg (h.cur_offset_ne (by simp)), hread]
  rw [hleft, hvalue hsmall, if_pos (by omega)]
  rfl

theorem readRecord_eq (hcrc : crc_buf.length = 4) (hlen : len_buf.length = 4)
    (h : At rd ([ignore] ++ (crc_buf ++ (len_buf ++ (bytes ++ rest)))))
    {b : ExpandableBuffer} (hread : Readable b [len_buf]) (hbytes : bytes.length = value len_buf) :
    rd.readRecord b = .ok (codeOf ⟨ignore, crc_buf, len_buf, value len_buf⟩ bytes,
      (rd.advance 9).advance bytes.length, filled b bytes) ∧
      At ((rd.advance 9).advance bytes.length) rest := by
  obtain ⟨hsmall, halloc⟩ := hread
  have hsmall : Small len_buf := hsmall _ (List.mem_singleton.2 rfl)
  have halloc : bytes.length = 0 → b.buf_.isSome := hbytes ▸ halloc _ rfl
  have hmax : bytes.length ≤ maxRwCount := hbytes ▸ value_le_of_small hlen hsmall
  obtain ⟨len, hheader, hat, hvalue, -⟩ := readHeader_at hcrc hlen h
  have hleft : (rd.fd_.data.length : Int) - (rd.advance 9).cur_offset_ =
    (bytes ++ rest).length := hat.left_eq
  refine ⟨?_, hat.advance hmax⟩
  have hfits : ¬ (value len_buf : Int) > (bytes ++ rest).length := by
    rw [List.length_append]
    omega
  unfold readRecord
  simp only [if_neg (h.cur_offset_ne (by simp)), hheader]
  rw [hleft, hvalue hsmall, if_neg hfits]
  exact readData_eq hlen hcrc (congrArg Int.ofNat hbytes.symm) hmax hat halloc

end CheckedLogReader

/-! ### What the writer writes -/

namespace CheckedLogWriter

open BigEndian

def lenBuf (r : List UInt8) : List UInt8 := bytes 4 r.length

def crcBuf (r : List UInt8) : List UInt8 := bytes 4 (CRC32.crc32 (lenBuf r ++ r)).toNat

/-- A record in the file. Data beyond what one `write` transfers is left out. -/
def image (r : List UInt8) : List UInt8 :=
  [42] ++ (crcBuf r ++ (lenBuf r ++ r.take maxRwCount))

def log (rs : List (List UInt8)) : List UInt8 := rs.flatMap image

@[simp] theorem length_lenBuf (r : List UInt8) : (lenBuf r).length = 4 := length_bytes ..

@[simp] theorem length_crcBuf (r : List UInt8) : (crcBuf r).length = 4 := length_bytes ..

@[simp] theorem log_nil : log [] = [] := rfl

@[simp] theorem log_cons (r : List UInt8) (rs : List (List UInt8)) :
    log (r :: rs) = image r ++ log rs := rfl

theorem value_lenBuf {r : List UInt8} (hr : r.length < 2 ^ 32) : value (lenBuf r) = r.length :=
  value_bytes_of_lt hr

/-- A call of the writer. -/
inductive LogCall where
  | record (buf : List UInt8)
  | force
  deriving DecidableEq, Repr

def LogCall.record? : LogCall → Option (List UInt8)
  | record buf => some buf
  | force => none

def records (calls : List LogCall) : List (List UInt8) := calls.filterMap LogCall.record?

/-- Calls, one after the other. -/
def run : List LogCall → CheckedLogWriter → Except Fault CheckedLogWriter
  | [], wr => pure wr
  | .record buf :: calls, wr => do
    let wr ← wr.writeRecord buf (.ofNat buf.length)
    run calls wr
  | .force :: calls, wr => run calls wr.force

def AtEnd (wr : CheckedLogWriter) : Prop := wr.fd_.offset = wr.fd_.data.length

private theorem write_eq (data buf : List UInt8) :
    FdIOClient.write ⟨data, data.length⟩ buf =
      ⟨data ++ buf.take maxRwCount, (data ++ buf.take maxRwCount).length⟩ := by
  show FdIOClient.mk (writeAt data data.length _) (data.length + _) = _
  rw [writeAt_length, List.length_append]

theorem writeRecord_eq {wr : CheckedLogWriter} (h : wr.AtEnd) {r : List UInt8}
    (hr : r.length < 2 ^ 32) :
    ∃ wr', wr.writeRecord r (.ofNat r.length) = .ok wr' ∧ wr'.AtEnd ∧
      wr'.fd_.data = wr.fd_.data ++ image r := by
  have hlen : (UInt32.ofNat r.length).toNat = r.length := UInt32.toNat_ofNat_of_lt' hr
  have hword : ∀ w : UInt32, wordBuf w = bytes 4 w.toNat := bytes_word32
  have hlenBuf : wordBuf (.ofNat r.length) = lenBuf r := by rw [hword, hlen]; rfl
  have hupdate : CRC32.new.update (lenBuf r) 4 =
      .ok ((lenBuf r).foldl CRC32.updateByte .new) := by
    rw [CRC32.update_eq _ (length_lenBuf r).ge, List.take_of_length_le (length_lenBuf r).le]
  have hcrc : wordBuf (CRC32.value (r.foldl CRC32.updateByte
      ((lenBuf r).foldl CRC32.updateByte .new))) = crcBuf r := by
    rw [hword, ← List.foldl_append, CRC32.value_foldl]
    rfl
  -- the fields are far below the most that one write transfers
  have hshort : ∀ buf : List UInt8, buf.length ≤ 4 → buf.take maxRwCount = buf := by
    intro buf hle
    have : 4 ≤ maxRwCount := by decide
    exact List.take_of_length_le (by omega)
  have hend : wr.fd_ = ⟨wr.fd_.data, wr.fd_.data.length⟩ := congrArg (FdIOClient.mk _) h
  unfold writeRecord
  simp only [hlenBuf, hupdate, hlen, CRC32.update_eq _ (le_refl r.length), List.take_length, bind,
    Except.bind]
  refine ⟨_, rfl, ?_⟩
  rw [hend, hcrc, write_eq, hshort [42] (by simp), write_eq, hshort _ (length_crcBuf r).le,
    write_eq, hshort _ (length_lenBuf r).le, write_eq]
  refine ⟨rfl, ?_⟩
  simp only [image, List.append_assoc]

theorem run_eq (calls : List LogCall) (wr : CheckedLogWriter) (h : wr.AtEnd)
    (hlen : ∀ r ∈ records calls, r.length < 2 ^ 32) :
    ∃ wr', run calls wr = .ok wr' ∧ wr'.fd_.data = wr.fd_.data ++ log (records calls) := by
  -- what carries the induction is that the writer stands at the end
  induction calls generalizing wr with
  | nil => exact ⟨wr, rfl, (List.append_nil _).symm⟩
  | cons call calls ih =>
    cases call with
    | record r =>
      have hlen : ∀ r' ∈ r :: records calls, r'.length < 2 ^ 32 := hlen
      obtain ⟨wr', hwrite, hend, hdata⟩ := writeRecord_eq h (hlen r List.mem_cons_self)
      obtain ⟨wr'', hrun, hdata'⟩ := ih wr' hend fun r' hr' => hlen r' (List.mem_cons_of_mem r hr')
      refine ⟨wr'', ?_, ?_⟩
      · rw [run, hwrite]
        exact hrun
      · show wr''.fd_.data = wr.fd_.data ++ (image r ++ log (records calls))
        rw [hdata', hdata, List.append_assoc]
    | force => exact ih wr.force h hlen

end CheckedLogWriter

/-! ### Reading a log back -/

namespace CheckedLogReader

open BigEndian CheckedLogWriter

variable {rd : CheckedLogReader} {rest : List UInt8}

/-- The reader gives the records `rs` one after the other, in each of which `P` holds of the
    buffer and the record, and then `code`. -/
def Delivers (P : ExpandableBuffer → List UInt8 → Prop) (code : Int) :
    List (List UInt8) → CheckedLogReader → ExpandableBuffer → Prop
  | [], rd, b => ∃ rd' b', rd.readRecord b = .ok (code, rd', b')
  | r :: rs, rd, b =>
    ∃ rd' b', rd.readRecord b = .ok (NO_ERR, rd', b') ∧ P b' r ∧ Delivers P code rs rd' b'

/-- The bytes of the record are at the start of the buffer. -/
def Holds (b : ExpandableBuffer) (r : List UInt8) : Prop := b.bytes.take r.length = r

/-- The bytes of the record are in the buffer, and the buffer has the length of the record. -/
def HoldsExactly (b : ExpandableBuffer) (r : List UInt8) : Prop := Holds b r ∧ b.len_ = r.length

theorem codeOf_image (r : List UInt8) (len : Int) :
    codeOf ⟨42, crcBuf r, lenBuf r, len⟩ r = NO_ERR := by
  have hvalue : value (crcBuf r) = (CRC32.crc32 (lenBuf r ++ r)).toNat :=
    value_bytes_of_lt (UInt32.toNat_lt _)
  unfold codeOf
  rw [hvalue, UInt32.ofNat_toNat, if_neg (not_not.2 rfl)]
  exact if_neg (show ¬ (42 : UInt8) = 33 by decide)

variable {r : List UInt8}

theorem take_of_readable (hr : r.length < 2 ^ 32) {b : ExpandableBuffer}
    (hread : Readable b [lenBuf r]) : r.take maxRwCount = r := by
  have hle := value_le_of_small (length_lenBuf r) (hread.1 _ (List.mem_singleton.2 rfl))
  rw [value_lenBuf hr] at hle
  exact List.take_of_length_le hle

theorem readRecord_image (hr : r.length < 2 ^ 32) {b : ExpandableBuffer}
    (hread : Readable b [lenBuf r]) (h : At rd (image r ++ rest)) :
    ∃ rd', rd.readRecord b = .ok (NO_ERR, rd', filled b r) ∧ At rd' rest := by
  have himage : image r ++ rest = [42] ++ (crcBuf r ++ (lenBuf r ++ (r ++ rest))) := by
    simp only [image, take_of_readable hr hread, List.append_assoc]
  rw [himage] at h
  have hstep := readRecord_eq (length_crcBuf r) (length_lenBuf r) h hread (value_lenBuf hr).symm
  rw [codeOf_image] at hstep
  exact ⟨_, hstep⟩

variable {rs : List (List UInt8)}

theorem delivers_cons {P : ExpandableBuffer → List UInt8 → Prop} {code : Int} (hr : r.length < 2 ^ 32) {b : ExpandableBuffer}
    (h : At rd (image r ++ rest)) : ∃ rd', At rd' rest ∧ (Delivers P code (r :: rs) rd b ↔
      Readable b [lenBuf r] ∧ P (filled b r) r ∧ Delivers P code rs rd' (filled b r)) := by
  -- where the length cannot be read, neither side holds
  by_cases hread : Readable b [lenBuf r]
  · obtain ⟨rd', hstep, hat⟩ := readRecord_image hr hread h
    refine ⟨rd', hat, ?_⟩
    constructor
    · rintro ⟨rd'', b', hstep', hP, hrest⟩
      rw [hstep] at hstep'
      cases hstep'
      exact ⟨hread, hP, hrest⟩
    · rintro ⟨-, hP, hrest⟩
      exact ⟨rd', filled b r, hstep, hP, hrest⟩
  · -- the run ends here, so that it does not matter where the reader would go on
    refine ⟨new ⟨rest, 0⟩, at_new rest, ?_⟩
    have himage : image r ++ rest =
        [42] ++ (crcBuf r ++ (lenBuf r ++ (r.take maxRwCount ++ rest))) := by
      simp only [image, List.append_assoc]
    rw [himage] at h
    obtain ⟨e, herror⟩ := readRecord_error (length_crcBuf r) (length_lenBuf r) h hread
    constructor
    · rintro ⟨rd', b', hstep, -⟩
      rw [herror] at hstep
      cases hstep
    · intro h'
      exact absurd h'.1 hread

theorem delivers_log {P : ExpandableBuffer → List UInt8 → Prop} {Q : Nat → List UInt8 → Prop}
    (hP : ∀ b r, P (filled b r) r ↔ Q b.len_ r) (rs : List (List UInt8))
    (hlen : ∀ r ∈ rs, r.length < 2 ^ 32) (h : At rd (log rs)) (b : ExpandableBuffer) :
    Delivers P END rs rd b ↔ Readable b (rs.map lenBuf) ∧ ∀ r ∈ rs, Q b.len_ r := by
  induction rs generalizing rd b with
  | nil =>
    have hend := readRecord_end h b
    simp [Delivers, hend, Readable]
  | cons r rs ih =>
    obtain ⟨rd', hat, hiff⟩ := delivers_cons (hlen r List.mem_cons_self) h
    have hrest := ih (fun r' hr' => hlen r' (List.mem_cons_of_mem r hr')) hat (filled b r)
    -- from the first record on there is memory
    have hsome : (filled b r).buf_.isSome := rfl
    rw [hiff, hP, hrest, List.map_cons, List.forall_mem_cons, len_filled,
      readable_cons hsome (lenBuf r) (rs.map lenBuf)]
    tauto

theorem at_written {calls : List LogCall} (hlen : ∀ r ∈ records calls, r.length < 2 ^ 32)
    {offset : Nat} {wr : CheckedLogWriter}
    (hrun : run calls (.new ⟨[], offset⟩) = .ok wr) : wr.fd_.data = log (records calls) := by
  obtain ⟨wr', hrun', hdata⟩ := run_eq calls (.new ⟨[], offset⟩) rfl hlen
  rw [hrun] at hrun'
  cases hrun'
  exact hdata

theorem delivers_holds (hlen : ∀ r ∈ rs, r.length < 2 ^ 32) (b : ExpandableBuffer) :
    Delivers Holds END rs (new ⟨log rs, 0⟩) b ↔ Readable b (rs.map lenBuf) := by
  have hP : ∀ b r, Holds (filled b r) r ↔ True := fun b r => iff_true_intro (take_filled b r)
  rw [delivers_log (Q := fun _ _ => True) hP rs hlen (at_new _) b]
  simp

/-- They are given with their lengths exactly when besides that every record has the length
    that the buffer reports. -/
theorem delivers_holdsExactly (hlen : ∀ r ∈ rs, r.length < 2 ^ 32) (b : ExpandableBuffer) :
    Delivers HoldsExactly END rs (new ⟨log rs, 0⟩) b ↔
      Readable b (rs.map lenBuf) ∧ ∀ r ∈ rs, b.len_ = r.length := by
  have hP : ∀ b r, HoldsExactly (filled b r) r ↔ b.len_ = r.length := by
    intro b r
    rw [HoldsExactly, len_filled]
    exact and_iff_right (take_filled b r)
  exact delivers_log (Q := fun n r => n = r.length) hP rs hlen (at_new _) b

/-- A log that was written into an empty file is read back from its start, each record with
    its bytes, exactly when its length fields can be read; and each of them with its length,
    exactly when besides that every record has the length that the buffer reports all
    along. -/
theorem readsBack_iff (calls : List LogCall) (hlen : ∀ r ∈ records calls, r.length < 2 ^ 32)
    (offset : Nat) (b : ExpandableBuffer) :
    ∃ wr, run calls (.new ⟨[], offset⟩) = .ok wr ∧
      (Delivers Holds END (records calls) (new ⟨wr.fd_.data, 0⟩) b ↔
        Readable b ((records calls).map lenBuf)) ∧
      (Delivers HoldsExactly END (records calls) (new ⟨wr.fd_.data, 0⟩) b ↔
        Readable b ((records calls).map lenBuf) ∧
          ∀ r ∈ records calls, b.len_ = r.length) := by
  obtain ⟨wr, hrun, -⟩ := run_eq calls (.new ⟨[], offset⟩) rfl hlen
  refine ⟨wr, hrun, ?_⟩
  rw [at_written hlen hrun]
  exact ⟨delivers_holds hlen b, delivers_holdsExactly hlen b⟩

/-- Two records of one length and a buffer that reports it. -/
theorem readsBack_two :
    ∃ wr, run [.record [104, 105], .force, .record [97, 98]] (.new ⟨[], 0⟩) = .ok wr ∧
      Delivers HoldsExactly END [[104, 105], [97, 98]] (new ⟨wr.fd_.data, 0⟩)
        ⟨some [0, 0, 0], 2⟩ := by
  obtain ⟨wr, hrun, -, hiff⟩ := readsBack_iff [.record [104, 105], .force, .record [97, 98]]
    (by decide) 0 ⟨some [0, 0, 0], 2⟩
  exact ⟨wr, hrun, hiff.2 ⟨by decide, by decide⟩⟩

theorem length_lt_128 : ∀ r ∈ records [.record (List.replicate 128 0)], r.length < 2 ^ 32 := by
  intro r hr
  rw [List.mem_singleton.1 hr, List.length_replicate]
  decide

theorem not_small_lenBuf_128 : ¬ Small (lenBuf (List.replicate 128 0)) := by
  rw [lenBuf, List.length_replicate]
  decide

/-- Such a record ends the run of the reader. -/
theorem not_readsBack_128 :
    ¬ ∃ wr, run [.record (List.replicate 128 0)] (.new ⟨[], 0⟩) = .ok wr ∧
      Delivers Holds END [List.replicate 128 0] (new ⟨wr.fd_.data, 0⟩) .new := by
  rintro ⟨wr, hrun, hdelivers⟩
  rw [at_written length_lt_128 hrun] at hdelivers
  have hread := (delivers_holds length_lt_128 .new).1 hdelivers
  exact not_small_lenBuf_128 (hread.1 _ (List.mem_singleton.2 rfl))

end CheckedLogReader

end Oasys
