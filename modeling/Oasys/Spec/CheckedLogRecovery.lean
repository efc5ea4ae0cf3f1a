import Oasys.Spec.CheckedLogCorrect

/-!
# CheckedLog recovery

A log is damaged in two ways: the file ends early, or the bytes after the first one of a
record are others. The reader gives the records before the damage and reports it, exactly
when the length fields it meets can be read; the field of the damaged record is one of them.
Over any content, the length that the reader reserves lies between zero and what is left
exactly when its field has no negative `char`.
-/

namespace Oasys.CheckedLogReader

open BigEndian CheckedLogWriter FileSystem

variable {rd : CheckedLogReader} {rest : List UInt8}

/-! ### A file that ends early -/

/-- The records that lie whole in the first `n` bytes. -/
def wholeRecords : List (List UInt8) → Nat → List (List UInt8)
  | [], _ => []
  | r :: rs, n =>
    if (image r).length ≤ n then r :: wholeRecords rs (n - (image r).length) else []

/-- The code after these records: a cut between two records is the end of the log. -/
def cutCode : List (List UInt8) → Nat → Int
  | [], _ => END
  | r :: rs, n =>
    if (image r).length ≤ n then cutCode rs (n - (image r).length)
    else if n = 0 then END else BAD_CRC

/-- The length fields that lie in a whole header. -/
def lensWithin : List (List UInt8) → Nat → List (List UInt8)
  | [], _ => []
  | r :: rs, n =>
    if (image r).length ≤ n then lenBuf r :: lensWithin rs (n - (image r).length)
    else if 9 ≤ n then [lenBuf r] else []

theorem readable_nil (b : ExpandableBuffer) : Readable b [] := by simp [Readable]

theorem readable_singleton (b : ExpandableBuffer) (l : List UInt8) :
    Readable b [l] ↔ Small l ∧ (value l = 0 → b.buf_.isSome) := by
  simp [Readable]

theorem delivers_nil {P : ExpandableBuffer → List UInt8 → Prop} {code code' : Int}
    {rd' : CheckedLogReader} {b b' : ExpandableBuffer}
    (h : rd.readRecord b = .ok (code', rd', b')) : Delivers P code [] rd b ↔ code' = code := by
  unfold Delivers
  rw [h]
  simp

theorem not_delivers_nil {P : ExpandableBuffer → List UInt8 → Prop} {code : Int} {e : Fault}
    {b : ExpandableBuffer} (h : rd.readRecord b = .error e) : ¬ Delivers P code [] rd b := by
  rintro ⟨rd', b', hstep⟩
  rw [h] at hstep
  cases hstep

private theorem delivers_cut_header (h : At rd rest) (hne : rest ≠ []) (hlt : rest.length < 9)
    (b : ExpandableBuffer) : Delivers Holds BAD_CRC [] rd b := by
  obtain ⟨rd', hstep, -⟩ := readRecord_short h.fd (h.cur_offset_ne hne) hlt b
  exact (delivers_nil hstep).2 rfl

private theorem delivers_cut_data {r : List UInt8} (hr : r.length < 2 ^ 32) {n : Nat}
    (hlt : n < r.length)
    (h : At rd ([42] ++ (crcBuf r ++ (lenBuf r ++ (r.take maxRwCount).take n))))
    (b : ExpandableBuffer) :
    Delivers Holds BAD_CRC [] rd b ↔ Readable b [lenBuf r] := by
  rw [readable_singleton, value_lenBuf hr]
  -- the length exceeds what is left, unless the reader does not get that far
  by_cases hsmall : Small (lenBuf r)
  · have hgt : ((r.take maxRwCount).take n).length < value (lenBuf r) := by
      rw [value_lenBuf hr, List.length_take, List.length_take]
      omega
    rw [delivers_nil (readRecord_cut (length_crcBuf r) (length_lenBuf r) h hsmall hgt b)]
    have hpos : r.length ≠ 0 := by omega
    simp [hsmall, hpos]
  · have hbad : ¬ Readable b [lenBuf r] := fun hread =>
      hsmall (hread.1 _ (List.mem_singleton.2 rfl))
    obtain ⟨e, herror⟩ := readRecord_error (length_crcBuf r) (length_lenBuf r) h hbad
    simp [hsmall, not_delivers_nil herror]

theorem length_image (r : List UInt8) : (image r).length = 9 + (r.take maxRwCount).length := by
  simp only [image, List.length_append, length_crcBuf, length_lenBuf, List.length_singleton]
  omega

private theorem take_image (r : List UInt8) {n : Nat} (h : 9 ≤ n) :
    (image r).take n =
      [42] ++ (crcBuf r ++ (lenBuf r ++ (r.take maxRwCount).take (n - 9))) := by
  have hheader : image r = ([42] ++ crcBuf r ++ lenBuf r) ++ r.take maxRwCount := by
    simp only [image, List.append_assoc]
  have hlength : ([42] ++ crcBuf r ++ lenBuf r).length = 9 := by simp
  rw [hheader, List.take_append, hlength, List.take_of_length_le (hlength.le.trans h)]
  simp only [List.append_assoc]

/-- The reader gives the records that a cut leaves whole, and then reports it. -/
theorem delivers_cut (rs : List (List UInt8)) (hlen : ∀ r ∈ rs, r.length < 2 ^ 32) (n : Nat)
    (h : At rd ((log rs).take n)) (b : ExpandableBuffer) :
    Delivers Holds (cutCode rs n) (wholeRecords rs n) rd b ↔ Readable b (lensWithin rs n) := by
  -- the induction is on the records; the cut moves to the front with each of them
  induction rs generalizing rd n b with
  | nil =>
    rw [log_nil, List.take_nil] at h
    exact iff_of_true ((delivers_nil (readRecord_end h b)).2 rfl) (readable_nil b)
  | cons r rs ih =>
    have hr := hlen r List.mem_cons_self
    unfold cutCode wholeRecords lensWithin
    rw [log_cons, List.take_append] at h
    by_cases hwhole : (image r).length ≤ n
    · -- the record lies before the cut
      rw [List.take_of_length_le hwhole] at h
      obtain ⟨rd', hat, hiff⟩ := delivers_cons hr h
      have hrest := ih (fun r' hr' => hlen r' (List.mem_cons_of_mem r hr')) _ hat (filled b r)
      have hsome : (filled b r).buf_.isSome := rfl
      rw [if_pos hwhole, if_pos hwhole, if_pos hwhole, hiff, hrest,
        readable_cons hsome (lenBuf r) (lensWithin rs (n - (image r).length))]
      exact and_congr_right fun _ => and_iff_right (take_filled b r)
    · have hzero : n - (image r).length = 0 := by omega
      rw [hzero, List.take_zero, List.append_nil] at h
      rw [if_neg hwhole, if_neg hwhole, if_neg hwhole]
      by_cases hcut : n = 0
      · subst hcut
        exact iff_of_true ((delivers_nil (readRecord_end h b)).2 rfl) (readable_nil b)
      · rw [if_neg hcut]
        have hlength := length_image r
        split
        · -- the cut is in the data
          rename_i hheader
          rw [take_image r hheader] at h
          rw [List.length_take] at hlength
          exact delivers_cut_data hr (by omega) h b
        · -- the cut is in the header
          have hlt : ((image r).take n).length = n := by
            rw [List.length_take]
            omega
          have hne : (image r).take n ≠ [] := by
            intro hnil
            rw [hnil] at hlt
            exact hcut hlt.symm
          exact iff_of_true (delivers_cut_header h hne (by omega) b) (readable_nil b)

/-! ### A record with other bytes -/

/-- The length field behind the first byte of a record. -/
def lenField (x : List UInt8) : List UInt8 := (x.drop 4).take 4

/-- The bytes behind the first one of a record pass for a record: their length is there, and
    the checksum agrees. -/
def Passes (x : List UInt8) : Prop :=
  value (lenField x) ≤ (x.drop 8).length ∧
    CRC32.crc32 (lenField x ++ (x.drop 8).take (value (lenField x))) =
      .ofNat (value (x.take 4))

instance (x : List UInt8) : Decidable (Passes x) := inferInstanceAs (Decidable (_ ∧ _))

private theorem header_eq (x : List UInt8) :
    x = x.take 4 ++ (lenField x ++ x.drop 8) := by
  have hdrop : x.drop 8 = (x.drop 4).drop 4 := by rw [List.drop_drop]
  rw [lenField, hdrop, List.take_append_drop, List.take_append_drop]

private theorem delivers_bad {x : List UInt8} (hlength : 8 ≤ x.length) (hbad : ¬ Passes x)
    (h : At rd ([42] ++ x)) (b : ExpandableBuffer) :
    Delivers Holds BAD_CRC [] rd b ↔ Readable b [lenField x] := by
  have hcrc : (x.take 4).length = 4 := by
    rw [List.length_take]
    omega
  have hlen : (lenField x).length = 4 := by
    rw [lenField, List.length_take, List.length_drop]
    omega
  rw [header_eq x] at h
  by_cases hread : Readable b [lenField x]
  · refine iff_of_true ?_ hread
    by_cases hfits : value (lenField x) ≤ (x.drop 8).length
    · -- the data is there, and its checksum is wrong
      have hbytes : ((x.drop 8).take (value (lenField x))).length = value (lenField x) := by
        rw [List.length_take]
        omega
      rw [← List.take_append_drop (value (lenField x)) (x.drop 8)] at h
      have hcode : codeOf ⟨42, x.take 4, lenField x, value (lenField x)⟩
          ((x.drop 8).take (value (lenField x))) = BAD_CRC := if_pos fun heq => hbad ⟨hfits, heq⟩
      exact (delivers_nil (readRecord_eq hcrc hlen h hread hbytes).1).2 hcode
    · -- the data is cut off
      have hsmall := ((readable_singleton b _).1 hread).1
      have hgt : (x.drop 8).length < value (lenField x) := by omega
      exact (delivers_nil (readRecord_cut hcrc hlen h hsmall hgt b)).2 rfl
  · obtain ⟨e, herror⟩ := readRecord_error hcrc hlen h hread
    exact iff_of_false (not_delivers_nil herror) hread

/-- The reader gives the records before bytes that do not pass for a record, and then reports
    them. -/
theorem delivers_damaged (pre : List (List UInt8)) (hlen : ∀ r ∈ pre, r.length < 2 ^ 32)
    {x : List UInt8} (hlength : 8 ≤ x.length) (hbad : ¬ Passes x)
    (h : At rd (log pre ++ ([42] ++ x))) (b : ExpandableBuffer) :
    Delivers Holds BAD_CRC pre rd b ↔ Readable b (pre.map lenBuf ++ [lenField x]) := by
  induction pre generalizing rd b with
  | nil => exact delivers_bad hlength hbad h b
  | cons r pre ih =>
    rw [log_cons, List.append_assoc] at h
    obtain ⟨rd', hat, hiff⟩ := delivers_cons (hlen r List.mem_cons_self) h
    have hrest := ih (fun r' hr' => hlen r' (List.mem_cons_of_mem r hr')) hat (filled b r)
    have hsome : (filled b r).buf_.isSome := rfl
    rw [hiff, hrest, List.map_cons, List.cons_append,
      readable_cons hsome (lenBuf r) (pre.map lenBuf ++ [lenField x])]
    exact and_congr_right fun _ => and_iff_right (take_filled b r)

theorem writeAt_log (pre post : List (List UInt8)) {r y : List UInt8}
    (hy : y.length + 1 = (image r).length) :
    writeAt (log (pre ++ r :: post)) ((log pre).length + 1) y =
      log pre ++ ([42] ++ (y ++ log post)) := by
  have hlog : log (pre ++ r :: post) = (log pre ++ [42]) ++ ((image r).tail ++ log post) := by
    simp only [log, List.flatMap_append, List.flatMap_cons, image, List.append_assoc,
      List.tail_cons, List.cons_append, List.nil_append]
  have hat : (log pre ++ [42]).length = (log pre).length + 1 := List.length_append
  have htail : (image r).tail.length = y.length := by
    rw [List.length_tail]
    omega
  have hne : y ≠ [] := by
    rintro rfl
    rw [length_image, List.length_nil] at hy
    omega
  -- the bytes lie inside the log, so there is no gap to fill
  have hgap : (log pre).length + 1 -
      ((log pre ++ [42]) ++ ((image r).tail ++ log post)).length = 0 := by
    rw [List.length_append, hat]
    omega
  have hdrop : ((log pre ++ [42]) ++ ((image r).tail ++ log post)).drop
      ((log pre ++ [42]).length + (image r).tail.length) = log post := by
    rw [← List.drop_drop, List.drop_left, List.drop_left]
  unfold writeAt
  rw [if_neg hne, hlog, hgap, List.replicate_zero, List.append_nil, ← hat, ← htail, hdrop,
    List.take_left]
  simp only [List.append_assoc]

/-! ### Any content -/

def Called (rd rd' : CheckedLogReader) : Prop :=
  ∃ b code b', rd.readRecord b = .ok (code, rd', b')

/-- Where a reader of `content` can stand: before the bytes at its offset, or at the end. -/
structure Follows (content : List UInt8) (rd : CheckedLogReader) : Prop where
  data : rd.fd_.data = content
  le : rd.fd_.offset ≤ content.length
  cur : rd.cur_offset_ = rd.fd_.offset ∨ rd.fd_.offset = content.length

theorem Follows.header {content : List UInt8} (h : Follows content rd)
    (hwhole : 9 ≤ (content.drop rd.fd_.offset).length) :
    ∃ ignore crc_buf body, crc_buf.length = 4 ∧
      ((content.drop (rd.fd_.offset + 5)).take 4).length = 4 ∧
      At rd ([ignore] ++ (crc_buf ++ ((content.drop (rd.fd_.offset + 5)).take 4 ++ body))) := by
  obtain ⟨rfl, hle, hcur⟩ := h
  rw [List.length_drop] at hwhole
  have hcur : rd.cur_offset_ = rd.fd_.offset := by
    obtain hcur | hcur := hcur
    · exact hcur
    · omega
  have hat : At rd (rd.fd_.data.drop rd.fd_.offset) := ⟨hcur, hle, rfl⟩
  have hlt : rd.fd_.offset < rd.fd_.data.length := by omega
  rw [List.drop_eq_getElem_cons hlt, header_eq (rd.fd_.data.drop _), lenField,
    List.drop_drop] at hat
  refine ⟨_, _, _, ?_, ?_, hat⟩
  · rw [List.length_take, List.length_drop]
    omega
  · rw [List.length_take, List.length_drop]
    omega

theorem Follows.step {content : List UInt8} {rd' : CheckedLogReader} (h : Follows content rd)
    (hcall : Called rd rd') : Follows content rd' := by
  obtain ⟨b, code, b', hstep⟩ := hcall
  obtain ⟨rfl, hle, hcur⟩ := h
  have hfd : FdIOClient.At rd.fd_ (rd.fd_.data.drop rd.fd_.offset) := ⟨hle, rfl⟩
  by_cases hend : rd.cur_offset_ = rd.fd_.data.length
  · rw [readRecord, if_pos hend] at hstep
    cases hstep
    exact ⟨rfl, hle, hcur⟩
  by_cases hshort : (rd.fd_.data.drop rd.fd_.offset).length < 9
  · obtain ⟨rd'', hstep', hdata, hoffset⟩ := readRecord_short hfd hend hshort b
    rw [hstep'] at hstep
    cases hstep
    exact ⟨hdata, hoffset.le, .inr hoffset⟩
  -- a header is whole only where the two offsets agree
  obtain ⟨ignore, crc_buf, body, hcrc, hlen, hat⟩ :=
    Follows.header ⟨rfl, hle, hcur⟩ (Nat.not_lt.1 hshort)
  generalize (rd.fd_.data.drop (rd.fd_.offset + 5)).take 4 = len_buf at hat hlen
  -- a call that returns has left the reader behind the header, or behind the data
  by_cases hread : Readable b [len_buf]
  · have hsmall := ((readable_singleton b _).1 hread).1
    by_cases hfits : value len_buf ≤ body.length
    · have hbytes : (body.take (value len_buf)).length = value len_buf := by
        rw [List.length_take]
        omega
      rw [← List.take_append_drop (value len_buf) body] at hat
      obtain ⟨hstep', hat'⟩ := readRecord_eq hcrc hlen hat hread hbytes
      rw [hstep'] at hstep
      cases hstep
      exact ⟨rfl, hat'.fd.le, .inl hat'.cur_offset⟩
    · obtain ⟨-, -, hat', -⟩ := readHeader_at hcrc hlen hat
      rw [readRecord_cut hcrc hlen hat hsmall (Nat.not_le.1 hfits) b] at hstep
      cases hstep
      exact ⟨rfl, hat'.fd.le, .inl hat'.cur_offset⟩
  · obtain ⟨e, herror⟩ := readRecord_error hcrc hlen hat hread
    rw [herror] at hstep
    cases hstep

theorem follows_of_called {content : List UInt8}
    (h : Relation.ReflTransGen Called (new ⟨content, 0⟩) rd) : Follows content rd := by
  induction h with
  | refl => exact ⟨rfl, Nat.zero_le _, .inl rfl⟩
  | tail _ hcall ih => exact ih.step hcall

/-- The length that a reader reserves lies between zero and what is left exactly when its
    field has no negative `char`. -/
theorem Follows.reserved_iff {content : List UInt8} (h : Follows content rd) {len : Int}
    (hres : rd.reservedLen = some len) :
    (0 ≤ len ∧ len ≤ (content.length : Int) - (rd.fd_.offset + 9)) ↔
      Small ((content.drop (rd.fd_.offset + 5)).take 4) := by
  obtain ⟨rfl, hle, hcur⟩ := h
  have hfd : FdIOClient.At rd.fd_ (rd.fd_.data.drop rd.fd_.offset) := ⟨hle, rfl⟩
  -- a length is reserved only for a header that is whole
  have hwhole : 9 ≤ (rd.fd_.data.drop rd.fd_.offset).length := by
    by_contra hshort
    obtain ⟨rd', hnone, -⟩ := readHeader_short hfd (Nat.not_le.1 hshort)
    rw [reservedLen, hnone] at hres
    cases hres
  have hlength := hfd.length
  obtain ⟨ignore, crc_buf, body, hcrc, hlen, hat⟩ := Follows.header ⟨rfl, hle, hcur⟩ hwhole
  have hcur : rd.cur_offset_ = rd.fd_.offset := hat.cur_offset
  obtain ⟨len', hheader, hat', hsmall, hneg⟩ := readHeader_at hcrc hlen hat
  rw [reservedLen, hheader] at hres
  have hoffset : (rd.advance 9).cur_offset_ = rd.fd_.offset + 9 := congrArg (· + 9) hcur
  simp only [hoffset] at hres
  split at hres
  · cases hres
  rename_i hle'
  obtain rfl := Option.some.inj hres
  by_cases hs : Small ((rd.fd_.data.drop (rd.fd_.offset + 5)).take 4)
  · have := hsmall hs
    refine iff_of_true ⟨?_, ?_⟩ hs
    · omega
    · omega
  · have := hneg hs
    exact iff_of_false (by omega) hs

/-! ### Recovery -/

/-- After a cut of a written log, and after an alteration of a record that the checksum
    detects, the reader gives the records before the damage and reports it exactly when the
    length fields it meets can be read. Over any content, the length that it reserves lies
    between zero and what is left exactly when its field has no negative `char`. -/
theorem recovers_iff (calls : List LogCall) (hlen : ∀ r ∈ records calls, r.length < 2 ^ 32)
    (offset : Nat) (b : ExpandableBuffer) :
    ∃ wr, run calls (.new ⟨[], offset⟩) = .ok wr ∧
      (∀ n, Delivers Holds (cutCode (records calls) n) (wholeRecords (records calls) n)
          (new ⟨wr.fd_.data.take n, 0⟩) b ↔
        Readable b (lensWithin (records calls) n)) ∧
      (∀ pre r post y, records calls = pre ++ r :: post → y.length + 1 = (image r).length →
        ¬ Passes (y ++ log post) →
        (Delivers Holds BAD_CRC pre (new ⟨writeAt wr.fd_.data ((log pre).length + 1) y, 0⟩) b ↔
          Readable b (pre.map lenBuf ++ [lenField y]))) ∧
      ∀ content rd len, Relation.ReflTransGen Called (new ⟨content, 0⟩) rd →
        rd.reservedLen = some len →
        ((0 ≤ len ∧ len ≤ (content.length : Int) - (rd.fd_.offset + 9)) ↔
          Small ((content.drop (rd.fd_.offset + 5)).take 4)) := by
  obtain ⟨wr, hrun, -⟩ := run_eq calls (.new ⟨[], offset⟩) rfl hlen
  refine ⟨wr, hrun, ?_, ?_, ?_⟩
  · intro n
    rw [at_written hlen hrun]
    exact delivers_cut (records calls) hlen n (at_new _) b
  · intro pre r post y hrecords hy hbad
    have hlength : 8 ≤ y.length := by
      rw [length_image] at hy
      omega
    have hpre : ∀ r ∈ pre, r.length < 2 ^ 32 := by
      intro r' hr'
      apply hlen
      rw [hrecords]
      exact List.mem_append_left _ hr'
    have hfield : lenField (y ++ log post) = lenField y := by
      have hdrop : 4 ≤ (y.drop 4).length := by
        rw [List.length_drop]
        omega
      rw [lenField, lenField, List.drop_append_of_le_length (by omega),
        List.take_append_of_le_length hdrop]
    rw [at_written hlen hrun, hrecords, writeAt_log pre post hy, ← hfield]
    apply delivers_damaged pre hpre _ hbad (at_new _) b
    rw [List.length_append]
    omega
  · intro content rd len hcalled hres
    exact (follows_of_called hcalled).reserved_iff hres

/-- Two records, the second of which is cut behind its header. -/
theorem recovers_two :
    ∃ wr, run [.record [104, 105], .record [97, 98]] (.new ⟨[], 0⟩) = .ok wr ∧
      Delivers Holds BAD_CRC [[104, 105]] (new ⟨wr.fd_.data.take 21, 0⟩) .new := by
  obtain ⟨wr, hrun, hcut, -⟩ :=
    recovers_iff [.record [104, 105], .record [97, 98]] (by decide) 0 .new
  exact ⟨wr, hrun, (hcut 21).2 (by decide)⟩

/-- A log that is cut behind the header of a record of 128 bytes ends the run of the reader,
    and so does a length field with the negative `char` 128, whose length is reserved. -/
theorem not_recovers_128 :
    (¬ ∃ wr, run [.record (List.replicate 128 0)] (.new ⟨[], 0⟩) = .ok wr ∧
      Delivers Holds BAD_CRC [] (new ⟨wr.fd_.data.take 9, 0⟩) .new) ∧
    reservedLen (new ⟨[42, 0, 0, 0, 0, 0, 0, 0, 128], 0⟩) = some (-128) := by
  refine ⟨?_, by decide⟩
  rintro ⟨wr, hrun, hdelivers⟩
  rw [at_written length_lt_128 hrun] at hdelivers
  have hlog : (log (records [.record (List.replicate 128 0)])).take 9 =
      [42] ++ (crcBuf (List.replicate 128 0) ++ (lenBuf (List.replicate 128 0) ++ [])) := by
    have hrecords : log (records [.record (List.replicate 128 0)]) =
        image (List.replicate 128 0) := List.append_nil _
    rw [hrecords, take_image _ le_rfl, Nat.sub_self, List.take_zero]
  have hread : Readable .new [lenBuf (List.replicate 128 0)] := by
    rw [hlog] at hdelivers
    by_contra hbad
    obtain ⟨e, herror⟩ := readRecord_error (length_crcBuf _) (length_lenBuf _) (at_new _) hbad
    exact not_delivers_nil herror hdelivers
  exact not_small_lenBuf_128 ((readable_singleton .new _).1 hread).1

end Oasys.CheckedLogReader
