import Oasys.ForStd.Filling
import Oasys.Spec.CRC32Correct
import Oasys.Spec.MarshalCorrect

/-!
# MarshalSize measures what Marshal writes

An action of `Marshal` puts the slices of its object and then, with `USE_CRC`, the CRC.
`Measures` says that a size is right for it: with so much room the action succeeds and
writes so many bytes, and with less it reports an error and stops at the first slice that
does not fit. Only one size is right (`measures_iff_eq`), and `measures_iff` says for
which objects `MarshalSize` computes it: `get_size` of a string is a `u_int32_t` and loses
2^32 when the length leaves no room for four more, while the length of a carrier is added
as a `size_t` although `Marshal` passes it on in 32 bits.
-/

namespace Oasys

open Wire (encodeAll allSlices flatten_allSlices encode slices)

namespace Wire

/-- What an action puts, one slice after another. -/
def actionSlices (useCrc : Bool) (o : SerializableObject) : List (List UInt8) :=
  allSlices o ++ if useCrc then [BigEndian.bytes 4 (CRC32.crc32 (encodeAll o)).toNat] else []

def actionSize (useCrc : Bool) (o : SerializableObject) : Nat :=
  (encodeAll o).length + if useCrc then 4 else 0

theorem length_actionSlices (useCrc : Bool) (o : SerializableObject) :
    (actionSlices useCrc o).flatten.length = actionSize useCrc o := by
  cases useCrc <;> simp [actionSlices, actionSize]

end Wire

open Wire (actionSlices actionSize length_actionSlices)

namespace Marshal

variable {m : Marshal}

/-! ### An action that has room -/

theorem action_of_run {m₁ m' : Marshal} {o o' : SerializableObject}
    (hrun : Marshal.processAll { m with error_ := false } o = .ok (m₁, o'))
    (hend : m₁.endAction = .ok m') :
    m.action o = .ok (if m'.error_ then -1 else 0, m', o') := by
  show Marshal.processAll { m with error_ := false } o >>= _ = _
  rw [hrun]
  show m₁.endAction >>= _ = _
  rw [hend]
  rfl

theorem endAction_eq (hcrc : m.useCrc = true) (hvalid : m.Valid) (halloc : m.Allocated) :
    m.endAction = m.put 4 (.ok (BigEndian.bytes 4 (CRC32.crc32 m.written).toNat)) := by
  have hbuf : m.buf = .ok m.memory := by
    unfold BufferedSerializeAction.buf BufferedSerializeAction.memory
    cases hexp : m.expandable_buf_ with
    | none => rfl
    | some b => simp [ExpandableBuffer.rawBuf, halloc b hexp]
  have hupdate : CRC32.new.update m.memory m.offset =
      .ok (m.written.foldl CRC32.updateByte CRC32.new) := CRC32.update_eq _ hvalid
  simp only [endAction, hcrc, if_true, hbuf, bind, Except.bind, hupdate, CRC32.value_foldl,
    processU32, BigEndian.bytes_word32]

/-- With enough room, an action writes the bytes of its object and the CRC. -/
theorem action_emits (hvalid : m.Valid) (halloc : m.Allocated) (hstart : m.offset = 0)
    {o : SerializableObject} (ho : AllReadable o) (hroom : m.HasRoom (actionSize m.useCrc o)) :
    ∃ m' o', m.action o = .ok (0, m', o') ∧ m'.offset = actionSize m.useCrc o := by
  have hnil : m.written = [] := by simp [written, hstart]
  have hoff : ∀ m' : Marshal, m'.Valid → m'.offset = m'.written.length := by
    intro m' hv
    exact (List.length_take_of_le hv).symm
  have hroom' : m.HasRoom (encodeAll o).length := by
    intro hexp
    have := hroom hexp
    unfold actionSize at this
    omega
  obtain ⟨m₁, o', hrun, hw, _⟩ :=
    processAll_wrote (m := { m with error_ := false }) ho rfl hvalid hroom'
  have hw₁ : m₁.written = encodeAll o := by
    rw [hw.written_eq]
    show m.written ++ _ = _
    rw [hnil, List.nil_append]
  have hsame : m₁.useCrc = m.useCrc := hw.useCrc_eq
  cases hcrc : m.useCrc with
  | false =>
    have hend : m₁.endAction = .ok m₁ := by
      simp [endAction, hsame, hcrc]
    refine ⟨m₁, o', ?_, ?_⟩
    · rw [action_of_run hrun hend, hw.error_eq]
      rfl
    · rw [hoff m₁ hw.valid, hw₁]
      rfl
  | true =>
    -- the CRC goes behind the fields
    have hroom₁ : m₁.HasRoom 4 := by
      apply hw.room
      intro hexp
      have := hroom hexp
      rw [hcrc] at this
      exact this
    obtain ⟨m₂, hput, hw'⟩ := put_wrote hw.error_eq hw.valid
      (BigEndian.bytes 4 (CRC32.crc32 m₁.written).toNat) (by simpa using hroom₁)
    have hend : m₁.endAction = .ok m₂ := by
      rw [endAction_eq (hsame.trans hcrc) hw.valid (hw.allocated halloc)]
      simpa using hput
    refine ⟨m₂, o', ?_, ?_⟩
    · rw [action_of_run hrun hend, hw'.error_eq]
      rfl
    · rw [hoff m₂ hw'.valid, hw'.written_eq, hw₁]
      simp [actionSize]

/-! ### An action that has not -/

/-- The action has filled a buffer of fixed length, which held `buf`, as far as `f`. -/
structure Filled (buf : List UInt8) (f : Filling UInt8) (m : Marshal) : Prop where
  expandable_eq : m.expandable_buf_ = none
  buf_eq : m.buf_ = f.out ++ buf.drop f.out.length
  offset_eq : m.offset_ = f.out.length
  error_eq : m.error_ = f.full
  le : f.out.length ≤ buf.length

variable {buf : List UInt8} {f : Filling UInt8}

theorem Filled.length_eq (h : Filled buf f m) : m.buf_.length = buf.length := by
  have := h.le
  rw [h.buf_eq, List.length_append, List.length_drop]
  omega

theorem Filled.put (h : Filled buf f m) (bs : List UInt8) :
    ∃ m', m.put bs.length (.ok bs) = .ok m' ∧ Filled buf (f.put buf.length bs) m' ∧
      m'.useCrc = m.useCrc := by
  have hlen := h.length_eq
  have hoff := h.offset_eq
  cases hfull : f.full with
  | true =>
    -- after an error the slice is null
    have herr : m.error_ = true := h.error_eq.trans hfull
    have hput : f.put buf.length bs = f := f.putAll_of_full [bs] hfull
    rw [hput]
    exact ⟨m, by simp [Marshal.put, BufferedSerializeAction.nextSlice, herr], h, rfl⟩
  | false =>
    have herr : m.error_ = false := h.error_eq.trans hfull
    by_cases hfit : f.out.length + bs.length ≤ buf.length
    · -- the slice is put behind what is there
      rw [Filling.put_of_le hfull hfit]
      refine ⟨{ m with
        offset_ := m.offset_ + bs.length
        buf_ := m.buf_.take m.offset_ ++ bs ++ m.buf_.drop (m.offset_ + bs.length) }, ?_, ?_, rfl⟩
      · have hle : m.offset_ + bs.length ≤ m.buf_.length := by omega
        simp [Marshal.put, BufferedSerializeAction.nextSlice, herr, h.expandable_eq,
          Nat.not_lt.mpr hle, BufferedSerializeAction.store, BufferedSerializeAction.memory, hle]
      · constructor
        · exact h.expandable_eq
        · show m.buf_.take m.offset_ ++ bs ++ m.buf_.drop (m.offset_ + bs.length) = _
          rw [h.buf_eq, hoff, List.take_left, List.drop_append, List.drop_drop, List.length_append,
            Nat.add_sub_cancel_left, List.drop_of_length_le (Nat.le_add_right _ _), List.nil_append]
        · show m.offset_ + bs.length = (f.out ++ bs).length
          rw [hoff, List.length_append]
        · exact herr
        · show (f.out ++ bs).length ≤ buf.length
          rw [List.length_append]
          exact hfit
    · -- the first slice that does not fit signals the error, and nothing is stored
      rw [Filling.put_of_gt (Nat.lt_of_not_le hfit)]
      refine ⟨m.signalError, ?_, ?_, rfl⟩
      · have hlt : m.buf_.length < m.offset_ + bs.length := by omega
        simp [Marshal.put, BufferedSerializeAction.nextSlice, herr, h.expandable_eq, hlt]
      · exact { h with error_eq := rfl }

theorem Filled.putAll (h : Filled buf f m) (ss : List (List UInt8)) :
    ∃ m', m.putAll ss = .ok m' ∧ Filled buf (f.putAll buf.length ss) m' ∧
      m'.useCrc = m.useCrc := by
  induction ss generalizing m f with
  | nil => exact ⟨m, rfl, h, rfl⟩
  | cons bs ss ih =>
    obtain ⟨m₁, hput, hfill, hcrc⟩ := h.put bs
    obtain ⟨m₂, hputs, hfill', hcrc'⟩ := ih hfill
    refine ⟨m₂, ?_, hfill', hcrc'.trans hcrc⟩
    rw [putAll_cons, hput]
    exact hputs

theorem Filled.written_eq (h : Filled buf f m) : m.written = f.out := by
  have hmem : m.memory = m.buf_ := by
    rw [BufferedSerializeAction.memory, h.expandable_eq]
  have hoff : m.offset = m.offset_ := by
    rw [BufferedSerializeAction.offset, h.expandable_eq]
  rw [written, hmem, hoff, h.buf_eq, h.offset_eq, List.take_left]

/-- An action on a buffer of fixed length puts its slices as far as they fit. -/
theorem action_fills (buf : List UInt8) (useCrc log_ : Bool) {o : SerializableObject}
    (ho : AllReadable o) : ∃ m' o',
      (new buf useCrc log_).action o = .ok (if m'.error_ then -1 else 0, m', o') ∧
      Filled buf (Filling.empty.putAll buf.length (actionSlices useCrc o)) m' := by
  have hnew : Filled buf .empty (new buf useCrc log_) := ⟨rfl, rfl, rfl, rfl, Nat.zero_le _⟩
  obtain ⟨o', _, heq⟩ := processAll_eq ho
  obtain ⟨m₁, hputs, hfill, hcrc⟩ := hnew.putAll (allSlices o)
  have hrun : (new buf useCrc log_).processAll o = .ok (m₁, o') := by
    rw [heq, hputs]
    rfl
  unfold actionSlices
  rw [Filling.putAll_append]
  cases useCrc with
  | false =>
    refine ⟨m₁, o', action_of_run hrun ?_, hfill⟩
    simp [endAction, hcrc, new]
  | true =>
    have hvalid : m₁.Valid := by
      have := hfill.le
      rw [Valid, BufferedSerializeAction.offset, BufferedSerializeAction.memory,
        hfill.expandable_eq]
      show m₁.offset_ ≤ m₁.buf_.length
      rw [hfill.offset_eq, hfill.length_eq]
      exact this
    -- every slice has been put, so the CRC is that of the whole object
    have halloc : m₁.Allocated := by
      intro b hb
      rw [hfill.expandable_eq] at hb
      cases hb
    obtain ⟨m₂, hput, hfill', _⟩ := hfill.put (BigEndian.bytes 4 (CRC32.crc32 m₁.written).toNat)
    refine ⟨m₂, o', action_of_run hrun ?_, ?_⟩
    · rw [endAction_eq hcrc hvalid halloc]
      simpa using hput
    · cases hfull : (Filling.empty.putAll buf.length (allSlices o)).full with
      | true =>
        -- there is no room for the CRC either
        have hstop : ∀ bs, Filling.put buf.length
            (Filling.empty.putAll buf.length (allSlices o)) bs = _ :=
          fun bs => Filling.putAll_of_full [bs] hfull
        rw [hstop] at hfill'
        rw [Filling.putAll_of_full _ hfull]
        exact hfill'
      | false =>
        have hall : (Filling.empty.putAll buf.length (allSlices o)).out = encodeAll o := by
          by_contra hne
          by_cases hle : (encodeAll o).length ≤ buf.length
          · rw [Filling.putAll_of_le _ rfl (by simpa [Filling.empty] using hle)] at hne
            exact hne (by simp [Filling.empty])
          · obtain ⟨_, _, _, _, hgt, _, _⟩ := Filling.putAll_of_gt (f := .empty) (allSlices o) rfl
              (Nat.zero_le buf.length) (by simpa [Filling.empty] using Nat.lt_of_not_le hle)
            rw [hgt] at hfull
            cases hfull
        rw [hfill.written_eq, hall] at hfill'
        exact hfill'

end Marshal

/-! ### The right size -/

variable {useCrc log_ : Bool} {o : SerializableObject}

/-- `n` is the size for the object: with room for `n` bytes an action writes so many, and
    in a smaller buffer of fixed length it reports an error, having put the slices before
    the first one that does not fit and nothing else. -/
structure Measures (useCrc log_ : Bool) (o : SerializableObject) (n : Nat) : Prop where
  emits : ∀ m : Marshal, m.useCrc = useCrc → m.offset = 0 → m.Valid → m.Allocated → m.HasRoom n →
    ∃ m' o', m.action o = .ok (0, m', o') ∧ m'.offset = n
  stops : ∀ buf : List UInt8, buf.length < n →
    ∃ m' o', (Marshal.new buf useCrc log_).action o = .ok (-1, m', o') ∧
      ∃ done next rest, actionSlices useCrc o = done ++ next :: rest ∧
        done.flatten.length ≤ buf.length ∧ buf.length < done.flatten.length + next.length ∧
        m'.buf_ = done.flatten ++ buf.drop done.flatten.length

theorem measures_actionSize (ho : AllReadable o) :
    Measures useCrc log_ o (actionSize useCrc o) where
  emits m hcrc hstart hvalid halloc hroom := by
    subst hcrc
    exact Marshal.action_emits hvalid halloc hstart ho hroom
  stops buf hlt := by
    obtain ⟨m', o', hact, hfill⟩ := Marshal.action_fills buf useCrc log_ ho
    rw [← length_actionSlices] at hlt
    obtain ⟨done, next, rest, hsplit, hall, hle, hgt⟩ := Filling.putAll_of_gt (f := .empty)
      (actionSlices useCrc o) rfl (Nat.zero_le buf.length) (by simpa [Filling.empty] using hlt)
    rw [hall] at hfill
    refine ⟨m', o', ?_, done, next, rest, hsplit, by simpa [Filling.empty] using hle,
      by simpa [Filling.empty] using hgt, by simpa [Filling.empty] using hfill.buf_eq⟩
    rw [hact, hfill.error_eq]
    rfl

theorem measures_iff_eq (ho : AllReadable o) {n : Nat} :
    Measures useCrc log_ o n ↔ n = actionSize useCrc o := by
  constructor
  · intro h
    -- a buffer that has room for either number of bytes
    let m := Marshal.new (List.replicate (max n (actionSize useCrc o)) 0) useCrc log_
    have hroom : ∀ k, k ≤ max n (actionSize useCrc o) → m.HasRoom k := by
      intro k hk _
      show 0 + k ≤ (List.replicate (max n (actionSize useCrc o)) (0 : UInt8)).length
      rw [List.length_replicate]
      omega
    have halloc : m.Allocated := fun b hb => nomatch hb
    obtain ⟨m₁, o₁, hact₁, hoff₁⟩ := h.emits m rfl rfl (Nat.zero_le _) halloc
      (hroom n (Nat.le_max_left ..))
    have hright : Measures useCrc log_ o _ := measures_actionSize ho
    obtain ⟨m₂, o₂, hact₂, hoff₂⟩ := hright.emits m rfl rfl (Nat.zero_le _) halloc
      (hroom _ (Nat.le_max_right ..))
    have hsame : m₁ = m₂ := by
      rw [hact₁] at hact₂
      cases hact₂
      rfl
    rw [← hoff₁, ← hoff₂, hsame]
  · rintro rfl
    exact measures_actionSize ho

/-! ### The size computed -/

namespace MarshalSize

mutual

/-- What `process` adds to `size_`. -/
def measure : Field → Nat
  | .fixed x => getSize x
  | .carrier c => 4 + c.len_
  | .terminated c t => (throughTerminator t (c.buf_.getD [])).length
  | .string str => getSizeString str
  | .object fields => measureAll fields
  | .vector _ elems => 4 + measureAll elems

def measureAll : SerializableObject → Nat
  | [] => 0
  | f :: o => measure f + measureAll o

end

theorem add_add (s : MarshalSize) (n k : Nat) : (s.add n).add k = s.add (n + k) := by
  simp [add, UInt64.add_assoc]

@[simp] theorem add_zero (s : MarshalSize) : s.add 0 = s := by
  simp [add]

private theorem processAll_size_of {o : SerializableObject} (ho : AllReadable o)
    (h : ∀ f ∈ o, f.Readable → ∀ s : MarshalSize, s.process f = .ok (s.add (measure f)))
    (s : MarshalSize) : s.processAll o = .ok (s.add (measureAll o)) := by
  induction o generalizing s with
  | nil => rw [measureAll, add_zero]; rfl
  | cons f o ih =>
    rw [processAll, h f (by simp) ho.1]
    show (s.add (measure f)).processAll o = _
    rw [ih ho.2 fun g hg => h g (by simp [hg]), add_add]
    rfl

theorem process_size (f : Field) (hf : f.Readable) (s : MarshalSize) :
    s.process f = .ok (s.add (measure f)) := by
  induction f using Field.ind generalizing s with
  | fixed x => rfl
  | carrier c =>
    show Except.ok ((s.add 4).add c.len_) = _
    rw [add_add]
    rfl
  | terminated c t =>
    obtain ⟨mem, hbuf, ht⟩ := hf
    obtain ⟨len, hfind, hthrough, hlt⟩ := Marshal.findTerminator_eq ht
    have hlen : (throughTerminator t mem).length = len + 1 := by
      rw [hthrough, List.length_take_of_le hlt]
    rw [measure, hbuf, Option.getD_some, hlen, process]
    simp only [processTerminated, hbuf, hfind, bind, Except.bind]
    rfl
  | string str => rfl
  | object fields ih => exact processAll_size_of hf ih s
  | vector builder elems _ ih =>
    show (s.add 4).processAll elems = _
    rw [processAll_size_of hf ih, add_add]
    rfl

theorem processAll_size {o : SerializableObject} (ho : AllReadable o) (s : MarshalSize) :
    s.processAll o = .ok (s.add (measureAll o)) :=
  processAll_size_of ho (fun f _ => process_size f) s

mutual

/-- How many times 2^32 `MarshalSize` counts too much for a field. It takes the whole
    length of a carrier, of which `Marshal` passes on the low 32 bits, and it loses 2^32
    where the size of a string does not fit a `u_int32_t`. -/
def miscount : Field → Int
  | .fixed _ => 0
  | .carrier c => c.len_ / 2 ^ 32
  | .terminated c t => (throughTerminator t (c.buf_.getD [])).length / 2 ^ 32
  | .string str => if 2 ^ 32 ≤ str.length % 2 ^ 32 + 4 then -1 else 0
  | .object fields => miscountAll fields
  | .vector _ elems => miscountAll elems

def miscountAll : SerializableObject → Int
  | [] => 0
  | f :: o => miscount f + miscountAll o

end

private theorem measureAll_eq_of {o : SerializableObject} (ho : AllReadable o)
    (h : ∀ f ∈ o, f.Readable →
      (measure f : Int) = (encode f).length + 2 ^ 32 * miscount f) :
    (measureAll o : Int) = (encodeAll o).length + 2 ^ 32 * miscountAll o := by
  induction o with
  | nil => rfl
  | cons f o ih =>
    have hf := h f (by simp) ho.1
    have ho' := ih ho.2 fun g hg => h g (by simp [hg])
    simp only [measureAll, encodeAll, miscountAll, List.length_append]
    omega

theorem measure_eq (f : Field) (hf : f.Readable) :
    (measure f : Int) = (encode f).length + 2 ^ 32 * miscount f := by
  induction f using Field.ind with
  | fixed x => cases x <;> simp [measure, getSize, encode, miscount, FixedField.width]
  | carrier c =>
    obtain ⟨data, hdata⟩ := hf
    have hlen := length_of_readBytes hdata
    have hbytes := bytes_of_readBytes hdata
    simp only [measure, encode, miscount, List.length_append, BigEndian.length_bytes, hbytes, hlen]
    omega
  | terminated c t =>
    simp only [measure, encode, miscount, List.length_take]
    omega
  | string str =>
    simp only [measure, getSizeString, encode, miscount, List.length_append,
      BigEndian.length_bytes, List.length_take]
    split <;> omega
  | object fields ih => exact measureAll_eq_of hf ih
  | vector builder elems _ ih =>
    have helems := measureAll_eq_of hf ih
    simp only [measure, encode, miscount, List.length_append, BigEndian.length_bytes]
    omega

theorem measureAll_eq {o : SerializableObject} (ho : AllReadable o) :
    (measureAll o : Int) = (encodeAll o).length + 2 ^ 32 * miscountAll o :=
  measureAll_eq_of ho fun f _ => measure_eq f

end MarshalSize

open MarshalSize (measureAll miscountAll measureAll_eq processAll_size)

/-! ### The two together -/

theorem MarshalSize.action_size (useCrc : Bool) (ho : AllReadable o) :
    ∃ s, (new useCrc).action o = .ok (0, s) ∧
      s.size_.toNat = (measureAll o + if useCrc then 4 else 0) % 2 ^ 64 := by
  have hrun := processAll_size ho (new useCrc).beginAction
  refine ⟨(new useCrc).beginAction.add (measureAll o), ?_, ?_⟩
  · rw [action, hrun]
    rfl
  · cases useCrc with
    | false =>
      show (0 + UInt64.ofNat (measureAll o)).toNat = _
      simp
    | true =>
      show (0 + UInt64.ofNat 4 + UInt64.ofNat (measureAll o)).toNat = _
      simp [UInt64.toNat_add, Nat.add_comm]

theorem MarshalSize.action_counted (ho : AllReadable o) (hmis : miscountAll o = 0)
    (hlt : (encodeAll o).length < 2 ^ 64) :
    ∃ s, (MarshalSize.new false).action o = .ok (0, s) ∧ s.size_.toNat = (encodeAll o).length := by
  obtain ⟨s, hact, hsize⟩ := MarshalSize.action_size false ho
  have hcount := measureAll_eq ho
  refine ⟨s, hact, ?_⟩
  rw [hsize]
  simp only [Bool.false_eq_true, if_false]
  omega

theorem Marshal.action_room (ho : AllReadable o) {buf : List UInt8}
    (hn : (encodeAll o).length ≤ buf.length) :
    ∃ m o', (Marshal.new buf false false).action o = .ok (0, m, o') ∧
      m.buf_ = encodeAll o ++ buf.drop (encodeAll o).length := by
  obtain ⟨m, o', hact, hfill⟩ := Marshal.action_fills buf false false ho
  have hall : Filling.empty.putAll buf.length (Wire.actionSlices false o) =
      ⟨encodeAll o, false⟩ := by
    rw [Filling.putAll_of_le _ rfl]
    · simp [Wire.actionSlices, Filling.empty, Wire.flatten_allSlices]
    · simpa [Wire.actionSlices, Filling.empty, Wire.flatten_allSlices] using hn
  rw [hall] at hfill
  refine ⟨m, o', ?_, hfill.buf_eq⟩
  rw [hact, hfill.error_eq]
  rfl

/-- `MarshalSize` computes the right size exactly if its miscounts cancel out modulo 2^64
    and a `size_t` holds the size. -/
theorem measures_iff (ho : AllReadable o) : ∃ s, (MarshalSize.new useCrc).action o = .ok (0, s) ∧
    (Measures useCrc log_ o s.size_.toNat ↔
      (2 ^ 32 : Int) ∣ miscountAll o ∧ actionSize useCrc o < 2 ^ 64) := by
  obtain ⟨s, hact, hsize⟩ := MarshalSize.action_size useCrc ho
  have hcount := measureAll_eq ho
  refine ⟨s, hact, ?_⟩
  rw [measures_iff_eq ho, hsize]
  unfold actionSize
  constructor
  · intro h
    -- what a `size_t` counts is the size modulo 2^64
    have hlt := Nat.mod_lt (measureAll o + if useCrc then 4 else 0) (Nat.two_pow_pos 64)
    exact ⟨by omega, by omega⟩
  · intro ⟨hdvd, hlt⟩
    omega

/-- An object with a vector and a string, with its CRC. -/
theorem measures_iff_vector :
    ∃ s, (MarshalSize.new true).action
        [.vector (.fixed (.u8 0)) [.fixed (.u8 7), .fixed (.u8 8)], .string [104, 105]] =
          .ok (0, s) ∧
      (Measures true false
          [.vector (.fixed (.u8 0)) [.fixed (.u8 7), .fixed (.u8 8)], .string [104, 105]]
          s.size_.toNat ↔
        (2 ^ 32 : Int) ∣ miscountAll
            [.vector (.fixed (.u8 0)) [.fixed (.u8 7), .fixed (.u8 8)], .string [104, 105]] ∧
          actionSize true
            [.vector (.fixed (.u8 0)) [.fixed (.u8 7), .fixed (.u8 8)], .string [104, 105]] <
            2 ^ 64) := by
  apply measures_iff
  simp [AllReadable, Field.Readable]

private theorem measures_string_wraps {str : List UInt8} (hlen : str.length = 2 ^ 32 - 4) :
    (MarshalSize.new false).action [.string str] = .ok (0, MarshalSize.new false) ∧
      ¬ Measures false false [.string str] (MarshalSize.new false).size_.toNat := by
  have hsize : MarshalSize.getSizeString str = 0 := by
    unfold MarshalSize.getSizeString
    omega
  constructor
  · show Except.ok (0, (MarshalSize.new false).add (MarshalSize.getSizeString str)) = _
    rw [hsize, MarshalSize.add_zero]
  · rw [measures_iff_eq (by simp [AllReadable, Field.Readable])]
    simp only [actionSize, encodeAll, encode, List.length_append, BigEndian.length_bytes]
    show ¬ 0 = _
    omega

/-- It is wrong. -/
theorem not_measures_string :
    (MarshalSize.new false).action [.string (List.replicate (2 ^ 32 - 4) 0)] =
        .ok (0, MarshalSize.new false) ∧
      ¬ Measures false false [.string (List.replicate (2 ^ 32 - 4) 0)]
        (MarshalSize.new false).size_.toNat :=
  measures_string_wraps List.length_replicate

end Oasys
