import Oasys.Spec.MarshalSlices

/-!
# Marshal writes the wire format

With enough room in its buffer, `Marshal` appends the bytes of an object to what it has
written. An `ExpandableBuffer` always has enough room.
-/

namespace Oasys.Marshal

open Wire (encodeAll allSlices flatten_allSlices)

variable {m m' m'' : Marshal}

def Valid (m : Marshal) : Prop := m.offset ≤ m.memory.length

def HasRoom (m : Marshal) (n : Nat) : Prop :=
  m.expandable_buf_ = none → m.offset_ + n ≤ m.buf_.length

/-- An expandable buffer has memory, as `raw_buf` asserts. -/
def Allocated (m : Marshal) : Prop := ∀ b, m.expandable_buf_ = some b → b.buf_.isSome

/-- `m'` is `m` after `bs` was written. -/
structure Wrote (m m' : Marshal) (bs : List UInt8) : Prop where
  error_eq : m'.error_ = false
  useCrc_eq : m'.useCrc = m.useCrc
  valid : m'.Valid
  allocated : m.Allocated → m'.Allocated
  written_eq : m'.written = m.written ++ bs
  room : ∀ n, m.HasRoom (bs.length + n) → m'.HasRoom n

namespace Wrote

theorem refl (herr : m.error_ = false) (hvalid : m.Valid) : m.Wrote m [] where
  error_eq := herr
  useCrc_eq := rfl
  valid := hvalid
  allocated h := h
  written_eq := (List.append_nil _).symm
  room n h := by simpa using h

theorem trans {bs bs' : List UInt8} (h : m.Wrote m' bs) (h' : m'.Wrote m'' bs') :
    m.Wrote m'' (bs ++ bs') where
  error_eq := h'.error_eq
  useCrc_eq := h'.useCrc_eq.trans h.useCrc_eq
  valid := h'.valid
  allocated ha := h'.allocated (h.allocated ha)
  written_eq := by rw [h'.written_eq, h.written_eq, List.append_assoc]
  room n hn := h'.room n (h.room _ (by rwa [List.length_append, Nat.add_assoc] at hn))

end Wrote

private theorem take_overwrite {mem bs : List UInt8} {p : Nat} (h : p + bs.length ≤ mem.length) :
    (mem.take p ++ bs ++ mem.drop (p + bs.length)).take (p + bs.length) = mem.take p ++ bs := by
  have hlen : (mem.take p ++ bs).length = p + bs.length := by
    rw [List.length_append, List.length_take]
    omega
  rw [List.take_append_of_le_length (by omega), ← hlen, List.take_length]

private theorem reserve_bytes (b : ExpandableBuffer) (size : Nat) :
    ∃ more, (b.reserve size).bytes = b.bytes ++ more ∧ (b.reserve size).len_ = b.len_ ∧
      size ≤ (b.reserve size).bytes.length ∧ (b.buf_.isSome → (b.reserve size).buf_.isSome) := by
  obtain ⟨more, hbytes, hcap, hlen⟩ := b.bytes_reserve size
  refine ⟨more, hbytes, hlen, ?_, fun ha => ExpandableBuffer.isSome_reserve fun _ => ha⟩
  show size ≤ (b.reserve size).buf_len_
  rw [hcap]
  exact Nat.le_max_right ..

private theorem tailBuf_incrLen {b : ExpandableBuffer} (hb : b.len_ ≤ b.bytes.length) (n : Nat) :
    ∃ b' more, b.tailBuf n = .ok (b', b'.buf_.map fun _ => b.len_) ∧
      b'.incrLen n = .ok { b' with len_ := b.len_ + n } ∧ b'.bytes = b.bytes ++ more ∧
      b.len_ + n ≤ b'.bytes.length ∧ (b.buf_.isSome → b'.buf_.isSome) := by
  -- `tail_buf` reserves only where the room behind the bytes does not exceed `n`
  by_cases hn : n < b.buf_len_ - b.len_
  · have hle : b.len_ + n ≤ b.bytes.length := by unfold ExpandableBuffer.buf_len_ at hn; omega
    refine ⟨b, [], ?_, ?_, by simp, hle, fun ha => ha⟩
    · simp [ExpandableBuffer.tailBuf, hn]
    · simp [ExpandableBuffer.incrLen, ExpandableBuffer.buf_len_, hle]
  · obtain ⟨more, hbytes, hlen, hle, hsome⟩ := reserve_bytes b (b.len_ + n)
    refine ⟨b.reserve (b.len_ + n), more, ?_, ?_, hbytes, hle, hsome⟩
    · have hfree : n ≤ (b.reserve (b.len_ + n)).buf_len_ - b.len_ := by
        unfold ExpandableBuffer.buf_len_; omega
      simp [ExpandableBuffer.tailBuf, hn, hlen, hfree]
    · simp [ExpandableBuffer.incrLen, ExpandableBuffer.buf_len_, hlen, hle]

theorem put_wrote (herr : m.error_ = false) (hvalid : m.Valid) (bs : List UInt8)
    (hroom : m.HasRoom bs.length) :
    ∃ m', m.put bs.length (.ok bs) = .ok m' ∧ m.Wrote m' bs := by
  -- a buffer of fixed length, or one that grows
  cases hexp : m.expandable_buf_ with
  | none =>
    have hle := hroom hexp
    refine ⟨{ m with
      offset_ := m.offset_ + bs.length
      buf_ := m.buf_.take m.offset_ ++ bs ++ m.buf_.drop (m.offset_ + bs.length) }, ?_, ?_⟩
    · simp [put, BufferedSerializeAction.nextSlice, herr, hexp, Nat.not_lt.mpr hle,
        BufferedSerializeAction.store, BufferedSerializeAction.memory, hle]
    · constructor
      · exact herr
      · rfl
      · simp [Valid, BufferedSerializeAction.offset, BufferedSerializeAction.memory, hexp]
        omega
      · exact fun ha => ha
      · -- the slice lies behind what was written
        simp only [written, BufferedSerializeAction.offset, BufferedSerializeAction.memory, hexp]
        exact take_overwrite hle
      · intro n hn hexp'
        have := hn hexp
        simp
        omega
  | some b =>
    have hb : b.len_ ≤ b.bytes.length := by
      simpa [Valid, BufferedSerializeAction.offset, BufferedSerializeAction.memory, hexp]
        using hvalid
    obtain ⟨b', more, htail, hincr, hbytes, hle, hsome⟩ := tailBuf_incrLen hb bs.length
    have hkeep : b'.bytes.take b.len_ = b.bytes.take b.len_ := by
      rw [hbytes, List.take_append_of_le_length hb]
    cases hbuf : b'.buf_ with
    | none =>
      -- nothing has ever been reserved, and nothing is written
      have hnil : b'.bytes = [] := by simp [ExpandableBuffer.bytes, hbuf]
      rw [hnil, List.length_nil] at hle
      obtain rfl : bs = [] := List.length_eq_zero_iff.mp (by omega)
      refine ⟨{ m with expandable_buf_ := some { b' with len_ := b.len_ + 0 } }, ?_, ?_⟩
      · simp only [List.length_nil] at htail hincr
        simp [put, BufferedSerializeAction.nextSlice, herr, hexp, htail, hincr, hbuf]
      · have hlen : b.len_ = 0 := by omega
        constructor
        · exact herr
        · rfl
        · simp [Valid, BufferedSerializeAction.offset, hlen]
        · intro ha
          rw [hbuf] at hsome
          cases hsome (ha b hexp)
        · simp [written, BufferedSerializeAction.offset, hexp, hlen]
        · exact fun n _ hexp' => by cases hexp'
    | some mem =>
      have hmem : b'.bytes = mem := by simp [ExpandableBuffer.bytes, hbuf]
      rw [hmem] at hle hkeep
      refine ⟨{ m with expandable_buf_ := some ⟨some (mem.take b.len_ ++ bs ++
        mem.drop (b.len_ + bs.length)), b.len_ + bs.length⟩ }, ?_, ?_⟩
      · simp [put, BufferedSerializeAction.nextSlice, herr, hexp, htail, hincr, hbuf,
          BufferedSerializeAction.store, BufferedSerializeAction.memory, ExpandableBuffer.bytes,
          hle]
      · constructor
        · exact herr
        · rfl
        · simp [Valid, BufferedSerializeAction.offset, BufferedSerializeAction.memory,
            ExpandableBuffer.bytes]
          omega
        · intro ha b₁ hb₁
          obtain rfl := Option.some.inj hb₁
          rfl
        · simp only [written, BufferedSerializeAction.offset, BufferedSerializeAction.memory, hexp]
          rw [show ExpandableBuffer.bytes ⟨some _, b.len_ + bs.length⟩ = _ from rfl, ← hkeep]
          exact take_overwrite hle
        · exact fun n _ hexp' => by cases hexp'

theorem room_of_put {bs : List UInt8} (h : m.put bs.length (.ok bs) = .ok m')
    (herr : m'.error_ = false) : m.error_ = false ∧ m.HasRoom bs.length := by
  cases herr' : m.error_ with
  | true =>
    simp [put, BufferedSerializeAction.nextSlice, herr'] at h
    rw [← h, herr'] at herr
    cases herr
  | false =>
    refine ⟨rfl, fun hexp => ?_⟩
    by_contra hroom
    simp [put, BufferedSerializeAction.nextSlice, herr', hexp, Nat.lt_of_not_le hroom] at h
    rw [← h] at herr
    cases herr

/-! ### Objects -/

theorem putAll_wrote (ss : List (List UInt8)) (herr : m.error_ = false) (hvalid : m.Valid)
    (hroom : m.HasRoom ss.flatten.length) :
    ∃ m', m.putAll ss = .ok m' ∧ m.Wrote m' ss.flatten := by
  induction ss generalizing m with
  | nil => exact ⟨m, rfl, .refl herr hvalid⟩
  | cons bs ss ih =>
    rw [List.flatten_cons, List.length_append] at hroom
    obtain ⟨m₁, hput, hw⟩ := put_wrote herr hvalid bs
      (fun hexp => by have := hroom hexp; omega)
    obtain ⟨m₂, hputs, hw'⟩ := ih hw.error_eq hw.valid (hw.room _ hroom)
    refine ⟨m₂, ?_, hw.trans hw'⟩
    rw [putAll_cons, hput]
    exact hputs

theorem processAll_wrote {o : SerializableObject} (ho : AllReadable o) (herr : m.error_ = false)
    (hvalid : m.Valid) (hroom : m.HasRoom (encodeAll o).length) :
    ∃ m' o', m.processAll o = .ok (m', o') ∧ m.Wrote m' (encodeAll o) ∧ AllSettle o o' := by
  obtain ⟨o', hset, heq⟩ := processAll_eq ho
  rw [← flatten_allSlices] at hroom ⊢
  obtain ⟨m', hputs, hw⟩ := putAll_wrote (allSlices o) herr hvalid hroom
  exact ⟨m', o', by rw [heq, hputs]; rfl, hw, hset⟩

end Oasys.Marshal

/-!
### What Marshal has written

What is known of a `process` of `Marshal` that returned, whatever its field is: if there
is no error afterwards, there was none before, and the bytes of the field were appended
(`process_puts`).
-/

namespace Oasys

open Wire (encode encodeAll slices)

namespace Marshal

variable {m m' m'' : Marshal}

/-! ### Values of fixed size -/

/-- If there is no error at `m'`, there was none at `m`, and `bs` was written. -/
def Puts (m m' : Marshal) (bs : List UInt8) : Prop :=
  m'.error_ = false → m.error_ = false ∧ (m.Valid → m.Wrote m' bs)

theorem Puts.refl (m : Marshal) : m.Puts m [] := fun herr => ⟨herr, .refl herr⟩

theorem Puts.trans {bs bs' : List UInt8} (h : m.Puts m' bs) (h' : m'.Puts m'' bs') :
    m.Puts m'' (bs ++ bs') := by
  intro herr''
  obtain ⟨herr', hw'⟩ := h' herr''
  obtain ⟨herr, hw⟩ := h herr'
  exact ⟨herr, fun hvalid => (hw hvalid).trans (hw' (hw hvalid).valid)⟩

theorem puts_of_put (bs : List UInt8) (h : m.put bs.length (.ok bs) = .ok m') : m.Puts m' bs := by
  intro herr'
  obtain ⟨herr, hroom⟩ := room_of_put h herr'
  refine ⟨herr, fun hvalid => ?_⟩
  obtain ⟨m₁, hput, hw⟩ := put_wrote herr hvalid bs hroom
  rw [h] at hput
  cases hput
  exact hw

private theorem nextSlice_none {b : ExpandableBuffer} {n : Nat} (hexp : m.expandable_buf_ = some b)
    (herr : m.error_ = false) (h : m.nextSlice n = .ok (m', none)) : n = 0 := by
  simp only [BufferedSerializeAction.nextSlice, herr, hexp, Bool.false_eq_true, if_false] at h
  obtain ⟨⟨b₁, ret⟩, htail, hrest⟩ := bind_eq_ok.mp h
  obtain ⟨b₂, hincr, hret⟩ := bind_eq_ok.mp hrest
  obtain ⟨-, rfl⟩ : _ ∧ ret = none := by simpa [pure, Except.pure] using hret
  have hle : b₁.len_ + n ≤ b₁.buf_len_ := by
    obtain ⟨_, hassert, _⟩ := bind_eq_ok.mp hincr
    by_contra hlt
    rw [decide_eq_false hlt] at hassert
    cases hassert
  have hnull : b₁.buf_ = none := by
    unfold ExpandableBuffer.tailBuf at htail
    by_cases hfree : n < b.buf_len_ - b.len_
    · rw [if_pos hfree] at htail
      obtain ⟨rfl, hmap⟩ : b = b₁ ∧ b.buf_ = none := by simpa [pure, Except.pure] using htail
      exact hmap
    · rw [if_neg hfree] at htail
      obtain ⟨_, _, hret⟩ := bind_eq_ok.mp htail
      obtain ⟨rfl, hmap⟩ : b.reserve (b.len_ + n) = b₁ ∧ (b.reserve (b.len_ + n)).buf_ = none := by
        simpa [pure, Except.pure] using hret
      exact hmap
  have hempty : b₁.buf_len_ = 0 := by
    simp [ExpandableBuffer.buf_len_, ExpandableBuffer.bytes, hnull]
  omega

/-- When the bytes cannot be read, `put` does not return without an error, except that no
    bytes are needed for an empty slice. -/
private theorem put_error {n : Nat} {e : Fault} (h : m.put n (.error e) = .ok m')
    (herr' : m'.error_ = false) : n = 0 := by
  obtain ⟨⟨m₁, ret⟩, hslice, hrest⟩ := bind_eq_ok.mp h
  cases ret with
  | some p => cases hrest
  | none =>
    obtain rfl : m₁ = m' := by injection hrest
    have herr : m.error_ = false := by
      apply Bool.eq_false_iff.mpr
      intro herr
      simp [BufferedSerializeAction.nextSlice, herr] at hslice
      rw [← hslice, herr] at herr'
      cases herr'
    cases hexp : m.expandable_buf_ with
    | some b => exact nextSlice_none hexp herr hslice
    | none =>
      -- a null slice of a buffer of fixed length is an error
      simp only [BufferedSerializeAction.nextSlice, herr, hexp, Bool.false_eq_true, if_false]
        at hslice
      split at hslice
      · obtain rfl : _ = m₁ := by simpa [pure, Except.pure] using hslice
        cases herr'
      · simp at hslice

theorem puts_of_processBuf {bp : Option (List UInt8)} {len : UInt32}
    (h : m.processBuf bp len = .ok m') : m.Puts m' ((bp.getD []).take len.toNat) := by
  unfold processBuf at h
  cases hdata : readBytes bp len.toNat with
  | ok data =>
    rw [hdata, ← length_of_readBytes hdata] at h
    rw [bytes_of_readBytes hdata]
    exact puts_of_put data h
  | error e =>
    intro herr'
    rw [hdata] at h
    rw [put_error h herr'] at hdata
    cases bp with
    | none => cases hdata
    | some mem => cases hdata

theorem puts_of_processU32 {n : Nat} (h : m.processU32 (.ofNat n) = .ok m') :
    m.Puts m' (BigEndian.bytes 4 n) := by
  unfold processU32 at h
  have hmod : BigEndian.bytes 4 (n % 2 ^ 32) = BigEndian.bytes 4 n := BigEndian.bytes_mod 4 n
  rw [BigEndian.bytes_word32, UInt32.toNat_ofNat', hmod] at h
  exact puts_of_put (BigEndian.bytes 4 n) h

theorem puts_of_processFixed {x : FixedField} (h : m.processFixed x = .ok m') :
    m.Puts m' x.bytes := by
  cases x with
  | u64 i =>
    rw [processFixed, processU64, BigEndian.bytes_word64] at h
    exact puts_of_put (BigEndian.bytes 8 i.toNat) h
  | u32 i =>
    rw [processFixed, processU32, BigEndian.bytes_word32] at h
    exact puts_of_put (BigEndian.bytes 4 i.toNat) h
  | u16 i =>
    rw [processFixed, processU16, BigEndian.bytes_word16] at h
    exact puts_of_put (BigEndian.bytes 2 i.toNat) h
  | u8 i => exact puts_of_put [i] h
  | bool b => exact puts_of_put [if b then 1 else 0] h
  | buf bp =>
    have hlen : (UInt32.ofNat bp.bytes.length).toNat = bp.bytes.length :=
      UInt32.toNat_ofNat_of_lt' bp.fits
    have hputs := puts_of_processBuf h
    rwa [hlen, Option.getD_some, List.take_length] at hputs

/-! ### Values with a length -/

theorem puts_of_processCarrier {c : BufferCarrier} (h : m.processCarrier c = .ok m') :
    m.Puts m' (encode (.carrier c)) := by
  obtain ⟨m₁, hlen, hbuf⟩ := bind_eq_ok.mp h
  have hputs := (puts_of_processU32 hlen).trans (puts_of_processBuf hbuf)
  rwa [UInt32.toNat_ofNat'] at hputs

theorem puts_of_processString {str : List UInt8} (h : m.processString str = .ok m') :
    m.Puts m' (encode (.string str)) := by
  obtain ⟨m₁, hlen, hbuf⟩ := bind_eq_ok.mp h
  have hputs := (puts_of_processU32 hlen).trans (puts_of_processBuf hbuf)
  rwa [UInt32.toNat_ofNat'] at hputs

private theorem mem_of_findTerminator {t : UInt8} {mem : List UInt8} {len : Nat}
    (h : findTerminator t mem = .ok len) : t ∈ mem := by
  induction mem generalizing len with
  | nil => cases h
  | cons b mem ih =>
    unfold findTerminator at h
    by_cases hb : b = t
    · simp [hb]
    · rw [if_neg hb] at h
      obtain ⟨k, hk, _⟩ := bind_eq_ok.mp h
      exact List.mem_cons_of_mem _ (ih hk)

theorem puts_of_processTerminated {c d : BufferCarrier} {t : UInt8}
    (h : m.processTerminated c t = .ok (m', d)) :
    m.Puts m' (encode (.terminated c t)) ∧ (Field.terminated c t).Settles (.terminated d t) := by
  unfold processTerminated at h
  cases hbuf : c.buf_ with
  | none =>
    rw [hbuf] at h
    cases h
  | some mem =>
    have ht : t ∈ mem := by
      simp only [hbuf] at h
      obtain ⟨len, hfind, _⟩ := bind_eq_ok.mp h
      exact mem_of_findTerminator hfind
    have heq := m.processTerminated_eq hbuf ht
    unfold processTerminated at heq
    rw [heq, slices, putAll_singleton] at h
    obtain ⟨m₁, hput, hret⟩ := bind_eq_ok.mp h
    cases hret
    exact ⟨puts_of_put _ hput, .terminated hbuf⟩

/-! ### Objects -/

private theorem puts_of_processAll_of {o o' : SerializableObject}
    (hf : ∀ f ∈ o, ∀ (m m' : Marshal) g, m.process f = .ok (m', g) →
      m.Puts m' (encode f) ∧ f.Settles g)
    (h : m.processAll o = .ok (m', o')) : m.Puts m' (encodeAll o) ∧ AllSettle o o' := by
  induction o generalizing m o' with
  | nil =>
    cases h
    exact ⟨.refl _, .nil⟩
  | cons f o ih =>
    obtain ⟨⟨m₁, g⟩, hhead, hrest⟩ := bind_eq_ok.mp h
    obtain ⟨⟨m₂, o₂⟩, htail, hret⟩ := bind_eq_ok.mp hrest
    cases hret
    obtain ⟨hputs, hset⟩ := hf f (by simp) m m₁ g hhead
    obtain ⟨hputs', hset'⟩ := ih (fun f' hf' => hf f' (by simp [hf'])) htail
    exact ⟨hputs.trans hputs', .cons hset hset'⟩

/-- A `process` that returns writes the bytes of its field, or there is an error. -/
theorem process_puts (f : Field) : ∀ (m m' : Marshal) g, m.process f = .ok (m', g) →
    m.Puts m' (encode f) ∧ f.Settles g := by
  induction f using Field.ind with
  | fixed x =>
    intro m m' g h
    obtain ⟨m₁, hput, hret⟩ := bind_eq_ok.mp h
    cases hret
    exact ⟨puts_of_processFixed hput, .refl trivial⟩
  | carrier c =>
    intro m m' g h
    obtain ⟨m₁, hput, hret⟩ := bind_eq_ok.mp h
    cases hret
    exact ⟨puts_of_processCarrier hput, .refl trivial⟩
  | terminated c t =>
    intro m m' g h
    obtain ⟨⟨m₁, d⟩, hput, hret⟩ := bind_eq_ok.mp h
    cases hret
    exact puts_of_processTerminated hput
  | string str =>
    intro m m' g h
    obtain ⟨m₁, hput, hret⟩ := bind_eq_ok.mp h
    cases hret
    exact ⟨puts_of_processString hput, .refl trivial⟩
  | object fields ih =>
    intro m m' g h
    obtain ⟨⟨m₁, fields'⟩, hrun, hret⟩ := bind_eq_ok.mp h
    cases hret
    obtain ⟨hputs, hset⟩ := puts_of_processAll_of ih hrun
    exact ⟨hputs, hset.object⟩
  | vector builder elems _ ih =>
    intro m m' g h
    obtain ⟨m₁, hlen, hrest⟩ := bind_eq_ok.mp h
    obtain ⟨⟨m₂, elems'⟩, hrun, hret⟩ := bind_eq_ok.mp hrest
    cases hret
    obtain ⟨hputs, hset⟩ := puts_of_processAll_of ih hrun
    exact ⟨(puts_of_processU32 hlen).trans hputs, hset.vector builder⟩

theorem processAll_puts {o o' : SerializableObject} (h : m.processAll o = .ok (m', o')) :
    m.Puts m' (encodeAll o) ∧ AllSettle o o' :=
  puts_of_processAll_of (fun f _ => process_puts f) h

end Marshal

end Oasys
