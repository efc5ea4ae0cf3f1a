import Oasys.Serialize.StreamSerialize
import Oasys.Spec.WireRoundTrip

/-!
# StreamSerialize writes an encoding

`StreamFormat.encode` is what `StreamSerialize` writes of a field when its stream takes everything:
other than `Marshal` it puts a length before a carrier with a terminator too. Whatever the stream
does, the action writes nothing after the first write that fails (`Stopped`).
-/

namespace Oasys

/-! ### Runs with failures -/

/-- Nothing is written or assigned after a call of the stream has failed. -/
def StopsAtFailure (events : List StreamEvent) : Prop :=
  events.Pairwise fun e e' => e = .failed → e' ≠ .done

/-- The action has an error exactly if a call of its stream has failed, and it has stopped there. -/
structure Stopped (error_ : Bool) (events : List StreamEvent) : Prop where
  error_iff : error_ = true ↔ .failed ∈ events
  stops : StopsAtFailure events

namespace Stopped

theorem nil : Stopped false [] := ⟨by simp, List.Pairwise.nil⟩

theorem done {events : List StreamEvent} (h : Stopped false events) :
    Stopped false (events ++ [.done]) := by
  have hnone : .failed ∉ events := fun hmem => nomatch h.error_iff.2 hmem
  refine ⟨by simp [hnone], List.pairwise_append.2 ⟨h.stops, List.pairwise_singleton _ _, ?_⟩⟩
  rintro e he e' - rfl
  exact absurd he hnone

theorem failed {events : List StreamEvent} (h : Stopped false events) :
    Stopped true (events ++ [.failed]) := by
  refine ⟨by simp, List.pairwise_append.2 ⟨h.stops, List.pairwise_singleton _ _, ?_⟩⟩
  intro e _ e' he' _
  obtain rfl := List.mem_singleton.1 he'
  simp

end Stopped

/-! ### Fields -/

mutual

/-- The carriers can be read, and a carrier with a terminator holds data that ends with it and
    does not contain it before. -/
def Field.Sendable : Field → Prop
  | .fixed _ => True
  | .carrier c => ∃ data, readBytes c.buf_ c.len_ = .ok data
  | .terminated c t => ∃ data mem, c.buf_ = some (data ++ t :: mem) ∧ t ∉ data ∧
      c.len_ = data.length + 1
  | .string _ => True
  | .object fields => AllSendable fields
  | .vector _ elems => AllSendable elems

def AllSendable : SerializableObject → Prop
  | [] => True
  | f :: o => Field.Sendable f ∧ AllSendable o

end

mutual

/-- The lengths that are written fit 32 bits. -/
def Field.Short : Field → Prop
  | .fixed _ => True
  | .carrier c => c.len_ < 2 ^ 32
  | .terminated c _ => c.len_ < 2 ^ 32
  | .string s => s.length < 2 ^ 32
  | .object fields => AllShort fields
  | .vector _ elems => elems.length < 2 ^ 32 ∧ AllShort elems

def AllShort : SerializableObject → Prop
  | [] => True
  | f :: o => Field.Short f ∧ AllShort o

end

theorem AllSendable.mem {o : SerializableObject} (h : AllSendable o) : ∀ f ∈ o, f.Sendable := by
  induction o with
  | nil => simp
  | cons g o ih => simpa using ⟨h.1, ih h.2⟩

theorem AllShort.mem {o : SerializableObject} (h : AllShort o) : ∀ f ∈ o, f.Short := by
  induction o with
  | nil => simp
  | cons g o ih => simpa using ⟨h.1, ih h.2⟩

namespace StreamFormat

mutual

/-- The bytes of a field. -/
def encode : Field → List UInt8
  | .fixed x => x.bytes
  | .carrier c => BigEndian.bytes 4 c.len_ ++ (c.buf_.getD []).take c.len_
  | .terminated c _ => BigEndian.bytes 4 c.len_ ++ (c.buf_.getD []).take c.len_
  | .string s => BigEndian.bytes 4 s.length ++ s
  | .object fields => encodeAll fields
  | .vector _ elems => BigEndian.bytes 4 elems.length ++ encodeAll elems

def encodeAll : SerializableObject → List UInt8
  | [] => []
  | f :: o => encode f ++ encodeAll o

end

end StreamFormat

namespace StreamSerialize

open StreamFormat (encode encodeAll)

variable {a a' a'' : StreamSerialize} {bs bs' : List UInt8}

/-- There is no error, and no write to come fails. -/
def Fine (a : StreamSerialize) : Prop := a.error_ = false ∧ ∀ n, a.stream_.writes n = none

/-- A run that writes `bs` if nothing fails, and nothing after a failure. -/
structure Goes (a a' : StreamSerialize) (bs : List UInt8) : Prop where
  stopped : Stopped a.error_ a.events → Stopped a'.error_ a'.events
  fine : a.Fine → a'.Fine ∧ a'.stream_.data = a.stream_.data ++ bs

theorem Goes.refl (a : StreamSerialize) : a.Goes a [] := ⟨id, fun h => ⟨h, by simp⟩⟩

theorem Goes.trans (h : a.Goes a' bs) (h' : a'.Goes a'' bs') : a.Goes a'' (bs ++ bs') where
  stopped hs := h'.stopped (h.stopped hs)
  fine hf := by
    obtain ⟨hfine, hdata⟩ := h.fine hf
    obtain ⟨hfine', hdata'⟩ := h'.fine hfine
    exact ⟨hfine', by rw [hdata', hdata, List.append_assoc]⟩

theorem put_goes (a : StreamSerialize) (bs : List UInt8) :
    ∃ a', a.put (.ok bs) = .ok a' ∧ a.Goes a' bs := by
  cases herr : a.error_ with
  | true =>
    -- nothing is written after an error
    refine ⟨a, by simp [put, herr], id, fun hf => ?_⟩
    rw [hf.1] at herr
    cases herr
  | false =>
    cases hwrite : a.stream_.writes 0 with
    | none =>
      refine ⟨{ a with stream_ := ⟨a.stream_.data ++ bs, fun n => a.stream_.writes (n + 1)⟩,
                       events := a.events ++ [.done] }, ?_, fun hs => ?_, fun hf => ?_⟩
      · simp [put, herr, OutByteStream.write, hwrite]
      · rw [herr] at hs
        simpa [herr] using hs.done
      · exact ⟨⟨herr, fun n => hf.2 (n + 1)⟩, rfl⟩
    | some k =>
      refine ⟨{ error_ := true,
                stream_ := ⟨a.stream_.data ++ bs.take k, fun n => a.stream_.writes (n + 1)⟩,
                events := a.events ++ [.failed] }, ?_, fun hs => ?_, fun hf => ?_⟩
      · simp [put, herr, OutByteStream.write, hwrite]
      · rw [herr] at hs
        exact hs.failed
      · -- no write of a fine action fails
        rw [hf.2 0] at hwrite
        cases hwrite

theorem processU32_goes (a : StreamSerialize) (n : Nat) :
    ∃ a', a.processU32 (.ofNat n) = .ok a' ∧ a.Goes a' (BigEndian.bytes 4 n) := by
  have hbytes : BigEndian.bytes 4 (UInt32.ofNat n).toNat = BigEndian.bytes 4 n := by
    rw [UInt32.toNat_ofNat']
    exact BigEndian.bytes_mod 4 n
  unfold processU32
  rw [BigEndian.bytes_word32, hbytes]
  exact a.put_goes _

theorem processFixed_goes (a : StreamSerialize) (x : FixedField) :
    ∃ a', a.processFixed x = .ok a' ∧ a.Goes a' x.bytes := by
  -- the bytes that are stored are those of the numeral
  cases x with
  | u64 i =>
    show ∃ a', a.processU64 i = .ok a' ∧ a.Goes a' _
    unfold processU64
    rw [BigEndian.bytes_word64]
    exact a.put_goes _
  | u32 i =>
    show ∃ a', a.processU32 i = .ok a' ∧ a.Goes a' _
    unfold processU32
    rw [BigEndian.bytes_word32]
    exact a.put_goes _
  | u16 i =>
    show ∃ a', a.processU16 i = .ok a' ∧ a.Goes a' _
    unfold processU16
    rw [BigEndian.bytes_word16]
    exact a.put_goes _
  | u8 i => exact a.put_goes _
  | bool b => exact a.put_goes _
  | buf bp =>
    have hlen : (UInt32.ofNat bp.bytes.length).toNat = bp.bytes.length :=
      UInt32.toNat_ofNat_of_lt bp.fits
    show ∃ a', a.processBuf _ _ = .ok a' ∧ a.Goes a' _
    unfold processBuf
    rw [hlen, readBytes_self]
    exact a.put_goes _

theorem processCarrier_goes (a : StreamSerialize) {c : BufferCarrier} (hlen : c.len_ < 2 ^ 32)
    {data : List UInt8} (hdata : readBytes c.buf_ c.len_ = .ok data) :
    ∃ a', a.processCarrier c = .ok a' ∧ a.Goes a' (encode (.carrier c)) := by
  obtain ⟨a₁, hlength, hgoes₁⟩ := a.processU32_goes c.len_
  obtain ⟨a₂, hbody, hgoes₂⟩ := a₁.put_goes data
  refine ⟨a₂, ?_, ?_⟩
  · have hcount : (UInt32.ofNat c.len_).toNat = c.len_ := UInt32.toNat_ofNat_of_lt hlen
    simp only [processCarrier, processBuf, hlength, hcount, hdata, hbody, bind, Except.bind]
  · rw [encode, bytes_of_readBytes hdata]
    exact hgoes₁.trans hgoes₂

theorem processString_goes (a : StreamSerialize) {s : List UInt8} (hs : s.length < 2 ^ 32) :
    ∃ a', a.processString s = .ok a' ∧ a.Goes a' (encode (.string s)) := by
  have hlen : (UInt32.ofNat s.length).toNat = s.length := UInt32.toNat_ofNat_of_lt hs
  obtain ⟨a₁, hlength, hgoes₁⟩ := a.processU32_goes s.length
  obtain ⟨a₂, hbody, hgoes₂⟩ := a₁.put_goes s
  refine ⟨a₂, ?_, hgoes₁.trans hgoes₂⟩
  simp only [processString, hlen, readBytes_self]
  cases herr : a.error_ with
  | true =>
    -- both writes leave the action alone
    have hput : ∀ bytes, a.put bytes = .ok a := by simp [put, herr]
    obtain rfl := Except.ok.inj ((hput _).symm.trans hlength)
    obtain rfl := Except.ok.inj ((hput _).symm.trans hbody)
    rfl
  | false =>
    simp only [hlength, bind, Except.bind, Bool.false_eq_true, if_false]
    cases herr₁ : a₁.error_ with
    | true =>
      -- the length could not be written
      simp only [put, herr₁, if_true] at hbody ⊢
      exact hbody
    | false => simpa using hbody

theorem setLen_terminated {c : BufferCarrier} {data : List UInt8}
    (hlen : c.len_ = data.length + 1) (hfits : c.len_ < 2 ^ 32) :
    c.setLen (UInt32.ofNat data.length + 1).toNat = c := by
  have hcount : (UInt32.ofNat data.length + 1).toNat = c.len_ := by
    have hwrap : (UInt32.ofNat data.length).toNat = data.length % 2 ^ 32 := UInt32.toNat_ofNat'
    rw [UInt32.toNat_add, hwrap]
    show (data.length % 2 ^ 32 + 1) % 2 ^ 32 = c.len_
    omega
  rw [hcount]
  rfl

theorem readBytes_terminated {c : BufferCarrier} {t : UInt8} {data mem : List UInt8}
    (hbuf : c.buf_ = some (data ++ t :: mem)) (hlen : c.len_ = data.length + 1) :
    readBytes c.buf_ c.len_ = .ok (data ++ [t]) := by
  have happend : data ++ t :: mem = (data ++ [t]) ++ mem := by simp
  rw [hbuf, hlen, happend]
  simpa using readBytes_append (data ++ [t]) mem

theorem processTerminated_goes (a : StreamSerialize) {c : BufferCarrier} {t : UInt8}
    (h : (Field.terminated c t).Sendable) (hfits : c.len_ < 2 ^ 32) :
    ∃ a', a.processTerminated c t = .ok (a', c) ∧ a.Goes a' (encode (.terminated c t)) := by
  obtain ⟨data, mem, hbuf, ht, hlen⟩ := h
  have hset := setLen_terminated hlen hfits
  obtain ⟨a', hrun, hgoes⟩ := a.processCarrier_goes hfits (readBytes_terminated hbuf hlen)
  refine ⟨a', ?_, hgoes⟩
  unfold processTerminated
  rw [hbuf]
  simp only [Marshal.findTerminator_append ht, bind, Except.bind]
  rw [if_neg (by omega)]
  simp only [hset, hrun, pure, Except.pure]

private theorem processAll_goes_of {o : SerializableObject}
    (h : ∀ f ∈ o, f.Sendable → f.Short → ∀ a : StreamSerialize,
      ∃ a', a.process f = .ok (a', f) ∧ a.Goes a' (encode f))
    (ho : AllSendable o) (hshort : AllShort o) (a : StreamSerialize) :
    ∃ a', a.processAll o = .ok (a', o) ∧ a.Goes a' (encodeAll o) := by
  induction o generalizing a with
  | nil => exact ⟨a, rfl, .refl a⟩
  | cons f o ih =>
    obtain ⟨a₁, hrun₁, hgoes₁⟩ := h f (by simp) ho.1 hshort.1 a
    obtain ⟨a₂, hrun₂, hgoes₂⟩ := ih (fun g hg => h g (by simp [hg])) ho.2 hshort.2 a₁
    refine ⟨a₂, ?_, hgoes₁.trans hgoes₂⟩
    simp [processAll, hrun₁, hrun₂]

theorem process_goes (f : Field) (hf : f.Sendable) (hshort : f.Short) (a : StreamSerialize) :
    ∃ a', a.process f = .ok (a', f) ∧ a.Goes a' (encode f) := by
  -- one lemma for each overload; the members of an object and of a vector by induction
  induction f using Field.ind generalizing a with
  | fixed x =>
    obtain ⟨a', hrun, hgoes⟩ := a.processFixed_goes x
    exact ⟨a', by simp [process, hrun], hgoes⟩
  | carrier c =>
    obtain ⟨data, hdata⟩ := hf
    obtain ⟨a', hrun, hgoes⟩ := a.processCarrier_goes hshort hdata
    exact ⟨a', by simp [process, hrun], hgoes⟩
  | terminated c t =>
    obtain ⟨a', hrun, hgoes⟩ := a.processTerminated_goes hf hshort
    exact ⟨a', by simp [process, hrun], hgoes⟩
  | string s =>
    obtain ⟨a', hrun, hgoes⟩ := a.processString_goes hshort
    exact ⟨a', by simp [process, hrun], hgoes⟩
  | object fields ih =>
    obtain ⟨a', hrun, hgoes⟩ := processAll_goes_of ih hf hshort a
    exact ⟨a', by simp [process, hrun], hgoes⟩
  | vector builder elems _ ih =>
    obtain ⟨a₁, hsize, hgoes₁⟩ := a.processU32_goes elems.length
    obtain ⟨a₂, hrun, hgoes₂⟩ := processAll_goes_of ih hf hshort.2 a₁
    exact ⟨a₂, by simp [process, hsize, hrun],
      hgoes₁.trans hgoes₂⟩

theorem action_goes {o : SerializableObject} (ho : AllSendable o) (hshort : AllShort o)
    (stream_ : OutByteStream) :
    ∃ a, (new stream_).action o = .ok (if a.error_ then -1 else 0, a, o) ∧
      (new stream_).Goes a (encodeAll o) := by
  obtain ⟨a, hrun, hgoes⟩ := processAll_goes_of (fun f _ => process_goes f) ho hshort (new stream_)
  have hrun' : ({ new stream_ with error_ := false } : StreamSerialize).processAll o =
      .ok (a, o) := hrun
  exact ⟨a, by simp [action, hrun'], hgoes⟩

end StreamSerialize

end Oasys
