import Oasys.Spec.FileBackedObjectBytes
import Oasys.Spec.StreamUnserializeCorrect

/-!
# The round trip of FileBackedObject

`decode` reads an object from bytes as `encode` has written it, with no more bytes at a time than
a read gets. `unserialize` does what `decode` does on the bytes of the file (`action_reads`), but
where `decode` has none it fails an assertion: the one of the stream on the number of the bytes
that it has read. So an object is recovered exactly where its parts are as long as a read and a
write go, and no file is short without an assertion that fails.
-/

namespace Oasys

/-! ### Reading the format -/

namespace StreamFormat

/-- The first `n` bytes and what follows them, if they are there and a read gets so many. -/
def next (most n : Nat) (bs : List UInt8) : Option (List UInt8 × List UInt8) :=
  if n ≤ bs.length ∧ n ≤ most then some (bs.take n, bs.drop n) else none

def nextLength (most : Nat) (bs : List UInt8) : Option (Nat × List UInt8) :=
  (next most 4 bs).map (.map BigEndian.value id)

def nextCounted (most : Nat) (bs : List UInt8) : Option (List UInt8 × List UInt8) :=
  nextLength most bs >>= fun r => next most r.1 r.2

/-- So many elements. -/
def decodeEach (decode : List UInt8 → Option (Field × List UInt8)) :
    Nat → List UInt8 → Option (List Field × List UInt8)
  | 0, bs => some ([], bs)
  | n + 1, bs =>
    decode bs >>= fun r => (decodeEach decode n r.2).map (.map (r.1 :: ·) id)

mutual

/-- A field of the type of the given one, and what follows its bytes. -/
def decode (most : Nat) : Field → List UInt8 → Option (Field × List UInt8)
  | .fixed x, bs => (next most x.width bs).map (.map (fun buf => .fixed (x.ofBytes buf)) id)
  | .carrier _, bs =>
    (nextCounted most bs).map (.map (fun buf => .carrier ⟨some buf, buf.length⟩) id)
  | .terminated _ t, bs =>
    (nextCounted most bs).map (.map (fun buf => .terminated ⟨some buf, buf.length⟩ t) id)
  | .string _, bs => (nextCounted most bs).map (.map .string id)
  | .object fields, bs => (decodeAll most fields bs).map (.map .object id)
  | .vector builder _, bs =>
    nextLength most bs >>= fun r =>
      (decodeEach (fun bs => decode most builder bs) r.1 r.2).map (.map (.vector builder) id)

/-- The fields of an object, one after another. -/
def decodeAll (most : Nat) :
    SerializableObject → List UInt8 → Option (SerializableObject × List UInt8)
  | [], bs => some ([], bs)
  | f :: o, bs => decode most f bs >>= fun r => (decodeAll most o r.2).map (.map (r.1 :: ·) id)

end

/-- The bytes end before the object does, however much a read gets. -/
def RunsOut (p : SerializableObject) (bs : List UInt8) : Prop := ∀ most, decodeAll most p bs = none

/-! ### What is read -/

section Next

variable {most n : Nat} {bs rest buf : List UInt8}

theorem next_append (hlen : bs.length = n) (hmost : n ≤ most) :
    next most n (bs ++ rest) = some (bs, rest) := by
  have hfits : n ≤ (bs ++ rest).length ∧ n ≤ most := by
    rw [List.length_append]
    omega
  rw [next, if_pos hfits, List.take_left' hlen, List.drop_left' hlen]

theorem length_of_next (h : next most n bs = some (buf, rest)) : buf.length = n := by
  rw [next] at h
  split at h
  · rename_i hfits
    obtain ⟨rfl, -⟩ := Prod.mk.inj (Option.some.inj h)
    rw [List.length_take]
    omega
  · cases h

theorem nextLength_append (hn : n < 2 ^ 32) (hmost : 4 ≤ most) :
    nextLength most (BigEndian.bytes 4 n ++ rest) = some (n, rest) := by
  have hvalue : BigEndian.value (BigEndian.bytes 4 n) = n := BigEndian.value_bytes_of_lt (w := 4) hn
  rw [nextLength, next_append (BigEndian.length_bytes 4 n) hmost, Option.map_some, Prod.map, hvalue]
  rfl

theorem nextCounted_append (hlen : bs.length = n) (hn : n < 2 ^ 32) (hmost : 4 ≤ most)
    (hfits : n ≤ most) :
    nextCounted most (BigEndian.bytes 4 n ++ (bs ++ rest)) = some (bs, rest) := by
  rw [nextCounted, nextLength_append hn hmost]
  exact next_append hlen hfits

theorem lt_of_nextLength (h : nextLength most bs = some (n, rest)) : n < 2 ^ 32 := by
  obtain ⟨⟨len, left⟩, hnext, heq⟩ := Option.map_eq_some_iff.1 h
  obtain ⟨rfl, -⟩ := Prod.mk.inj heq
  have hlen := length_of_next hnext
  have hlt := BigEndian.value_lt len
  rw [hlen] at hlt
  exact hlt

theorem length_lt_of_nextCounted (h : nextCounted most bs = some (buf, rest)) :
    buf.length < 2 ^ 32 := by
  obtain ⟨⟨n, left⟩, hlength, hnext⟩ := Option.bind_eq_some_iff.1 h
  rw [length_of_next hnext]
  exact lt_of_nextLength hlength

end Next

end StreamFormat

/-! ### unserialize does what `decode` does -/

namespace FileUnserialize

open StreamFormat
open StreamUnserialize (loadU64 loadU32 loadU16 loadBuf loadU64_eq loadU32_eq loadU16_eq)

variable {u : FileUnserialize} {i : Nat} {content bs rest : List UInt8} {α β : Type}

/-- There is no error, and `bs` is left of the file, which holds `content`. -/
structure Fine (u : FileUnserialize) (i : Nat) (content bs : List UInt8) : Prop where
  error_eq : u.error_ = false
  holds : FileBackedObject.Holds u.stream_.fs u.stream_.object_ i content
  fits : content.length < FileBackedObject.maxOffset
  offset_le : u.stream_.offset_ ≤ content.length
  left : content.drop u.stream_.offset_ = bs

/-- The result is what `dec` reads, or an assertion fails where that is nothing. -/
def Reads (i : Nat) (content : List UInt8) (res : Except Fault (FileUnserialize × α))
    (dec : Option (α × List UInt8)) : Prop :=
  match dec with
  | some (x, rest) => ∃ u, res = .ok (u, x) ∧ Fine u i content rest
  | none => res = .error .assertFailed

theorem Reads.map {res : Except Fault (FileUnserialize × α)} {dec : Option (α × List UInt8)}
    (h : Reads i content res dec) (f : α → β) :
    Reads i content (Prod.map id f <$> res) (dec.map (.map f id)) := by
  cases dec with
  | none =>
    obtain rfl : res = .error .assertFailed := h
    rfl
  | some r =>
    obtain ⟨u, rfl, hfine⟩ := h
    exact ⟨u, rfl, hfine⟩

theorem Reads.bind {res : Except Fault (FileUnserialize × α)} {dec : Option (α × List UInt8)}
    (h : Reads i content res dec) {f : FileUnserialize × α → Except Fault (FileUnserialize × β)}
    {g : α × List UInt8 → Option (β × List UInt8)}
    (hf : ∀ u x rest, Fine u i content rest → Reads i content (f (u, x)) (g (x, rest))) :
    Reads i content (res >>= f) (dec >>= g) := by
  cases dec with
  | none =>
    obtain rfl : res = .error .assertFailed := h
    rfl
  | some r =>
    obtain ⟨u, rfl, hfine⟩ := h
    exact hf u r.1 r.2 hfine

/-- What `read_bytes` gets fails the assertion of the stream where it is too short. -/
theorem Fine.stream_read (h : u.Fine i content bs) (len : Nat) :
    match next maxRwCount len bs with
    | some (buf, rest) => ∃ s, u.stream_.read len = .ok (0, buf, s) ∧
        ({ u with stream_ := s } : FileUnserialize).Fine i content rest
    | none => u.stream_.read len = .error .assertFailed := by
  have hoffset : u.stream_.offset_ < FileBackedObject.maxOffset := by
    have hfits := h.fits
    have hle := h.offset_le
    omega
  obtain ⟨fs, o, hread, haligned⟩ :=
    FileBackedObject.readBytes_eq h.holds.at_ h.holds.aligned hoffset len
  obtain ⟨hstays, hdata⟩ := FileBackedObject.readBytes_stays h.holds.at_ hread
  have hholds : FileBackedObject.Holds fs o i content :=
    ⟨hstays.stays, by rw [hdata, h.holds.data], haligned⟩
  have hslice : FileBackedObject.Durable.slice (u.stream_.fs.data i) u.stream_.offset_ len =
      bs.take (min len maxRwCount) := by
    unfold FileBackedObject.Durable.slice
    rw [h.holds.data, h.left]
  rw [hslice] at hread
  have hcount : (bs.take (min len maxRwCount)).length = min (min len maxRwCount) bs.length :=
    List.length_take
  unfold FileBackedObjectInStream.read
  rw [hread, ok_bind, next]
  by_cases hfits : len ≤ bs.length ∧ len ≤ maxRwCount
  · have hlength : bs.length = content.length - u.stream_.offset_ := by
      rw [← h.left, List.length_drop]
    have hmax : FileBackedObject.maxOffset = 2 ^ 63 := rfl
    have hcontent := h.fits
    have hsum : (u.stream_.offset_ + len) % 2 ^ 64 = u.stream_.offset_ + len :=
      Nat.mod_eq_of_lt (by omega)
    have hall : len = (bs.take (min len maxRwCount)).length := by omega
    rw [if_pos hfits]
    dsimp only
    rw [decide_eq_true hall, assert_true, ok_bind, hsum, Nat.min_eq_left hfits.2]
    refine ⟨_, rfl, h.error_eq, hholds, h.fits, ?_, ?_⟩
    · have hle := h.offset_le
      dsimp only
      omega
    · dsimp only
      rw [← List.drop_drop, h.left]
  · have hshort : ¬ len = (bs.take (min len maxRwCount)).length := by omega
    rw [if_neg hfits]
    dsimp only
    rw [decide_eq_false hshort]
    rfl

theorem Fine.read (h : u.Fine i content bs) {len : Nat} {load value : List UInt8 → α}
    (hload : ∀ buf : List UInt8, buf.length = len → load buf = value buf)
    (short : List UInt8 → α) :
    Reads i content (u.read len load short) ((next maxRwCount len bs).map (.map value id)) := by
  have hread := h.stream_read len
  cases hnext : next maxRwCount len bs with
  | none =>
    rw [hnext] at hread
    show u.read len load short = _
    rw [FileUnserialize.read, hread]
    rfl
  | some r =>
    rw [hnext] at hread
    obtain ⟨s, hread, hfine⟩ := hread
    refine ⟨{ u with stream_ := s }, ?_, hfine⟩
    rw [FileUnserialize.read, hread, ok_bind]
    simp [hload r.1 (length_of_next hnext)]

theorem Fine.get (h : u.Fine i content bs) {len : Nat} {load value : List UInt8 → α}
    (hload : ∀ buf : List UInt8, buf.length = len → load buf = value buf) (x : α) :
    Reads i content (u.get len x load) ((next maxRwCount len bs).map (.map value id)) := by
  rw [FileUnserialize.get, h.error_eq, if_neg Bool.false_ne_true]
  exact h.read hload _

theorem Fine.processU32 (h : u.Fine i content bs) (x : UInt32) :
    Reads i content (u.processU32 x) ((nextLength maxRwCount bs).map (.map UInt32.ofNat id)) := by
  have hread := h.get (fun buf hlen => loadU32_eq hlen) x
  rw [nextLength, Option.map_map]
  exact hread

theorem nextLength_bind (bs : List UInt8) (g : Nat × List UInt8 → Option β) :
    ((nextLength maxRwCount bs).map (Prod.map UInt32.ofNat id) >>= fun r => g (r.1.toNat, r.2)) =
      nextLength maxRwCount bs >>= g := by
  cases hnext : nextLength maxRwCount bs with
  | none => rfl
  | some r =>
    have hcount : (UInt32.ofNat r.1).toNat = r.1 :=
      UInt32.toNat_ofNat_of_lt (lt_of_nextLength hnext)
    show g ((UInt32.ofNat r.1).toNat, r.2) = g r
    rw [hcount]

theorem Fine.counted (h : u.Fine i content bs) (x : UInt32)
    {f : FileUnserialize × UInt32 → Except Fault (FileUnserialize × α)} {value : List UInt8 → α}
    (hf : ∀ (u : FileUnserialize) (len : UInt32) (rest : List UInt8), u.Fine i content rest →
      Reads i content (f (u, len))
        ((next maxRwCount len.toNat rest).map (.map value id))) :
    Reads i content (u.processU32 x >>= f)
      ((nextCounted maxRwCount bs).map (.map value id)) := by
  have hdec : (nextCounted maxRwCount bs).map (Prod.map value id) =
      nextLength maxRwCount bs >>= fun r =>
        (next maxRwCount r.1 r.2).map (Prod.map value id) := Option.map_bind
  rw [hdec, ← nextLength_bind]
  exact (h.processU32 x).bind hf

theorem Fine.newLocal (h : u.Fine i content bs) : u.newLocal.2.Fine i content bs :=
  ⟨h.error_eq, h.holds, h.fits, h.offset_le, h.left⟩

theorem Fine.processCarrier (h : u.Fine i content bs) (c : BufferCarrier) :
    Reads i content (u.processCarrier c)
      ((nextCounted maxRwCount bs).map (.map (fun buf => ⟨some buf, buf.length⟩) id)) := by
  apply h.newLocal.counted u.newLocal.1
  intro u len rest hfine
  apply hfine.read
  intro buf hlen
  rw [hlen]
  rfl

theorem Fine.processString (h : u.Fine i content bs) (s : List UInt8) :
    Reads i content (u.processString s) ((nextCounted maxRwCount bs).map (.map id id)) := by
  rw [FileUnserialize.processString, h.error_eq, if_neg Bool.false_ne_true]
  apply h.newLocal.counted u.newLocal.1
  intro u len rest hfine
  dsimp only
  rw [hfine.error_eq, if_neg Bool.false_ne_true]
  exact hfine.read (fun _ _ => rfl) _

/-- Each overload reads as many bytes as its type takes, and loads them. -/
theorem Fine.processFixed (h : u.Fine i content bs) (x : FixedField) :
    Reads i content (u.processFixed x) ((next maxRwCount x.width bs).map (.map x.ofBytes id)) := by
  cases x with
  | u64 x =>
    have hget := (h.get (fun buf hlen => loadU64_eq hlen) x).map FixedField.u64
    rwa [Option.map_map] at hget
  | u32 x =>
    have hget := (h.get (fun buf hlen => loadU32_eq hlen) x).map FixedField.u32
    rwa [Option.map_map] at hget
  | u16 x =>
    have hget := (h.get (fun buf hlen => loadU16_eq hlen) x).map FixedField.u16
    rwa [Option.map_map] at hget
  | u8 x =>
    have hload : ∀ buf : List UInt8, buf.length = 1 → buf.getD 0 0 = buf.headD 0 := by
      intro buf hlen
      obtain ⟨b, rfl⟩ := List.length_eq_one_iff.1 hlen
      rfl
    have hget := (h.get hload x).map FixedField.u8
    rwa [Option.map_map] at hget
  | bool b =>
    have hload : ∀ buf : List UInt8, buf.length = 1 →
        (buf.getD 0 0 != 0) = (buf.headD 0 != 0) := by
      intro buf hlen
      obtain ⟨b, rfl⟩ := List.length_eq_one_iff.1 hlen
      rfl
    have hget := (h.get hload b).map FixedField.bool
    rwa [Option.map_map] at hget
  | buf bp =>
    have hload : ∀ buf : List UInt8, buf.length = bp.bytes.length →
        loadBuf bp buf = ⟨buf.take bp.bytes.length,
          Nat.lt_of_le_of_lt (List.length_take_le ..) bp.fits⟩ := by
      intro buf hlen
      simp [loadBuf, hlen]
    have hread := (h.read hload (loadBuf bp)).map FixedField.buf
    rw [Option.map_map] at hread
    show Reads i content (Prod.map id FixedField.buf <$> u.processBuf bp) _
    rw [processBuf, h.error_eq, if_neg Bool.false_ne_true]
    exact hread

theorem Fine.each {builder : Field} {dec : List UInt8 → Option (Field × List UInt8)}
    (hone : ∀ (u : FileUnserialize) (bs : List UInt8), u.Fine i content bs →
      Reads i content (u.process builder) (dec bs)) (n : Nat) (h : u.Fine i content bs) :
    Reads i content (processEach (fun u => u.process builder) n u) (decodeEach dec n bs) := by
  induction n generalizing u bs with
  | zero => exact ⟨u, rfl, h⟩
  | succ n ih =>
    rw [decodeEach]
    apply (hone u bs h).bind
    intro u e rest hfine
    exact (ih hfine).map (e :: ·)

theorem Fine.processAll_of {p : SerializableObject} (hp : AllFresh p)
    (hone : ∀ f ∈ p, f.Fresh → ∀ (u : FileUnserialize) (bs : List UInt8), u.Fine i content bs →
      Reads i content (u.process f) (decode maxRwCount f bs)) (h : u.Fine i content bs) :
    Reads i content (u.processAll p) (decodeAll maxRwCount p bs) := by
  induction p generalizing u bs with
  | nil => exact ⟨u, by rw [processAll]; rfl, h⟩
  | cons f p ih =>
    rw [decodeAll, processAll]
    apply (hone f List.mem_cons_self hp.1 u bs h).bind
    intro u x rest hfine
    exact (ih hp.2 (fun g hg => hone g (List.mem_cons_of_mem f hg)) hfine).map (x :: ·)

theorem Fine.process (f : Field) (hf : f.Fresh) (u : FileUnserialize) (bs : List UInt8)
    (h : u.Fine i content bs) : Reads i content (u.process f) (decode maxRwCount f bs) := by
  induction f using Field.ind generalizing u bs with
  | fixed x =>
    have hread := (h.processFixed x).map Field.fixed
    rw [Option.map_map] at hread
    rw [FileUnserialize.process, decode]
    exact hread
  | carrier c =>
    have hread := (h.processCarrier c).map Field.carrier
    rw [Option.map_map] at hread
    rw [FileUnserialize.process, decode]
    exact hread
  | terminated c t =>
    have hread := (h.processCarrier c).map (Field.terminated · t)
    rw [Option.map_map] at hread
    rw [FileUnserialize.process, decode]
    exact hread
  | string s =>
    have hread := (h.processString s).map Field.string
    rw [Option.map_map] at hread
    rw [FileUnserialize.process, decode]
    exact hread
  | object fields ih =>
    rw [FileUnserialize.process, decode]
    exact (h.processAll_of hf ih).map Field.object
  | vector builder elems ihb _ =>
    obtain ⟨hb, rfl⟩ := hf
    rw [FileUnserialize.process, decode, ← nextLength_bind]
    apply (h.processU32 _).bind
    intro u sz rest hfine
    have hloop := hfine.each (ihb hb) sz.toNat
    cases hdec : decodeEach (fun bs => decode maxRwCount builder bs) sz.toNat rest with
    | none =>
      rw [hdec] at hloop
      have hfault : processEach (fun u => u.process builder) sz.toNat u = .error .assertFailed :=
        hloop
      dsimp only
      rw [hfault]
      rfl
    | some r =>
      rw [hdec] at hloop
      obtain ⟨u', hrun, hfine'⟩ := hloop
      have hlen : r.1.length = sz.toNat := Unmarshal.length_of_processEach hrun
      refine ⟨u', ?_, hfine'⟩
      dsimp only
      rw [hrun, ok_bind]
      simp [hlen]

theorem Fine.action (h : u.Fine i content bs) {p : SerializableObject} (hp : AllFresh p) :
    match decodeAll maxRwCount p bs with
    | some (p', rest) => ∃ u', u.action p = .ok (0, u', p') ∧ Fine u' i content rest
    | none => u.action p = .error .assertFailed := by
  have hu : ({ u with error_ := false } : FileUnserialize).Fine i content bs :=
    ⟨rfl, h.holds, h.fits, h.offset_le, h.left⟩
  have hread := hu.processAll_of hp fun f _ hf u bs => Fine.process f hf u bs
  rw [FileUnserialize.action]
  cases hdec : decodeAll maxRwCount p bs with
  | none =>
    rw [hdec] at hread
    have hfault : processAll { u with error_ := false } p = .error .assertFailed := hread
    dsimp only
    rw [hfault]
    rfl
  | some r =>
    rw [hdec] at hread
    obtain ⟨u', hrun, hfine⟩ := hread
    refine ⟨u', ?_, hfine⟩
    rw [hrun, ok_bind]
    dsimp only
    rw [hfine.error_eq]
    rfl

end FileUnserialize

namespace FileBackedObject

open StreamFormat

variable {fs : FileSystem String} {obj : FileBackedObject} {i : Nat} {content : List UInt8}

theorem Holds.unserialize (h : Holds fs obj i content) (hfits : content.length < maxOffset)
    {p : SerializableObject} (hp : AllFresh p) (uninitialised : Nat → UInt32) :
    match decodeAll maxRwCount p content with
    | some (p', _) => ∃ fs' obj',
        unserialize fs obj p uninitialised = .ok (0, p', fs', obj') ∧ Holds fs' obj' i content
    | none => unserialize fs obj p uninitialised = .error .assertFailed := by
  have hfine : FileUnserialize.Fine ⟨false, ⟨fs, obj, 0⟩, uninitialised⟩ i content content :=
    ⟨rfl, h, hfits, Nat.zero_le _, List.drop_zero⟩
  have haction := hfine.action hp
  rw [FileBackedObject.unserialize]
  cases hdec : decodeAll maxRwCount p content with
  | none =>
    rw [hdec] at haction
    dsimp only
    rw [haction]
    rfl
  | some r =>
    rw [hdec] at haction
    obtain ⟨u, hrun, hfine'⟩ := haction
    dsimp only
    rw [hrun, ok_bind]
    exact ⟨_, _, rfl, hfine'.holds⟩

end FileBackedObject

/-! ### What is read back -/

namespace StreamFormat

variable {most n : Nat} {bs rest : List UInt8}

theorem short_of_decodeEach {dec : List UInt8 → Option (Field × List UInt8)}
    (hone : ∀ (bs : List UInt8) (r : Field × List UInt8), dec bs = some r → r.1.Short) :
    ∀ {n : Nat} {bs : List UInt8} {r : List Field × List UInt8},
      decodeEach dec n bs = some r → r.1.length = n ∧ AllShort r.1
  | 0, bs, r, h => by
    obtain rfl := Option.some.inj h
    exact ⟨rfl, trivial⟩
  | n + 1, bs, r, h => by
    obtain ⟨x, hx, hrest⟩ := Option.bind_eq_some_iff.1 h
    obtain ⟨q, hq, rfl⟩ := Option.map_eq_some_iff.1 hrest
    obtain ⟨hlen, hshort⟩ := short_of_decodeEach hone hq
    exact ⟨congrArg (· + 1) hlen, hone bs x hx, hshort⟩

theorem short_of_decodeAll {p : SerializableObject}
    (hone : ∀ f ∈ p, ∀ (bs : List UInt8) (r : Field × List UInt8),
      decode most f bs = some r → r.1.Short)
    {r : SerializableObject × List UInt8} (h : decodeAll most p bs = some r) : AllShort r.1 := by
  induction p generalizing bs r with
  | nil =>
    rw [decodeAll] at h
    obtain rfl := Option.some.inj h
    trivial
  | cons f p ih =>
    rw [decodeAll] at h
    obtain ⟨x, hx, hrest⟩ := Option.bind_eq_some_iff.1 h
    obtain ⟨q, hq, rfl⟩ := Option.map_eq_some_iff.1 hrest
    exact ⟨hone f List.mem_cons_self bs x hx,
      ih (fun g hg => hone g (List.mem_cons_of_mem f hg)) hq⟩

theorem short_of_decode (f : Field) (bs : List UInt8) (r : Field × List UInt8)
    (h : decode most f bs = some r) : r.1.Short := by
  induction f using Field.ind generalizing bs r with
  | fixed x =>
    rw [decode] at h
    obtain ⟨q, -, rfl⟩ := Option.map_eq_some_iff.1 h
    trivial
  | carrier c =>
    rw [decode] at h
    obtain ⟨q, hq, rfl⟩ := Option.map_eq_some_iff.1 h
    exact length_lt_of_nextCounted hq
  | terminated c t =>
    rw [decode] at h
    obtain ⟨q, hq, rfl⟩ := Option.map_eq_some_iff.1 h
    exact length_lt_of_nextCounted hq
  | string s =>
    rw [decode] at h
    obtain ⟨q, hq, rfl⟩ := Option.map_eq_some_iff.1 h
    exact length_lt_of_nextCounted hq
  | object fields ih =>
    rw [decode] at h
    obtain ⟨q, hq, rfl⟩ := Option.map_eq_some_iff.1 h
    exact short_of_decodeAll ih hq
  | vector builder elems ihb _ =>
    rw [decode] at h
    obtain ⟨x, hx, hrest⟩ := Option.bind_eq_some_iff.1 h
    obtain ⟨q, hq, rfl⟩ := Option.map_eq_some_iff.1 hrest
    obtain ⟨hlen, hshort⟩ := short_of_decodeEach ihb hq
    exact ⟨hlen ▸ lt_of_nextLength hx, hshort⟩

mutual

/-- What is written of a field at a time. -/
def pieces : Field → List (List UInt8)
  | .fixed x => [x.bytes]
  | .carrier c => [BigEndian.bytes 4 c.len_, (c.buf_.getD []).take c.len_]
  | .terminated c _ => [BigEndian.bytes 4 c.len_, (c.buf_.getD []).take c.len_]
  | .string s => [BigEndian.bytes 4 s.length, s]
  | .object fields => piecesAll fields
  | .vector _ elems => BigEndian.bytes 4 elems.length :: piecesAll elems

def piecesAll : SerializableObject → List (List UInt8)
  | [] => []
  | f :: o => pieces f ++ piecesAll o

end

/-- Nothing is written that a read or a write does not take at a time. -/
def Pieced (most : Nat) (ps : List (List UInt8)) : Prop := ∀ piece ∈ ps, piece.length ≤ most

/-- A field is read as what was written for it. -/
def ReadsBack (most : Nat) (f : Field) : Prop :=
  ∀ (g : Field) (rest : List UInt8), f.SameType g → Pieced most (pieces f) →
    ∃ g', decode most g (encode f ++ rest) = some (g', rest) ∧ f.Same g'

theorem readsBackAll_of {o p : SerializableObject} (h : ∀ f ∈ o, ReadsBack most f)
    (hop : AllSameType o p) (hpieces : Pieced most (piecesAll o)) (rest : List UInt8) :
    ∃ p', decodeAll most p (encodeAll o ++ rest) = some (p', rest) ∧ AllSame o p' := by
  induction o generalizing p with
  | nil =>
    obtain rfl : p = [] := hop
    exact ⟨[], by rw [decodeAll]; rfl, rfl⟩
  | cons f o ih =>
    obtain ⟨g, p, rfl, hfg, hop⟩ := hop
    have hhead : Pieced most (pieces f) := fun q hq => hpieces q (List.mem_append_left _ hq)
    have htail : Pieced most (piecesAll o) := fun q hq => hpieces q (List.mem_append_right _ hq)
    obtain ⟨g', hread, hsame⟩ := h f List.mem_cons_self g (encodeAll o ++ rest) hfg hhead
    obtain ⟨p', hreads, hsames⟩ :=
      ih (fun f' hf' => h f' (List.mem_cons_of_mem f hf')) hop htail
    refine ⟨g' :: p', ?_, allSame_cons.2 ⟨hsame, hsames⟩⟩
    rw [encodeAll, List.append_assoc, decodeAll, hread]
    show (decodeAll most p (encodeAll o ++ rest)).map _ = _
    rw [hreads]
    rfl

theorem readsBackEach {elems : List Field} {builder : Field} (h : ∀ e ∈ elems, ReadsBack most e)
    (htype : EachSameType elems builder) (hpieces : Pieced most (piecesAll elems))
    (rest : List UInt8) :
    ∃ es, decodeEach (fun bs => decode most builder bs) elems.length (encodeAll elems ++ rest) =
      some (es, rest) ∧ AllSame elems es := by
  induction elems with
  | nil => exact ⟨[], rfl, rfl⟩
  | cons e elems ih =>
    have hhead : Pieced most (pieces e) := fun q hq => hpieces q (List.mem_append_left _ hq)
    have htail : Pieced most (piecesAll elems) :=
      fun q hq => hpieces q (List.mem_append_right _ hq)
    obtain ⟨e', hread, hsame⟩ :=
      h e List.mem_cons_self builder (encodeAll elems ++ rest) htype.1 hhead
    obtain ⟨es, hreads, hsames⟩ :=
      ih (fun e' he' => h e' (List.mem_cons_of_mem e he')) htype.2 htail
    refine ⟨e' :: es, ?_, allSame_cons.2 ⟨hsame, hsames⟩⟩
    rw [encodeAll, List.append_assoc, List.length_cons, decodeEach, hread]
    show (decodeEach _ elems.length (encodeAll elems ++ rest)).map _ = _
    rw [hreads]
    rfl

theorem nextCounted_carrier {c : BufferCarrier} {data : List UInt8}
    (hdata : readBytes c.buf_ c.len_ = .ok data) (hshort : c.len_ < 2 ^ 32) (hmost : 4 ≤ most)
    (hpieces : Pieced most (pieces (.carrier c))) (rest : List UInt8) :
    nextCounted most (encode (.carrier c) ++ rest) = some (data, rest) := by
  have hbytes := bytes_of_readBytes hdata
  have hlen := length_of_readBytes hdata
  have hfits : c.len_ ≤ most := by
    have hpiece := hpieces ((c.buf_.getD []).take c.len_) (by simp [pieces])
    rwa [hbytes, hlen] at hpiece
  rw [encode, hbytes, List.append_assoc]
  exact nextCounted_append hlen hshort hmost hfits

theorem readsBack (hmost : 4 ≤ most) (f : Field) (hf : f.Sendable) (hshort : f.Short) :
    ReadsBack most f := by
  induction f using Field.ind with
  | fixed x =>
    rintro g rest ⟨y, rfl, hxy⟩ hpieces
    have hlen : x.bytes.length = y.width := by
      rw [FixedField.length_bytes, hxy.width_eq]
    have hfits : y.width ≤ most := hlen ▸ hpieces x.bytes (by simp [pieces])
    refine ⟨.fixed x, ?_, rfl⟩
    rw [decode, encode, next_append hlen hfits, ← hxy.ofBytes_eq, Option.map_some, Prod.map,
      FixedField.ofBytes_bytes]
    rfl
  | carrier c =>
    rintro g rest ⟨d, rfl⟩ hpieces
    obtain ⟨data, hdata⟩ := hf
    refine ⟨.carrier ⟨some data, data.length⟩, ?_, _, rfl, ?_, ?_⟩
    · rw [decode, nextCounted_carrier hdata hshort hmost hpieces]
      rfl
    · exact (length_of_readBytes hdata).symm
    · rw [hdata, readBytes_self]
  | terminated c t =>
    rintro g rest ⟨d, rfl⟩ hpieces
    obtain ⟨data, mem, hbuf, ht, hlen⟩ := hf
    have hdata := StreamSerialize.readBytes_terminated hbuf hlen
    refine ⟨.terminated ⟨some (data ++ [t]), (data ++ [t]).length⟩ t, ?_, _, rfl, ?_, ?_⟩
    · have hbytes : encode (.terminated c t) = encode (.carrier c) := by rw [encode, encode]
      rw [decode, hbytes, nextCounted_carrier hdata hshort hmost hpieces]
      rfl
    · exact (length_of_readBytes hdata).symm
    · -- nothing that follows the terminator counts
      rw [hbuf]
      simp [throughTerminator_append ht]
  | string s =>
    rintro g rest ⟨s', rfl⟩ hpieces
    have hfits : s.length ≤ most := hpieces s (by simp [pieces])
    refine ⟨.string s, ?_, rfl⟩
    rw [decode, encode, List.append_assoc, nextCounted_append rfl hshort hmost hfits]
    rfl
  | object fields ih =>
    rintro g rest ⟨p, rfl, hop⟩ hpieces
    have hmem : ∀ f ∈ fields, ReadsBack most f := fun f hf' =>
      ih f hf' (AllSendable.mem hf f hf') (AllShort.mem hshort f hf')
    rw [pieces] at hpieces
    obtain ⟨p', hread, hsame⟩ := readsBackAll_of hmem hop hpieces rest
    refine ⟨.object p', ?_, p', rfl, hsame⟩
    rw [decode, encode, hread]
    rfl
  | vector builder elems _ ih =>
    rintro g rest ⟨builder', elems', rfl, htype⟩ hpieces
    have hmem : ∀ e ∈ elems, ReadsBack most e := fun e he =>
      ih e he (AllSendable.mem hf e he) (AllShort.mem hshort.2 e he)
    rw [pieces] at hpieces
    have htail : Pieced most (piecesAll elems) :=
      fun q hq => hpieces q (List.mem_cons_of_mem _ hq)
    obtain ⟨es, hread, hsame⟩ := readsBackEach hmem htype htail rest
    refine ⟨.vector builder' es, ?_, builder', es, rfl, hsame⟩
    rw [decode, encode, List.append_assoc, nextLength_append hshort.1 hmost]
    show (decodeEach _ elems.length (encodeAll elems ++ rest)).map _ = _
    rw [hread]
    rfl

end StreamFormat

/-! ### What is written -/

namespace StreamSerialize

open StreamFormat

theorem handed_of_goes {call : StreamSerialize → Except Fault StreamSerialize} {bs : List UInt8}
    (h : ∃ a, call (new ⟨[], fun _ => none⟩) = .ok a ∧ (new ⟨[], fun _ => none⟩).Goes a bs) :
    handed call = .ok bs := by
  obtain ⟨a, hcall, hgoes⟩ := h
  obtain ⟨-, hdata⟩ := hgoes.fine ⟨rfl, fun _ => rfl⟩
  rw [handed, hcall, ok_bind, hdata]
  rfl

theorem handed_length (n : Nat) :
    handed (fun a => a.processU32 (.ofNat n)) = .ok (BigEndian.bytes 4 n) :=
  handed_of_goes (processU32_goes _ n)

theorem carrierBuffers_eq {c : BufferCarrier} {data : List UInt8}
    (hdata : readBytes c.buf_ c.len_ = .ok data) (hshort : c.len_ < 2 ^ 32) :
    carrierBuffers c = .ok (pieces (.carrier c)) := by
  have hcount : (UInt32.ofNat c.len_).toNat = c.len_ := UInt32.toNat_ofNat_of_lt hshort
  have hbuf : handed (fun a => a.processBuf c.buf_ (.ofNat c.len_)) = .ok data := by
    have hput : (fun a : StreamSerialize => a.processBuf c.buf_ (.ofNat c.len_)) =
        fun a => a.put (.ok data) := by
      funext a
      rw [processBuf, hcount, hdata]
    rw [hput, handed_put]
  rw [pieces, bytes_of_readBytes hdata, carrierBuffers, handed_length, ok_bind, hbuf]
  rfl

theorem stringBuffers_eq {s : List UInt8} (hshort : s.length < 2 ^ 32) :
    stringBuffers s = .ok (pieces (.string s)) := by
  have hcount : (UInt32.ofNat s.length).toNat = s.length := UInt32.toNat_ofNat_of_lt hshort
  rw [pieces, stringBuffers, handed_length, ok_bind, hcount, readBytes_self]
  rfl

theorem terminatedBuffers_eq {c : BufferCarrier} {t : UInt8}
    (h : (Field.terminated c t).Sendable) (hshort : c.len_ < 2 ^ 32) :
    terminatedBuffers c t = .ok (pieces (.terminated c t), c) := by
  obtain ⟨data, mem, hbuf, ht, hlen⟩ := h
  have hset := setLen_terminated hlen hshort
  have hbuffers := carrierBuffers_eq (readBytes_terminated hbuf hlen) hshort
  unfold terminatedBuffers
  rw [hbuf]
  dsimp only
  rw [Marshal.findTerminator_append ht, ok_bind, if_neg (by omega), hset, hbuffers]
  rfl

theorem buffersAll_of {o : SerializableObject}
    (h : ∀ f ∈ o, buffers f = .ok (pieces f, f)) : buffersAll o = .ok (piecesAll o, o) := by
  induction o with
  | nil => rfl
  | cons f o ih =>
    rw [buffersAll, h f List.mem_cons_self, ok_bind]
    dsimp only
    rw [ih fun g hg => h g (List.mem_cons_of_mem f hg)]
    rfl

theorem buffers_eq (f : Field) (hf : f.Sendable) (hshort : f.Short) :
    buffers f = .ok (pieces f, f) := by
  induction f using Field.ind with
  | fixed x =>
    rw [buffers, handed_of_goes ((new ⟨[], fun _ => none⟩).processFixed_goes x), ok_bind, pieces]
    rfl
  | carrier c =>
    obtain ⟨data, hdata⟩ := hf
    rw [buffers, carrierBuffers_eq hdata hshort]
    rfl
  | terminated c t =>
    rw [buffers, terminatedBuffers_eq hf hshort]
    rfl
  | string s =>
    rw [buffers, stringBuffers_eq hshort]
    rfl
  | object fields ih =>
    have hmem := buffersAll_of fun f hf' =>
      ih f hf' (AllSendable.mem hf f hf') (AllShort.mem hshort f hf')
    rw [buffers, hmem, pieces]
    rfl
  | vector builder elems _ ih =>
    have hmem := buffersAll_of fun e he =>
      ih e he (AllSendable.mem hf e he) (AllShort.mem hshort.2 e he)
    rw [buffers, handed_length, ok_bind, hmem, pieces]
    rfl

end StreamSerialize

namespace StreamFormat

theorem flatten_pieces (f : Field) : (pieces f).flatten = encode f := by
  have hall : ∀ o : SerializableObject, (∀ f ∈ o, (pieces f).flatten = encode f) →
      (piecesAll o).flatten = encodeAll o := by
    intro o h
    induction o with
    | nil => rfl
    | cons f o ih =>
      rw [piecesAll, List.flatten_append, h f List.mem_cons_self,
        ih fun g hg => h g (List.mem_cons_of_mem f hg)]
      rfl
  induction f using Field.ind with
  | fixed x => simp [pieces, encode]
  | carrier c => simp [pieces, encode]
  | terminated c t => simp [pieces, encode]
  | string s => simp [pieces, encode]
  | object fields ih =>
    rw [pieces, encode]
    exact hall fields ih
  | vector builder elems _ ih =>
    rw [pieces, encode, List.flatten_cons, hall elems ih]

end StreamFormat

namespace FileBackedObject

open StreamFormat

section RoundTrip

variable {fs fs' : FileSystem String} {obj obj' : FileBackedObject} {i : Nat}
  {content : List UInt8} {o p : SerializableObject} {uninitialised : Nat → UInt32}

theorem length_le_of_stream {bufs : List (List UInt8)} {s s' : FileBackedObjectOutStream}
    (h : bufs.foldlM FileBackedObjectOutStream.write s = .ok s') : Pieced maxRwCount bufs := by
  induction bufs generalizing s with
  | nil => exact nofun
  | cons buf bufs ih =>
    rw [List.foldlM_cons] at h
    obtain ⟨s₁, hwrite, hrest⟩ := bind_eq_ok.1 h
    obtain ⟨_, hbytes, -⟩ := bind_eq_ok.1 hwrite
    obtain ⟨_, -, hbytes⟩ := bind_eq_ok.1 hbytes
    obtain ⟨_, -, hbytes⟩ := bind_eq_ok.1 hbytes
    obtain ⟨hle, -⟩ := assert_bind_eq_ok.1 hbytes
    intro piece hpiece
    obtain rfl | hpiece := List.mem_cons.1 hpiece
    · exact of_decide_eq_true hle
    · exact ih hrest piece hpiece

theorem buffers_of_serialize {offset : Int}
    {res : Int × SerializableObject × FileSystem String × FileBackedObject}
    (hrun : serialize fs obj o offset = .ok res) :
    ∃ bufs o', StreamSerialize.buffersAll o = .ok (bufs, o') ∧ Pieced maxRwCount bufs := by
  obtain ⟨_, -, hrest⟩ := bind_eq_ok.1 hrun
  obtain ⟨_, -, hrest⟩ := bind_eq_ok.1 hrest
  obtain ⟨_, -, hrest⟩ := bind_eq_ok.1 hrest
  obtain ⟨_, -, hrest⟩ := bind_eq_ok.1 hrest
  obtain ⟨⟨bufs, o'⟩, hbufs, hrest⟩ := bind_eq_ok.1 hrest
  obtain ⟨_, hstream, -⟩ := bind_eq_ok.1 hrest
  exact ⟨bufs, o', hbufs, length_le_of_stream hstream⟩

theorem Holds.serialize_empty (h : Holds fs obj i []) {o' : SerializableObject}
    {bufs : List (List UInt8)} (hbufs : StreamSerialize.buffersAll o = .ok (bufs, o'))
    (hlength : Pieced maxRwCount bufs) (hfits : bufs.flatten.length < maxOffset) :
    ∃ fs' obj', FileBackedObject.serialize fs obj o 0 = .ok (0, o', fs', obj') ∧
      Holds fs' obj' i bufs.flatten := by
  have hend : (([] : List UInt8).length : Int) + 0 + (bufs.flatten.length : Int) <
      (maxOffset : Int) := by
    rw [List.length_nil]
    omega
  obtain ⟨fs', obj', hrun, hholds⟩ := h.serialize hbufs hlength
    (by simp : (0 : Int) ≤ (([] : List UInt8).length : Int) + 0) hend
  have hwritten : FileSystem.writeAt [] 0 bufs.flatten = bufs.flatten := by
    by_cases hempty : bufs.flatten = [] <;> simp [FileSystem.writeAt, hempty]
  refine ⟨fs', obj', hrun, ?_⟩
  rw [← hwritten]
  exact hholds

/-- What is written of an object is no longer than a file can be. -/
def FitsFile (o : SerializableObject) : Prop :=
  ∀ bufs o', StreamSerialize.buffersAll o = .ok (bufs, o') → bufs.flatten.length < maxOffset

/-- `serialize` and then `unserialize` return 0, and recover every field. -/
def Recovers (fs : FileSystem String) (obj : FileBackedObject) (uninitialised : Nat → UInt32)
    (o p : SerializableObject) : Prop :=
  ∃ fs₁ obj₁ p' fs₂ obj₂, serialize fs obj o 0 = .ok (0, o, fs₁, obj₁) ∧
    unserialize fs₁ obj₁ p uninitialised = .ok (0, p', fs₂, obj₂) ∧ AllSame o p'

/-- The lengths have 32 bits, and nothing is longer than what a read or a write takes. -/
def Transferable (o : SerializableObject) : Prop :=
  AllShort o ∧ Pieced maxRwCount (piecesAll o)

/-- An object is recovered from an empty file exactly if its parts are short enough. -/
theorem recovers_iff_transferable (h : Holds fs obj i []) (uninitialised : Nat → UInt32)
    (ho : AllSendable o) (hop : AllSameType o p) (hp : AllFresh p) (hfits : FitsFile o) :
    Recovers fs obj uninitialised o p ↔ Transferable o := by
  have hmost : 4 ≤ maxRwCount := by decide
  have hbuffers : AllShort o → StreamSerialize.buffersAll o = .ok (piecesAll o, o) := fun hshort =>
    StreamSerialize.buffersAll_of fun f hf =>
      StreamSerialize.buffers_eq f (ho.mem f hf) (hshort.mem f hf)
  constructor
  · rintro ⟨fs₁, obj₁, p', fs₂, obj₂, hserialize, hunserialize, hsame⟩
    obtain ⟨bufs, o', hbufs, hlength⟩ := buffers_of_serialize hserialize
    obtain ⟨fs₁', obj₁', hrun, hholds⟩ := h.serialize_empty hbufs hlength (hfits bufs o' hbufs)
    rw [hserialize] at hrun
    obtain ⟨rfl, rfl⟩ := Prod.mk.inj (Prod.mk.inj (Prod.mk.inj (Except.ok.inj hrun)).2).2
    have hread := hholds.unserialize (hfits bufs o' hbufs) hp uninitialised
    cases hdec : decodeAll maxRwCount p bufs.flatten with
    | none =>
      rw [hdec] at hread
      have hfault : unserialize fs₁ obj₁ p uninitialised = .error .assertFailed := hread
      rw [hunserialize] at hfault
      cases hfault
    | some r =>
      rw [hdec] at hread
      obtain ⟨_, _, hrun', -⟩ := hread
      rw [hunserialize] at hrun'
      obtain ⟨rfl, -⟩ := Prod.mk.inj (Prod.mk.inj (Except.ok.inj hrun')).2
      -- what is read has lengths of 32 bits, and so has what is equal to it
      have hshort : AllShort o :=
        Field.Short.of_same (.object o) (.object r.1) ⟨r.1, rfl, hsame⟩
          (short_of_decodeAll (fun f _ => short_of_decode f) hdec)
      rw [hbuffers hshort] at hbufs
      obtain ⟨rfl, -⟩ := Prod.mk.inj (Except.ok.inj hbufs)
      exact ⟨hshort, hlength⟩
  · rintro ⟨hshort, hlength⟩
    have hbufs := hbuffers hshort
    have hbytes : (piecesAll o).flatten = encodeAll o := by
      have hobject := flatten_pieces (.object o)
      rwa [pieces, encode] at hobject
    obtain ⟨fs₁, obj₁, hserialize, hholds⟩ := h.serialize_empty hbufs hlength (hfits _ o hbufs)
    have hback : ∀ f ∈ o, ReadsBack maxRwCount f := fun f hf =>
      readsBack hmost f (ho.mem f hf) (hshort.mem f hf)
    obtain ⟨p', hdec, hsame⟩ := readsBackAll_of hback hop hlength []
    have hread := hholds.unserialize (hfits _ o hbufs) hp uninitialised
    rw [List.append_nil] at hdec
    rw [hbytes, hdec] at hread
    obtain ⟨fs₂, obj₂, hunserialize, -⟩ := hread
    exact ⟨fs₁, obj₁, p', fs₂, obj₂, hserialize, hunserialize, hsame⟩

/-- `unserialize` reports that the bytes have run out. -/
def ReportsEnd (fs : FileSystem String) (obj : FileBackedObject) (uninitialised : Nat → UInt32)
    (p : SerializableObject) (content : List UInt8) : Prop :=
  RunsOut p content → ∃ ret p' fs' obj',
    unserialize fs obj p uninitialised = .ok (ret, p', fs', obj') ∧ ret ≠ 0

theorem unserialize_of_runsOut (h : Holds fs obj i content) (hfits : content.length < maxOffset)
    (hp : AllFresh p) (hout : RunsOut p content) :
    unserialize fs obj p uninitialised = .error .assertFailed := by
  have hread := h.unserialize hfits hp uninitialised
  rwa [hout maxRwCount] at hread

end RoundTrip

/-- An object is recovered from an empty file exactly if its parts are short enough, and the end
    of the bytes is reported of no file in which they run out. -/
theorem unserialize_correct_iff (uninitialised : Nat → UInt32) {p : SerializableObject}
    (hp : AllFresh p) :
    (∀ fs obj i o, Holds fs obj i [] → AllSendable o → AllSameType o p → FitsFile o →
      (Recovers fs obj uninitialised o p ↔ Transferable o)) ∧
    ∀ fs obj i content, Holds fs obj i content → content.length < maxOffset →
      (ReportsEnd fs obj uninitialised p content ↔ ¬ RunsOut p content) := by
  constructor
  · intro fs obj i o h ho hop hfits
    exact recovers_iff_transferable h uninitialised ho hop hp hfits
  · intro fs obj i content h hfits
    constructor
    · intro hreports hout
      obtain ⟨ret, p', fs', obj', hrun, -⟩ := hreports hout
      rw [unserialize_of_runsOut h hfits hp hout] at hrun
      cases hrun
    · exact fun hnot hout => absurd hout hnot

theorem holds_new (filename : String) (bytes : List UInt8) :
    Holds (directory filename bytes) (.new filename 0) 0 bytes :=
  ⟨⟨rfl, AList.lookup_insert _, nofun⟩, rfl, nofun⟩

/-- A number and a string, and then the file of the number alone. -/
theorem unserialize_correct_iff_record :
    Recovers (directory "a" []) (.new "a" 0) (fun _ => 0) [.fixed (.u8 7), .string [1, 2]]
      [.fixed (.u8 0), .string []] ∧
    ReportsEnd (directory "a" [7, 0, 0, 0, 0]) (.new "a" 0) (fun _ => 0)
      [.fixed (.u8 0), .string []] [7, 0, 0, 0, 0] := by
  have hfits : FitsFile [.fixed (.u8 7), .string [1, 2]] := by
    intro bufs o' hbufs
    obtain ⟨rfl, rfl⟩ := Prod.mk.inj (Except.ok.inj hbufs)
    exact Nat.le_of_ble_eq_true rfl
  have hpieces : Pieced maxRwCount (piecesAll [.fixed (.u8 7), .string [1, 2]]) := by
    simp [Pieced, piecesAll, pieces, FixedField.bytes, maxRwCount]
  have hcorrect := unserialize_correct_iff (fun _ => 0)
    (by simp [AllFresh, Field.Fresh] : AllFresh [.fixed (.u8 0), .string []])
  constructor
  · apply (hcorrect.1 _ _ 0 _ (holds_new "a" []) (by simp [AllSendable, Field.Sendable])
      (by simp [AllSameType, Field.SameType, FixedField.SameType]) hfits).2
    exact ⟨by simp [AllShort, Field.Short], hpieces⟩
  · apply (hcorrect.2 _ _ 0 _ (holds_new "a" [7, 0, 0, 0, 0]) (by decide)).2
    intro hout
    cases hout 4

/-- A file that ends within a number: an assertion fails. -/
theorem not_reportsEnd_short :
    ¬ ReportsEnd (directory "a" [0, 0, 7]) (.new "a" 0) (fun _ => 0) [.fixed (.u32 0)]
      [0, 0, 7] := by
  intro hreports
  have hout : RunsOut [.fixed (.u32 0)] [0, 0, 7] := by
    intro most
    simp [decodeAll, decode, next, FixedField.width]
  obtain ⟨ret, p', fs', obj', hrun, -⟩ := hreports hout
  rw [unserialize_of_runsOut (holds_new "a" [0, 0, 7]) (by decide)
    (by simp [AllFresh, Field.Fresh]) hout] at hrun
  cases hrun

end FileBackedObject

end Oasys
