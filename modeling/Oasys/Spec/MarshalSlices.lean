import Oasys.Spec.WireRoundTrip

/-!
# Marshal puts slices

If the memory behind its carriers can be read, every `process` of `Marshal` is a sequence
of `put`s, of slices that depend on the field alone (`process_eq`). What a run does to the
buffer is then a matter of lists of slices.
-/

namespace Oasys

open Wire (expect expectAll encode encodeAll)

/-! ### Carriers that can be read -/

mutual

/-- The memory behind the carriers is there, as far as `Marshal` reads it. -/
def Field.Readable : Field → Prop
  | .fixed _ => True
  | .carrier c => ∃ data, readBytes c.buf_ (c.len_ % 2 ^ 32) = .ok data
  | .terminated c t => ∃ mem, c.buf_ = some mem ∧ t ∈ mem
  | .string _ => True
  | .object fields => AllReadable fields
  | .vector _ elems => AllReadable elems

def AllReadable : SerializableObject → Prop
  | [] => True
  | f :: o => Field.Readable f ∧ AllReadable o

end

private theorem AllFit.readable_of {o : SerializableObject} (h : ∀ f ∈ o, f.Fits → f.Readable)
    (ho : AllFit o) : AllReadable o := by
  induction o with
  | nil => trivial
  | cons f o ih => exact ⟨h f (by simp) ho.1, ih (fun g hg => h g (by simp [hg])) ho.2⟩

theorem Field.Fits.readable (f : Field) (hf : f.Fits) : f.Readable := by
  induction f using Field.ind with
  | fixed x => trivial
  | carrier c =>
    obtain ⟨hlen, data, hdata⟩ := hf
    exact ⟨data, by rw [Nat.mod_eq_of_lt hlen, hdata]⟩
  | terminated c t =>
    obtain ⟨data, mem, hbuf, _, _⟩ := hf
    exact ⟨_, hbuf, by simp⟩
  | string str => trivial
  | object fields ih => exact AllFit.readable_of ih hf
  | vector builder elems _ ih => exact AllFit.readable_of ih hf.2

theorem AllFit.readable {o : SerializableObject} (ho : AllFit o) : AllReadable o :=
  readable_of (fun f _ => Field.Fits.readable f) ho

/-! ### What is left of a field -/

/-- `g` is a field that `Marshal` leaves of `f`: carriers with a terminator report the
    length that was found. -/
structure Field.Settles (f g : Field) : Prop where
  closed : g.Closed
  expect_eq : expect g = expect f
  sameType_iff : ∀ t, g.SameType t ↔ f.SameType t
  eq_of_fits : f.Fits → g = f

/-- `o'` is an object that `Marshal` leaves of `o`. -/
structure AllSettle (o o' : SerializableObject) : Prop where
  closed : AllClosed o'
  length_eq : o'.length = o.length
  expectAll_eq : expectAll o' = expectAll o
  allSameType_iff : ∀ p, AllSameType o' p ↔ AllSameType o p
  eachSameType_iff : ∀ t, EachSameType o' t ↔ EachSameType o t
  eq_of_fit : AllFit o → o' = o

theorem Field.Settles.refl {f : Field} (hf : f.Closed) : f.Settles f :=
  ⟨hf, rfl, fun _ => Iff.rfl, fun _ => rfl⟩

theorem Field.Settles.terminated {c : BufferCarrier} {t : UInt8} {mem : List UInt8}
    (hbuf : c.buf_ = some mem) :
    (Field.terminated c t).Settles (.terminated (c.setLen (throughTerminator t mem).length) t) where
  closed := ⟨mem, hbuf, rfl⟩
  expect_eq := rfl
  sameType_iff _ := Iff.rfl
  eq_of_fits hf := by
    obtain ⟨data, mem', hbuf', ht, hlen⟩ := hf
    obtain rfl : mem = data ++ t :: mem' := Option.some.inj (hbuf.symm.trans hbuf')
    rw [throughTerminator_append ht, List.length_append, List.length_singleton, ← hlen]
    rfl

theorem AllSettle.nil : AllSettle [] [] :=
  ⟨trivial, rfl, rfl, fun _ => Iff.rfl, fun _ => Iff.rfl, fun _ => rfl⟩

theorem AllSettle.cons {f g : Field} {o o' : SerializableObject} (hf : f.Settles g)
    (ho : AllSettle o o') : AllSettle (f :: o) (g :: o') where
  closed := ⟨hf.closed, ho.closed⟩
  length_eq := by rw [List.length_cons, List.length_cons, ho.length_eq]
  expectAll_eq := by
    funext bs
    rw [expectAll, expectAll, hf.expect_eq, ho.expectAll_eq]
  allSameType_iff p := by simp only [AllSameType, hf.sameType_iff, ho.allSameType_iff]
  eachSameType_iff t := by simp only [EachSameType, hf.sameType_iff, ho.eachSameType_iff]
  eq_of_fit h := by rw [hf.eq_of_fits h.1, ho.eq_of_fit h.2]

namespace AllSettle

variable {o o' : SerializableObject}

theorem object (h : AllSettle o o') : (Field.object o).Settles (.object o') where
  closed := h.closed
  expect_eq := by
    funext bs
    rw [expect, expect, h.expectAll_eq]
  sameType_iff t := by simp only [Field.SameType, h.allSameType_iff]
  eq_of_fits hf := by rw [h.eq_of_fit hf]

theorem vector (h : AllSettle o o') (builder : Field) :
    (Field.vector builder o).Settles (.vector builder o') where
  closed := h.closed
  expect_eq := by
    funext bs
    rw [expect, expect, h.length_eq, h.expectAll_eq]
  sameType_iff t := by simp only [Field.SameType, h.eachSameType_iff]
  eq_of_fits hf := by rw [h.eq_of_fit hf.2]

end AllSettle

/-! ### Slices -/

namespace Wire

mutual

/-- The slices of the buffer that a field is written to, each with what is written. -/
def slices : Field → List (List UInt8)
  | .fixed x => [x.bytes]
  | .carrier c => [BigEndian.bytes 4 c.len_, (c.buf_.getD []).take (c.len_ % 2 ^ 32)]
  | .terminated c t =>
    let data := throughTerminator t (c.buf_.getD [])
    [data.take (data.length % 2 ^ 32)]
  | .string str => [BigEndian.bytes 4 str.length, str.take (str.length % 2 ^ 32)]
  | .object fields => allSlices fields
  | .vector _ elems => BigEndian.bytes 4 elems.length :: allSlices elems

def allSlices : SerializableObject → List (List UInt8)
  | [] => []
  | f :: o => slices f ++ allSlices o

end

private theorem flatten_allSlices_of {o : SerializableObject}
    (h : ∀ f ∈ o, (slices f).flatten = encode f) : (allSlices o).flatten = encodeAll o := by
  induction o with
  | nil => rfl
  | cons f o ih =>
    rw [allSlices, List.flatten_append, h f (by simp), ih fun g hg => h g (by simp [hg])]
    rfl

@[simp] theorem flatten_slices (f : Field) : (slices f).flatten = encode f := by
  induction f using Field.ind with
  | fixed x => simp [slices, encode]
  | carrier c => simp [slices, encode]
  | terminated c t => simp [slices, encode]
  | string str => simp [slices, encode]
  | object fields ih => exact flatten_allSlices_of ih
  | vector builder elems _ ih => rw [slices, encode, List.flatten_cons, flatten_allSlices_of ih]

@[simp] theorem flatten_allSlices (o : SerializableObject) :
    (allSlices o).flatten = encodeAll o :=
  flatten_allSlices_of fun f _ => flatten_slices f

end Wire

open Wire (slices allSlices)

namespace Marshal

variable {m : Marshal}

def putAll (m : Marshal) (ss : List (List UInt8)) : Except Fault Marshal :=
  ss.foldlM (fun m bs => m.put bs.length (.ok bs)) m

@[simp] theorem putAll_nil (m : Marshal) : m.putAll [] = .ok m := rfl

@[simp] theorem putAll_cons (m : Marshal) (bs : List UInt8) (ss : List (List UInt8)) :
    m.putAll (bs :: ss) = m.put bs.length (.ok bs) >>= fun m => m.putAll ss := rfl

theorem putAll_append (m : Marshal) (ss ss' : List (List UInt8)) :
    m.putAll (ss ++ ss') = m.putAll ss >>= fun m => m.putAll ss' := by
  unfold putAll
  rw [List.foldlM_append]

theorem putAll_singleton (m : Marshal) (bs : List UInt8) :
    m.putAll [bs] = m.put bs.length (.ok bs) := by
  rw [putAll_cons]
  cases m.put bs.length (.ok bs) <;> rfl

theorem processU32_eq (m : Marshal) (n : Nat) :
    m.processU32 (.ofNat n) = m.putAll [BigEndian.bytes 4 n] := by
  have hmod : BigEndian.bytes 4 (n % 2 ^ 32) = BigEndian.bytes 4 n := BigEndian.bytes_mod 4 n
  rw [putAll_singleton, processU32, BigEndian.bytes_word32, UInt32.toNat_ofNat', hmod,
    BigEndian.length_bytes]

theorem processBuf_eq (m : Marshal) {bp : Option (List UInt8)} {len : Nat} {data : List UInt8}
    (hdata : readBytes bp (len % 2 ^ 32) = .ok data) :
    m.processBuf bp (.ofNat len) = m.putAll [(bp.getD []).take (len % 2 ^ 32)] := by
  rw [putAll_singleton, processBuf, UInt32.toNat_ofNat', hdata, bytes_of_readBytes hdata,
    length_of_readBytes hdata]

theorem processFixed_eq (m : Marshal) (x : FixedField) : m.processFixed x = m.putAll [x.bytes] := by
  rw [putAll_singleton]
  cases x with
  | u64 i => rw [processFixed, processU64, BigEndian.bytes_word64, FixedField.length_bytes]; rfl
  | u32 i => rw [processFixed, processU32, BigEndian.bytes_word32, FixedField.length_bytes]; rfl
  | u16 i => rw [processFixed, processU16, BigEndian.bytes_word16, FixedField.length_bytes]; rfl
  | u8 i => rfl
  | bool b => rfl
  | buf bp =>
    have hlen : (UInt32.ofNat bp.bytes.length).toNat = bp.bytes.length :=
      UInt32.toNat_ofNat_of_lt' bp.fits
    rw [processFixed, processBuf, hlen]
    simp [readBytes, FixedField.bytes]

private theorem prefixed_eq (m : Marshal) {n : Nat} {bp : Option (List UInt8)} {data : List UInt8}
    (hdata : readBytes bp (n % 2 ^ 32) = .ok data) :
    (m.processU32 (.ofNat n) >>= fun m => m.processBuf bp (.ofNat n)) =
      m.putAll [BigEndian.bytes 4 n, (bp.getD []).take (n % 2 ^ 32)] := by
  have hsplit : m.putAll [BigEndian.bytes 4 n, (bp.getD []).take (n % 2 ^ 32)] =
      m.putAll [BigEndian.bytes 4 n] >>= fun m => m.putAll [(bp.getD []).take (n % 2 ^ 32)] :=
    m.putAll_append [_] [_]
  rw [processU32_eq, hsplit]
  congr 1
  funext m'
  exact m'.processBuf_eq hdata

theorem findTerminator_eq {t : UInt8} {mem : List UInt8} (h : t ∈ mem) :
    ∃ len, findTerminator t mem = .ok len ∧ throughTerminator t mem = mem.take (len + 1) ∧
      len < mem.length := by
  induction mem with
  | nil => cases h
  | cons b mem ih =>
    unfold findTerminator
    by_cases hb : b = t
    · exact ⟨0, by rw [if_pos hb]; rfl, by simp [throughTerminator, List.findIdx?_cons, hb],
        by simp⟩
    · obtain ⟨len, hfind, hthrough, hlt⟩ := ih (by simpa [Ne.symm hb] using h)
      refine ⟨len + 1, ?_, ?_, by simpa using hlt⟩
      · rw [if_neg hb, hfind]
        rfl
      · have hstep : throughTerminator t (b :: mem) = b :: throughTerminator t mem := by
          unfold throughTerminator
          rw [List.findIdx?_cons, beq_false_of_ne hb]
          cases List.findIdx? (fun x => x == t) mem <;> rfl
        rw [hstep, hthrough, List.take_succ_cons]

theorem processTerminated_eq (m : Marshal) {c : BufferCarrier} {t : UInt8} {mem : List UInt8}
    (hbuf : c.buf_ = some mem) (ht : t ∈ mem) :
    m.processTerminated c t = m.putAll (slices (.terminated c t)) >>= fun m' =>
      pure (m', c.setLen (throughTerminator t mem).length) := by
  obtain ⟨len, hfind, hthrough, hlt⟩ := findTerminator_eq ht
  have hlen : (throughTerminator t mem).length = len + 1 := by
    rw [hthrough, List.length_take_of_le hlt]
  have hle : (len + 1) % 2 ^ 32 ≤ len + 1 := Nat.mod_le ..
  have hdata : readBytes (some mem) ((len + 1) % 2 ^ 32) = .ok (mem.take ((len + 1) % 2 ^ 32)) := by
    rw [readBytes, if_pos (Nat.le_trans hle hlt)]
  have hslices : slices (.terminated c t) = [mem.take ((len + 1) % 2 ^ 32)] := by
    rw [slices, hbuf, Option.getD_some, hlen, hthrough, List.take_take, Nat.min_eq_left hle]
  rw [hslices, hlen]
  simp only [processTerminated, hbuf, hfind, bind, Except.bind]
  rw [show (c.setLen (len + 1)).buf_ = some mem from hbuf,
    show (c.setLen (len + 1)).len_ = len + 1 from rfl, processBuf_eq m hdata]
  rfl

private theorem processAll_eq_of {o : SerializableObject} (ho : AllReadable o)
    (h : ∀ f ∈ o, f.Readable → ∃ g, f.Settles g ∧ ∀ m : Marshal,
      m.process f = m.putAll (slices f) >>= fun m' => pure (m', g)) :
    ∃ o', AllSettle o o' ∧ ∀ m : Marshal,
      m.processAll o = m.putAll (allSlices o) >>= fun m' => pure (m', o') := by
  induction o with
  | nil => exact ⟨[], .nil, fun m => rfl⟩
  | cons f o ih =>
    obtain ⟨g, hset, hf⟩ := h f (by simp) ho.1
    obtain ⟨o', hset', ho'⟩ := ih ho.2 fun f' hf' => h f' (by simp [hf'])
    refine ⟨g :: o', .cons hset hset', fun m => ?_⟩
    rw [processAll, hf, allSlices, putAll_append]
    simp only [bind_assoc, pure_bind, ho']

theorem process_eq (f : Field) (hf : f.Readable) : ∃ g, f.Settles g ∧ ∀ m : Marshal,
    m.process f = m.putAll (slices f) >>= fun m' => pure (m', g) := by
  induction f using Field.ind with
  | fixed x => exact ⟨_, .refl trivial, fun m => by rw [process, processFixed_eq]; rfl⟩
  | carrier c =>
    obtain ⟨data, hdata⟩ := hf
    refine ⟨_, .refl trivial, fun m => ?_⟩
    rw [process, processCarrier, prefixed_eq m hdata]
    rfl
  | terminated c t =>
    obtain ⟨mem, hbuf, ht⟩ := hf
    refine ⟨_, .terminated hbuf, fun m => ?_⟩
    rw [process, processTerminated_eq m hbuf ht]
    simp only [bind_assoc, pure_bind]
  | string str =>
    have hdata : readBytes (some str) (str.length % 2 ^ 32) =
        .ok (str.take (str.length % 2 ^ 32)) := by
      rw [readBytes, if_pos (Nat.mod_le ..)]
    refine ⟨_, .refl trivial, fun m => ?_⟩
    have heq := prefixed_eq m hdata
    rw [process, show m.processString str = _ from heq]
    rfl
  | object fields ih =>
    obtain ⟨fields', hset, heq⟩ := processAll_eq_of hf ih
    refine ⟨_, hset.object, fun m => ?_⟩
    rw [process, heq]
    simp only [bind_assoc, pure_bind]
    rfl
  | vector builder elems _ ih =>
    obtain ⟨elems', hset, heq⟩ := processAll_eq_of hf ih
    refine ⟨_, hset.vector builder, fun m => ?_⟩
    have hsplit : m.putAll (slices (.vector builder elems)) =
        m.putAll [BigEndian.bytes 4 elems.length] >>= fun m => m.putAll (allSlices elems) :=
      m.putAll_append [_] _
    rw [process, processU32_eq, hsplit]
    simp only [heq, bind_assoc, pure_bind]

theorem processAll_eq {o : SerializableObject} (ho : AllReadable o) : ∃ o', AllSettle o o' ∧
    ∀ m : Marshal, m.processAll o = m.putAll (allSlices o) >>= fun m' => pure (m', o') :=
  processAll_eq_of ho fun f _ => process_eq f

end Marshal

end Oasys
