import Oasys.Spec.StreamSerializeCorrect

/-!
# StreamUnserialize reads the encoding

On a stream whose reads work, `StreamUnserialize` gets back what was encoded and leaves what
follows. On any stream it assigns nothing after the first read that fails, as long as it meets no
carrier: `process` for a carrier reads the bytes although the length could not be read, and their
number is then the value of an uninitialised local.
-/

namespace Oasys

mutual

/-- The field has no carrier, nor have the elements of its vectors. -/
def Field.NoCarrier : Field → Prop
  | .fixed _ => True
  | .carrier _ => False
  | .terminated _ _ => False
  | .string _ => True
  | .object fields => NoneCarrier fields
  | .vector builder _ => builder.NoCarrier

def NoneCarrier : SerializableObject → Prop
  | [] => True
  | f :: o => Field.NoCarrier f ∧ NoneCarrier o

end

namespace StreamUnserialize

open StreamFormat (encode encodeAll)
open Unmarshal (length_of_processEach)

variable {u u' u'' : StreamUnserialize} {bs rest : List UInt8} {careful careful' : Prop}

/-! ### Runs on any stream -/

/-- What every run does to the action, and what a `careful` one does. -/
structure Runs (careful : Prop) (u u' : StreamUnserialize) : Prop where
  kept : u.events <+: u'.events
  error_kept : u.error_ = true → u'.error_ = true
  zeros : (∀ n, u.uninitialised n = 0) → ∀ n, u'.uninitialised n = 0
  stopped : careful → Stopped u.error_ u.events → Stopped u'.error_ u'.events

namespace Runs

theorem refl (u : StreamUnserialize) : Runs careful u u :=
  ⟨List.prefix_refl _, id, id, fun _ => id⟩

theorem trans (h : Runs careful u u') (h' : Runs careful u' u'') : Runs careful u u'' where
  kept := h.kept.trans h'.kept
  error_kept he := h'.error_kept (h.error_kept he)
  zeros hz := h'.zeros (h.zeros hz)
  stopped hc hs := h'.stopped hc (h.stopped hc hs)

theorem of_imp (h : Runs careful u u') (hc : careful' → careful) : Runs careful' u u' :=
  { h with stopped := fun hc' => h.stopped (hc hc') }

theorem error_eq_false (h : Runs careful u u') (he : u'.error_ = false) : u.error_ = false := by
  cases herr : u.error_ with
  | false => rfl
  | true =>
    rw [h.error_kept herr] at he
    cases he

end Runs

theorem newLocal_runs (u : StreamUnserialize) : Runs careful u u.newLocal.2 :=
  ⟨List.prefix_refl _, id, fun hz n => hz (n + 1), fun _ => id⟩

variable {α : Type}

theorem read_runs (u : StreamUnserialize) (len : Nat) (load short : List UInt8 → α) :
    Runs (u.error_ = false) u (u.read len load short).1 := by
  unfold read
  rcases hread : u.stream_.read len with ⟨err, buf, stream_⟩
  by_cases herr : err = 0
  · simp only [herr, ne_eq, not_true_eq_false, if_false]
    refine ⟨List.prefix_append _ _, id, id, fun hok hs => ?_⟩
    rw [hok] at hs ⊢
    exact hs.done
  · simp only [ne_eq, herr, not_false_eq_true, if_true]
    refine ⟨List.prefix_append _ _, fun _ => rfl, id, fun hok hs => ?_⟩
    rw [hok] at hs
    exact hs.failed

theorem get_runs (u : StreamUnserialize) (len : Nat) (x : α) (load : List UInt8 → α) :
    Runs careful u (u.get len x load).1 := by
  unfold get
  split
  · exact .refl u
  · rename_i herr
    exact (u.read_runs len load _).of_imp fun _ => Bool.eq_false_iff.2 herr

variable {len n : Nat}

theorem value_of_read {load short : List UInt8 → α} (h : (u.read len load short).1.error_ = false) :
    (u.read len load short).2 = load (u.stream_.left.take len) := by
  unfold read at h ⊢
  cases hread : u.stream_.reads 0 with
  | none =>
    by_cases hle : len ≤ u.stream_.left.length
    · simp [InByteStream.read, hread, hle]
    · simp [InByteStream.read, hread, hle] at h
  | some k => simp [InByteStream.read, hread] at h

theorem processFixed_runs (u : StreamUnserialize) (x : FixedField) :
    Runs careful u (u.processFixed x).1 := by
  cases x with
  | u64 i => exact u.get_runs 8 i loadU64
  | u32 i => exact u.get_runs 4 i loadU32
  | u16 i => exact u.get_runs 2 i loadU16
  | u8 i => exact u.get_runs 1 i _
  | bool b => exact u.get_runs 1 b _
  | buf bp =>
    show Runs careful u (u.processBuf bp).1
    unfold processBuf
    split
    · exact .refl u
    · rename_i herr
      exact (u.read_runs ..).of_imp fun _ => Bool.eq_false_iff.2 herr

theorem processCarrier_runs (u : StreamUnserialize) (c : BufferCarrier) :
    Runs False u (u.processCarrier c).1 ∧
      ((u.processCarrier c).1.error_ = false → (u.processCarrier c).2.len_ < 2 ^ 32) := by
  simp only [processCarrier]
  constructor
  · exact (newLocal_runs u).trans (((newLocal u).2.get_runs ..).trans
      ((read_runs ..).of_imp False.elim))
  · intro herr
    rw [value_of_read herr]
    exact UInt32.toNat_lt _

theorem processString_runs (u : StreamUnserialize) (s : List UInt8) :
    Runs careful u (u.processString s).1 ∧
      ((u.processString s).1.error_ = false → (u.processString s).2.length < 2 ^ 32) := by
  unfold processString
  split
  · rename_i herr
    exact ⟨.refl u, fun hok => by rw [herr] at hok; cases hok⟩
  · rename_i herr
    have hlocal : Runs careful u u.newLocal.2 := newLocal_runs u
    have hlength : Runs careful u (u.newLocal.2.processU32 u.newLocal.1).1 :=
      hlocal.trans (get_runs ..)
    dsimp only
    split
    · rename_i herr₁
      exact ⟨hlength, fun hok => by rw [herr₁] at hok; cases hok⟩
    · rename_i herr₁
      have hbody : Runs careful (u.newLocal.2.processU32 u.newLocal.1).1 _ :=
        (read_runs _ (u.newLocal.2.processU32 u.newLocal.1).2.toNat id fun _ => s).of_imp
          fun _ => Bool.eq_false_iff.2 herr₁
      refine ⟨hlength.trans hbody, fun hok => ?_⟩
      -- no more bytes than the 32-bit length that was read
      rw [value_of_read hok]
      exact Nat.lt_of_le_of_lt (List.length_take_le ..) (UInt32.toNat_lt _)

variable {p : SerializableObject}

private theorem processAll_runs_of
    (h : ∀ g ∈ p, g.Fresh → ∀ u : StreamUnserialize, ∃ u' g', u.process g = .ok (u', g') ∧
      Runs g.NoCarrier u u' ∧ (u'.error_ = false → g'.Short))
    (hp : AllFresh p) (u : StreamUnserialize) :
    ∃ u' p', u.processAll p = .ok (u', p') ∧ Runs (NoneCarrier p) u u' ∧
      (u'.error_ = false → AllShort p') := by
  induction p generalizing u with
  | nil => exact ⟨u, [], rfl, .refl u, fun _ => trivial⟩
  | cons g p ih =>
    obtain ⟨u₁, g', hrun₁, hruns₁, hshort₁⟩ := h g (by simp) hp.1 u
    obtain ⟨u₂, p', hrun₂, hruns₂, hshort₂⟩ := ih (fun f hf => h f (by simp [hf])) hp.2 u₁
    refine ⟨u₂, g' :: p', ?_, ?_, fun hok => ?_⟩
    · simp [processAll, hrun₁, hrun₂]
    · exact (hruns₁.of_imp And.left).trans (hruns₂.of_imp And.right)
    · exact ⟨hshort₁ (hruns₂.error_eq_false hok), hshort₂ hok⟩

variable {builder : Field}

private theorem processEach_runs
    (h : ∀ u : StreamUnserialize, ∃ u' g', u.process builder = .ok (u', g') ∧
      Runs builder.NoCarrier u u' ∧ (u'.error_ = false → g'.Short))
    (n : Nat) (u : StreamUnserialize) :
    ∃ u' es, processEach (fun u => u.process builder) n u = .ok (u', es) ∧
      Runs builder.NoCarrier u u' ∧ (u'.error_ = false → AllShort es) := by
  induction n generalizing u with
  | zero => exact ⟨u, [], rfl, .refl u, fun _ => trivial⟩
  | succ n ih =>
    obtain ⟨u₁, e, hrun₁, hruns₁, hshort₁⟩ := h u
    obtain ⟨u₂, es, hrun₂, hruns₂, hshort₂⟩ := ih u₁
    refine ⟨u₂, e :: es, ?_, hruns₁.trans hruns₂, fun hok => ?_⟩
    · simp [processEach, hrun₁, hrun₂]
    · exact ⟨hshort₁ (hruns₂.error_eq_false hok), hshort₂ hok⟩

theorem process_vector {n : UInt32} {es : List Field} (hsize : u.processU32 0 = (u', n))
    (hloop : processEach (fun u => u.process builder) n.toNat u' = .ok (u'', es)) :
    u.process (.vector builder []) = .ok (u'', .vector builder es) := by
  have hlen : es.length = n.toNat := length_of_processEach hloop
  simp [process, hsize, hloop, hlen]

/-- `process` does not fault on a field that is fresh, and if it has no error at its end then all
    lengths were read. -/
theorem process_runs (g : Field) (hg : g.Fresh) (u : StreamUnserialize) :
    ∃ u' g', u.process g = .ok (u', g') ∧ Runs g.NoCarrier u u' ∧
      (u'.error_ = false → g'.Short) := by
  -- a carrier is a run of its own, not careful; the rest adds up
  induction g using Field.ind generalizing u with
  | fixed x => exact ⟨_, _, rfl, u.processFixed_runs x, fun _ => trivial⟩
  | carrier c => exact ⟨_, _, rfl, u.processCarrier_runs c⟩
  | terminated c t => exact ⟨_, _, rfl, u.processCarrier_runs c⟩
  | string s => exact ⟨_, _, rfl, u.processString_runs s⟩
  | object fields ih =>
    obtain ⟨u', fields', hrun, hruns, hshort⟩ := processAll_runs_of ih hg u
    exact ⟨u', .object fields', by simp [process, hrun],
      hruns, hshort⟩
  | vector builder elems ihb =>
    obtain ⟨hb, rfl⟩ := hg
    rcases hsize : u.processU32 0 with ⟨u₁, n⟩
    have hruns₁ : Runs builder.NoCarrier u u₁ := by
      have hget : Runs builder.NoCarrier u (u.processU32 0).1 := u.get_runs 4 0 loadU32
      rwa [hsize] at hget
    obtain ⟨u₂, es, hloop, hruns₂, hshort⟩ := processEach_runs (ihb hb) n.toNat u₁
    refine ⟨u₂, _, process_vector hsize hloop, hruns₁.trans hruns₂, fun hok => ⟨?_, hshort hok⟩⟩
    rw [length_of_processEach hloop]
    exact n.toNat_lt

theorem processAll_runs (hp : AllFresh p) (u : StreamUnserialize) :
    ∃ u' p', u.processAll p = .ok (u', p') ∧ Runs (NoneCarrier p) u u' ∧
      (u'.error_ = false → AllShort p') :=
  processAll_runs_of (fun g _ => process_runs g) hp u

/-! ### Runs on a stream that works -/

/-- There is no error, no read to come fails, and `bs` is left of the stream. -/
structure Fine (u : StreamUnserialize) (bs : List UInt8) : Prop where
  error_eq : u.error_ = false
  reads_eq : ∀ n, u.stream_.reads n = none
  left_eq : u.stream_.left = bs

theorem Fine.read (h : u.Fine (bs ++ rest)) (hlen : bs.length = len) (load short : List UInt8 → α) :
    ∃ u', u.read len load short = (u', load bs) ∧ u'.Fine rest := by
  have hle : len ≤ u.stream_.left.length := by
    rw [h.left_eq, List.length_append]
    omega
  have htake : u.stream_.left.take len = bs := by rw [h.left_eq, List.take_left' hlen]
  have hdrop : u.stream_.left.drop len = rest := by rw [h.left_eq, List.drop_left' hlen]
  refine ⟨{ u with stream_ := ⟨rest, fun n => u.stream_.reads (n + 1)⟩,
                   events := u.events ++ [.done] }, ?_, ?_⟩
  · simp [StreamUnserialize.read, InByteStream.read, h.reads_eq 0, hle, htake, hdrop]
  · exact ⟨h.error_eq, fun n => h.reads_eq (n + 1), rfl⟩

theorem Fine.get (h : u.Fine (bs ++ rest)) (hlen : bs.length = len) (x : α)
    (load : List UInt8 → α) : ∃ u', u.get len x load = (u', load bs) ∧ u'.Fine rest := by
  simp only [StreamUnserialize.get, h.error_eq, Bool.false_eq_true, if_false]
  exact h.read hlen load _

theorem Fine.newLocal (h : u.Fine bs) : u.newLocal.2.Fine bs := ⟨h.error_eq, h.reads_eq, h.left_eq⟩

theorem loadU64_eq (hlen : bs.length = 8) : loadU64 bs = .ofNat (BigEndian.value bs) := by
  match bs, hlen with
  | [b0, b1, b2, b3, b4, b5, b6, b7], _ =>
    rw [← BigEndian.toNat_ofBytes64, UInt64.ofNat_toNat]
    rfl

theorem loadU32_eq (hlen : bs.length = 4) : loadU32 bs = .ofNat (BigEndian.value bs) := by
  match bs, hlen with
  | [b0, b1, b2, b3], _ =>
    rw [← BigEndian.toNat_ofBytes32, UInt32.ofNat_toNat]
    rfl

theorem loadU16_eq (hlen : bs.length = 2) : loadU16 bs = .ofNat (BigEndian.value bs) := by
  match bs, hlen with
  | [b0, b1], _ =>
    rw [← BigEndian.toNat_ofBytes16, UInt16.ofNat_toNat]
    rfl

theorem Fine.processU32 (h : u.Fine (BigEndian.bytes 4 n ++ rest)) (hn : n < 2 ^ 32)
    (i : UInt32) : ∃ u', u.processU32 i = (u', .ofNat n) ∧ u'.Fine rest := by
  obtain ⟨u', hget, hfine⟩ := h.get (BigEndian.length_bytes 4 n) i loadU32
  refine ⟨u', ?_, hfine⟩
  rw [StreamUnserialize.processU32, hget, loadU32_eq (by simp), BigEndian.value_bytes_of_lt hn]

theorem Fine.processFixed {x : FixedField} (h : u.Fine (bs ++ rest)) (hlen : bs.length = x.width) :
    ∃ u', u.processFixed x = (u', x.ofBytes bs) ∧ u'.Fine rest := by
  -- each overload reads as many bytes as its type takes and loads them
  cases x with
  | u64 i =>
    change bs.length = 8 at hlen
    obtain ⟨u', hget, hfine⟩ := h.get hlen i loadU64
    refine ⟨u', ?_, hfine⟩
    show (u.processU64 i).map id FixedField.u64 = _
    rw [processU64, hget, loadU64_eq hlen]
    rfl
  | u32 i =>
    change bs.length = 4 at hlen
    obtain ⟨u', hget, hfine⟩ := h.get hlen i loadU32
    refine ⟨u', ?_, hfine⟩
    show (u.processU32 i).map id FixedField.u32 = _
    rw [StreamUnserialize.processU32, hget, loadU32_eq hlen]
    rfl
  | u16 i =>
    change bs.length = 2 at hlen
    obtain ⟨u', hget, hfine⟩ := h.get hlen i loadU16
    refine ⟨u', ?_, hfine⟩
    show (u.processU16 i).map id FixedField.u16 = _
    rw [processU16, hget, loadU16_eq hlen]
    rfl
  | u8 i =>
    change bs.length = 1 at hlen
    obtain ⟨b, rfl⟩ := List.length_eq_one_iff.1 hlen
    obtain ⟨u', hget, hfine⟩ := h.get hlen i fun buf => buf.getD 0 0
    refine ⟨u', ?_, hfine⟩
    show (u.processU8 i).map id FixedField.u8 = _
    rw [processU8, hget]
    rfl
  | bool b =>
    change bs.length = 1 at hlen
    obtain ⟨b', rfl⟩ := List.length_eq_one_iff.1 hlen
    obtain ⟨u', hget, hfine⟩ := h.get hlen b fun buf => buf.getD 0 0 != 0
    refine ⟨u', ?_, hfine⟩
    show (u.processBool b).map id FixedField.bool = _
    rw [processBool, hget]
    rfl
  | buf bp =>
    change bs.length = bp.bytes.length at hlen
    obtain ⟨u', hread, hfine⟩ := h.read hlen (loadBuf bp) (loadBuf bp)
    refine ⟨u', ?_, hfine⟩
    have hload : loadBuf bp bs = ⟨bs.take bp.bytes.length,
        Nat.lt_of_le_of_lt (List.length_take_le ..) bp.fits⟩ := by
      simp [loadBuf, hlen]
    show (u.processBuf bp).map id FixedField.buf = _
    simp only [processBuf, h.error_eq, Bool.false_eq_true, if_false]
    rw [hread, hload]
    rfl

theorem Fine.processCarrier (h : u.Fine (BigEndian.bytes 4 n ++ (bs ++ rest)))
    (hn : n < 2 ^ 32) (hlen : bs.length = n) (c : BufferCarrier) :
    ∃ u', u.processCarrier c = (u', ⟨some bs, n⟩) ∧ u'.Fine rest := by
  have hcount : (UInt32.ofNat n).toNat = n := UInt32.toNat_ofNat_of_lt hn
  obtain ⟨u₁, hlength, hfine₁⟩ := h.newLocal.processU32 hn u.newLocal.1
  obtain ⟨u₂, hread, hfine₂⟩ := hfine₁.read hlen (fun buf => c.setBuf (some buf) n) fun _ => c
  refine ⟨u₂, ?_, hfine₂⟩
  simp only [StreamUnserialize.processCarrier, hlength, hcount, hread]
  rfl

theorem Fine.processString (h : u.Fine (BigEndian.bytes 4 n ++ (bs ++ rest)))
    (hn : n < 2 ^ 32) (hlen : bs.length = n) (s : List UInt8) :
    ∃ u', u.processString s = (u', bs) ∧ u'.Fine rest := by
  have hcount : (UInt32.ofNat n).toNat = n := UInt32.toNat_ofNat_of_lt hn
  obtain ⟨u₁, hlength, hfine₁⟩ := h.newLocal.processU32 hn u.newLocal.1
  obtain ⟨u₂, hread, hfine₂⟩ := hfine₁.read hlen id fun _ => s
  refine ⟨u₂, ?_, hfine₂⟩
  simp only [StreamUnserialize.processString, h.error_eq, hlength, hfine₁.error_eq, hcount, hread,
    Bool.false_eq_true, if_false]
  rfl

/-- On the encoding of `f`, the action fills in every field of its type. -/
def Recovers (f : Field) : Prop :=
  ∀ (g : Field) (u : StreamUnserialize) (rest : List UInt8), f.SameType g → g.Fresh →
    u.Fine (encode f ++ rest) →
      ∃ u' g', u.process g = .ok (u', g') ∧ u'.Fine rest ∧ f.Same g'

private theorem recoversAll_of {o : SerializableObject} (h : ∀ f ∈ o, Recovers f)
    (hop : AllSameType o p) (hp : AllFresh p) (hu : u.Fine (encodeAll o ++ rest)) :
    ∃ u' p', u.processAll p = .ok (u', p') ∧ u'.Fine rest ∧ AllSame o p' := by
  induction o generalizing p u with
  | nil =>
    obtain rfl : p = [] := hop
    exact ⟨u, [], rfl, hu, rfl⟩
  | cons f o ih =>
    obtain ⟨g, p, rfl, hfg, hop⟩ := hop
    rw [encodeAll, List.append_assoc] at hu
    obtain ⟨u₁, f', hrun₁, hu₁, hsame⟩ := h f (by simp) g u _ hfg hp.1 hu
    obtain ⟨u₂, o', hrun₂, hu₂, hsames⟩ := ih (fun f' hf' => h f' (by simp [hf'])) hop hp.2 hu₁
    refine ⟨u₂, f' :: o', ?_, hu₂, allSame_cons.2 ⟨hsame, hsames⟩⟩
    simp [processAll, hrun₁, hrun₂]

private theorem recoversEach {elems : List Field}
    (h : ∀ e ∈ elems, Recovers e) (htype : EachSameType elems builder) (hb : builder.Fresh)
    (hu : u.Fine (encodeAll elems ++ rest)) :
    ∃ u' es, processEach (fun u => u.process builder) elems.length u = .ok (u', es) ∧
      u'.Fine rest ∧ AllSame elems es := by
  induction elems generalizing u with
  | nil => exact ⟨u, [], rfl, hu, rfl⟩
  | cons e elems ih =>
    rw [encodeAll, List.append_assoc] at hu
    obtain ⟨u₁, e', hrun₁, hu₁, hsame⟩ := h e (by simp) builder u _ htype.1 hb hu
    obtain ⟨u₂, es, hrun₂, hu₂, hsames⟩ := ih (fun e' he' => h e' (by simp [he'])) htype.2 hu₁
    refine ⟨u₂, e' :: es, ?_, hu₂, allSame_cons.2 ⟨hsame, hsames⟩⟩
    simp [processEach, hrun₁, hrun₂]

private theorem Fine.processCarrier_of_readBytes {c : BufferCarrier} {data : List UInt8}
    (hdata : readBytes c.buf_ c.len_ = .ok data) (hshort : c.len_ < 2 ^ 32)
    (hu : u.Fine (encode (.carrier c) ++ rest)) (d : BufferCarrier) :
    ∃ u', u.processCarrier d = (u', ⟨some data, c.len_⟩) ∧ u'.Fine rest := by
  rw [encode, bytes_of_readBytes hdata, List.append_assoc] at hu
  exact hu.processCarrier hshort (length_of_readBytes hdata) d

theorem recovers (f : Field) (hf : f.Sendable) (hshort : f.Short) : Recovers f := by
  induction f using Field.ind with
  | fixed x =>
    rintro g u rest ⟨y, rfl, hxy⟩ - hu
    have hlen : (encode (.fixed x)).length = y.width := by simpa [encode] using hxy.width_eq
    obtain ⟨u', hrun, hu'⟩ := hu.processFixed hlen
    rw [encode, ← hxy.ofBytes_eq, FixedField.ofBytes_bytes] at hrun
    exact ⟨u', .fixed x, by simp [process, hrun], hu', rfl⟩
  | carrier c =>
    rintro g u rest ⟨d, rfl⟩ - hu
    obtain ⟨data, hdata⟩ := hf
    obtain ⟨u', hrun, hu'⟩ := hu.processCarrier_of_readBytes hdata hshort d
    refine ⟨u', .carrier ⟨some data, c.len_⟩, ?_, hu', _, rfl, rfl, ?_⟩
    · simp [process, hrun]
    · rw [hdata, ← length_of_readBytes hdata, readBytes_self]
  | terminated c t =>
    rintro g u rest ⟨d, rfl⟩ - hu
    obtain ⟨data, mem, hbuf, ht, hlen⟩ := hf
    have hdata := StreamSerialize.readBytes_terminated hbuf hlen
    obtain ⟨u', hrun, hu'⟩ := hu.processCarrier_of_readBytes hdata hshort d
    refine ⟨u', .terminated ⟨some (data ++ [t]), c.len_⟩ t, ?_, hu', _, rfl, rfl, ?_⟩
    · simp [process, processTerminated, hrun]
    · -- nothing that follows the terminator counts
      rw [hbuf]
      simp [throughTerminator_append ht]
  | string s =>
    rintro g u rest ⟨s', rfl⟩ - hu
    rw [encode, List.append_assoc] at hu
    obtain ⟨u', hrun, hu'⟩ := hu.processString hshort rfl s'
    exact ⟨u', .string s, by simp [process, hrun], hu', rfl⟩
  | object fields ih =>
    rintro g u rest ⟨p, rfl, hop⟩ hp hu
    have hmem : ∀ f ∈ fields, Recovers f := fun f hf' => ih f hf' (hf.mem f hf') (hshort.mem f hf')
    obtain ⟨u', p', hrun, hu', hsame⟩ := recoversAll_of hmem hop hp hu
    exact ⟨u', .object p', by simp [process, hrun], hu', p',
      rfl, hsame⟩
  | vector builder elems _ ih =>
    rintro g u rest ⟨builder', _, rfl, htype⟩ ⟨hb, rfl⟩ hu
    rw [encode, List.append_assoc] at hu
    have hmem : ∀ e ∈ elems, Recovers e :=
      fun e he => ih e he (AllSendable.mem hf e he) (AllShort.mem hshort.2 e he)
    have hcount : (UInt32.ofNat elems.length).toNat = elems.length :=
      UInt32.toNat_ofNat_of_lt hshort.1
    obtain ⟨u₁, hsize, hu₁⟩ := hu.processU32 hshort.1 0
    obtain ⟨u₂, es, hloop, hu₂, hsame⟩ := recoversEach hmem htype hb hu₁
    rw [← hcount] at hloop
    exact ⟨u₂, .vector builder' es, process_vector hsize hloop, hu₂, builder', es, rfl, hsame⟩

theorem recoversAll {o : SerializableObject} (ho : AllSendable o) (hshort : AllShort o)
    (hop : AllSameType o p) (hp : AllFresh p) (hu : u.Fine (encodeAll o ++ rest)) :
    ∃ u' p', u.processAll p = .ok (u', p') ∧ u'.Fine rest ∧ AllSame o p' :=
  recoversAll_of (fun f hf => recovers f (ho.mem f hf) (hshort.mem f hf)) hop hp hu

/-! ### Runs that fail in front of a carrier -/

/-- Some bytes are read as the field: those of the values that have a fixed size, and no bytes
    for the others. -/
theorem exists_readable (g : Field) (hg : g.Fresh) :
    ∃ bs, ∀ (u : StreamUnserialize) rest, u.Fine (bs ++ rest) →
      ∃ u' g', u.process g = .ok (u', g') ∧ u'.Fine rest := by
  induction g using Field.ind with
  | fixed x =>
    refine ⟨x.bytes, fun u rest hu => ?_⟩
    obtain ⟨u', hrun, hu'⟩ := hu.processFixed x.length_bytes
    exact ⟨u', _, by simp [process, hrun]; rfl, hu'⟩
  | carrier c =>
    refine ⟨BigEndian.bytes 4 0, fun u rest hu => ?_⟩
    have hempty : u.Fine (BigEndian.bytes 4 0 ++ ([] ++ rest)) := hu
    obtain ⟨u', hrun, hu'⟩ := hempty.processCarrier (by decide) rfl c
    exact ⟨u', _, by simp [process, hrun]; rfl, hu'⟩
  | terminated c t =>
    refine ⟨BigEndian.bytes 4 0, fun u rest hu => ?_⟩
    have hempty : u.Fine (BigEndian.bytes 4 0 ++ ([] ++ rest)) := hu
    obtain ⟨u', hrun, hu'⟩ := hempty.processCarrier (by decide) rfl c
    exact ⟨u', _, by simp [process, processTerminated, hrun]; rfl, hu'⟩
  | string s =>
    refine ⟨BigEndian.bytes 4 0, fun u rest hu => ?_⟩
    have hempty : u.Fine (BigEndian.bytes 4 0 ++ ([] ++ rest)) := hu
    obtain ⟨u', hrun, hu'⟩ := hempty.processString (by decide) rfl s
    exact ⟨u', _, by simp [process, hrun]; rfl, hu'⟩
  | object fields ih =>
    -- the bytes of the fields, one after another
    have hall : ∃ bs, ∀ (u : StreamUnserialize) rest, u.Fine (bs ++ rest) →
        ∃ u' p', u.processAll fields = .ok (u', p') ∧ u'.Fine rest := by
      induction fields with
      | nil => exact ⟨[], fun u rest hu => ⟨u, [], rfl, hu⟩⟩
      | cons f fields ihs =>
        obtain ⟨bs₁, h₁⟩ := ih f (by simp) hg.1
        obtain ⟨bs₂, h₂⟩ := ihs (fun f' hf' => ih f' (by simp [hf'])) hg.2
        refine ⟨bs₁ ++ bs₂, fun u rest hu => ?_⟩
        rw [List.append_assoc] at hu
        obtain ⟨u₁, g₁, hrun₁, hu₁⟩ := h₁ u _ hu
        obtain ⟨u₂, p₂, hrun₂, hu₂⟩ := h₂ u₁ rest hu₁
        exact ⟨u₂, g₁ :: p₂, by simp [processAll, hrun₁, hrun₂], hu₂⟩
    obtain ⟨bs, h⟩ := hall
    refine ⟨bs, fun u rest hu => ?_⟩
    obtain ⟨u', p', hrun, hu'⟩ := h u rest hu
    exact ⟨u', .object p', by simp [process, hrun], hu'⟩
  | vector builder elems =>
    obtain ⟨-, rfl⟩ := hg
    refine ⟨BigEndian.bytes 4 0, fun u rest hu => ?_⟩
    obtain ⟨u', hsize, hu'⟩ := hu.processU32 (by decide) 0
    exact ⟨u', .vector builder [], process_vector hsize rfl, hu'⟩

theorem processCarrier_at_end (hu : u.Fine []) (hzero : ∀ n, u.uninitialised n = 0)
    (c : BufferCarrier) : ¬ StopsAtFailure (u.processCarrier c).1.events := by
  have hevents : (u.processCarrier c).1.events = u.events ++ [.failed, .done] := by
    simp [processCarrier, newLocal, processU32, get, read, InByteStream.read, hu.error_eq,
      hu.reads_eq, hu.left_eq, hzero]
  rw [hevents, StopsAtFailure, List.pairwise_append]
  simp

theorem Runs.not_stops (h : Runs careful u u') (hu : ¬ StopsAtFailure u.events) :
    ¬ StopsAtFailure u'.events :=
  fun hu' => hu (List.Pairwise.sublist h.kept.sublist hu')

/-- With some stream, a value is assigned after a read that failed, if uninitialised locals
    hold 0. -/
def Trips (g : Field) : Prop :=
  ∃ bs, ∀ u : StreamUnserialize, u.Fine bs → (∀ n, u.uninitialised n = 0) →
    ∃ u' g', u.process g = .ok (u', g') ∧ ¬ StopsAtFailure u'.events

/-- The fields of an object, given what holds of each: the fields before one with a carrier are
    read, and those after it do not matter. -/
private theorem tripsAll_of (h : ∀ g ∈ p, g.Fresh → ¬ g.NoCarrier → Trips g) (hp : AllFresh p)
    (hcarrier : ¬ NoneCarrier p) :
    ∃ bs, ∀ u : StreamUnserialize, u.Fine bs → (∀ n, u.uninitialised n = 0) →
      ∃ u' p', u.processAll p = .ok (u', p') ∧ ¬ StopsAtFailure u'.events := by
  induction p with
  | nil => exact absurd trivial hcarrier
  | cons g p ih =>
    by_cases hg : g.NoCarrier
    · -- read past the field, to the first one with a carrier
      obtain ⟨bs₁, hread⟩ := exists_readable g hp.1
      obtain ⟨bs₂, htrips⟩ := ih (fun f hf => h f (by simp [hf])) hp.2 fun hn => hcarrier ⟨hg, hn⟩
      refine ⟨bs₁ ++ bs₂, fun u hu hzero => ?_⟩
      obtain ⟨u₁, g₁, hrun₁, hu₁⟩ := hread u bs₂ hu
      have hzero₁ : ∀ n, u₁.uninitialised n = 0 := by
        obtain ⟨v, g', hrun, hruns, -⟩ := process_runs g hp.1 u
        obtain ⟨rfl, -⟩ := Prod.mk.inj (Except.ok.inj (hrun₁.symm.trans hrun))
        exact hruns.zeros hzero
      obtain ⟨u₂, p₂, hrun₂, hstops⟩ := htrips u₁ hu₁ hzero₁
      exact ⟨u₂, g₁ :: p₂, by simp [processAll, hrun₁, hrun₂], hstops⟩
    · obtain ⟨bs, htrips⟩ := h g (by simp) hp.1 hg
      refine ⟨bs, fun u hu hzero => ?_⟩
      obtain ⟨u₁, g₁, hrun₁, hstops⟩ := htrips u hu hzero
      obtain ⟨u₂, p₂, hrun₂, hruns, -⟩ := processAll_runs hp.2 u₁
      exact ⟨u₂, g₁ :: p₂, by simp [processAll, hrun₁, hrun₂], hruns.not_stops hstops⟩

/-- A field with a carrier is read badly from some stream: one that ends in front of the
    carrier. -/
theorem trips (g : Field) (hg : g.Fresh) (hcarrier : ¬ g.NoCarrier) : Trips g := by
  induction g using Field.ind with
  | fixed x => exact absurd trivial hcarrier
  | carrier c =>
    exact ⟨[], fun u hu hzero => ⟨_, _, rfl, processCarrier_at_end hu hzero c⟩⟩
  | terminated c t =>
    exact ⟨[], fun u hu hzero => ⟨_, _, rfl, processCarrier_at_end hu hzero c⟩⟩
  | string s => exact absurd trivial hcarrier
  | object fields ih =>
    obtain ⟨bs, htrips⟩ := tripsAll_of ih hg hcarrier
    refine ⟨bs, fun u hu hzero => ?_⟩
    obtain ⟨u', p', hrun, hstops⟩ := htrips u hu hzero
    exact ⟨u', .object p', by simp [process, hrun], hstops⟩
  | vector builder elems ihb =>
    -- a vector of one element
    obtain ⟨hb, rfl⟩ := hg
    obtain ⟨bs, htrips⟩ := ihb hb hcarrier
    refine ⟨BigEndian.bytes 4 1 ++ bs, fun u hu hzero => ?_⟩
    obtain ⟨u₁, hsize, hu₁⟩ := hu.processU32 (by decide) 0
    have hzero₁ : ∀ n, u₁.uninitialised n = 0 := by
      have hruns : Runs True u (u.processU32 0).1 := u.get_runs 4 0 loadU32
      rw [hsize] at hruns
      exact hruns.zeros hzero
    obtain ⟨u₂, e, hrun, hstops⟩ := htrips u₁ hu₁ hzero₁
    have hloop : processEach (fun u => u.process builder) 1 u₁ = .ok (u₂, [e]) := by
      simp [processEach, hrun]
    exact ⟨u₂, .vector builder [e], process_vector hsize hloop, hstops⟩

theorem tripsAll (hp : AllFresh p) (hcarrier : ¬ NoneCarrier p) :
    ∃ bs, ∀ u : StreamUnserialize, u.Fine bs → (∀ n, u.uninitialised n = 0) →
      ∃ u' p', u.processAll p = .ok (u', p') ∧ ¬ StopsAtFailure u'.events :=
  tripsAll_of (fun g _ => trips g) hp hcarrier

end StreamUnserialize

end Oasys

/-!
### The round trip of the stream actions

When `StreamUnserialize` reads what `StreamSerialize` wrote, and what both do when their stream
fails (`StreamsFaithful`). Lengths are written in 32 bits, so that is what they have to fit. The
error path holds up except for carriers, which are assigned after a read has failed.
-/

namespace Oasys

/-- What was written for `o` is read into `p` as `o` and leaves what follows, and `action`
    returns 0 both times. -/
def StreamRoundTrips (o p : SerializableObject) : Prop :=
  ∀ (rest : List UInt8) (uninitialised : Nat → UInt32), ∃ a u p',
    (StreamSerialize.new ⟨[], fun _ => none⟩).action o = .ok (0, a, o) ∧
    (StreamUnserialize.new ⟨a.stream_.data ++ rest, fun _ => none⟩ uninitialised).action p =
      .ok (0, u, p') ∧
    AllSame o p' ∧ u.stream_.left = rest

/-- If a call of the stream failed then `action` returned -1, and nothing was written or assigned
    after that call. -/
structure Reports (code : Int) (events : List StreamEvent) : Prop where
  reported : .failed ∈ events → code = -1
  stops : StopsAtFailure events

/-- The actions recover `o` from what they wrote of it, and they stop when their stream fails. -/
structure StreamsFaithful (o p : SerializableObject) : Prop where
  roundTrips : StreamRoundTrips o p
  writes : ∀ stream, ∃ code a o',
    (StreamSerialize.new stream).action o = .ok (code, a, o') ∧ Reports code a.events
  reads : ∀ stream uninitialised, ∃ code u p',
    (StreamUnserialize.new stream uninitialised).action p = .ok (code, u, p') ∧
    Reports code u.events

theorem Stopped.reports {error_ : Bool} {events : List StreamEvent} (h : Stopped error_ events) :
    Reports (if error_ then -1 else 0) events where
  reported hmem := by simp [h.error_iff.2 hmem]
  stops := h.stops

variable {p o : SerializableObject}

theorem StreamUnserialize.action_of {p' : SerializableObject} {stream : InByteStream}
    {uninitialised : Nat → UInt32} {u : StreamUnserialize}
    (h : (new stream uninitialised).processAll p = .ok (u, p')) :
    (new stream uninitialised).action p = .ok (if u.error_ then -1 else 0, u, p') := by
  have h' : ({ new stream uninitialised with error_ := false } : StreamUnserialize).processAll p =
      .ok (u, p') := h
  simp [action, h']

/-! ### Lengths -/

private theorem allShort_of_same
    (h : ∀ f ∈ o, ∀ g : Field, f.Same g → g.Short → f.Short) (hsame : AllSame o p)
    (hp : AllShort p) : AllShort o := by
  induction o generalizing p with
  | nil => trivial
  | cons f o ih =>
    obtain ⟨g, p, rfl, hfg, hsames⟩ := hsame
    exact ⟨h f (by simp) g hfg hp.1, ih (fun f' hf' => h f' (by simp [hf'])) hsames hp.2⟩

theorem Field.Short.of_same (f g : Field) (hsame : f.Same g) (hg : g.Short) : f.Short := by
  induction f using Field.ind generalizing g with
  | fixed x => trivial
  | carrier c =>
    obtain ⟨d, rfl, hlen, -⟩ := hsame
    rw [Field.Short, hlen]
    exact hg
  | terminated c t =>
    obtain ⟨d, rfl, hlen, -⟩ := hsame
    rw [Field.Short, hlen]
    exact hg
  | string s =>
    obtain rfl : g = .string s := hsame
    exact hg
  | object fields ih =>
    obtain ⟨fields', rfl, hsames⟩ := hsame
    exact allShort_of_same ih hsames hg
  | vector builder elems _ ih =>
    -- equal vectors have equally many elements
    obtain ⟨builder', elems', rfl, hsames⟩ := hsame
    refine ⟨?_, allShort_of_same ih hsames hg.2⟩
    rw [← hsames.length_eq]
    exact hg.1

/-! ### Round trips -/

theorem streamRoundTrips_of_short (ho : AllSendable o)
    (hop : AllSameType o p) (hp : AllFresh p) (hshort : AllShort o) : StreamRoundTrips o p := by
  intro rest uninitialised
  obtain ⟨a, hwrite, hgoes⟩ := StreamSerialize.action_goes ho hshort ⟨[], fun _ => none⟩
  obtain ⟨⟨herr, -⟩, hdata⟩ := hgoes.fine ⟨rfl, fun _ => rfl⟩
  have hdata' : a.stream_.data = StreamFormat.encodeAll o := hdata
  have hu : (StreamUnserialize.new ⟨a.stream_.data ++ rest, fun _ => none⟩ uninitialised).Fine
      (StreamFormat.encodeAll o ++ rest) := ⟨rfl, fun _ => rfl, by rw [hdata']; rfl⟩
  obtain ⟨u, p', hrun, hu', hsame⟩ := StreamUnserialize.recoversAll ho hshort hop hp hu
  refine ⟨a, u, p', ?_, ?_, hsame, hu'.left_eq⟩
  · rw [hwrite, herr]
    rfl
  · rw [StreamUnserialize.action_of hrun, hu'.error_eq]
    rfl

theorem StreamRoundTrips.short (h : StreamRoundTrips o p) (hp : AllFresh p) : AllShort o := by
  obtain ⟨a, u, p', -, hread, hsame, -⟩ := h [] fun _ => 0
  obtain ⟨v, q, hrun, -, hshort⟩ := StreamUnserialize.processAll_runs hp
    (StreamUnserialize.new ⟨a.stream_.data ++ [], fun _ => none⟩ fun _ => 0)
  rw [StreamUnserialize.action_of hrun] at hread
  obtain ⟨hcode, heq⟩ := Prod.mk.inj (Except.ok.inj hread)
  obtain ⟨rfl, rfl⟩ := Prod.mk.inj heq
  have herr : v.error_ = false := by
    cases herr : v.error_ with
    | false => rfl
    | true => simp [herr] at hcode
  exact allShort_of_same (fun f _ => Field.Short.of_same f) hsame (hshort herr)

/-- The actions recover the object and stop at failures exactly if the object's lengths fit 32 bits
    and it is read into an object that has no carrier. -/
theorem streamsFaithful_iff {o p : SerializableObject} (ho : AllSendable o)
    (hop : AllSameType o p) (hp : AllFresh p) :
    StreamsFaithful o p ↔ AllShort o ∧ NoneCarrier p := by
  constructor
  · intro h
    refine ⟨h.roundTrips.short hp, ?_⟩
    by_contra hcarrier
    -- a stream that ends in front of a carrier
    obtain ⟨bs, htrips⟩ := StreamUnserialize.tripsAll hp hcarrier
    obtain ⟨u, p', hrun, hstops⟩ := htrips (.new ⟨bs, fun _ => none⟩ fun _ => 0)
      ⟨rfl, fun _ => rfl, rfl⟩ fun _ => rfl
    obtain ⟨code, v, q, hread, hreports⟩ := h.reads ⟨bs, fun _ => none⟩ fun _ => 0
    rw [StreamUnserialize.action_of hrun] at hread
    obtain ⟨-, heq⟩ := Prod.mk.inj (Except.ok.inj hread)
    obtain ⟨rfl, rfl⟩ := Prod.mk.inj heq
    exact hstops hreports.stops
  · intro ⟨hshort, hcarrier⟩
    refine ⟨streamRoundTrips_of_short ho hop hp hshort, fun stream => ?_,
      fun stream uninitialised => ?_⟩
    · obtain ⟨a, hwrite, hgoes⟩ := StreamSerialize.action_goes ho hshort stream
      exact ⟨_, a, o, hwrite, (hgoes.stopped .nil).reports⟩
    · obtain ⟨u, p', hrun, hruns, -⟩ := StreamUnserialize.processAll_runs hp
        (.new stream uninitialised)
      exact ⟨_, u, p', StreamUnserialize.action_of hrun, (hruns.stopped hcarrier .nil).reports⟩

/-- An object with all that can be sent without a carrier. -/
theorem streamsFaithful_record :
    StreamsFaithful
      [.fixed (.u32 1), .string [2, 3], .vector (.fixed (.u8 0)) [.fixed (.u8 4), .fixed (.u8 5)],
        .object [.fixed (.bool true)]]
      [.fixed (.u32 0), .string [], .vector (.fixed (.u8 0)) [], .object [.fixed (.bool false)]] :=
  (streamsFaithful_iff (by simp [AllSendable, Field.Sendable])
    (by simp [AllSameType, Field.SameType, EachSameType, FixedField.SameType])
    (by simp [AllFresh, Field.Fresh])).2
    (by simp [AllShort, Field.Short, NoneCarrier, Field.NoCarrier])

/-- A carrier behind a byte that cannot be read: it is assigned nevertheless. -/
theorem not_streamsFaithful_carrier :
    ∃ o p, AllSendable o ∧ AllSameType o p ∧ AllFresh p ∧ AllShort o ∧ ¬ StreamsFaithful o p := by
  refine ⟨[.fixed (.u8 7), .carrier ⟨some [1], 1⟩], [.fixed (.u8 0), .carrier .new], ?_, ?_, ?_, ?_,
    fun h => ?_⟩
  · simp [AllSendable, Field.Sendable, readBytes]
  · simp [AllSameType, Field.SameType, FixedField.SameType]
  · simp [AllFresh, Field.Fresh, BufferCarrier.HalfFilled, BufferCarrier.new]
  · simp [AllShort, Field.Short]
  · obtain ⟨code, u, p', hread, -, hstops⟩ := h.reads ⟨[], fun _ => none⟩ fun _ => 0
    obtain ⟨-, heq⟩ := Prod.mk.inj (Except.ok.inj hread)
    have hevents : u.events = [.failed, .done] := by
      rw [← (Prod.mk.inj heq).1]
      rfl
    rw [hevents] at hstops
    simp [StopsAtFailure] at hstops

end Oasys
