import Oasys.Spec.KeyFormat

/-!
# Round trips of keys

`KeyUnmarshal` is followed over the bytes of a key that lie before it. Every field comes back
as it was put in, but for the upper half of a number of 64 bits, which `KeyMarshal` leaves
out. With the memory that `KeyMarshal` needs (`KeyFormat`) this says when an object is
recovered from its key, and when two objects share one.
-/

namespace Oasys

open Key

/-! ### Reading numbers -/

private theorem isDigit_spec (c : UInt8) (h : Hex.isDigit c = true) :
    isspace c = false ∧ c ≠ 45 ∧ c ≠ 43 ∧ c ≠ 120 ∧ c ≠ 88 := by
  obtain ⟨⟨n⟩⟩ := c
  revert n
  decide +kernel

theorem strtoull_digits {text : List UInt8} (hne : text ≠ [])
    (hdigits : ∀ c ∈ text, Hex.isDigit c = true) (k : Nat)
    (hlt : Hex.value (text ++ List.replicate k 0) < 2 ^ 64) :
    strtoull (text ++ List.replicate k 0) =
      .ofNat (Hex.value (text ++ List.replicate k 0)) := by
  have hspace : (text ++ List.replicate k 0).dropWhile isspace = text ++ List.replicate k 0 := by
    match text, hne with
    | c :: text, _ =>
      have hc := (isDigit_spec c (hdigits c List.mem_cons_self)).1
      rw [List.cons_append, List.dropWhile_cons_of_neg (by simp [hc])]
  have hsign : skipSign (text ++ List.replicate k 0) = (false, text ++ List.replicate k 0) := by
    match text, hne with
    | c :: text, _ =>
      obtain ⟨-, h45, h43, -⟩ := isDigit_spec c (hdigits c List.mem_cons_self)
      rw [List.cons_append]
      unfold skipSign
      split
      · rename_i heq
        exact absurd (List.cons.inj heq).1 h45
      · rename_i heq
        exact absurd (List.cons.inj heq).1 h43
      · rfl
  have hskip : skipPrefix (text ++ List.replicate k 0) = text ++ List.replicate k 0 := by
    -- what stands behind the first digit is a digit or a zero byte, and no `x`
    have hx : ∀ c ∈ text ++ List.replicate k 0, c ≠ 120 ∧ c ≠ 88 := by
      intro c hc
      cases List.mem_append.1 hc with
      | inl hc => exact (isDigit_spec c (hdigits c hc)).2.2.2
      | inr hc =>
        rw [(List.mem_replicate.1 hc).2]
        decide
    generalize text ++ List.replicate k 0 = bytes at hx
    unfold skipPrefix
    split
    · rename_i x c rest
      obtain ⟨h120, h88⟩ := hx x (by simp)
      simp [h120, h88]
    · rfl
  unfold strtoull
  rw [hspace, hsign]
  show (if Hex.value (skipPrefix (text ++ List.replicate k 0)) < 2 ^ 64 then _ else _) = _
  rw [hskip, if_pos hlt]
  rfl

theorem takeWhile_zeros (k : Nat) :
    (List.replicate k (0 : UInt8)).takeWhile Hex.isDigit = [] := by
  cases k with
  | zero => rfl
  | succ k => rw [List.replicate_succ, List.takeWhile_cons_of_neg (by decide)]

theorem strtoull_zeroHex (i : UInt32) (width k : Nat) :
    strtoull ((Format.zeroHex width).print i ++ List.replicate k 0) = .ofNat i.toNat := by
  have hvalue : Hex.value ((Format.zeroHex width).print i ++ List.replicate k 0) = i.toNat :=
    Hex.value_pad i.toNat width (takeWhile_zeros k)
  have hlt : i.toNat < 2 ^ 64 := Nat.lt_of_lt_of_le i.toNat_lt (by decide)
  have hne : (Format.zeroHex width).print i ≠ [] := by
    intro hnil
    have hdigits := (List.append_eq_nil_iff.1 hnil).2
    exact Nat.toDigits_ne_nil (List.map_eq_nil_iff.1 hdigits)
  have hdigits : ∀ c ∈ (Format.zeroHex width).print i, Hex.isDigit c = true := by
    intro c hc
    cases List.mem_append.1 hc with
    | inl hc =>
      rw [(List.mem_replicate.1 hc).2]
      decide
    | inr hc => exact Hex.isDigit_of_mem i.toNat c hc
  rw [strtoull_digits hne hdigits k (hvalue.symm ▸ hlt), hvalue]

theorem strtoull_spaceHex (i : UInt32) (width k : Nat) :
    strtoull ((Format.spaceHex width).print i ++ List.replicate k 0) = .ofNat i.toNat := by
  -- `strtoull` passes over the spaces
  have hspaces : ∀ n (text : List UInt8),
      strtoull (List.replicate n 32 ++ text) = strtoull text := by
    intro n text
    have hall : ∀ c ∈ List.replicate n (32 : UInt8), isspace c = true := by
      intro c hc
      rw [(List.mem_replicate.1 hc).2]
      decide
    rw [strtoull, List.dropWhile_append_of_pos hall, strtoull]
  have hvalue : Hex.value (Hex.digits i.toNat ++ List.replicate k 0) = i.toNat :=
    Hex.value_digits i.toNat (takeWhile_zeros k)
  have hlt : i.toNat < 2 ^ 64 := Nat.lt_of_lt_of_le i.toNat_lt (by decide)
  have hne : Hex.digits i.toNat ≠ [] := by
    intro hnil
    exact Nat.toDigits_ne_nil (List.map_eq_nil_iff.1 hnil)
  show strtoull (Hex.pad 32 width (Hex.digits i.toNat) ++ List.replicate k 0) = _
  rw [Hex.pad, List.append_assoc, hspaces,
    strtoull_digits hne (Hex.isDigit_of_mem i.toNat) k (hvalue.symm ▸ hlt), hvalue]

/-! ### What a key keeps -/

/-- What a key keeps of a value: the lower half of a number of 64 bits. -/
def FixedField.low : FixedField → FixedField
  | .u64 i => .u64 i.toUInt32.toUInt64
  | x => x

def FixedField.Narrow : FixedField → Prop
  | .u64 i => i.toNat < 2 ^ 32
  | _ => True

instance (x : FixedField) : Decidable x.Narrow := by
  cases x <;> unfold FixedField.Narrow <;> infer_instance

mutual

/-- What a key keeps of a field. -/
def Field.low : Field → Field
  | .fixed x => .fixed x.low
  | .object fields => .object (allLow fields)
  | .vector builder elems => .vector builder (allLow elems)
  | f => f

def allLow : SerializableObject → SerializableObject
  | [] => []
  | f :: o => f.low :: allLow o

end

@[simp] theorem length_allLow (o : SerializableObject) : (allLow o).length = o.length := by
  induction o with
  | nil => rfl
  | cons f o ih => rw [allLow, List.length_cons, List.length_cons, ih]

mutual

/-- No number of 64 bits in the field uses its upper half. -/
def Field.Narrow : Field → Prop
  | .fixed x => x.Narrow
  | .object fields => AllNarrow fields
  | .vector _ elems => AllNarrow elems
  | _ => True

def AllNarrow : SerializableObject → Prop
  | [] => True
  | f :: o => f.Narrow ∧ AllNarrow o

end

mutual

/-- The field is as `KeyUnmarshal` takes it: carriers and vectors are empty. -/
def Field.Blank : Field → Prop
  | .fixed _ => True
  | .carrier c => c.buf_ = none
  | .terminated c _ => c.buf_ = none
  | .string _ => True
  | .object fields => AllBlank fields
  | .vector builder elems => builder.Blank ∧ elems = []

def AllBlank : SerializableObject → Prop
  | [] => True
  | f :: o => f.Blank ∧ AllBlank o

end

theorem AllBlank.mem {o : SerializableObject} (h : AllBlank o) : ∀ f ∈ o, f.Blank := by
  induction o with
  | nil => simp
  | cons g o ih =>
    intro f hf
    cases List.mem_cons.mp hf with
    | inl hfg => exact hfg ▸ h.1
    | inr hfo => exact ih h.2 f hfo

/-! ### What KeyUnmarshal reads -/

namespace KeyUnmarshal

variable {u : KeyUnmarshal} {border : Option (List UInt8)} {bytes rest : List UInt8}

/-- No error was signalled, and `rest` is what is left of the key. -/
structure At (u : KeyUnmarshal) (border : Option (List UInt8)) (rest : List UInt8) : Prop where
  error : u.error_ = false
  border : u.border_len_.toNat = (borderText border).length
  cur : u.cur_.toNat + rest.length = u.buf_len_.toNat
  pointee : ∃ more, u.pointee = rest ++ more

theorem At.fits (h : At u border (bytes ++ rest)) {n : UInt32} (hn : bytes.length = n.toNat) :
    (u.cur_ + n).toNat = u.cur_.toNat + n.toNat ∧ ¬ u.cur_ + n > u.buf_len_ := by
  have hcur := h.cur
  rw [List.length_append] at hcur
  have hlt := u.buf_len_.toNat_lt
  have hadd : (u.cur_ + n).toNat = u.cur_.toNat + n.toNat := by
    rw [UInt32.toNat_add, Nat.mod_eq_of_lt (by omega)]
  refine ⟨hadd, ?_⟩
  rw [gt_iff_lt, UInt32.lt_iff_toNat_lt, hadd]
  omega

theorem At.read (h : At u border (bytes ++ rest)) {n : Nat} (hn : bytes.length = n) :
    readBytes (some u.pointee) n = .ok bytes := by
  obtain ⟨more, hpointee⟩ := h.pointee
  rw [hpointee, List.append_assoc, readBytes, if_pos (by rw [List.length_append]; omega), ← hn,
    List.take_left]

theorem At.skip (h : At u border (bytes ++ rest)) {n : UInt32} (hn : bytes.length = n.toNat) :
    At (u.skip n) border rest := by
  obtain ⟨hadd, -⟩ := h.fits hn
  refine ⟨h.error, h.border, ?_, ?_⟩
  · have hcur := h.cur
    rw [List.length_append] at hcur
    show (u.cur_ + n).toNat + rest.length = u.buf_len_.toNat
    omega
  · obtain ⟨more, hpointee⟩ := h.pointee
    refine ⟨more, ?_⟩
    show u.buf_.drop (u.cur_ + n).toNat = rest ++ more
    rw [hadd, ← List.drop_drop]
    show u.pointee.drop n.toNat = rest ++ more
    rw [hpointee, List.append_assoc, ← hn, List.drop_left]

theorem At.skip_border (h : At u border (borderText border ++ rest)) : At u.border border rest :=
  h.skip h.border.symm

theorem At.processInt {text : List UInt8} (h : At u border (text ++ rest)) (size : UInt32)
    (hsize : text.length = size.toNat) {i : UInt32}
    (hvalue : strtoull (text ++ List.replicate (9 - size.toNat) 0) = .ofNat i.toNat) :
    u.processInt size = .ok (u.skip size, i) ∧ At (u.skip size) border rest := by
  refine ⟨?_, h.skip hsize⟩
  have hi : (UInt64.ofNat i.toNat).toUInt32 = i := by simp
  unfold KeyUnmarshal.processInt
  rw [if_neg (h.fits hsize).2, h.read hsize]
  show Except.ok (u.skip size, (strtoull _).toUInt32) = _
  rw [hvalue, hi]

theorem At.processInt64 {text : List UInt8} (h : At u border (text ++ rest))
    (hsize : text.length = (16 : UInt32).toNat) {i : UInt64}
    (hvalue : strtoull (text ++ List.replicate 16 0) = i) :
    u.processInt64 = .ok (u.skip 16, i) ∧ At (u.skip 16) border rest := by
  refine ⟨?_, h.skip hsize⟩
  unfold KeyUnmarshal.processInt64
  rw [if_neg (h.fits hsize).2, h.read hsize]
  exact congrArg (fun i => Except.ok (u.skip 16, i)) hvalue

private theorem texts_pair (p : Piece) (rest : List UInt8) :
    texts border [p, .border] ++ rest = p.text border ++ (borderText border ++ rest) := by
  rw [texts_cons, texts_cons, texts_nil, List.append_nil, List.append_assoc]
  rfl

private theorem At.processBool {b : Bool}
    (h : At u border ((fixedPiece (.bool b)).text border ++ rest)) (b' : Bool) :
    u.processBool b' = .ok ((u.skip 1).border, b) ∧ At (u.skip 1) border rest := by
  have htext : (fixedPiece (.bool b)).text border = [if b then 49 else 48] := by
    cases b <;> rfl
  rw [htext] at h
  have hlen : [if b then (49 : UInt8) else 48].length = (1 : UInt32).toNat := rfl
  obtain ⟨more, hpointee⟩ := h.pointee
  refine ⟨?_, h.skip hlen⟩
  unfold KeyUnmarshal.processBool
  rw [h.error, if_neg (by decide), if_neg (h.fits hlen).2, hpointee]
  cases b <;> rfl

private theorem At.processBuf {bp bq : FixedBuffer} (h : At u border (bp.bytes ++ rest))
    (hlength : bp.bytes.length = bq.bytes.length) :
    u.processBuf bq = .ok ((u.skip (.ofNat bq.bytes.length)).border, bp) ∧
      At (u.skip (.ofNat bq.bytes.length)) border rest := by
  have hlen : bp.bytes.length = (UInt32.ofNat bq.bytes.length).toNat := by
    rw [UInt32.toNat_ofNat_of_lt' bq.fits, hlength]
  have hload : Unmarshal.loadBuf bq u.pointee = .ok bp := by
    have hread := h.read hlength
    unfold readBytes at hread
    unfold Unmarshal.loadBuf
    dsimp only at hread
    split at hread
    · rename_i hle
      have htake : u.pointee.take bq.bytes.length = bp.bytes := Except.ok.inj hread
      rw [if_pos hle]
      simp only [htake]
    · cases hread
  refine ⟨?_, h.skip hlen⟩
  unfold KeyUnmarshal.processBuf
  rw [h.error, if_neg (by decide), if_neg (h.fits hlen).2, hload]
  rfl

theorem At.processFixed {x y : FixedField} (hxy : x.SameType y)
    (h : At u border (texts border [fixedPiece x, .border] ++ rest)) :
    ∃ u', u.processFixed y = .ok (u', x.low) ∧ At u' border rest := by
  rw [texts_pair] at h
  cases x with
  | u64 i =>
    cases y with
    | u64 j =>
      -- 16 digits are read back, of which only the low 8 were written
      have hvalue : strtoull ((Format.spaceHex 16).print i.toUInt32 ++ List.replicate 16 0) =
          i.toUInt32.toUInt64 := by
        rw [strtoull_spaceHex]
        apply UInt64.toNat_inj.1
        have hlt := i.toUInt32.toNat_lt
        rw [UInt64.toNat_ofNat', UInt32.toNat_toUInt64]
        omega
      obtain ⟨hread, hat⟩ := h.processInt64 (KeyMarshal.length_spaceHex _) hvalue
      refine ⟨_, ?_, hat.skip_border⟩
      unfold KeyUnmarshal.processFixed
      rw [hread]
      show Except.ok ((u.skip 16).border, FixedField.u64 (if (u.skip 16).error_ then j else _)) = _
      rw [hat.error]
      rfl
    | _ => exact hxy.elim
  | u32 i =>
    cases y with
    | u32 j =>
      obtain ⟨hread, hat⟩ := h.processInt 8 (KeyMarshal.length_zeroHex_eight i)
        (strtoull_zeroHex i 8 _)
      refine ⟨_, ?_, hat.skip_border⟩
      unfold KeyUnmarshal.processFixed
      rw [hread]
      show Except.ok ((u.skip 8).border, FixedField.u32 (if (u.skip 8).error_ then j else i)) = _
      rw [hat.error]
      rfl
    | _ => exact hxy.elim
  | u16 i =>
    cases y with
    | u16 j =>
      obtain ⟨hread, hat⟩ := h.processInt 4 (KeyMarshal.length_zeroHex_four i)
        (strtoull_zeroHex i.toUInt32 4 _)
      refine ⟨_, ?_, hat.skip_border⟩
      unfold KeyUnmarshal.processFixed
      rw [hread]
      show Except.ok ((u.skip 4).border,
        FixedField.u16 (if (u.skip 4).error_ then j else i.toUInt32.toUInt16)) = _
      rw [hat.error, UInt16.toUInt16_toUInt32]
      rfl
    | _ => exact hxy.elim
  | u8 i =>
    cases y with
    | u8 j =>
      obtain ⟨hread, hat⟩ := h.processInt 2 (KeyMarshal.length_zeroHex_two i)
        (strtoull_zeroHex i.toUInt32 2 _)
      refine ⟨_, ?_, hat.skip_border⟩
      unfold KeyUnmarshal.processFixed
      rw [hread]
      show Except.ok ((u.skip 2).border,
        FixedField.u8 (if (u.skip 2).error_ then j else i.toUInt32.toUInt8)) = _
      rw [hat.error, UInt8.toUInt8_toUInt32]
      rfl
    | _ => exact hxy.elim
  | bool b =>
    cases y with
    | bool b' =>
      obtain ⟨hread, hat⟩ := h.processBool b'
      refine ⟨_, ?_, hat.skip_border⟩
      show (u.processBool b' >>= _) = _
      rw [hread]
      rfl
    | _ => exact hxy.elim
  | buf bp =>
    cases y with
    | buf bq =>
      obtain ⟨hread, hat⟩ := At.processBuf h hxy
      refine ⟨_, ?_, hat.skip_border⟩
      show (u.processBuf bq >>= _) = _
      rw [hread]
      rfl
    | _ => exact hxy.elim

private theorem toNat_ofNat {n : Nat} (h : n < 2 ^ 32) : (UInt32.ofNat n).toNat = n :=
  UInt32.toNat_ofNat_of_lt' h

private theorem texts_counted (data rest : List UInt8) :
    texts border (countedPieces data) ++ rest =
      lenText data.length ++ (data ++ (borderText border ++ rest)) := by
  rw [countedPieces, texts_cons, List.append_assoc, texts_pair]
  rfl

private theorem At.processLen {n : Nat} (h : At u border (lenText n ++ rest)) :
    u.processInt 8 = .ok (u.skip 8, .ofNat n) ∧ At (u.skip 8) border rest := by
  have hvalue := strtoull_zeroHex (.ofNat n) 8 (9 - (8 : UInt32).toNat)
  exact h.processInt 8 (KeyMarshal.length_zeroHex_eight _) hvalue

private theorem At.length_lt {data : List UInt8}
    (h : At u border (lenText data.length ++ (data ++ rest))) : data.length + 8 < 2 ^ 32 := by
  have hcur := h.cur
  have hlt := u.buf_len_.toNat_lt
  have hlen : (lenText data.length).length = 8 := KeyMarshal.length_zeroHex_eight _
  rw [List.length_append, List.length_append, hlen] at hcur
  omega

theorem At.fillCarrier {data : List UInt8}
    (h : At u border (texts border (countedPieces data) ++ rest)) {c : BufferCarrier}
    (hc : c.buf_ = none) (tail : List UInt8) (htail : tail.length ≤ 1) :
    ∃ u', u.fillCarrier c tail = .ok (u', ⟨some (data ++ tail), data.length + tail.length⟩) ∧
      At u' border rest := by
  rw [texts_counted] at h
  have hlt := h.length_lt
  obtain ⟨hread, hat⟩ := h.processLen
  have hlen : data.length = (UInt32.ofNat data.length).toNat :=
    (toNat_ofNat (by omega)).symm
  have hsum : (UInt32.ofNat data.length + .ofNat tail.length).toNat =
      data.length + tail.length := by
    rw [UInt32.toNat_add, ← hlen, toNat_ofNat (by omega),
      Nat.mod_eq_of_lt (by omega)]
  refine ⟨_, ?_, (hat.skip hlen).skip_border⟩
  unfold KeyUnmarshal.fillCarrier
  simp only [hc, Option.isNone_none, assert_true, h.error, hread, bind, Except.bind, pure,
    Except.pure, Bool.false_eq_true, if_false, (hat.fits hlen).2, hat.read hlen, hsum,
    BufferCarrier.setBuf]

theorem At.processString {data : List UInt8}
    (h : At u border (texts border (countedPieces data) ++ rest)) (str : List UInt8) :
    ∃ u', u.processString str = .ok (u', data) ∧ At u' border rest := by
  rw [texts_counted] at h
  have hlt := h.length_lt
  obtain ⟨hread, hat⟩ := h.processLen
  have hlen : data.length = (UInt32.ofNat data.length).toNat :=
    (toNat_ofNat (by omega)).symm
  refine ⟨_, ?_, (hat.skip hlen).skip_border⟩
  unfold KeyUnmarshal.processString
  simp only [h.error, hread, bind, Except.bind, pure, Except.pure, Bool.false_eq_true, if_false,
    hat.error, hat.read hlen]

private theorem At.processObject {α : Type} (x : α)
    (serialize : KeyUnmarshal → Except Fault (KeyUnmarshal × α)) {x' : α} {u' : KeyUnmarshal}
    (herr : u.error_ = false)
    (hserialize : serialize { u with error_ := false } = .ok (u', x'))
    (hat : At u' border (texts border [.nul, .border] ++ rest)) :
    u.processObject x serialize = .ok (u'.border, x') ∧ At u'.border border rest := by
  have htexts : texts border [.nul, .border] ++ rest = borderText border ++ rest := by
    rw [texts_cons, texts_cons, texts_nil, List.append_nil]
    rfl
  rw [htexts] at hat
  refine ⟨?_, hat.skip_border⟩
  unfold KeyUnmarshal.processObject
  rw [herr, if_neg (by decide), hserialize]
  rfl

/-- A field is read back as what its key keeps. -/
def ReadsBack (border : Option (List UInt8)) (f : Field) : Prop :=
  ∀ (p : Field) (u : KeyUnmarshal) (rest : List UInt8), f.SameType p → p.Blank →
    At u border (texts border (pieces f) ++ rest) →
      ∃ u' g, u.process p = .ok (u', g) ∧ At u' border rest ∧ f.low.Same g

private theorem processAll_of {o p : SerializableObject} (ho : ∀ f ∈ o, ReadsBack border f)
    (hop : AllSameType o p) (hp : AllBlank p)
    (h : At u border (texts border (allPieces o) ++ rest)) :
    ∃ u' res, u.processAll p = .ok (u', res) ∧ At u' border rest ∧ AllSame (allLow o) res := by
  induction o generalizing u p with
  | nil =>
    obtain rfl : p = [] := hop
    exact ⟨u, [], rfl, h, rfl⟩
  | cons f o ih =>
    obtain ⟨g, p, rfl, hfg, hop⟩ := hop
    rw [allPieces, texts_append, List.append_assoc] at h
    obtain ⟨u₁, f', hread, hat, hsame⟩ := ho f List.mem_cons_self g u _ hfg hp.1 h
    obtain ⟨u₂, res, hreads, hat', hsames⟩ :=
      ih (fun f' hf' => ho f' (List.mem_cons_of_mem f hf')) hop hp.2 hat
    refine ⟨u₂, f' :: res, ?_, hat', f', res, rfl, hsame, hsames⟩
    unfold KeyUnmarshal.processAll
    rw [hread]
    show (u₁.processAll p >>= _) = _
    rw [hreads]
    rfl

private theorem processEach_of {elems : List Field} {builder : Field}
    (helems : ∀ e ∈ elems, ReadsBack border e) (htype : EachSameType elems builder)
    (hblank : builder.Blank) (h : At u border (texts border (allPieces elems) ++ rest)) :
    ∃ u' res, processEach (fun u => process u builder) elems.length u = .ok (u', res) ∧
      At u' border rest ∧ AllSame (allLow elems) res := by
  induction elems generalizing u with
  | nil => exact ⟨u, [], rfl, h, rfl⟩
  | cons e elems ih =>
    rw [allPieces, texts_append, List.append_assoc] at h
    obtain ⟨u₁, e', hread, hat, hsame⟩ :=
      helems e List.mem_cons_self builder u _ htype.1 hblank h
    obtain ⟨u₂, res, hreads, hat', hsames⟩ :=
      ih (fun e' he' => helems e' (List.mem_cons_of_mem e he')) htype.2 hat
    refine ⟨u₂, e' :: res, ?_, hat', e', res, rfl, hsame, hsames⟩
    rw [List.length_cons]
    unfold processEach
    rw [hread]
    show (processEach (fun u => process u builder) elems.length u₁ >>= _) = _
    rw [hreads]
    rfl

/-- The `serialize` of an empty vector. -/
def serializeVector (builder : Field) (u : KeyUnmarshal) :
    Except Fault (KeyUnmarshal × List Field) := do
  let (u, sz) ← u.processInt 8
  let sz := if u.error_ then .ofNat ([] : List Field).length else sz
  let (u, new) ← processEach (fun u => process u builder) sz.toNat u.border
  assert (([] ++ new).length = sz.toNat)
  return (u, [] ++ new)

theorem readsBack (border : Option (List UInt8)) (f : Field) (hf : f.Fits) :
    ReadsBack border f := by
  induction f using Field.ind with
  | fixed x =>
    intro p u rest hfp _ h
    obtain ⟨y, rfl, hxy⟩ := hfp
    obtain ⟨u', hread, hat⟩ := h.processFixed hxy
    refine ⟨u', .fixed x.low, ?_, hat, rfl⟩
    show (u.processFixed y >>= _) = _
    rw [hread]
    rfl
  | carrier c =>
    intro p u rest hfp hp h
    obtain ⟨d, rfl⟩ := hfp
    obtain ⟨-, data, hdata⟩ := hf
    rw [pieces, bytes_of_readBytes hdata] at h
    obtain ⟨u', hread, hat⟩ := h.fillCarrier hp [] (Nat.zero_le 1)
    refine ⟨u', .carrier ⟨some (data ++ []), data.length⟩, ?_, hat, _, rfl, ?_, ?_⟩
    · show (u.fillCarrier d [] >>= _) = _
      rw [hread]
      rfl
    · exact (length_of_readBytes hdata).symm
    · rw [hdata, List.append_nil, readBytes_self]
  | terminated c t =>
    intro p u rest hfp hp h
    obtain ⟨d, rfl⟩ := hfp
    obtain ⟨data, mem, hbuf, hdata, hlen⟩ := hf
    rw [pieces, hbuf, Option.getD_some, KeyMarshal.takeWhile_terminator hdata] at h
    obtain ⟨u', hread, hat⟩ := h.fillCarrier hp [t] le_rfl
    refine ⟨u', .terminated ⟨some (data ++ [t]), data.length + 1⟩ t, ?_, hat, _, rfl, hlen, ?_⟩
    · show (u.fillCarrier d [t] >>= _) = _
      rw [hread]
      rfl
    · rw [hbuf, Option.map_some, Option.map_some, throughTerminator_append hdata,
        throughTerminator_append hdata]
  | string str =>
    intro p u rest hfp _ h
    obtain ⟨str', rfl⟩ := hfp
    obtain ⟨u', hread, hat⟩ := h.processString str'
    refine ⟨u', .string str, ?_, hat, rfl⟩
    show (u.processString str' >>= _) = _
    rw [hread]
    rfl
  | object fields ih =>
    intro p u rest hfp hp h
    obtain ⟨fields', rfl, hfields⟩ := hfp
    rw [pieces, texts_append, List.append_assoc] at h
    -- the error flag is cleared for the fields of the object
    have hstart : At { u with error_ := false } border _ := ⟨rfl, h.border, h.cur, h.pointee⟩
    obtain ⟨u', res, hreads, hat, hsames⟩ :=
      processAll_of (fun f hmem => ih f hmem (AllFit.mem hf f hmem)) hfields hp hstart
    obtain ⟨hread, hat'⟩ :=
      At.processObject fields' (fun u => u.processAll fields') h.error hreads hat
    refine ⟨_, .object res, ?_, hat', res, rfl, hsames⟩
    show (u.processObject fields' _ >>= _) = _
    rw [hread]
    rfl
  | vector builder elems _ ih =>
    intro p u rest hfp hp h
    obtain ⟨builder', elems', rfl, htype⟩ := hfp
    obtain ⟨hblank, rfl⟩ := hp
    rw [pieces, texts_append, texts_append, List.append_assoc, List.append_assoc, texts_pair] at h
    -- the number of elements, and then the elements
    have hstart : At { u with error_ := false } border _ := ⟨rfl, h.border, h.cur, h.pointee⟩
    obtain ⟨hcount, hat⟩ := hstart.processLen
    obtain ⟨u', res, hreads, hat', hsames⟩ :=
      processEach_of (fun e hmem => ih e hmem (AllFit.mem hf.2 e hmem)) htype hblank
        hat.skip_border
    have hlength : res.length = elems.length := by
      rw [hsames.length_eq, length_allLow]
    have hserialize : serializeVector builder' { u with error_ := false } = .ok (u', res) := by
      have hsz : (UInt32.ofNat elems.length).toNat = elems.length := toNat_ofNat hf.1
      unfold serializeVector
      rw [hcount]
      show (processEach _ (if (KeyUnmarshal.skip _ 8).error_ then _ else
        UInt32.ofNat elems.length).toNat _ >>= _) = _
      rw [hat.error, if_neg (by decide), hsz, hreads]
      show (assert (([] ++ res).length = elems.length) >>= _) = _
      rw [List.nil_append, decide_eq_true hlength]
      rfl
    obtain ⟨hread, hat''⟩ :=
      At.processObject [] (serializeVector builder') h.error hserialize hat'
    refine ⟨_, .vector builder' res, ?_, hat'', builder', res, rfl, hsames⟩
    have hvector : u.process (.vector builder' []) =
        u.processObject [] (serializeVector builder') >>= fun r =>
          pure (r.1, .vector builder' r.2) := rfl
    rw [hvector, hread]
    rfl

theorem action_readsBack {o p : SerializableObject} (ho : AllFit o) (hop : AllSameType o p)
    (hp : AllBlank p) (border : Option (List UInt8)) {buf_len : UInt32}
    (hlen : buf_len.toNat = (Key.encodeAll border o).length) (more : List UInt8) :
    ∃ u' res, (new (Key.encodeAll border o ++ more) buf_len border).action p = .ok (0, u', res) ∧
      AllSame (allLow o) res := by
  -- the length of the border is kept in 32 bits, and so is the text that is taken for it
  have hborder : (new (Key.encodeAll border o ++ more) buf_len border).border_len_.toNat =
      (borderText border).length := by
    cases border with
    | none => rfl
    | some text =>
      show (UInt32.ofNat text.length).toNat = (text.take (UInt32.ofNat text.length).toNat).length
      rw [List.length_take, UInt32.toNat_ofNat']
      exact (Nat.min_eq_left (Nat.mod_le ..)).symm
  have hat : At { new (Key.encodeAll border o ++ more) buf_len border with error_ := false } border
      (texts border (allPieces o) ++ []) := by
    rw [List.append_nil]
    exact ⟨rfl, hborder, (Nat.zero_add _).trans hlen.symm, more, rfl⟩
  obtain ⟨u', res, hreads, hat', hsames⟩ :=
    processAll_of (fun f hf => readsBack border f (AllFit.mem ho f hf)) hop hp hat
  refine ⟨u', res, ?_, hsames⟩
  unfold action
  rw [hreads]
  show Except.ok (if u'.error_ then -1 else 0, u', res) = _
  rw [hat'.error]
  rfl

end KeyUnmarshal

/-! ### What is recovered -/

theorem FixedField.low_eq_iff (x : FixedField) : x.low = x ↔ x.Narrow := by
  cases x with
  | u64 i =>
    have hlow : i.toUInt32.toUInt64 = i ↔ i.toNat < 2 ^ 32 := by
      rw [← UInt64.toNat_inj, UInt32.toNat_toUInt64, UInt64.toNat_toUInt32]
      omega
    simpa [low, Narrow] using hlow
  | _ => exact iff_of_true rfl trivial

private theorem allSame_iff_of {o : SerializableObject}
    (ho : ∀ f ∈ o, ∀ g, f.low.Same g → (f.Same g ↔ f.Narrow)) :
    ∀ res, AllSame (allLow o) res → (AllSame o res ↔ AllNarrow o) := by
  induction o with
  | nil => exact fun res hres => iff_of_true hres trivial
  | cons f o ih =>
    intro res hres
    obtain ⟨g, res, rfl, hg, hres⟩ := hres
    rw [allSame_cons, ho f List.mem_cons_self g hg,
      ih (fun f' hf' => ho f' (List.mem_cons_of_mem f hf')) res hres]
    rfl

theorem Field.same_iff (f : Field) : ∀ g, f.low.Same g → (f.Same g ↔ f.Narrow) := by
  induction f using Field.ind with
  | fixed x =>
    intro g hg
    obtain rfl : g = .fixed x.low := hg
    show Field.fixed x.low = .fixed x ↔ x.Narrow
    rw [Field.fixed.injEq, FixedField.low_eq_iff]
  | carrier c => exact fun g hg => iff_of_true hg trivial
  | terminated c t => exact fun g hg => iff_of_true hg trivial
  | string str => exact fun g hg => iff_of_true hg trivial
  | object fields ih =>
    intro g hg
    obtain ⟨fields', rfl, hsame⟩ := hg
    have hiff := allSame_iff_of ih fields' hsame
    constructor
    · intro ⟨_, heq, hfields⟩
      cases heq
      exact hiff.1 hfields
    · exact fun hnarrow => ⟨fields', rfl, hiff.2 hnarrow⟩
  | vector builder elems _ ih =>
    intro g hg
    obtain ⟨builder', elems', rfl, hsame⟩ := hg
    have hiff := allSame_iff_of ih elems' hsame
    constructor
    · intro ⟨_, _, heq, helems⟩
      cases heq
      exact hiff.1 helems
    · exact fun hnarrow => ⟨builder', elems', rfl, hiff.2 hnarrow⟩

theorem allSame_iff {o res : SerializableObject} (h : AllSame (allLow o) res) :
    AllSame o res ↔ AllNarrow o :=
  allSame_iff_of (fun f _ => f.same_iff) res h

private theorem AllSame.euclid_of {o : SerializableObject}
    (ho : ∀ f ∈ o, ∀ g r, f.Same r → g.Same r → f.Same g) :
    ∀ o' res, AllSame o res → AllSame o' res → AllSame o o' := by
  induction o with
  | nil =>
    intro o' res hres hres'
    obtain rfl : res = [] := hres
    cases o' with
    | nil => rfl
    | cons g o' =>
      obtain ⟨_, _, hnil, -⟩ := hres'
      cases hnil
  | cons f o ih =>
    intro o' res hres hres'
    obtain ⟨r, res, rfl, hr, hres⟩ := hres
    cases o' with
    | nil => cases hres'
    | cons g o' =>
      rw [allSame_cons] at hres'
      exact ⟨g, o', rfl, ho f List.mem_cons_self g r hr hres'.1,
        ih (fun f' hf' => ho f' (List.mem_cons_of_mem f hf')) o' res hres hres'.2⟩

theorem Field.Same.euclid (f : Field) : ∀ g r, f.Same r → g.Same r → f.Same g := by
  -- a field of another kind than `f` cannot be equal to what `f` is equal to
  induction f using Field.ind with
  | fixed x =>
    intro g r hf hg
    obtain rfl : r = .fixed x := hf
    cases g with
    | fixed y => exact hg.symm
    | string str => cases hg
    | _ => simp [Field.Same] at hg
  | carrier c =>
    intro g r hf hg
    obtain ⟨d, rfl, hlen, hread⟩ := hf
    cases g with
    | carrier c' =>
      obtain ⟨d', heq, hlen', hread'⟩ := hg
      cases heq
      exact ⟨c', rfl, hlen.trans hlen'.symm, hread.trans hread'.symm⟩
    | fixed y => cases hg
    | string str => cases hg
    | _ => simp [Field.Same] at hg
  | terminated c t =>
    intro g r hf hg
    obtain ⟨d, rfl, hlen, hbuf⟩ := hf
    cases g with
    | terminated c' t' =>
      obtain ⟨d', heq, hlen', hbuf'⟩ := hg
      cases heq
      exact ⟨c', rfl, hlen.trans hlen'.symm, hbuf.trans hbuf'.symm⟩
    | fixed y => cases hg
    | string str => cases hg
    | _ => simp [Field.Same] at hg
  | string str =>
    intro g r hf hg
    obtain rfl : r = .string str := hf
    cases g with
    | string str' => exact hg.symm
    | fixed y => cases hg
    | _ => simp [Field.Same] at hg
  | object fields ih =>
    intro g r hf hg
    obtain ⟨res, rfl, hsame⟩ := hf
    cases g with
    | object fields' =>
      obtain ⟨_, heq, hsame'⟩ := hg
      cases heq
      exact ⟨fields', rfl, AllSame.euclid_of ih fields' res hsame hsame'⟩
    | fixed y => cases hg
    | string str => cases hg
    | _ => simp [Field.Same] at hg
  | vector builder elems _ ih =>
    intro g r hf hg
    obtain ⟨builder', res, rfl, hsame⟩ := hf
    cases g with
    | vector builder'' elems' =>
      obtain ⟨_, _, heq, hsame'⟩ := hg
      cases heq
      exact ⟨builder'', elems', rfl, AllSame.euclid_of ih elems' res hsame hsame'⟩
    | fixed y => cases hg
    | string str => cases hg
    | _ => simp [Field.Same] at hg

theorem AllSame.euclid {o o' res : SerializableObject} (h : AllSame o res)
    (h' : AllSame o' res) : AllSame o o' :=
  AllSame.euclid_of (fun f _ => Field.Same.euclid f) o' res h h'

/-! ### Equal keys -/

theorem Key.fixedPiece_low (x : FixedField) : fixedPiece x.low = fixedPiece x := by
  cases x with
  | u64 i =>
    show Piece.int ((Format.spaceHex 16).print i.toUInt32.toUInt64.toUInt32) = _
    rw [UInt32.toUInt32_toUInt64]
    rfl
  | _ => rfl

private theorem Key.allPieces_eq_of {o : SerializableObject}
    (ho : ∀ f ∈ o, ∀ g, f.Fits → g.Fits → f.low.Same g.low → pieces f = pieces g) :
    ∀ o', AllFit o → AllFit o' → AllSame (allLow o) (allLow o') → allPieces o = allPieces o' := by
  induction o with
  | nil =>
    intro o' _ _ hsame
    cases o' with
    | nil => rfl
    | cons g o' => cases hsame
  | cons f o ih =>
    intro o' hfit hfit' hsame
    cases o' with
    | nil =>
      obtain ⟨_, _, hnil, -⟩ := hsame
      cases hnil
    | cons g o' =>
      obtain ⟨hfg, hsame⟩ := allSame_cons.1 hsame
      rw [allPieces, allPieces, ho f List.mem_cons_self g hfit.1 hfit'.1 hfg,
        ih (fun f' hf' => ho f' (List.mem_cons_of_mem f hf')) o' hfit.2 hfit'.2 hsame]

theorem Key.pieces_eq (f : Field) : ∀ g, f.Fits → g.Fits → f.low.Same g.low →
    pieces f = pieces g := by
  -- what the key keeps of a field decides its pieces
  induction f using Field.ind with
  | fixed x =>
    intro g _ _ hsame
    cases g with
    | fixed y =>
      have hxy : y.low = x.low := Field.fixed.inj hsame
      rw [pieces, pieces, ← fixedPiece_low x, ← fixedPiece_low y, hxy]
    | _ => cases hsame
  | carrier c =>
    intro g hf _ hsame
    cases g with
    | carrier d =>
      obtain ⟨_, heq, hlen, hread⟩ := hsame
      cases heq
      obtain ⟨-, data, hdata⟩ := hf
      rw [pieces, pieces, bytes_of_readBytes hdata, bytes_of_readBytes (hread ▸ hdata)]
    | _ =>
      obtain ⟨_, heq, -⟩ := hsame
      cases heq
  | terminated c t =>
    intro g hf hg hsame
    cases g with
    | terminated d t' =>
      obtain ⟨_, heq, -, hbuf⟩ := hsame
      cases heq
      obtain ⟨data, mem, hc, hdata, -⟩ := hf
      obtain ⟨data', mem', hd, hdata', -⟩ := hg
      rw [hc, hd, Option.map_some, Option.map_some, throughTerminator_append hdata,
        throughTerminator_append hdata'] at hbuf
      have heq : data = data' := List.append_cancel_right (Option.some.inj hbuf)
      rw [pieces, pieces, hc, hd, Option.getD_some, Option.getD_some,
        KeyMarshal.takeWhile_terminator hdata, KeyMarshal.takeWhile_terminator hdata', heq]
    | _ =>
      obtain ⟨_, heq, -⟩ := hsame
      cases heq
  | string str =>
    intro g _ _ hsame
    cases g with
    | string str' =>
      cases hsame
      rfl
    | _ => cases hsame
  | object fields ih =>
    intro g hf hg hsame
    cases g with
    | object fields' =>
      obtain ⟨_, heq, hsame⟩ := hsame
      cases heq
      rw [pieces, pieces, allPieces_eq_of ih fields' hf hg hsame]
    | _ =>
      obtain ⟨_, heq, -⟩ := hsame
      cases heq
  | vector builder elems _ ih =>
    intro g hf hg hsame
    cases g with
    | vector builder' elems' =>
      obtain ⟨_, _, heq, hsame⟩ := hsame
      cases heq
      have hlength : elems.length = elems'.length := by
        rw [← length_allLow elems, ← length_allLow elems', hsame.length_eq]
      rw [pieces, pieces, allPieces_eq_of ih elems' hf.2 hg.2 hsame, hlength]
    | _ =>
      obtain ⟨_, _, heq, -⟩ := hsame
      cases heq

theorem Key.encodeAll_eq_iff {o o' p : SerializableObject} (ho : AllFit o) (ho' : AllFit o')
    (hop : AllSameType o p) (hop' : AllSameType o' p) (hp : AllBlank p)
    {border : Option (List UInt8)} (hlen : (encodeAll border o).length < 2 ^ 32) :
    encodeAll border o = encodeAll border o' ↔ AllSame (allLow o) (allLow o') := by
  constructor
  · intro heq
    -- what is read back from one key is what either object kept
    have hbuf : (UInt32.ofNat (encodeAll border o).length).toNat = (encodeAll border o).length :=
      UInt32.toNat_ofNat_of_lt' hlen
    obtain ⟨u, res, hread, hsame⟩ :=
      KeyUnmarshal.action_readsBack ho hop hp border hbuf []
    obtain ⟨u', res', hread', hsame'⟩ :=
      KeyUnmarshal.action_readsBack ho' hop' hp border (heq ▸ hbuf) []
    rw [heq] at hread
    rw [hread] at hread'
    cases hread'
    exact hsame.euclid hsame'
  · intro hsame
    rw [encodeAll, encodeAll, allPieces_eq_of (fun f _ => pieces_eq f) o' ho ho' hsame]

/-! ### The trip through a key -/

/-- `KeyMarshal` gives the key of `o` in the memory that there is, and `KeyUnmarshal` recovers
    `o` from it. -/
def KeyRecovers (border : Option (List UInt8)) (mem : Option (List UInt8))
    (o p : SerializableObject) : Prop :=
  ∃ m' o', (KeyMarshal.new ⟨mem, 0⟩ border).action o = .ok (0, m', o') ∧
    ∀ buf_len : UInt32, buf_len.toNat = m'.key.length →
      ∃ u' res, (KeyUnmarshal.new m'.buf_.bytes buf_len border).action p = .ok (0, u', res) ∧
        AllSame o res

variable {border : Option (List UInt8)} {mem : Option (List UInt8)} {o p : SerializableObject}

/-- An object is recovered from its key exactly when there is memory for the key and no number
    of 64 bits uses its upper half. -/
theorem keyRecovers_iff_roomy (ho : AllFit o) (hop : AllSameType o p) (hp : AllBlank p)
    (hlen : (Key.encodeAll border o).length < 2 ^ 32) :
    KeyRecovers border mem o p ↔ Roomy border (mem.getD []).length o ∧ AllNarrow o := by
  by_cases hroomy : Roomy border (mem.getD []).length o
  · obtain ⟨m', o', hwrite, hkey⟩ := KeyMarshal.action_of_roomy ho hroomy
    -- behind the key lies what the buffer holds otherwise
    have hbytes : m'.buf_.bytes = Key.encodeAll border o ++ m'.buf_.bytes.drop m'.buf_.len_ := by
      rw [← hkey]
      exact (List.take_append_drop ..).symm
    constructor
    · intro ⟨m₁, o₁, hwrite₁, hreads⟩
      rw [hwrite] at hwrite₁
      cases hwrite₁
      have hbuf : (UInt32.ofNat m'.key.length).toNat = m'.key.length :=
        UInt32.toNat_ofNat_of_lt' (hkey ▸ hlen)
      obtain ⟨u', res, hread, hsame⟩ := hreads _ hbuf
      obtain ⟨u₁, res₁, hread₁, hsame₁⟩ :=
        KeyUnmarshal.action_readsBack ho hop hp border (hkey ▸ hbuf)
          (m'.buf_.bytes.drop m'.buf_.len_)
      rw [← hkey] at hread₁
      rw [hbytes, ← hkey, hread₁] at hread
      cases hread
      exact ⟨hroomy, (allSame_iff hsame₁).1 hsame⟩
    · intro ⟨_, hnarrow⟩
      refine ⟨m', o', hwrite, ?_⟩
      intro buf_len hbuf
      rw [hkey] at hbuf
      obtain ⟨u', res, hread, hsame⟩ :=
        KeyUnmarshal.action_readsBack ho hop hp border hbuf (m'.buf_.bytes.drop m'.buf_.len_)
      rw [← hbytes] at hread
      exact ⟨u', res, hread, (allSame_iff hsame).2 hnarrow⟩
  · constructor
    · intro ⟨m', o', hwrite, _⟩
      exact absurd (KeyMarshal.roomy_of_action ho hwrite) hroomy
    · exact fun h => absurd h.1 hroomy

theorem KeyMarshal.key_of_action (ho : AllFit o) {m' : KeyMarshal} {o' : SerializableObject}
    (h : (KeyMarshal.new ⟨mem, 0⟩ border).action o = .ok (0, m', o')) :
    m'.key = Key.encodeAll border o := by
  obtain ⟨m₁, o₁, hwrite, hkey⟩ := action_of_roomy ho (roomy_of_action ho h)
  rw [hwrite] at h
  cases h
  exact hkey

/-- An object is recovered from its key exactly when there is memory for the key and no number
    of 64 bits uses its upper half; and two objects of one type get one key exactly when they
    are equal but for the upper halves of such numbers. -/
theorem keyRecovers_iff (ho : AllFit o) (hop : AllSameType o p) (hp : AllBlank p)
    (hlen : (Key.encodeAll border o).length < 2 ^ 32) :
    (KeyRecovers border mem o p ↔ Roomy border (mem.getD []).length o ∧ AllNarrow o) ∧
    ∀ mem' o', AllFit o' → AllSameType o' p → ∀ m r m' r',
      (KeyMarshal.new ⟨mem, 0⟩ border).action o = .ok (0, m, r) →
      (KeyMarshal.new ⟨mem', 0⟩ border).action o' = .ok (0, m', r') →
      (m.key = m'.key ↔ AllSame (allLow o) (allLow o')) := by
  refine ⟨keyRecovers_iff_roomy ho hop hp hlen, ?_⟩
  intro mem' o' ho' hop' m r m' r' hwrite hwrite'
  rw [KeyMarshal.key_of_action ho hwrite, KeyMarshal.key_of_action ho' hwrite']
  exact Key.encodeAll_eq_iff ho ho' hop hop' hp hlen

/-- A number and a string, with a border and a buffer that was reserved. -/
theorem keyRecovers_iff_string :
    KeyRecovers (some [45, 45]) (some (List.replicate 64 0))
      [.fixed (.u32 0xcafe), .string [104, 105]] [.fixed (.u32 0), .string []] := by
  have hfit : AllFit [.fixed (.u32 0xcafe), .string [104, 105]] := by
    simp [AllFit, Field.Fits]
  have htype : AllSameType [.fixed (.u32 0xcafe), .string [104, 105]]
      [.fixed (.u32 0), .string []] := by
    simp [AllSameType, Field.SameType, FixedField.SameType]
  have hblank : AllBlank [.fixed (.u32 0), .string []] := by
    simp [AllBlank, Field.Blank]
  refine (keyRecovers_iff hfit htype hblank (by decide)).1.2 ⟨?_, ?_⟩
  · rw [Option.getD_some, List.length_replicate]
    exact roomy_of_lt (by decide)
  · simp [AllNarrow, Field.Narrow, FixedField.Narrow]

/-- A number of 64 bits that uses its upper half is not recovered, and it has the key of
    another number. -/
theorem not_keyRecovers_u64 :
    ¬ KeyRecovers none (some (List.replicate 32 0)) [.fixed (.u64 0x100000000)]
      [.fixed (.u64 0)] ∧
    ((KeyMarshal.new ⟨some (List.replicate 32 0), 0⟩ none).action
      [.fixed (.u64 0x100000000)]).map (fun r => r.2.1.key) = .ok (List.replicate 15 32 ++ [48]) ∧
    ((KeyMarshal.new ⟨some (List.replicate 32 0), 0⟩ none).action
      [.fixed (.u64 0)]).map (fun r => r.2.1.key) = .ok (List.replicate 15 32 ++ [48]) := by
  refine ⟨?_, by rfl, by rfl⟩
  intro hrecovers
  have hfit : AllFit [.fixed (.u64 0x100000000)] := by simp [AllFit, Field.Fits]
  have htype : AllSameType [.fixed (.u64 0x100000000)] [.fixed (.u64 0)] := by
    simp [AllSameType, Field.SameType, FixedField.SameType]
  have hblank : AllBlank [.fixed (.u64 0)] := by simp [AllBlank, Field.Blank]
  have hnarrow := ((keyRecovers_iff_roomy hfit htype hblank (by decide)).1 hrecovers).2
  have hlt : (0x100000000 : UInt64).toNat < 2 ^ 32 := hnarrow.1
  revert hlt
  decide

end Oasys
