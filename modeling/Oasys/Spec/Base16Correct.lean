import Mathlib.Order.Bounds.Basic
import Oasys.Util.Base16

/-!
# Base16 as a code

What `encode` and `decode` do with buffers of any length: the code of the longest part from
the front that fits, and the rest of the output as it was. A length that is odd leads `decode`
beside its buffers unless the output stops it before.
-/

namespace Oasys

namespace Base16

variable {in_ out16 in16 out : List UInt8}

/-! ### The code -/

def code (c : UInt8) : List UInt8 :=
  [encoding.getD (c &&& 0xF).toNat 0, encoding.getD ((c >>> 4) &&& 0xF).toNat 0]

def encoded (bs : List UInt8) : List UInt8 := bs.flatMap code

def decoded : List UInt8 → List UInt8
  | lower :: upper :: ds => (digit lower ||| (digit upper <<< 4)) :: decoded ds
  | _ => []

@[simp] theorem encoded_cons (c : UInt8) (bs : List UInt8) :
    encoded (c :: bs) = code c ++ encoded bs := rfl

theorem length_encoded (bs : List UInt8) : (encoded bs).length = 2 * bs.length := by
  induction bs with
  | nil => rfl
  | cons c bs ih =>
    rw [encoded_cons, List.length_append, ih, List.length_cons]
    simp only [code, List.length_cons, List.length_nil]
    omega

private theorem digit_code_ofNat : ∀ n : Fin 256,
    decoded (code (UInt8.ofNat n)) = [UInt8.ofNat n] := by
  decide +kernel

theorem decoded_code (c : UInt8) : decoded (code c) = [c] := by
  have h := digit_code_ofNat ⟨c.toNat, c.toNat_lt⟩
  rwa [UInt8.ofNat_toNat] at h

theorem decoded_encoded (bs : List UInt8) : decoded (encoded bs) = bs := by
  induction bs with
  | nil => rfl
  | cons c bs ih =>
    have hc := decoded_code c
    simp only [code, decoded, List.cons.injEq, and_true] at hc
    simp only [encoded_cons, code, List.cons_append, List.nil_append, decoded, ih, hc]

/-! ### Loads and stores -/

theorem load_append (front : List UInt8) (c : UInt8) (rest : List UInt8) :
    load (front ++ c :: rest) front.length = .ok c := by
  simp [load, pure, Except.pure]

theorem load_of_le {buf : List UInt8} {i : Nat} (h : buf.length ≤ i) :
    load buf i = .error .outOfBounds := by
  rw [load, List.getElem?_eq_none h]
  rfl

theorem load_of_lt {buf : List UInt8} {i : Nat} (h : i < buf.length) :
    load buf i = .ok (buf.getD i 0) := by
  rw [load, List.getD_eq_getElem?_getD, List.getElem?_eq_getElem h]
  rfl

theorem store_append (front : List UInt8) (c d : UInt8) (rest : List UInt8) :
    store (front ++ c :: rest) front.length d = .ok (front ++ d :: rest) := by
  have hlt : front.length < (front ++ c :: rest).length := by
    rw [List.length_append, List.length_cons]
    omega
  rw [store, if_pos hlt]
  simp [pure, Except.pure]

theorem store_of_le {buf : List UInt8} {i : Nat} {c : UInt8} (h : buf.length ≤ i) :
    store buf i c = .error .outOfBounds := by
  rw [store, if_neg (by omega)]
  rfl

theorem load_encoding (c : UInt8) :
    load encoding (c &&& 0xF).toNat = .ok (encoding.getD (c &&& 0xF).toNat 0) := by
  apply load_of_lt
  have hle : (c &&& 0xF).toNat ≤ 15 := by
    rw [UInt8.toNat_and]
    exact Nat.and_le_right
  exact Nat.lt_succ_of_le hle

theorem sizeMul_of_lt {m n : Nat} (h : m * n < 2 ^ 64) : sizeMul m n = m * n :=
  Nat.mod_eq_of_lt h

/-! ### Encoding -/

theorem exists_cons_cons {cs : List UInt8} {n : Nat} (h : cs.length = 2 * (n + 1)) :
    ∃ c d rest, cs = c :: d :: rest := by
  obtain ⟨c, cs, rfl⟩ := List.exists_cons_of_length_pos (by omega : 0 < cs.length)
  rw [List.length_cons] at h
  obtain ⟨d, rest, rfl⟩ := List.exists_cons_of_length_pos (by omega : 0 < cs.length)
  exact ⟨c, d, rest, rfl⟩

theorem encodeFrom_ok (bs done more front hole rest : List UInt8)
    (hhole : hole.length = 2 * bs.length) (hfront : front.length = 2 * done.length)
    (hsize : front.length + hole.length < 2 ^ 64) :
    encodeFrom (done ++ bs ++ more) bs.length done.length (front ++ hole ++ rest)
      = .ok (done.length + bs.length, front ++ encoded bs ++ rest) := by
  induction bs generalizing done front hole with
  | nil =>
    have hnil : hole = [] := List.length_eq_zero_iff.1 hhole
    subst hnil
    rfl
  | cons c bs ih =>
    obtain ⟨x, y, hole, rfl⟩ := exists_cons_cons hhole
    simp only [List.length_cons] at hhole hsize
    have hlow : sizeMul 2 done.length = front.length := by
      rw [sizeMul_of_lt (by omega), hfront]
    let lower := encoding.getD (c &&& 0xF).toNat 0
    let upper := encoding.getD ((c >>> 4) &&& 0xF).toNat 0
    have hread : load (done ++ c :: bs ++ more) done.length = .ok c := by
      rw [List.append_assoc, List.cons_append, load_append]
    have hstore₁ : store (front ++ x :: y :: hole ++ rest) front.length lower
        = .ok (front ++ lower :: y :: (hole ++ rest)) := by
      rw [List.append_assoc, List.cons_append, store_append]
      rfl
    have hstore₂ : store (front ++ lower :: y :: (hole ++ rest)) (front.length + 1) upper
        = .ok (front ++ [lower, upper] ++ hole ++ rest) := by
      have hsplit := store_append (front ++ [lower]) y upper (hole ++ rest)
      simpa using hsplit
    have hrest := ih (done ++ [c]) (front ++ [lower, upper]) hole (by omega)
      (by simp only [List.length_append, List.length_cons, List.length_nil]; omega)
      (by simp only [List.length_append, List.length_cons, List.length_nil]; omega)
    rw [List.append_assoc done, List.singleton_append, List.length_append,
      List.length_singleton] at hrest
    rw [List.length_cons, encodeFrom, hread]
    simp only [bind, Except.bind, load_encoding, hlow]
    rw [hstore₁]
    dsimp only
    rw [hstore₂]
    dsimp only
    rw [hrest, encoded_cons, code]
    simp only [List.append_assoc, Nat.add_assoc, Nat.add_comm 1]
    rfl

theorem encodeFrom_fault (n i : Nat) (out16 : List UInt8) (hin : i + n ≤ in_.length)
    (hi : 2 * i ≤ out16.length) (hroom : out16.length < 2 * (i + n))
    (hsize : out16.length < 2 ^ 64) : encodeFrom in_ n i out16 = .error .outOfBounds := by
  induction n generalizing i out16 with
  | zero => omega
  | succ n ih =>
    rw [encodeFrom, load_of_lt (by omega), sizeMul_of_lt (by omega)]
    simp only [bind, Except.bind, load_encoding]
    by_cases hlow : 2 * i < out16.length
    · have hset (d : UInt8) : store out16 (2 * i) d = .ok (out16.set (2 * i) d) := by
        rw [store, if_pos hlow]
        rfl
      rw [hset]
      dsimp only
      by_cases hup : 2 * i + 1 < out16.length
      · rw [store, List.length_set, if_pos hup]
        simp only [pure, Except.pure]
        apply ih
        · omega
        · simp only [List.length_set]
          omega
        · simp only [List.length_set]
          omega
        · simpa only [List.length_set] using hsize
      · rw [store_of_le (by rw [List.length_set]; omega)]
    · rw [store_of_le (by omega)]

theorem encodeFrom_take {k : Nat} (hin : k ≤ in_.length) (hout : 2 * k ≤ out16.length)
    (hsize : out16.length < 2 ^ 64) :
    encodeFrom in_ k 0 out16 = .ok (k, encoded (in_.take k) ++ out16.drop (2 * k)) := by
  have hk : (in_.take k).length = k := List.length_take_of_le hin
  have hhole : (out16.take (2 * k)).length = 2 * k := List.length_take_of_le hout
  have h := encodeFrom_ok (in_.take k) [] (in_.drop k) [] (out16.take (2 * k))
    (out16.drop (2 * k)) (by rw [hhole, hk]) rfl (by simp only [hhole, List.length_nil]; omega)
  simpa [hk, List.take_append_drop] using h

/-! ### Decoding -/

theorem decodeFrom_ok (hole : List UInt8) (ds done more front rest : List UInt8)
    (hds : ds.length = 2 * hole.length) (hdone : done.length = 2 * front.length) :
    decodeFrom (done ++ ds ++ more) (2 * hole.length) done.length (front ++ hole ++ rest)
      = .ok (front.length + hole.length, front ++ decoded ds ++ rest) := by
  induction hole generalizing ds done front with
  | nil =>
    have hnil : ds = [] := List.length_eq_zero_iff.1 hds
    subst hnil
    simp [decodeFrom, hdone, decoded, pure, Except.pure]
  | cons x hole ih =>
    obtain ⟨lower, upper, ds, rfl⟩ := exists_cons_cons hds
    simp only [List.length_cons] at hds
    let c := digit lower ||| (digit upper <<< 4)
    have hlow : load (done ++ lower :: upper :: ds ++ more) done.length = .ok lower := by
      rw [List.append_assoc, List.cons_append, load_append]
    have hup : load (done ++ lower :: upper :: ds ++ more) (done.length + 1) = .ok upper := by
      have hsplit := load_append (done ++ [lower]) upper (ds ++ more)
      simpa using hsplit
    have hat : done.length / 2 = front.length := by omega
    have hstore : store (front ++ x :: hole ++ rest) front.length c
        = .ok (front ++ [c] ++ hole ++ rest) := by
      rw [List.append_assoc, List.cons_append, store_append]
      simp
    have hrest := ih ds (done ++ [lower, upper]) (front ++ [c]) (by omega)
      (by simp only [List.length_append, List.length_cons, List.length_nil]; omega)
    simp only [List.length_append, List.length_cons, List.length_nil, Nat.zero_add,
      List.append_assoc, List.cons_append, List.nil_append] at hrest
    have hcount : 2 * (x :: hole).length = 2 * hole.length + 1 + 1 := by
      rw [List.length_cons]
      omega
    rw [hcount, decodeFrom, hlow, hup, hat]
    simp only [bind, Except.bind]
    rw [hstore]
    simp only [Nat.add_sub_cancel, decoded, List.append_assoc,
      List.cons_append, List.nil_append, List.length_cons]
    rw [hrest, Nat.add_assoc, Nat.add_comm 1]

theorem decodeFrom_fault (k i : Nat) (out : List UInt8) (hin : i + (2 * k + 1) = in16.length) :
    decodeFrom in16 (2 * k + 1) i out = .error .outOfBounds := by
  induction k generalizing i out with
  | zero =>
    rw [decodeFrom, load_of_lt (by omega), load_of_le (by omega)]
    rfl
  | succ k ih =>
    rw [decodeFrom, load_of_lt (by omega), load_of_lt (by omega)]
    simp only [bind, Except.bind]
    by_cases hroom : i / 2 < out.length
    · rw [store, if_pos hroom]
      simp only [pure, Except.pure]
      rw [show 2 * (k + 1) - 1 = 2 * k + 1 by omega]
      exact ih (i + 2) _ (by omega)
    · rw [store_of_le (by omega)]

theorem decodeFrom_take {k : Nat} (hin : 2 * k ≤ in16.length) (hout : k ≤ out.length) :
    decodeFrom in16 (2 * k) 0 out = .ok (k, decoded (in16.take (2 * k)) ++ out.drop k) := by
  have hk : (out.take k).length = k := List.length_take_of_le hout
  have hds : (in16.take (2 * k)).length = 2 * k := List.length_take_of_le hin
  have h := decodeFrom_ok (out.take k) (in16.take (2 * k)) [] (in16.drop (2 * k)) []
    (out.drop k) (by rw [hds, hk]) rfl
  simpa [hk, List.take_append_drop] using h

/-! ### Buffers of any length -/

/-- `encode` writes the digits of the longest part that fits, and nothing else. -/
def Encodes (in_ out16 : List UInt8) : Prop :=
  ∃ k, IsGreatest {j | j ≤ in_.length ∧ 2 * j ≤ out16.length} k ∧
    encode in_ out16 = .ok (k, encoded (in_.take k) ++ out16.drop (2 * k))

/-- `decode` writes the bytes of the longest part that fits, and nothing else. -/
def Decodes (in16 out : List UInt8) : Prop :=
  ∃ k, IsGreatest {j | 2 * j ≤ in16.length ∧ j ≤ out.length} k ∧
    decode in16 out = .ok (k, decoded (in16.take (2 * k)) ++ out.drop k)

/-- With enough room, what is encoded is decoded to itself, and its length is returned. -/
def Returns (in_ out16 out : List UInt8) : Prop :=
  2 * in_.length ≤ out16.length → in_.length ≤ out.length →
    ∃ text, encode in_ out16 = .ok (in_.length, text) ∧
      decode (text.take (2 * in_.length)) out
        = .ok (in_.length, in_ ++ out.drop in_.length)

/-- Base16 is a code, seen at one call of each kind. -/
def IsCode (in_ out16 in16 out : List UInt8) : Prop :=
  Encodes in_ out16 ∧ Decodes in16 out ∧ Returns in_ out16 out

theorem isGreatest_of_le {p : Nat → Prop} {k : Nat} (hk : p k) (h : ∀ j, p j → j ≤ k) :
    IsGreatest {j | p j} k := by
  constructor
  · exact hk
  · intro j hj
    exact h j hj

theorem encodes_iff (hin : in_.length < 2 ^ 64) (hout : out16.length < 2 ^ 64) :
    Encodes in_ out16 ↔
      (in_.length < 2 ^ 63 ∨ out16.length < 2 * in_.length - 2 ^ 64) := by
  by_cases hclamp : out16.length < sizeMul in_.length 2
  · have hle : sizeMul in_.length 2 ≤ in_.length * 2 := Nat.mod_le _ _
    have hrun : Encodes in_ out16 := by
      refine ⟨out16.length / 2, ?_, ?_⟩
      · apply isGreatest_of_le
        · omega
        · intro j hj
          omega
      · simp only [encode, if_pos hclamp]
        exact encodeFrom_take (by omega) (by omega) hout
    have hcond : in_.length < 2 ^ 63 ∨ out16.length < 2 * in_.length - 2 ^ 64 := by
      unfold sizeMul at hclamp
      omega
    exact iff_of_true hrun hcond
  · have hencode : encode in_ out16 = encodeFrom in_ in_.length 0 out16 := by
      simp only [encode, if_neg hclamp]
    by_cases hsmall : in_.length < 2 ^ 63
    · have hfits : 2 * in_.length ≤ out16.length := by
        rw [sizeMul_of_lt (by omega)] at hclamp
        omega
      refine iff_of_true ⟨in_.length, ?_, ?_⟩ (Or.inl hsmall)
      · apply isGreatest_of_le
        · exact ⟨Nat.le_refl _, hfits⟩
        · intro j hj
          exact hj.1
      · rw [hencode]
        exact encodeFrom_take (Nat.le_refl _) hfits hout
    · -- the product has wrapped round, and the clamp is not applied
      have hfault : encode in_ out16 = .error .outOfBounds := by
        rw [hencode]
        exact encodeFrom_fault in_.length 0 out16 (by omega) (by omega) (by omega) hout
      have hcond : ¬ (in_.length < 2 ^ 63 ∨ out16.length < 2 * in_.length - 2 ^ 64) := by
        unfold sizeMul at hclamp
        omega
      refine iff_of_false ?_ hcond
      rintro ⟨k, -, hk⟩
      rw [hfault] at hk
      cases hk

theorem decodes_iff (hin : in16.length < 2 ^ 64) :
    Decodes in16 out ↔ (in16.length % 2 = 0 ∨ out.length < in16.length / 2) := by
  by_cases hclamp : out.length < in16.length / 2
  · have hmul : sizeMul out.length 2 = 2 * out.length := by
      rw [sizeMul_of_lt (by omega), Nat.mul_comm]
    refine iff_of_true ⟨out.length, ?_, ?_⟩ (Or.inr hclamp)
    · apply isGreatest_of_le
      · omega
      · intro j hj
        exact hj.2
    · simp only [decode, if_pos hclamp, hmul]
      exact decodeFrom_take (by omega) (Nat.le_refl _)
  · have hdecode : decode in16 out = decodeFrom in16 in16.length 0 out := by
      simp only [decode, if_neg hclamp]
    by_cases heven : in16.length % 2 = 0
    · have hlen : in16.length = 2 * (in16.length / 2) := by omega
      refine iff_of_true ⟨in16.length / 2, ?_, ?_⟩ (Or.inl heven)
      · apply isGreatest_of_le
        · omega
        · intro j hj
          omega
      · have hrun : decodeFrom in16 (2 * (in16.length / 2)) 0 out = _ :=
          decodeFrom_take (by omega) (by omega)
        rw [hdecode]
        rw [← hlen] at hrun ⊢
        exact hrun
    · have hlen : in16.length = 2 * (in16.length / 2) + 1 := by omega
      have hfault : decode in16 out = .error .outOfBounds := by
        rw [hdecode, hlen]
        exact decodeFrom_fault _ 0 out (by omega)
      refine iff_of_false ?_ (by omega)
      rintro ⟨k, -, hk⟩
      rw [hfault] at hk
      cases hk

theorem returns (hsize : out16.length < 2 ^ 64) : Returns in_ out16 out := by
  intro hout16 hout
  have hencode : encode in_ out16
      = .ok (in_.length, encoded in_ ++ out16.drop (2 * in_.length)) := by
    have hclamp : ¬ out16.length < sizeMul in_.length 2 := by
      rw [sizeMul_of_lt (by omega)]
      omega
    simp only [encode, if_neg hclamp]
    rw [encodeFrom_take (Nat.le_refl _) hout16 hsize, List.take_length]
  refine ⟨_, hencode, ?_⟩
  have htext : (encoded in_ ++ out16.drop (2 * in_.length)).take (2 * in_.length)
      = encoded in_ := by
    rw [← length_encoded, List.take_left]
  have hlen := length_encoded in_
  rw [htext]
  have hclamp : ¬ out.length < (encoded in_).length / 2 := by omega
  simp only [decode, if_neg hclamp]
  have hrun : decodeFrom (encoded in_) (2 * in_.length) 0 out = _ :=
    decodeFrom_take (by omega) hout
  rw [← hlen, List.take_length, decoded_encoded] at hrun
  exact hrun

/-- Base16 is a code where `encode` can double the length of its input, and `decode` has no
    digit over or stops before it. -/
theorem isCode_iff (hin : in_.length < 2 ^ 64) (hout16 : out16.length < 2 ^ 64)
    (hin16 : in16.length < 2 ^ 64) :
    IsCode in_ out16 in16 out ↔
      (in_.length < 2 ^ 63 ∨ out16.length < 2 * in_.length - 2 ^ 64) ∧
        (in16.length % 2 = 0 ∨ out.length < in16.length / 2) := by
  rw [IsCode, encodes_iff hin hout16, decodes_iff hin16]
  constructor
  · rintro ⟨hencodes, hdecodes, -⟩
    exact ⟨hencodes, hdecodes⟩
  · rintro ⟨hencodes, hdecodes⟩
    exact ⟨hencodes, hdecodes, returns hout16⟩

/-- `A` and room for its digits, and the digits with room for the byte. -/
theorem isCode_letter : IsCode [65] [0, 0] [49, 52] [0] :=
  (isCode_iff (by decide) (by decide) (by decide)).2 ⟨.inl (by decide), .inl (by decide)⟩

/-- One digit, and room for a byte. -/
theorem not_isCode_digit :
    ¬ ∀ in_ out16 in16 out : List UInt8, in_.length < 2 ^ 64 → out16.length < 2 ^ 64 →
      in16.length < 2 ^ 64 → out.length < 2 ^ 64 → IsCode in_ out16 in16 out := by
  intro h
  have hcode := h [] [] [49] [0] (by decide) (by decide) (by decide) (by decide)
  have hdecodes := (decodes_iff (by decide)).1 hcode.2.1
  simp at hdecodes

end Base16

end Oasys
