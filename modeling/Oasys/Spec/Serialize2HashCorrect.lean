import Mathlib.Tactic.IntervalCases
import Oasys.Serialize.Serialize2Hash
import Oasys.Spec.MarshalSizeCorrect

/-!
# Serialize2Hash correctness

The constructor reserves the size that it computes and then marshals into `len_` bytes, which
is still 0. So only an object that is written as no bytes at all is hashed; for every other
one the assertion fails.

The registers of `jenkins_hash` keep apart what they held before, and what is in one block of
twelve bytes, or behind the last block, while the other bytes are the same.
-/

/-! ### jenkins_hash -/

namespace Oasys.JenkinsState

variable {s s' : JenkinsState} {b b' k k' p q : List UInt8} {length : UInt32}

theorem mixLine_inj {x x' y z t : UInt32} : mixLine x y z t = mixLine x' y z t ↔ x = x' := by
  simp [mixLine]

/-- The three lines of `mix` that are repeated with other shifts. -/
def mixLines (f g h : UInt32 → UInt32) (s : JenkinsState) : JenkinsState :=
  let ⟨a, b, c⟩ := s
  let a := mixLine a b c (f c)
  let b := mixLine b c a (g a)
  let c := mixLine c a b (h b)
  ⟨a, b, c⟩

/-- The registers can be told from what the lines leave, the last one first. -/
theorem mixLines_injective (f g h : UInt32 → UInt32) : Function.Injective (mixLines f g h) := by
  intro s s' heq
  obtain ⟨a, b, c⟩ := s
  obtain ⟨a', b', c'⟩ := s'
  simp only [mixLines, mk.injEq] at heq
  obtain ⟨ha, hb, hc⟩ := heq
  rw [hb, ha, mixLine_inj] at hc
  subst hc
  rw [ha, mixLine_inj] at hb
  subst hb
  rw [mixLine_inj] at ha
  rw [ha]

theorem mix_injective : Function.Injective mix := by
  have hmix : mix = mixLines (· >>> 3) (· <<< 10) (· >>> 15) ∘
      mixLines (· >>> 12) (· <<< 16) (· >>> 5) ∘ mixLines (· >>> 13) (· <<< 8) (· >>> 13) := rfl
  rw [hmix]
  exact (mixLines_injective ..).comp ((mixLines_injective ..).comp (mixLines_injective ..))

theorem mix_add_inj {x y z : UInt32} :
    mix ⟨s.a + x, s.b + y, s.c + z⟩ = mix ⟨s'.a + x, s'.b + y, s'.c + z⟩ ↔ s = s' := by
  rw [mix_injective.eq_iff]
  cases s
  cases s'
  simp

theorem absorb_inj : s.absorb k = s'.absorb k ↔ s = s' := mix_add_inj

theorem absorbLast_inj : s.absorbLast k length = s'.absorbLast k length ↔ s = s' := by
  simp only [absorbLast, UInt32.add_assoc]
  exact mix_add_inj

theorem run_inj : s.run k length = s'.run k length ↔ s = s' := by
  fun_induction run s k length generalizing s' with
  | case1 s k hlen ih =>
    rw [run.eq_1 s', if_pos hlen, ih, absorb_inj]
  | case2 s k hlen =>
    rw [run.eq_1 s', if_neg hlen, absorbLast_inj]

theorem word_inj {x y z w x' y' z' w' : UInt8}
    (h : x.toUInt32 <<< 0 + y.toUInt32 <<< 8 + z.toUInt32 <<< 16 + w.toUInt32 <<< 24 =
      x'.toUInt32 <<< 0 + y'.toUInt32 <<< 8 + z'.toUInt32 <<< 16 + w'.toUInt32 <<< 24) :
    x = x' ∧ y = y' ∧ z = z' ∧ w = w' := by
  have hnat := congrArg UInt32.toNat h
  have := x.toNat_lt
  have := y.toNat_lt
  have := z.toNat_lt
  have := w.toNat_lt
  have := x'.toNat_lt
  have := y'.toNat_lt
  have := z'.toNat_lt
  have := w'.toNat_lt
  simp [Nat.shiftLeft_eq] at hnat
  simp only [← UInt8.toNat_inj]
  omega

theorem absorb_bytes (h : s.absorb k = s.absorb k') : ∀ i < 12, k.getD i 0 = k'.getD i 0 := by
  have hadd := mix_injective h
  simp only [mk.injEq, UInt32.add_right_inj] at hadd
  obtain ⟨ha, hb, hc⟩ := hadd
  have h₀ := word_inj ha
  have h₄ := word_inj hb
  have h₈ := word_inj hc
  intro i hi
  interval_cases i <;> simp only [h₀, h₄, h₈]

theorem absorbLast_bytes (h : s.absorbLast k length = s.absorbLast k' length) :
    ∀ i < 11, k.getD i 0 = k'.getD i 0 := by
  have hadd := mix_injective h
  simp only [mk.injEq, UInt32.add_assoc, UInt32.add_right_inj] at hadd
  obtain ⟨ha, hb, hc⟩ := hadd
  have hrev : ∀ x y z w : UInt32, x + (y + (z + w)) = w + z + y + x := by
    intro x y z w
    ac_rfl
  have hrev' : ∀ x y z : UInt32, x + (y + z) = (0 : UInt8).toUInt32 <<< 0 + z + y + x := by
    intro x y z
    rw [show (0 : UInt8).toUInt32 <<< 0 = 0 from rfl, UInt32.zero_add]
    ac_rfl
  rw [hrev, hrev] at ha hb
  rw [hrev', hrev'] at hc
  have h₀ := word_inj ha
  have h₄ := word_inj hb
  have h₈ := word_inj hc
  intro i hi
  interval_cases i <;> simp only [h₀, h₄, h₈]

theorem getD_append {i : Nat} (h : i < p.length) : (p ++ q).getD i 0 = p.getD i 0 := by
  rw [List.getD_eq_getElem?_getD, List.getElem?_append_left h, List.getD_eq_getElem?_getD]

theorem absorb_append (h : 12 ≤ p.length) : s.absorb (p ++ q) = s.absorb p := by
  have hbyte : ∀ i < 12, ∀ shift, byteAt (p ++ q) i shift = byteAt p i shift := by
    intro i hi shift
    rw [byteAt, byteAt, getD_append (by omega)]
  simp [absorb, hbyte]

theorem run_append {m : Nat} (h : p.length = 12 * m) (length : UInt32) :
    ∃ s₁ : JenkinsState, ∀ rest, s.run (p ++ rest) length = s₁.run rest length := by
  induction m generalizing s p with
  | zero =>
    obtain rfl := List.length_eq_zero_iff.1 h
    exact ⟨s, fun _ => rfl⟩
  | succ m ih =>
    obtain ⟨s₁, hs₁⟩ := ih (s := s.absorb p) (p := p.drop 12) (by rw [List.length_drop]; omega)
    refine ⟨s₁, fun rest => ?_⟩
    rw [run.eq_1, if_pos (by rw [List.length_append]; omega), absorb_append (by omega),
      List.drop_append_of_le_length (by omega), hs₁]

/-- Two keys of one length that differ in one block of twelve bytes only, or only in what is left
    behind the last block, leave different registers. -/
theorem run_block_inj (hp : 12 ∣ p.length) (hlen : b.length = b'.length)
    (hb : b.length = 12 ∨ b.length < 12 ∧ q = []) :
    s.run (p ++ (b ++ q)) length = s.run (p ++ (b' ++ q)) length ↔ b = b' := by
  obtain ⟨m, hm⟩ := hp
  obtain ⟨s₁, hs₁⟩ := run_append (s := s) hm length
  rw [hs₁, hs₁]
  constructor
  · intro h
    have hbytes : ∀ i < b.length, (b ++ q).getD i 0 = (b' ++ q).getD i 0 := by
      rcases hb with hb | ⟨hb, rfl⟩
      · rw [run.eq_1, run.eq_1 s₁ (b' ++ q), if_pos (by simp; omega), if_pos (by simp; omega),
          List.drop_left' hb, List.drop_left' (by omega), run_inj] at h
        rw [hb]
        exact absorb_bytes h
      · rw [run.eq_1, run.eq_1 s₁ (b' ++ []), if_neg (by simp; omega), if_neg (by simp; omega)] at h
        exact fun i hi => absorbLast_bytes h i (by omega)
    apply List.ext_getElem hlen
    intro i hi hi'
    have hbyte := hbytes i hi
    rw [getD_append hi, getD_append hi'] at hbyte
    simpa [hi, hi'] using hbyte
  · intro h
    rw [h]

/-- Two keys of one byte. -/
theorem run_block_inj_byte :
    (⟨1, 2, 3⟩ : JenkinsState).run ([] ++ ([7] ++ [])) 1 =
      (⟨1, 2, 3⟩ : JenkinsState).run ([] ++ ([8] ++ [])) 1 ↔ ([7] : List UInt8) = [8] :=
  run_block_inj (Nat.dvd_zero 12) rfl (.inr ⟨by decide, rfl⟩)

end Oasys.JenkinsState

/-! ### Serialize2Hash -/

namespace Oasys.Serialize2Hash

open Wire (encodeAll)

/-- The constructor succeeds, and the hash is that of the bytes `Marshal` writes. -/
def Hashes (static_buf_ : List UInt8) (obj : SerializableObject) : Prop :=
  ∃ h, new static_buf_ obj = .ok h ∧
    h.getHash32 = jenkinsHash (encodeAll obj) (.ofNat (encodeAll obj).length) 0

variable {obj : SerializableObject}

theorem len_buf (b : ExpandableBuffer) (size : Nat) : (ScratchBuffer.buf b size).len_ = b.len_ := by
  unfold ScratchBuffer.buf
  split
  · obtain ⟨more, -, -, hlen⟩ := b.bytes_reserve size
    exact hlen
  · rfl

theorem action_no_room (ho : AllReadable obj) :
    ∃ code ms o', (Marshal.new [] false false).action obj = .ok (code, ms, o') ∧
      ms.buf_ = [] ∧ (ms.error_ = false ↔ encodeAll obj = []) := by
  obtain ⟨ms, o', hact, hfill⟩ := Marshal.action_fills [] false false ho
  refine ⟨_, ms, o', hact, List.length_eq_zero_iff.1 hfill.length_eq, ?_⟩
  have hflat : (Wire.actionSlices false obj).flatten = encodeAll obj := by
    simp [Wire.actionSlices, Wire.flatten_allSlices]
  rw [hfill.error_eq]
  by_cases hnil : encodeAll obj = []
  · rw [Filling.putAll_of_le _ rfl (by rw [hflat, hnil]; exact Nat.le_refl 0)]
    simp [hnil]
  · have hpos : 0 < (encodeAll obj).length := List.length_pos_iff.2 hnil
    -- some slice does not fit
    obtain ⟨done, next, rest, -, hall, -, -⟩ := Filling.putAll_of_gt (f := .empty)
      (Wire.actionSlices false obj) rfl (Nat.le_refl 0)
      (by rw [hflat]; simpa [Filling.empty] using hpos)
    have hfull : (Filling.empty.putAll 0 (Wire.actionSlices false obj)).full = true :=
      congrArg Filling.full hall
    simp [hfull, hnil]

theorem new_eq (ho : AllReadable obj) (static_buf_ : List UInt8) :
    ∃ h : Serialize2Hash, h.buf_.len_ = 0 ∧
      new static_buf_ obj = if encodeAll obj = [] then .ok h else .error .assertFailed := by
  obtain ⟨s, hsize, -⟩ := MarshalSize.action_size false ho
  obtain ⟨code, ms, o', hact, hbuf, herror⟩ := action_no_room ho
  have hlen : (ScratchBuffer.buf (ScratchBuffer.new static_buf_) s.size_.toNat).len_ = 0 :=
    len_buf ..
  refine ⟨⟨{ ScratchBuffer.buf (ScratchBuffer.new static_buf_) s.size_.toNat with
    buf_ := some (ms.buf_ ++
      (ScratchBuffer.buf (ScratchBuffer.new static_buf_) s.size_.toNat).bytes.drop 0) }⟩, hlen, ?_⟩
  simp only [new, hsize, ok_bind, hlen, List.take_zero, hact]
  by_cases hnil : encodeAll obj = []
  · simp [herror.2 hnil, hnil]
  · have hfull : ms.error_ = true := by
      rw [← Bool.not_eq_false, herror]
      exact hnil
    simp [hfull, hnil]

theorem getHash32_eq {h : Serialize2Hash} (hlen : h.buf_.len_ = 0) :
    h.getHash32 = jenkinsHash [] 0 0 := by
  rw [getHash32, hlen]
  simp [jenkinsHash]

/-- An object is hashed exactly if no bytes are written for it. -/
theorem hashes_iff_empty (ho : AllReadable obj) (static_buf_ : List UInt8) :
    Hashes static_buf_ obj ↔ encodeAll obj = [] := by
  obtain ⟨h, hlen, hnew⟩ := new_eq ho static_buf_
  constructor
  · intro ⟨h', hh', _⟩
    by_contra hne
    rw [hnew, if_neg hne] at hh'
    cases hh'
  · intro hnil
    rw [if_pos hnil] at hnew
    refine ⟨h, hnew, ?_⟩
    rw [getHash32_eq hlen, hnil]
    rfl

/-- An object without fields. -/
theorem hashes_iff_empty_nil :
    Hashes (List.replicate 256 0) [] ↔ encodeAll [] = [] :=
  hashes_iff_empty (by simp [AllReadable]) _

/-- An object of one byte is not hashed. -/
theorem not_hashes_byte : ¬ Hashes (List.replicate 256 0) [.fixed (.u8 7)] := by
  intro ⟨h, hnew, _⟩
  have ho : AllReadable [.fixed (.u8 7)] := by simp [AllReadable, Field.Readable]
  obtain ⟨h', -, hnew'⟩ := new_eq ho (List.replicate 256 0)
  have hne : encodeAll [.fixed (.u8 7)] ≠ [] := by decide +kernel
  rw [hnew', if_neg hne] at hnew
  cases hnew

end Oasys.Serialize2Hash
