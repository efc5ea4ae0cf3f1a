import Mathlib.Data.List.Induction
import Mathlib.Data.Nat.Bitwise
import Mathlib.Tactic.Ring

/-!
# Big-endian numerals

A natural number as a list of bytes, most significant byte first, and back. The bytes
of a machine word are the shifts of the word, and a word is put together from its
bytes by shifting each into place; `shiftLeft_or_shiftLeft` turns the second into the
arithmetic of the numeral.
-/

namespace BigEndian

/-- The `w` low bytes of `n`, most significant first. -/
def bytes : Nat → Nat → List UInt8
  | 0, _ => []
  | w + 1, n => bytes w (n / 256) ++ [UInt8.ofNat n]

/-- The number with these bytes, most significant first. -/
def value (bs : List UInt8) : Nat := bs.foldl (fun n b => n * 256 + b.toNat) 0

@[simp] theorem bytes_zero (n : Nat) : bytes 0 n = [] := rfl

theorem bytes_succ (w n : Nat) : bytes (w + 1) n = bytes w (n / 256) ++ [UInt8.ofNat n] := rfl

@[simp] theorem value_nil : value [] = 0 := rfl

@[simp] theorem value_concat (bs : List UInt8) (b : UInt8) :
    value (bs ++ [b]) = value bs * 256 + b.toNat := by
  simp [value]

@[simp] theorem length_bytes (w n : Nat) : (bytes w n).length = w := by
  induction w generalizing n with
  | zero => rfl
  | succ w ih => simp [bytes_succ, ih]

theorem value_bytes (w n : Nat) : value (bytes w n) = n % 256 ^ w := by
  induction w generalizing n with
  | zero => simp [Nat.mod_one]
  | succ w ih =>
    have hlow : (UInt8.ofNat n).toNat = n % 256 := by simp
    rw [bytes_succ, value_concat, ih, hlow, pow_succ', Nat.mod_mul]
    ring

theorem value_bytes_of_lt {w n : Nat} (h : n < 256 ^ w) : value (bytes w n) = n := by
  rw [value_bytes, Nat.mod_eq_of_lt h]

theorem value_lt (bs : List UInt8) : value bs < 256 ^ bs.length := by
  induction bs using List.reverseRecOn with
  | nil => simp
  | append_singleton bs b ih =>
    have hb := b.toNat_lt
    simp only [value_concat, List.length_append, List.length_singleton, pow_succ]
    omega

/-- Writing the number that was read gives the bytes back. -/
theorem bytes_value (bs : List UInt8) : bytes bs.length (value bs) = bs := by
  induction bs using List.reverseRecOn with
  | nil => rfl
  | append_singleton bs b ih =>
    have hb := b.toNat_lt
    have hdiv : (value bs * 256 + b.toNat) / 256 = value bs := by omega
    have hlow : UInt8.ofNat (value bs * 256 + b.toNat) = b := by
      apply UInt8.toNat_inj.mp
      simp only [UInt8.toNat_ofNat']
      omega
    rw [List.length_append, List.length_singleton, bytes_succ, value_concat, hdiv, hlow, ih]

theorem bytes_mod (w n : Nat) : bytes w (n % 256 ^ w) = bytes w n := by
  have h := bytes_value (bytes w n)
  rwa [length_bytes, value_bytes] at h

theorem eq_bytes_iff {w n : Nat} {bs : List UInt8} (hlen : bs.length = w) (hn : n < 256 ^ w) :
    bs = bytes w n ↔ value bs = n := by
  constructor
  · rintro rfl
    exact value_bytes_of_lt hn
  · intro h
    rw [← h, ← hlen, bytes_value]

theorem shiftLeft_or_shiftLeft (n k : Nat) (b : UInt8) :
    n <<< (k + 8) ||| b.toNat <<< k = (n * 256 + b.toNat) <<< k := by
  have hb : b.toNat < 2 ^ 8 := b.toNat_lt
  rw [Nat.add_comm k 8, Nat.shiftLeft_add, ← Nat.shiftLeft_or_distrib,
    ← Nat.shiftLeft_add_eq_or_of_lt hb, Nat.shiftLeft_eq n 8]

theorem shiftLeft_or (n : Nat) (b : UInt8) : n <<< 8 ||| b.toNat = n * 256 + b.toNat :=
  shiftLeft_or_shiftLeft n 0 b

/-! ### Machine words -/

private theorem byte_shiftLeft_mod (b : UInt8) {k w : Nat} (h : k + 8 ≤ w) :
    b.toNat <<< k % 2 ^ w = b.toNat <<< k := by
  apply Nat.mod_eq_of_lt
  calc b.toNat <<< k = b.toNat * 2 ^ k := Nat.shiftLeft_eq ..
    _ < 2 ^ 8 * 2 ^ k := Nat.mul_lt_mul_of_pos_right b.toNat_lt (Nat.two_pow_pos k)
    _ ≤ 2 ^ w := by rw [← pow_add]; exact Nat.pow_le_pow_right (by decide) (by omega)

theorem toNat_ofBytes16 (b0 b1 : UInt8) :
    (b0.toUInt16 <<< 8 ||| b1.toUInt16).toNat = value [b0, b1] := by
  rw [UInt16.toNat_or, UInt16.toNat_shiftLeft]
  show b0.toNat <<< 8 % 2 ^ 16 ||| b1.toNat = _
  rw [byte_shiftLeft_mod b0 (by decide), shiftLeft_or]
  simp [value]

theorem toNat_ofBytes32 (b0 b1 b2 b3 : UInt8) :
    (b0.toUInt32 <<< 24 ||| b1.toUInt32 <<< 16 ||| b2.toUInt32 <<< 8 ||| b3.toUInt32).toNat =
      value [b0, b1, b2, b3] := by
  simp only [UInt32.toNat_or, UInt32.toNat_shiftLeft]
  show b0.toNat <<< 24 % 2 ^ 32 ||| b1.toNat <<< 16 % 2 ^ 32 ||| b2.toNat <<< 8 % 2 ^ 32 |||
    b3.toNat = _
  rw [byte_shiftLeft_mod b0 (by decide), byte_shiftLeft_mod b1 (by decide),
    byte_shiftLeft_mod b2 (by decide), shiftLeft_or_shiftLeft _ 16, shiftLeft_or_shiftLeft _ 8,
    shiftLeft_or]
  simp [value]

/-- A 64-bit word put together from its bytes. -/
theorem toNat_ofBytes64 (b0 b1 b2 b3 b4 b5 b6 b7 : UInt8) :
    (b0.toUInt64 <<< 56 ||| b1.toUInt64 <<< 48 ||| b2.toUInt64 <<< 40 ||| b3.toUInt64 <<< 32 |||
      b4.toUInt64 <<< 24 ||| b5.toUInt64 <<< 16 ||| b6.toUInt64 <<< 8 ||| b7.toUInt64).toNat =
      value [b0, b1, b2, b3, b4, b5, b6, b7] := by
  simp only [UInt64.toNat_or, UInt64.toNat_shiftLeft]
  show b0.toNat <<< 56 % 2 ^ 64 ||| b1.toNat <<< 48 % 2 ^ 64 ||| b2.toNat <<< 40 % 2 ^ 64 |||
    b3.toNat <<< 32 % 2 ^ 64 ||| b4.toNat <<< 24 % 2 ^ 64 ||| b5.toNat <<< 16 % 2 ^ 64 |||
    b6.toNat <<< 8 % 2 ^ 64 ||| b7.toNat = _
  rw [byte_shiftLeft_mod b0 (by decide), byte_shiftLeft_mod b1 (by decide),
    byte_shiftLeft_mod b2 (by decide), byte_shiftLeft_mod b3 (by decide),
    byte_shiftLeft_mod b4 (by decide), byte_shiftLeft_mod b5 (by decide),
    byte_shiftLeft_mod b6 (by decide), shiftLeft_or_shiftLeft _ 48, shiftLeft_or_shiftLeft _ 40,
    shiftLeft_or_shiftLeft _ 32, shiftLeft_or_shiftLeft _ 24, shiftLeft_or_shiftLeft _ 16,
    shiftLeft_or_shiftLeft _ 8, shiftLeft_or]
  simp [value]

private theorem toUInt8_mask (b : UInt8) (n : Nat) (h : b.toNat = (n &&& 0xff) % 2 ^ 8) :
    b = UInt8.ofNat n := by
  have hmask : n &&& 0xff = n % 2 ^ 8 := Nat.and_two_pow_sub_one_eq_mod n 8
  apply UInt8.toNat_inj.mp
  rw [h, hmask, UInt8.toNat_ofNat', Nat.mod_mod]

theorem bytes_word16 (i : UInt16) :
    [((i >>> 8) &&& 0xff).toUInt8, (i &&& 0xff).toUInt8] = bytes 2 i.toNat := by
  rw [toUInt8_mask ((i >>> 8) &&& 0xff).toUInt8 (i.toNat >>> 8) rfl,
    toUInt8_mask (i &&& 0xff).toUInt8 i.toNat rfl]
  simp only [bytes, Nat.shiftRight_eq_div_pow]
  rfl

theorem bytes_word32 (i : UInt32) :
    [((i >>> 24) &&& 0xff).toUInt8, ((i >>> 16) &&& 0xff).toUInt8, ((i >>> 8) &&& 0xff).toUInt8,
      (i &&& 0xff).toUInt8] = bytes 4 i.toNat := by
  rw [toUInt8_mask ((i >>> 24) &&& 0xff).toUInt8 (i.toNat >>> 24) rfl,
    toUInt8_mask ((i >>> 16) &&& 0xff).toUInt8 (i.toNat >>> 16) rfl,
    toUInt8_mask ((i >>> 8) &&& 0xff).toUInt8 (i.toNat >>> 8) rfl,
    toUInt8_mask (i &&& 0xff).toUInt8 i.toNat rfl]
  simp only [bytes, Nat.shiftRight_eq_div_pow, Nat.div_div_eq_div_mul]
  rfl

/-- The bytes of a 64-bit word. -/
theorem bytes_word64 (i : UInt64) :
    [((i >>> 56) &&& 0xff).toUInt8, ((i >>> 48) &&& 0xff).toUInt8, ((i >>> 40) &&& 0xff).toUInt8,
      ((i >>> 32) &&& 0xff).toUInt8, ((i >>> 24) &&& 0xff).toUInt8, ((i >>> 16) &&& 0xff).toUInt8,
      ((i >>> 8) &&& 0xff).toUInt8, (i &&& 0xff).toUInt8] = bytes 8 i.toNat := by
  rw [toUInt8_mask ((i >>> 56) &&& 0xff).toUInt8 (i.toNat >>> 56) rfl,
    toUInt8_mask ((i >>> 48) &&& 0xff).toUInt8 (i.toNat >>> 48) rfl,
    toUInt8_mask ((i >>> 40) &&& 0xff).toUInt8 (i.toNat >>> 40) rfl,
    toUInt8_mask ((i >>> 32) &&& 0xff).toUInt8 (i.toNat >>> 32) rfl,
    toUInt8_mask ((i >>> 24) &&& 0xff).toUInt8 (i.toNat >>> 24) rfl,
    toUInt8_mask ((i >>> 16) &&& 0xff).toUInt8 (i.toNat >>> 16) rfl,
    toUInt8_mask ((i >>> 8) &&& 0xff).toUInt8 (i.toNat >>> 8) rfl,
    toUInt8_mask (i &&& 0xff).toUInt8 i.toNat rfl]
  simp only [bytes, Nat.shiftRight_eq_div_pow, Nat.div_div_eq_div_mul]
  rfl

end BigEndian
