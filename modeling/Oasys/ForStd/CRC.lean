import Mathlib.Data.BitVec
import Mathlib.Logic.Function.Iterate

/-!
# Cyclic redundancy checks

The remainder register of a reflected CRC, a bit at a time: a shift to the right, which
subtracts the polynomial when a one falls out. The shift is linear in exclusive or, so
the eight shifts of one byte depend on the low byte of the register through a function
of that byte alone. `byte_eq_table` states it, which is what makes a table-driven CRC
correct.
-/

namespace CRC

variable {w : Nat} (poly : BitVec w)

/-- One shift of the register. -/
def shift (c : BitVec w) : BitVec w :=
  if c.getLsbD 0 then (c >>> 1) ^^^ poly else c >>> 1

/-- The register after one more byte of the message. -/
def byte (c : BitVec w) (b : UInt8) : BitVec w :=
  (shift poly)^[8] (c ^^^ b.toBitVec.setWidth w)

/-- The register after a message. -/
def register (c : BitVec w) (bs : List UInt8) : BitVec w := bs.foldl (byte poly) c

@[simp] theorem register_cons (c : BitVec w) (b : UInt8) (bs : List UInt8) :
    register poly c (b :: bs) = register poly (byte poly c b) bs := rfl

private theorem xor_xor_cancel (a b p : BitVec w) : a ^^^ p ^^^ (b ^^^ p) = a ^^^ b := by
  ext i
  simp only [BitVec.getElem_xor]
  cases a[i] <;> cases b[i] <;> cases p[i] <;> rfl

theorem shift_xor (a b : BitVec w) : shift poly (a ^^^ b) = shift poly a ^^^ shift poly b := by
  unfold shift
  rw [BitVec.getLsbD_xor, BitVec.ushiftRight_xor_distrib]
  cases a.getLsbD 0 <;> cases b.getLsbD 0
  · rfl
  · exact BitVec.xor_assoc ..
  · show a >>> 1 ^^^ b >>> 1 ^^^ poly = a >>> 1 ^^^ poly ^^^ b >>> 1
    rw [BitVec.xor_assoc, BitVec.xor_assoc, BitVec.xor_comm poly]
  · exact (xor_xor_cancel ..).symm

theorem shifts_xor (n : Nat) (a b : BitVec w) :
    (shift poly)^[n] (a ^^^ b) = (shift poly)^[n] a ^^^ (shift poly)^[n] b := by
  induction n generalizing a b with
  | zero => rfl
  | succ n ih => rw [Function.iterate_succ_apply, shift_xor, ih]; rfl

theorem shifts_of_low_clear {n : Nat} {c : BitVec w} (h : ∀ i < n, c.getLsbD i = false) :
    (shift poly)^[n] c = c >>> n := by
  induction n with
  | zero => simp
  | succ n ih =>
    have hbit : (c >>> n).getLsbD 0 = false := by simpa using h n (Nat.lt_succ_self n)
    rw [Function.iterate_succ_apply', ih fun i hi => h i (Nat.lt_succ_of_lt hi)]
    simp only [shift, hbit, Bool.false_eq_true, if_false, BitVec.shiftRight_add]

/-- The table-driven step: what one byte does to the register is a function of the low
    byte, and a move of the rest by eight places. -/
theorem byte_eq_table (c : BitVec w) (b : UInt8) :
    byte poly c b =
      (shift poly)^[8] (((c ^^^ b.toBitVec.setWidth w).setWidth 8).setWidth w) ^^^ (c >>> 8) := by
  have hb : ∀ i, 8 ≤ i → b.toBitVec.getLsbD i = false := fun i hi =>
    BitVec.getLsbD_of_ge _ _ hi
  -- The register is its low byte, and the rest, whose low byte is clear.
  have hsplit : c ^^^ b.toBitVec.setWidth w =
      ((c ^^^ b.toBitVec.setWidth w).setWidth 8).setWidth w ^^^ ((c >>> 8) <<< 8) := by
    apply BitVec.eq_of_getLsbD_eq
    intro i hi
    by_cases h8 : i < 8
    · simp [h8, hi]
    · simp [h8, hi, hb i (by omega), show 8 + (i - 8) = i by omega]
  have hclear : ∀ i < 8, ((c >>> 8) <<< 8).getLsbD i = false := by
    intro i hi
    simp [hi]
  have hmove : ((c >>> 8) <<< 8) >>> 8 = c >>> 8 := by
    apply BitVec.eq_of_getLsbD_eq
    intro i hi
    by_cases hw : 8 + i < w
    · simp [hw]
    · simp [hw, BitVec.getLsbD_of_ge c (8 + i) (by omega)]
  unfold byte
  conv => lhs; rw [hsplit]
  rw [shifts_xor, shifts_of_low_clear poly hclear, hmove]

/-! ### Bit by bit

The definition: the register is shifted to the left, and the polynomial is subtracted when a
one falls out. The shifts above are its mirror image.
-/

/-- The register after one more bit of the message. -/
def bit (c : BitVec w) (b : Bool) : BitVec w :=
  if c.msb ^^ b then (c <<< 1) ^^^ poly else c <<< 1

/-- The bits of a byte, the low one first. -/
def bits (b : UInt8) : List Bool := (List.range 8).map b.toBitVec.getLsbD

/-- The register after a message, whose bytes come with the low bit first. -/
def serial (c : BitVec w) (bs : List UInt8) : BitVec w := (bs.flatMap bits).foldl (bit poly) c

/-- Mirrored, a bit is added at the other end before the shift. -/
theorem reverse_bit (hw : 0 < w) (c : BitVec w) (b : Bool) :
    (bit poly c b).reverse = shift poly.reverse (c.reverse ^^^ (BitVec.ofBool b).setWidth w) := by
  have hlow : (c.reverse ^^^ (BitVec.ofBool b).setWidth w).getLsbD 0 = (c.msb ^^ b) := by
    rw [BitVec.getLsbD_xor, BitVec.getLsbD_reverse]
    simp [BitVec.msb, hw]
  have hmove : (c.reverse ^^^ (BitVec.ofBool b).setWidth w) >>> 1 = (c <<< 1).reverse := by
    apply BitVec.eq_of_getLsbD_eq
    intro i hi
    simp [BitVec.getLsbD_reverse, BitVec.getMsbD_shiftLeft, Nat.add_comm]
  unfold bit shift
  rw [hlow, hmove]
  cases (c.msb ^^ b)
  · rfl
  · simp only [if_true]
    apply BitVec.eq_of_getLsbD_eq
    intro i hi
    simp [BitVec.getLsbD_reverse]

/-- Without its low bit, a register moves by one place. -/
private theorem shift_clear (a : BitVec w) {n : Nat} (hn : n < w) :
    shift poly (a >>> n ^^^ (BitVec.ofBool (a.getLsbD n)).setWidth w) = a >>> (n + 1) := by
  have hclear : ∀ i < 1,
      (a >>> n ^^^ (BitVec.ofBool (a.getLsbD n)).setWidth w).getLsbD i = false := by
    intro i hi
    obtain rfl : i = 0 := by omega
    simp [show 0 < w by omega]
  have hmove := shifts_of_low_clear poly hclear
  rw [Function.iterate_one] at hmove
  rw [hmove]
  apply BitVec.eq_of_getLsbD_eq
  intro i hi
  simp [Nat.add_comm, Nat.add_left_comm]

/-- What the bits of a byte do one after another, they do together; those that have not come
    yet are still to be added. -/
private theorem reverse_foldl_bit (hw : 8 ≤ w) (c : BitVec w) (b : BitVec 8) {n : Nat}
    (hn : n ≤ 8) :
    (((List.range n).map b.getLsbD).foldl (bit poly) c).reverse =
      (shift poly.reverse)^[n] (c.reverse ^^^ b.setWidth w) ^^^ b.setWidth w >>> n := by
  induction n with
  | zero => simp [BitVec.xor_assoc]
  | succ n ih =>
    have hbit : b.getLsbD n = (b.setWidth w).getLsbD n := by
      simp [show n < w by omega]
    rw [List.range_succ, List.map_append, List.foldl_append, List.map_singleton, List.foldl_cons,
      List.foldl_nil, reverse_bit poly (by omega), ih (by omega), BitVec.xor_assoc, shift_xor, hbit,
      shift_clear _ _ (by omega), Function.iterate_succ_apply']

/-- The definition and its mirror image. -/
theorem register_reverse (hw : 8 ≤ w) (c : BitVec w) (bs : List UInt8) :
    register poly.reverse c.reverse bs = (serial poly c bs).reverse := by
  unfold serial
  induction bs generalizing c with
  | nil => rfl
  | cons b bs ih =>
    have hbyte : byte poly.reverse c.reverse b = ((bits b).foldl (bit poly) c).reverse := by
      have hnone : b.toBitVec.setWidth w >>> 8 = 0#w := by
        apply BitVec.eq_of_getLsbD_eq
        intro i hi
        simp
      rw [bits, reverse_foldl_bit poly hw c b.toBitVec (Nat.le_refl 8), hnone, BitVec.xor_zero]
      rfl
    rw [register_cons, hbyte, ih, List.flatMap_cons, List.foldl_append]

end CRC
