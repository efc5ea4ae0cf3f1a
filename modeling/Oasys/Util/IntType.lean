import Oasys.Debug.DebugUtils
import Mathlib.Tactic.Ring
import Mathlib.Data.Int.ModEq

/-!
# Integer types of a template parameter

`SparseBitmap` is a template over its integer type, and its `+ 1` and `- 1` go
wrong only at the limits of that type. A type is a signedness and a width; its
values are the integers of `[min, max]`, and `arith` gives what an expression on
such values evaluates to: exactly its value for a type narrower than `int` (the
operands are promoted), modulo `2 ^ width` for the wider unsigned types, and for
the wider signed types whatever the build makes of a signed overflow.
-/

namespace Oasys

/-- An integer type of C++. -/
structure IntType where
  signed : Bool
  width : Nat
  deriving DecidableEq, Repr

namespace IntType

/-- `u_int32_t`. -/
def u32 : IntType := ⟨false, 32⟩

/-- `u_int8_t`. -/
def u8 : IntType := ⟨false, 8⟩

/-- `u_int64_t`. -/
def u64 : IntType := ⟨false, 64⟩

/-- `int64_t`. -/
def i64 : IntType := ⟨true, 64⟩

def int : IntType := ⟨true, 32⟩

/-- The number of values of the type. -/
def size (T : IntType) : Int := 2 ^ T.width

/-- The smallest value of the type. -/
def min (T : IntType) : Int := if T.signed then -(2 ^ (T.width - 1)) else 0

/-- The largest value of the type. -/
def max (T : IntType) : Int := T.min + T.size - 1

/-- `x` is a value of the type. -/
def InRange (T : IntType) (x : Int) : Prop := T.min ≤ x ∧ x ≤ T.max

instance (T : IntType) (x : Int) : Decidable (T.InRange x) :=
  inferInstanceAs (Decidable (_ ∧ _))

/-- The width of `int`, below which operands are promoted. -/
def intWidth : Nat := 32

/-- Conversion of an integer to the type. -/
def conv (T : IntType) (z : Int) : Int := (z - T.min) % T.size + T.min

/-- The value of an expression on operands of type `T` whose exact value is `z`. -/
def arith (B : Build) (T : IntType) (z : Int) : Except Fault Int :=
  if T.width < intWidth then pure z
  else if T.signed && !B.wrapv then
    if T.InRange z then pure z else throw .overflow
  else pure (T.conv z)

/-- The type is one whose overflow `arith` leaves undefined. -/
def Undefined (B : Build) (T : IntType) : Prop :=
  intWidth ≤ T.width ∧ T.signed = true ∧ B.wrapv = false

instance (B : Build) (T : IntType) : Decidable (T.Undefined B) :=
  inferInstanceAs (Decidable (_ ∧ _ ∧ _))

theorem size_pos (T : IntType) : 0 < T.size := by
  exact Int.pow_pos (by decide)

theorem conv_of_inRange {T : IntType} {z : Int} (h : T.InRange z) : T.conv z = z := by
  simp only [InRange, max] at h
  rw [conv, Int.emod_eq_of_lt (by omega) (by omega)]
  omega

theorem inRange_conv (T : IntType) (z : Int) : T.InRange (T.conv z) := by
  have hnonneg := Int.emod_nonneg (z - T.min) T.size_pos.ne'
  have hlt := Int.emod_lt_of_pos (z - T.min) T.size_pos
  simp only [InRange, conv, max]
  omega

theorem conv_eq_of_emod {T : IntType} {z x : Int} (hx : T.InRange x)
    (h : z % T.size = x % T.size) : T.conv z = x := by
  have hsub : (z - T.min) % T.size = (x - T.min) % T.size := by
    rw [Int.sub_emod, h, ← Int.sub_emod]
  have hx' := conv_of_inRange hx
  unfold conv at hx' ⊢
  rw [hsub, hx']

theorem conv_emod (T : IntType) (z : Int) : T.conv z % T.size = z % T.size := by
  rw [conv, Int.emod_add_emod, sub_add_cancel]

theorem conv_int_conv {T : IntType} (h : T.width ≤ 32) (z : Int) :
    T.conv (int.conv z) = T.conv z := by
  have hdvd : T.size ∣ int.size := pow_dvd_pow 2 h
  apply conv_eq_of_emod (T.inRange_conv z)
  rw [conv_emod, ← Int.emod_emod_of_dvd _ hdvd, conv_emod, Int.emod_emod_of_dvd _ hdvd]

theorem int_conv (z : Int) : int.conv z = (z + 2 ^ 31) % 2 ^ 32 - 2 ^ 31 := by
  simp only [conv, min, size, int, if_true]
  omega

theorem u32_conv (z : Int) : u32.conv z = z % 2 ^ 32 := by
  simp [conv, min, size, u32]

theorem u64_conv (z : Int) : u64.conv z = z % 2 ^ 64 := by
  simp [conv, min, size, u64]

theorem i64_conv (z : Int) : i64.conv z = (z + 2 ^ 63) % 2 ^ 64 - 2 ^ 63 := by
  simp only [conv, min, size, i64, if_true]
  omega

theorem int_conv_of_lt {n : Nat} (h : n < 2 ^ 31) : int.conv n = n := by
  rw [int_conv]
  omega

theorem conv_min_sub_one (T : IntType) : T.conv (T.min - 1) = T.max := by
  have hsize := T.size_pos
  have : (T.min - 1 - T.min) % T.size = T.size - 1 := by
    rw [show T.min - 1 - T.min = (T.size - 1) + T.size * (-1) by ring,
      Int.add_mul_emod_self_left, Int.emod_eq_of_lt (by omega) (by omega)]
  rw [conv, this, max]; ring

theorem conv_max_add_one (T : IntType) : T.conv (T.max + 1) = T.min := by
  have : (T.max + 1 - T.min) % T.size = 0 := by
    rw [max, show T.min + T.size - 1 + 1 - T.min = T.size by ring, Int.emod_self]
  rw [conv, this, zero_add]

@[simp] theorem arith_of_inRange (B : Build) {T : IntType} {z : Int} (h : T.InRange z) :
    T.arith B z = .ok z := by
  simp only [arith, h, conv_of_inRange h, if_true, pure, Except.pure, ite_self]

theorem arith_of_narrow (B : Build) {T : IntType} (h : T.width < intWidth) (z : Int) :
    T.arith B z = .ok z := by
  simp only [arith, h, if_true, pure, Except.pure]

theorem arith_of_undefined {B : Build} {T : IntType} (h : T.Undefined B) {z : Int}
    (hz : ¬ T.InRange z) : T.arith B z = .error .overflow := by
  obtain ⟨hw, hs, hb⟩ := h
  simp [arith, Nat.not_lt.mpr hw, hs, hb, hz, throw, throwThe, MonadExceptOf.throw]

theorem arith_of_wraps {B : Build} {T : IntType} (hw : intWidth ≤ T.width)
    (h : ¬ T.Undefined B) (z : Int) : T.arith B z = .ok (T.conv z) := by
  simp only [Undefined, hw, true_and, not_and, Bool.not_eq_false] at h
  cases hs : T.signed with
  | false => simp [arith, Nat.not_lt.mpr hw, hs]
  | true => simp [arith, Nat.not_lt.mpr hw, hs, h hs]

/-- The three outcomes of `x + 1`. -/
theorem arith_add_one (B : Build) {T : IntType} {x : Int} (hx : T.InRange x) :
    T.arith B (x + 1) = .ok (x + 1) ∨
    (x = T.max ∧ T.Undefined B ∧ T.arith B (x + 1) = .error .overflow) ∨
    (x = T.max ∧ intWidth ≤ T.width ∧ ¬ T.Undefined B ∧ T.arith B (x + 1) = .ok T.min) := by
  obtain ⟨hmin, hmax⟩ := hx
  by_cases hlt : x < T.max
  · exact .inl (arith_of_inRange B ⟨by omega, by omega⟩)
  · have hx : x = T.max := by omega
    subst hx
    by_cases hw : T.width < intWidth
    · exact .inl (arith_of_narrow B hw _)
    · by_cases hu : T.Undefined B
      · exact .inr (.inl ⟨rfl, hu, arith_of_undefined hu (by simp [InRange])⟩)
      · refine .inr (.inr ⟨rfl, by omega, hu, ?_⟩)
        rw [arith_of_wraps (by omega) hu, conv_max_add_one]

/-- The three outcomes of `x - 1`. -/
theorem arith_sub_one (B : Build) {T : IntType} {x : Int} (hx : T.InRange x) :
    T.arith B (x - 1) = .ok (x - 1) ∨
    (x = T.min ∧ T.Undefined B ∧ T.arith B (x - 1) = .error .overflow) ∨
    (x = T.min ∧ intWidth ≤ T.width ∧ ¬ T.Undefined B ∧ T.arith B (x - 1) = .ok T.max) := by
  obtain ⟨hmin, hmax⟩ := hx
  by_cases hlt : T.min < x
  · exact .inl (arith_of_inRange B ⟨by omega, by omega⟩)
  · have hx : x = T.min := by omega
    subst hx
    by_cases hw : T.width < intWidth
    · exact .inl (arith_of_narrow B hw _)
    · by_cases hu : T.Undefined B
      · exact .inr (.inl ⟨rfl, hu, arith_of_undefined hu (by simp [InRange])⟩)
      · refine .inr (.inr ⟨rfl, by omega, hu, ?_⟩)
        rw [arith_of_wraps (by omega) hu, conv_min_sub_one]

end IntType

theorem tdiv_cases (z k : Int) :
    (0 ≤ z → z.tdiv k = z / k) ∧ (z < 0 → z.tdiv k = -(-z / k)) := by
  refine ⟨Int.tdiv_eq_ediv_of_nonneg, fun hneg => ?_⟩
  rw [← Int.tdiv_eq_ediv_of_nonneg (by omega), Int.neg_tdiv, Int.neg_neg]

end Oasys
