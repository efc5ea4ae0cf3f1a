import Mathlib.Data.List.TakeWhile
import Mathlib.Data.Nat.Digits.Defs

/-!
# Hexadecimal numerals

Numbers as text in base 16, as the `x` conversion of `printf` writes them and `strtoull`
reads them: lower case digits, filled up to a width on the left, and read from the start of
a text up to the first byte that is no digit.
-/

namespace Hex

/-- The digits of a number, most significant first, with at least one of them. -/
def digits (n : Nat) : List UInt8 := (Nat.toDigits 16 n).map fun c => .ofNat c.toNat

/-- A text filled up to a width. -/
def pad (fill : UInt8) (width : Nat) (text : List UInt8) : List UInt8 :=
  List.replicate (width - text.length) fill ++ text

/-- The byte is a digit, of either case. -/
def isDigit (c : UInt8) : Bool :=
  (48 ≤ c && c ≤ 57) || (97 ≤ c && c ≤ 102) || (65 ≤ c && c ≤ 70)

/-- The value of a digit. -/
def digitValue (c : UInt8) : Nat :=
  if c ≤ 57 then c.toNat - 48 else if c ≤ 70 then c.toNat - 55 else c.toNat - 87

/-- The number that the digits at the start of a text hold. -/
def value (text : List UInt8) : Nat :=
  (text.takeWhile isDigit).foldl (fun n c => n * 16 + digitValue c) 0

/-! ### Writing -/

theorem digits_of_le {n : Nat} (h : 16 ≤ n) : digits n = digits (n / 16) ++ digits (n % 16) := by
  have hlt : n % 16 < 16 := Nat.mod_lt n (by decide)
  unfold digits
  rw [Nat.toDigits_of_base_le (by decide) h, Nat.toDigits_of_lt_base hlt, List.map_append]

theorem length_digits_le {n k : Nat} (hk : 0 < k) (h : n < 16 ^ k) : (digits n).length ≤ k := by
  rw [digits, List.length_map]
  exact (Nat.length_toDigits_le_iff (by decide) hk).2 h

theorem length_pad {fill : UInt8} {width : Nat} {text : List UInt8} (h : text.length ≤ width) :
    (pad fill width text).length = width := by
  rw [pad, List.length_append, List.length_replicate]
  omega

/-! ### Reading -/

private theorem digits_lt (n : Nat) (h : n < 16) :
    ∃ c, digits n = [c] ∧ isDigit c = true ∧ digitValue c = n := by
  refine ⟨.ofNat n.digitChar.toNat, ?_, ?_⟩
  · rw [digits, Nat.toDigits_of_lt_base h]
    rfl
  · revert n
    decide

/-- The digits of a number are digits. -/
theorem isDigit_of_mem (n : Nat) : ∀ c ∈ digits n, isDigit c = true := by
  induction n using Nat.strong_induction_on with
  | _ n ih =>
    intro c hc
    by_cases hlt : n < 16
    · obtain ⟨d, hdigits, hdigit, -⟩ := digits_lt n hlt
      rw [hdigits, List.mem_singleton] at hc
      exact hc ▸ hdigit
    · rw [digits_of_le (by omega), List.mem_append] at hc
      cases hc with
      | inl hc => exact ih (n / 16) (by omega) c hc
      | inr hc => exact ih (n % 16) (by omega) c hc

/-- The digits of a number hold the number. -/
private theorem foldl_digits (n : Nat) :
    (digits n).foldl (fun n c => n * 16 + digitValue c) 0 = n := by
  induction n using Nat.strong_induction_on with
  | _ n ih =>
    by_cases hlt : n < 16
    · obtain ⟨c, hdigits, -, hvalue⟩ := digits_lt n hlt
      rw [hdigits, List.foldl_cons, List.foldl_nil, hvalue, Nat.zero_mul, Nat.zero_add]
    · obtain ⟨c, hdigits, -, hvalue⟩ := digits_lt (n % 16) (by omega)
      rw [digits_of_le (by omega), List.foldl_append, ih (n / 16) (by omega), hdigits,
        List.foldl_cons, List.foldl_nil, hvalue]
      omega

theorem value_digits (n : Nat) {rest : List UInt8} (hrest : rest.takeWhile isDigit = []) :
    value (digits n ++ rest) = n := by
  rw [value, List.takeWhile_append_of_pos (isDigit_of_mem n), hrest, List.append_nil,
    foldl_digits]

private theorem digitValue_lt (c : UInt8) (hc : isDigit c = true) : digitValue c < 16 := by
  obtain ⟨⟨n⟩⟩ := c
  revert n
  decide +kernel

private theorem foldl_lt (text : List UInt8) (h : ∀ c ∈ text, isDigit c = true) (n : Nat) :
    text.foldl (fun n c => n * 16 + digitValue c) n < (n + 1) * 16 ^ text.length := by
  induction text generalizing n with
  | nil => simp
  | cons c text ih =>
    have hc := digitValue_lt c (h c List.mem_cons_self)
    have hrest := ih (fun d hd => h d (List.mem_cons_of_mem _ hd)) (n * 16 + digitValue c)
    calc _ < (n * 16 + digitValue c + 1) * 16 ^ text.length := hrest
      _ ≤ ((n + 1) * 16) * 16 ^ text.length := Nat.mul_le_mul_right _ (by omega)
      _ = (n + 1) * 16 ^ (c :: text).length := by rw [List.length_cons, Nat.pow_succ']; ring

theorem value_lt (text : List UInt8) : value text < 16 ^ text.length := by
  have hlt := foldl_lt (text.takeWhile isDigit) (fun c hc => List.mem_takeWhile_imp hc) 0
  have hlen := (List.takeWhile_prefix (p := isDigit) (l := text)).length_le
  calc value text < (0 + 1) * 16 ^ (text.takeWhile isDigit).length := hlt
    _ ≤ 16 ^ text.length := by
      rw [Nat.zero_add, Nat.one_mul]
      exact Nat.pow_le_pow_right (by decide) hlen

theorem value_append {text rest : List UInt8} (h : ∀ c ∈ text, isDigit c = true)
    (hrest : rest.takeWhile isDigit = []) : value (text ++ rest) = value text := by
  unfold value
  rw [List.takeWhile_append_of_pos h, hrest, List.append_nil, List.takeWhile_eq_self_iff.2 h]

theorem value_zero_cons (text : List UInt8) : value (48 :: text) = value text := by
  have hdigit : isDigit 48 = true := by decide
  rw [value, List.takeWhile_cons_of_pos hdigit, List.foldl_cons]
  rfl

theorem value_pad (n width : Nat) {rest : List UInt8} (hrest : rest.takeWhile isDigit = []) :
    value (pad 48 width (digits n) ++ rest) = n := by
  rw [pad, List.append_assoc]
  induction width - (digits n).length with
  | zero => exact value_digits n hrest
  | succ k ih =>
    rw [List.replicate_succ, List.cons_append, value_zero_cons]
    exact ih

end Hex
