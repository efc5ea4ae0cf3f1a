import Mathlib.Data.List.TakeWhile
import Mathlib.Data.Nat.Digits.Defs

/-!
# Decimal numerals

Numbers as text in base 10: the digits of a number, most significant first and with no zero
before them, and the number that the digits at the start of a text hold. A text holds the
number it was written for, and has no byte in it but the ten digits.
-/

namespace Decimal

/-- The digits of a number, most significant first, with at least one of them. -/
def digits (n : Nat) : List UInt8 := (Nat.toDigits 10 n).map fun c => .ofNat c.toNat

/-- The byte is a digit. -/
def isDigit (c : UInt8) : Bool := 48 ≤ c && c ≤ 57

/-- The number that the digits at the start of a text hold. -/
def value (text : List UInt8) : Nat :=
  (text.takeWhile isDigit).foldl (fun n c => 10 * n + (c.toNat - 48)) 0

/-! ### Writing -/

theorem digits_eq_if (n : Nat) :
    digits n = if n < 10 then [.ofNat (48 + n)] else digits (n / 10) ++ [.ofNat (48 + n % 10)] := by
  have hchar : ∀ d < 10, UInt8.ofNat d.digitChar.toNat = .ofNat (48 + d) := by decide
  unfold digits
  rw [Nat.toDigits_eq_if (by decide)]
  split
  · rename_i hlt
    simp [hchar n hlt]
  · simp [hchar (n % 10) (Nat.mod_lt n (by decide))]

theorem digits_ne_nil (n : Nat) : digits n ≠ [] := by
  simp [digits, Nat.toDigits_ne_nil]

theorem length_digits_le_iff {n k : Nat} (hk : 0 < k) : (digits n).length ≤ k ↔ n < 10 ^ k := by
  rw [digits, List.length_map]
  exact Nat.length_toDigits_le_iff (by decide) hk

/-- The digits of a number are digits. -/
theorem isDigit_of_mem {n : Nat} {c : UInt8} (h : c ∈ digits n) : isDigit c = true := by
  induction n using Nat.strong_induction_on with
  | _ n ih =>
    have hdigit : ∀ d < 10, isDigit (.ofNat (48 + d)) = true := by decide
    rw [digits_eq_if] at h
    split at h
    · rename_i hlt
      rw [List.mem_singleton.1 h]
      exact hdigit n hlt
    · rcases List.mem_append.1 h with h | h
      · exact ih (n / 10) (by omega) h
      · rw [List.mem_singleton.1 h]
        exact hdigit (n % 10) (by omega)

theorem not_mem_digits {n : Nat} {c : UInt8} (h : isDigit c = false) : c ∉ digits n := by
  intro hmem
  rw [isDigit_of_mem hmem] at h
  cases h

/-! ### Reading -/

/-- The digits of a number hold the number. -/
private theorem foldl_digits (n : Nat) :
    (digits n).foldl (fun n c => 10 * n + (c.toNat - 48)) 0 = n := by
  induction n using Nat.strong_induction_on with
  | _ n ih =>
    have hvalue : ∀ d < 10, (UInt8.ofNat (48 + d)).toNat - 48 = d := by decide
    rw [digits_eq_if]
    split
    · rename_i hlt
      have hlast := hvalue n hlt
      rw [List.foldl_cons, List.foldl_nil, hlast]
      omega
    · have hlast := hvalue (n % 10) (by omega)
      rw [List.foldl_append, ih (n / 10) (by omega), List.foldl_cons, List.foldl_nil, hlast]
      omega

theorem value_digits_append (n : Nat) {rest : List UInt8} (hrest : rest.takeWhile isDigit = []) :
    value (digits n ++ rest) = n := by
  rw [value, List.takeWhile_append_of_pos (fun c hc => isDigit_of_mem hc), hrest, List.append_nil,
    foldl_digits]

@[simp] theorem value_digits (n : Nat) : value (digits n) = n := by
  have hvalue := value_digits_append n List.takeWhile_nil
  rwa [List.append_nil] at hvalue

theorem digits_injective : Function.Injective digits :=
  Function.LeftInverse.injective value_digits

end Decimal
