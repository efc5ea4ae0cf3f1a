import Oasys.Debug.DebugUtils
import Oasys.ForStd.Decimal
import Oasys.ForStd.Hex

/-!
# StringUtils

`fast_ultoa`, `hex2str` and `str2hex` of `util/StringUtils.h`, and the functions of the C
library on strings that the code around them calls. A `const char*` is given by the memory
that can be read through it; an `unsigned long` has 64 bits, and a `char` is signed.
-/

namespace Oasys

def strlen (str : List UInt8) : Except Fault Nat :=
  if 0 ∈ str then return str.idxOf 0 else throw .outOfBounds

/-- `to_char`, and the digits of `xdigs` behind it. -/
def toChar (n : Nat) : UInt8 := .ofNat (if n < 10 then n + 48 else n + 87)

/-- The loop of `fast_ultoa`: `*cp-- = ..` for one digit of `val` after another, from the last
    one on. There are `room` bytes up to `cp`, and `written` are those behind it. -/
def ultoaLoop (base : Nat) : Nat → Nat → List UInt8 → Except Fault (List UInt8)
  | 0, _, _ => throw .outOfBounds
  | room + 1, val, written => do
    let written := toChar (val % base) :: written
    let val := val / base
    if val ≠ 0 then
      ultoaLoop base room val written
    else
      return written

/-- `fast_ultoa` for a buffer of `size` bytes: the bytes written to its end. It returns how
    many these are. -/
def fastUltoa (val : UInt64) (base size : Nat) : Except Fault (List UInt8) :=
  match base with
  | 10 =>
    if val < 10 then
      match size with
      | 0 => throw .outOfBounds
      | _ + 1 => return [toChar val.toNat]
    else if val.toNat > 2 ^ 63 - 1 then
      match size with
      | 0 => throw .outOfBounds
      -- one digit is taken off before the rest goes into a `long`
      | room + 1 => ultoaLoop 10 room (val / 10).toNat [toChar (val % 10).toNat]
    else ultoaLoop 10 size val.toNat []
  | 16 => ultoaLoop 16 size val.toNat []
  | _ => return []

/-- The digits of a byte. -/
def hexDigits (b : UInt8) : List UInt8 :=
  [toChar ((b >>> 4) &&& 0xf).toNat, toChar (b &&& 0xf).toNat]

def hex2str (bp : List UInt8) : List UInt8 := bp.flatMap hexDigits

/-- `HEXTONUM`. The characters from 128 on are negative. -/
def hexToNum (x : UInt8) : UInt8 := if x < 97 || 128 ≤ x then x - 48 else x - 97 + 10

/-- `str2hex`: the `len` bytes it stores. -/
def str2hex : List UInt8 → Nat → Except Fault (List UInt8)
  | _, 0 => return []
  | c :: d :: s, len + 1 => do
    let bp ← str2hex s len
    return ((hexToNum c <<< 4) + hexToNum d) :: bp
  | _, _ + 1 => throw .outOfBounds

def isspace (c : UInt8) : Bool := c = 32 || (9 ≤ c && c ≤ 13)

/-- `strtoull`: the sign. -/
def skipSign : List UInt8 → Bool × List UInt8
  | 45 :: text => (true, text)
  | 43 :: text => (false, text)
  | text => (false, text)

/-- `strtoull`: the `0x` before a digit. -/
def skipPrefix : List UInt8 → List UInt8
  | 48 :: x :: c :: text =>
    if (x = 120 || x = 88) && Hex.isDigit c then c :: text else 48 :: x :: c :: text
  | text => text

/-- `strtoull` with base 16, of a text that ends where the list does. -/
def strtoull (text : List UInt8) : UInt64 :=
  let (neg, text) := skipSign (text.dropWhile isspace)
  let n := Hex.value (skipPrefix text)
  if n < 2 ^ 64 then (if neg then 0 - .ofNat n else .ofNat n) else .ofNat (2 ^ 64 - 1)

/-- `strtol` with base 16, which needs something in the memory that ends the number. -/
def strtol (str : List UInt8) : Except Fault Int :=
  let (neg, text) := skipSign (str.dropWhile isspace)
  let digits := skipPrefix text
  if digits.all Hex.isDigit then throw .outOfBounds
  else
    let n : Int := Hex.value digits
    pure (if neg then max (-n) (-(2 ^ 63)) else min n (2 ^ 63 - 1))

/-! ### What the calls do -/

theorem strlen_concat {str : List UInt8} (h : 0 ∉ str) : strlen (str ++ [0]) = .ok str.length := by
  have hidx : (str ++ [0]).idxOf 0 = str.length := by
    simp [List.idxOf_append, h]
  simp [strlen, hidx]

theorem strlen_concat_lt {str : List UInt8} (h : 0 ∈ str) :
    ∃ n, strlen (str ++ [0]) = .ok n ∧ n < str.length := by
  refine ⟨str.idxOf 0, ?_, List.idxOf_lt_length_of_mem h⟩
  simp [strlen, List.idxOf_append, h]

/-- The loop writes the digits of the number where the buffer has room for them. -/
theorem ultoaLoop_eq (room val : Nat) (written : List UInt8) :
    ultoaLoop 10 room val written =
      if (Decimal.digits val).length ≤ room then .ok (Decimal.digits val ++ written)
      else .error .outOfBounds := by
  induction room generalizing val written with
  | zero =>
    have hpos := List.length_pos_iff.2 (Decimal.digits_ne_nil val)
    rw [if_neg (by omega)]
    rfl
  | succ room ih =>
    have hchar : toChar (val % 10) = .ofNat (48 + val % 10) := by
      rw [toChar, if_pos (by omega), Nat.add_comm]
    have hdigits := Decimal.digits_eq_if val
    unfold ultoaLoop
    by_cases hlt : val < 10
    · -- the last digit
      have hzero : val / 10 = 0 := by omega
      have hmod : val % 10 = val := by omega
      rw [if_pos hlt] at hdigits
      rw [hmod] at hchar ⊢
      rw [hchar, hdigits]
      simp [hzero]
    · have hne : val / 10 ≠ 0 := by omega
      rw [if_neg hlt] at hdigits
      simp only [hne, ne_eq, not_false_iff, if_true, ih, hchar, hdigits]
      simp

/-- `fast_ultoa` writes the digits, also of a number that no `long` holds. -/
theorem fastUltoa_eq (val : UInt64) {size : Nat} (hsize : 0 < size) :
    fastUltoa val 10 size =
      if (Decimal.digits val.toNat).length ≤ size then .ok (Decimal.digits val.toNat)
      else .error .outOfBounds := by
  obtain ⟨room, rfl⟩ : ∃ room, size = room + 1 := ⟨size - 1, by omega⟩
  have hdigits := Decimal.digits_eq_if val.toNat
  have hten : (10 : UInt64).toNat = 10 := rfl
  unfold fastUltoa
  by_cases hlt : val.toNat < 10
  · have hval : val < 10 := UInt64.lt_iff_toNat_lt.2 hlt
    rw [if_pos hlt] at hdigits
    simp [hval, hdigits, toChar, hlt, Nat.add_comm]
  · have hval : ¬ val < 10 := fun h => hlt (UInt64.lt_iff_toNat_lt.1 h)
    simp only [hval, if_false]
    split
    · -- the digit that is taken off first is the last one
      have hchar : toChar (val % 10).toNat = .ofNat (48 + val.toNat % 10) := by
        rw [UInt64.toNat_mod, hten, toChar, if_pos (by omega), Nat.add_comm]
      rw [if_neg hlt] at hdigits
      rw [ultoaLoop_eq, UInt64.toNat_div, hten, hchar, hdigits]
      simp
    · rw [ultoaLoop_eq, List.append_nil]

private theorem hexDigits_eq (b : UInt8) :
    ∃ c d, hexDigits b = [c, d] ∧ (hexToNum c <<< 4) + hexToNum d = b ∧ c ≠ 0 ∧ d ≠ 0 := by
  have hbyte : ∀ n < 256,
      (fun c d => (hexToNum c <<< 4) + hexToNum d = UInt8.ofNat n ∧ c ≠ 0 ∧ d ≠ 0)
      (toChar ((UInt8.ofNat n >>> 4) &&& 0xf).toNat) (toChar (UInt8.ofNat n &&& 0xf).toNat) := by
    decide +kernel
  have hb := hbyte b.toNat b.toNat_lt
  rw [UInt8.ofNat_toNat] at hb
  exact ⟨_, _, rfl, hb⟩

@[simp] theorem length_hex2str (bp : List UInt8) : (hex2str bp).length = 2 * bp.length := by
  induction bp with
  | nil => rfl
  | cons b bp ih =>
    obtain ⟨c, d, hdigits, -⟩ := hexDigits_eq b
    unfold hex2str at ih
    rw [hex2str, List.flatMap_cons, hdigits, List.length_append, ih, List.length_cons]
    simp
    omega

theorem zero_not_mem_hex2str (bp : List UInt8) : 0 ∉ hex2str bp := by
  intro h
  obtain ⟨b, -, hb⟩ := List.mem_flatMap.1 h
  obtain ⟨c, d, hdigits, -, hc, hd⟩ := hexDigits_eq b
  rw [hdigits] at hb
  simp [hc.symm, hd.symm] at hb

theorem str2hex_hex2str (bp rest : List UInt8) :
    str2hex (hex2str bp ++ rest) bp.length = .ok bp := by
  induction bp with
  | nil => rw [List.length_nil, str2hex, pure_eq_ok]
  | cons b bp ih =>
    obtain ⟨c, d, hdigits, hbyte, -⟩ := hexDigits_eq b
    unfold hex2str at ih
    rw [hex2str, List.flatMap_cons, hdigits, List.length_cons]
    simp [str2hex, ih, hbyte]

/-- There must be two digits for every byte that is stored. -/
theorem length_of_str2hex {s bp : List UInt8} {len : Nat} (h : str2hex s len = .ok bp) :
    2 * len ≤ s.length ∧ bp.length = len := by
  induction len generalizing s bp with
  | zero =>
    rw [str2hex, pure_eq_ok, Except.ok.injEq] at h
    subst h
    simp
  | succ len ih =>
    match s, h with
    | c :: d :: s, h =>
      rw [str2hex] at h
      obtain ⟨bp', hbp', heq⟩ := bind_eq_ok.1 h
      rw [pure_eq_ok, Except.ok.injEq] at heq
      have hlen := ih hbp'
      subst heq
      simp only [List.length_cons]
      omega
    | [_], h => cases h
    | [], h => cases h

end Oasys
