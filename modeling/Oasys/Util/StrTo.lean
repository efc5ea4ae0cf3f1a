import Oasys.ForStd.Words
import Oasys.Util.StringUtils

/-!
# strtol and its relatives

`strtol`, `strtoul` and `strtoull` with base 0 and an end pointer: the number that a string
starts with, in the base that its first digits tell, after white space and a sign. A string
is given by its characters without the terminator; the end pointer is the number of
characters that have been read.
-/

namespace Oasys

/-- The bases that a numeral can tell. -/
inductive Radix where
  | oct
  | dec
  | hex
  deriving DecidableEq, Repr

namespace Radix

def base : Radix → Nat
  | oct => 8
  | dec => 10
  | hex => 16

/-- The character is a digit of the base. -/
def isDigit : Radix → UInt8 → Bool
  | oct, c => 48 ≤ c && c ≤ 55
  | dec, c => Decimal.isDigit c
  | hex, c => Hex.isDigit c

/-- The value of digits. -/
def value (r : Radix) (digits : List UInt8) : Nat :=
  digits.foldl (fun n c => n * r.base + Hex.digitValue c) 0

/-- The base of a numeral, and how many characters stand before its digits. -/
def ofText : List UInt8 → Radix × Nat
  | 48 :: x :: c :: _ => if (x = 120 || x = 88) && Hex.isDigit c then (hex, 2) else (oct, 0)
  | 48 :: _ => (oct, 0)
  | _ => (dec, 0)

end Radix

/-- A number at the start of a string: whether it has a minus sign, its absolute value, and how
    many characters have been read. Without digits nothing has been read. -/
structure Scan where
  neg : Bool
  n : Nat
  len : Nat
  deriving DecidableEq, Repr

namespace Scan

/-- Nothing. -/
def empty : Scan := ⟨false, 0, 0⟩

/-- The digits at the start of a text, as a number, and how many characters there are. -/
def digits (text : List UInt8) : Nat × Nat :=
  let r := Radix.ofText text
  let ds := (text.drop r.2).takeWhile r.1.isDigit
  (r.1.value ds, if ds = [] then 0 else r.2 + ds.length)

/-- What is read behind the white space. -/
def afterBlank (text : List UInt8) : Scan :=
  let s := skipSign text
  let d := digits s.2
  if d.2 = 0 then empty else ⟨s.1, d.1, text.length - s.2.length + d.2⟩

/-- What is read of a string. -/
def ofString (str : List UInt8) : Scan :=
  let blank := (str.takeWhile isspace).length
  let s := afterBlank (str.drop blank)
  if s.len = 0 then empty else { s with len := blank + s.len }

/-- The number. -/
def value (s : Scan) : Int := if s.neg then -s.n else s.n

end Scan

/-- `strtol`. -/
def strtolBase0 (str : List UInt8) : Int × Nat :=
  let s := Scan.ofString str
  (max (-(2 ^ 63)) (min s.value (2 ^ 63 - 1)), s.len)

/-- `strtoul` and `strtoull`. A minus sign negates the number as an unsigned one. -/
def strtoulBase0 (str : List UInt8) : Nat × Nat :=
  let s := Scan.ofString str
  (if s.n < 2 ^ 64 then (s.value % 2 ^ 64).toNat else 2 ^ 64 - 1, s.len)

/-! ### What is read -/

namespace Scan

variable {k : Nat} {text str : List UInt8}

/-- A part of a text that begins as the text does has the same base. -/
theorem ofText_take (hk : 0 < k) (hhex : (Radix.ofText text).2 + 1 ≤ k) :
    Radix.ofText (text.take k) = Radix.ofText text := by
  obtain ⟨k, rfl⟩ : ∃ j, k = j + 1 := ⟨k - 1, by omega⟩
  match text with
  | [] => rfl
  | [c] => simp
  | [c, x] =>
    cases k with
    | zero =>
      by_cases hc : c = 48
      · subst hc
        rfl
      · simp [Radix.ofText, hc]
    | succ k => simp
  | c :: x :: d :: text =>
    by_cases hc : c = 48
    · subst hc
      by_cases hx : ((x = 120 || x = 88) && Hex.isDigit d) = true
      · have htwo : (Radix.ofText (48 :: x :: d :: text)).2 = 2 := by
          simp [Radix.ofText, hx]
        rw [htwo] at hhex
        obtain ⟨k, rfl⟩ : ∃ j, k = j + 2 := ⟨k - 2, by omega⟩
        simp [Radix.ofText, hx]
      · cases k with
        | zero => simp [Radix.ofText, hx]
        | succ k =>
          cases k with
          | zero => simp [Radix.ofText, hx]
          | succ k => simp [Radix.ofText, hx]
    · cases k with
      | zero => simp [Radix.ofText, hc]
      | succ k =>
        cases k with
        | zero => simp [Radix.ofText, hc]
        | succ k => simp [Radix.ofText, hc]

/-- The digits start a text as soon as it starts with a digit. -/
theorem digits_eq_zero_iff : (digits text).2 = 0 ↔ (text.takeWhile Radix.dec.isDigit) = [] := by
  match text with
  | [] => simp [digits]
  | c :: text =>
    by_cases hc : c = 48
    · subst hc
      -- a zero is a digit of any base
      have hdec : Radix.dec.isDigit 48 = true := by decide
      have hoct : Radix.oct.isDigit 48 = true := by decide
      have hne : (digits (48 :: text)).2 ≠ 0 := by
        match text with
        | [] => simp [digits, Radix.ofText, hoct]
        | [x] => simp [digits, Radix.ofText, hoct]
        | x :: d :: text =>
          by_cases hx : ((x = 120 || x = 88) && Hex.isDigit d) = true
          · have hd : Radix.hex.isDigit d = true := (Bool.and_eq_true_iff.1 hx).2
            simp [digits, Radix.ofText, hx, hd]
          · simp [digits, Radix.ofText, hx, hoct]
      simp [hne, hdec]
    · have hradix : Radix.ofText (c :: text) = (.dec, 0) := by
        match text with
        | [] => simp [Radix.ofText, hc]
        | [x] => simp [Radix.ofText, hc]
        | x :: d :: text => simp [Radix.ofText, hc]
      simp only [digits, hradix, List.drop_zero]
      by_cases hds : List.takeWhile Radix.dec.isDigit (c :: text) = []
      · simp [hds]
      · simp [hds]

theorem ofText_lt_digits (h : (digits text).2 ≠ 0) :
    (Radix.ofText text).2 + 1 ≤ (digits text).2 := by
  unfold digits at h ⊢
  dsimp only at h ⊢
  split at h
  · exact absurd rfl h
  · rename_i hne
    have hpos := List.length_pos_iff.2 hne
    rw [if_neg hne]
    omega

/-- The digits of a part of a text with all that is read in it. -/
theorem digits_take (hk : (digits text).2 ≤ k) : digits (text.take k) = digits text := by
  by_cases hzero : (digits text).2 = 0
  · -- there are none in the part either
    have hnone := digits_eq_zero_iff.1 hzero
    have hpart : (digits (text.take k)).2 = 0 := by
      rw [digits_eq_zero_iff]
      match text, k with
      | [], _ => simp
      | _ :: _, 0 => simp
      | c :: text, k + 1 =>
        rw [List.takeWhile_cons] at hnone
        split at hnone
        · cases hnone
        · rename_i hc
          simp [hc]
    have hval : ∀ text : List UInt8, (digits text).2 = 0 → (digits text).1 = 0 := by
      intro text h
      unfold digits at h ⊢
      dsimp only at h ⊢
      split at h
      · rename_i hds
        rw [hds]
        rfl
      · rename_i hds
        have := List.length_pos_iff.2 hds
        omega
    exact Prod.ext ((hval _ hpart).trans (hval _ hzero).symm) (hpart.trans hzero.symm)
  · have hlt := ofText_lt_digits hzero
    have hradix : Radix.ofText (text.take k) = Radix.ofText text :=
      ofText_take (by omega) (hlt.trans hk)
    unfold digits at hk ⊢
    dsimp only at hk ⊢
    rw [hradix]
    -- what is behind the digits is not looked at
    have hds : ((text.take k).drop (Radix.ofText text).2).takeWhile (Radix.ofText text).1.isDigit =
        (text.drop (Radix.ofText text).2).takeWhile (Radix.ofText text).1.isDigit := by
      rw [List.drop_take, ← List.take_takeWhile]
      apply List.take_of_length_le
      split at hk
      · rename_i hds
        rw [hds]
        exact Nat.zero_le _
      · omega
    rw [hds]

theorem afterBlank_nil : afterBlank [] = empty := rfl

theorem afterBlank_eq_empty (h : (afterBlank text).len = 0) : afterBlank text = empty := by
  unfold afterBlank at h ⊢
  dsimp only at h ⊢
  split at h
  · rename_i hd
    rw [if_pos hd]
  · rename_i hd
    simp only at h
    omega

theorem afterBlank_sign {c : UInt8} {neg : Bool} (rest : List UInt8)
    (hc : ∀ rest, skipSign (c :: rest) = (neg, rest)) :
    afterBlank (c :: rest) =
      if (digits rest).2 = 0 then empty else ⟨neg, (digits rest).1, 1 + (digits rest).2⟩ := by
  have hlen : (c :: rest).length - rest.length = 1 := by
    rw [List.length_cons]
    omega
  simp only [afterBlank, hc, hlen]

theorem afterBlank_unsigned (hc : skipSign text = (false, text)) : afterBlank text =
      if (digits text).2 = 0 then empty else ⟨false, (digits text).1, (digits text).2⟩ := by
  simp only [afterBlank, hc, Nat.sub_self, Nat.zero_add]

/-- A character is a sign for whatever follows, or for nothing. -/
theorem skipSign_cons (c : UInt8) : (∃ neg, ∀ rest, skipSign (c :: rest) = (neg, rest)) ∨
    ∀ rest, skipSign (c :: rest) = (false, c :: rest) := by
  by_cases hneg : c = 45
  · subst hneg
    exact .inl ⟨true, fun _ => rfl⟩
  · by_cases hpos : c = 43
    · subst hpos
      exact .inl ⟨false, fun _ => rfl⟩
    · refine .inr fun rest => ?_
      unfold skipSign
      split
      · rename_i heq
        exact absurd (List.cons.inj heq).1 hneg
      · rename_i heq
        exact absurd (List.cons.inj heq).1 hpos
      · rfl

theorem afterBlank_take (hk : (afterBlank text).len ≤ k) :
    afterBlank (text.take k) = afterBlank text := by
  cases text with
  | nil => rw [List.take_nil]
  | cons c rest =>
    cases k with
    | zero =>
      rw [List.take_zero, afterBlank_nil]
      exact (afterBlank_eq_empty (Nat.le_zero.1 hk)).symm
    | succ k =>
      rw [List.take_succ_cons]
      rcases skipSign_cons c with ⟨neg, hc⟩ | hc
      · rw [afterBlank_sign _ hc] at hk ⊢
        have hdigits : (digits rest).2 ≤ k := by
          split at hk
          · omega
          · simp only at hk
            omega
        rw [digits_take hdigits, afterBlank_sign _ hc]
      · rw [afterBlank_unsigned (hc _)] at hk ⊢
        have hdigits : (digits (c :: rest)).2 ≤ k + 1 := by
          split at hk
          · omega
          · exact hk
        have htake := digits_take hdigits
        rw [List.take_succ_cons] at htake
        rw [htake, afterBlank_unsigned (hc _)]

theorem ofString_of_blank (h : (str.drop (str.takeWhile isspace).length) = []) :
    ofString str = empty := by
  unfold ofString
  dsimp only
  rw [h]
  rfl

/-- A part of a string with all that is read of it is read as the string is. -/
theorem ofString_take (hk : (ofString str).len ≤ k) : ofString (str.take k) = ofString str := by
  have hblank : ((str.take k).takeWhile isspace).length =
      min k (str.takeWhile isspace).length := by
    rw [← List.take_takeWhile, List.length_take]
  by_cases hlt : (str.takeWhile isspace).length < k
  · have hmin : ((str.take k).takeWhile isspace).length = (str.takeWhile isspace).length := by
      omega
    unfold ofString at hk ⊢
    dsimp only at hk ⊢
    have hafter : (afterBlank (str.drop (str.takeWhile isspace).length)).len ≤
        k - (str.takeWhile isspace).length := by
      split at hk
      · omega
      · simp only at hk
        omega
    rw [hmin, List.drop_take, afterBlank_take hafter]
  · -- the part is all blank
    have hdrop : (str.take k).drop ((str.take k).takeWhile isspace).length = [] := by
      rw [List.drop_eq_nil_iff, hblank, List.length_take]
      omega
    rw [ofString_of_blank hdrop]
    unfold ofString at hk ⊢
    dsimp only at hk ⊢
    split at hk
    · rename_i hzero
      rw [if_pos hzero]
    · simp only at hk
      omega

/-! ### White space behind what is read -/

/-- White space is no digit, and no part of a prefix. -/
theorem isspace_not_digit {c : UInt8} (hc : isspace c = true) :
    (∀ r : Radix, r.isDigit c = false) ∧ c ≠ 120 ∧ c ≠ 88 := by
  have hcases : c = 9 ∨ c = 10 ∨ c = 11 ∨ c = 12 ∨ c = 13 ∨ c = 32 := by
    simp only [isspace, Bool.or_eq_true, Bool.and_eq_true, decide_eq_true_eq] at hc
    rw [UInt8.le_iff_toNat_le, UInt8.le_iff_toNat_le] at hc
    simp only [← UInt8.toNat_inj]
    have h9 : (9 : UInt8).toNat = 9 := rfl
    have h13 : (13 : UInt8).toNat = 13 := rfl
    have h32 : (32 : UInt8).toNat = 32 := rfl
    have h10 : (10 : UInt8).toNat = 10 := rfl
    have h11 : (11 : UInt8).toNat = 11 := rfl
    have h12 : (12 : UInt8).toNat = 12 := rfl
    rw [← UInt8.toNat_inj] at hc
    omega
  have hdec : ∀ d ∈ [9, 10, 11, 12, 13, 32],
      (Radix.oct.isDigit d = false ∧ Radix.dec.isDigit d = false ∧ Radix.hex.isDigit d = false) ∧
        d ≠ 120 ∧ d ≠ 88 := by decide +kernel
  obtain ⟨⟨hoct, hdec, hhex⟩, hx⟩ := hdec c (by simpa using hcases)
  refine ⟨fun r => ?_, hx⟩
  cases r with
  | oct => exact hoct
  | dec => exact hdec
  | hex => exact hhex

/-- Nor does it tell a base. -/
theorem ofText_append (hne : text ≠ []) {w : UInt8} (hw : isspace w = true)
    (rest : List UInt8) : Radix.ofText (text ++ w :: rest) = Radix.ofText text := by
  obtain ⟨hdigit, hx, hX⟩ := isspace_not_digit hw
  have hhex : Hex.isDigit w = false := hdigit .hex
  match text with
  | [] => exact absurd rfl hne
  | [c] =>
    by_cases hc : c = 48
    · subst hc
      cases rest with
      | nil => rfl
      | cons d rest => simp [Radix.ofText, hx, hX]
    · cases rest with
      | nil => simp [Radix.ofText, hc]
      | cons d rest => simp [Radix.ofText, hc]
  | [c, x] =>
    by_cases hc : c = 48
    · subst hc
      simp [Radix.ofText, hhex]
    · simp [Radix.ofText, hc]
  | c :: x :: d :: text =>
    by_cases hc : c = 48
    · subst hc
      simp [Radix.ofText]
    · simp [Radix.ofText, hc]

theorem ofText_le : (Radix.ofText text).2 ≤ text.length := by
  unfold Radix.ofText
  split
  · split
    · simp
    · exact Nat.zero_le _
  · exact Nat.zero_le _
  · exact Nat.zero_le _

theorem digits_append (hne : text ≠ []) {w : UInt8} (hw : isspace w = true)
    (rest : List UInt8) : digits (text ++ w :: rest) = digits text := by
  have hstop := (isspace_not_digit hw).1 (Radix.ofText text).1
  unfold digits
  dsimp only
  rw [ofText_append hne hw, List.drop_append_of_le_length ofText_le,
    List.takeWhile_append_cons hstop]

/-- White space behind a number is not read. -/
theorem afterBlank_append (hpos : (afterBlank text).len ≠ 0) {w : UInt8}
    (hw : isspace w = true) (rest : List UInt8) :
    afterBlank (text ++ w :: rest) = afterBlank text := by
  cases text with
  | nil => exact absurd rfl hpos
  | cons c text =>
    rcases skipSign_cons c with ⟨neg, hc⟩ | hc
    · have hne : text ≠ [] := by
        rintro rfl
        rw [afterBlank_sign _ hc] at hpos
        exact hpos rfl
      rw [List.cons_append, afterBlank_sign _ hc, afterBlank_sign _ hc, digits_append hne hw]
    · have happ := digits_append (List.cons_ne_nil c text) hw rest
      rw [List.cons_append] at happ ⊢
      rw [afterBlank_unsigned (hc _), afterBlank_unsigned (hc _), happ]

theorem ofString_append (hpos : (ofString str).len ≠ 0) {w : UInt8}
    (hw : isspace w = true) (rest : List UInt8) : ofString (str ++ w :: rest) = ofString str := by
  -- not all of the string is blank
  have hblank : ¬ (str.takeWhile isspace).length = str.length := by
    intro heq
    refine hpos ?_
    rw [ofString_of_blank (List.drop_eq_nil_iff.2 (by omega))]
    rfl
  have htake : (str ++ w :: rest).takeWhile isspace = str.takeWhile isspace := by
    rw [List.takeWhile_append, if_neg hblank]
  have hle := (List.takeWhile_prefix (p := isspace) (l := str)).length_le
  have hafter : (afterBlank (str.drop (str.takeWhile isspace).length)).len ≠ 0 := by
    intro hzero
    refine hpos ?_
    unfold ofString
    dsimp only
    rw [if_pos hzero]
    rfl
  unfold ofString
  dsimp only
  rw [htake, List.drop_append_of_le_length hle, afterBlank_append hafter hw]

/-- No more is read than there is. -/
theorem digits_le (text : List UInt8) : (digits text).2 ≤ text.length := by
  unfold digits
  dsimp only
  split
  · exact Nat.zero_le _
  · rename_i hne
    have hpos := List.length_pos_iff.2 hne
    have hle := (List.takeWhile_prefix (p := (Radix.ofText text).1.isDigit)
      (l := text.drop (Radix.ofText text).2)).length_le
    rw [List.length_drop] at hle
    omega

theorem afterBlank_le (text : List UInt8) : (afterBlank text).len ≤ text.length := by
  have hdigits := digits_le (skipSign text).2
  have hsign : (skipSign text).2.length ≤ text.length := by
    unfold skipSign
    split <;> simp
  unfold afterBlank
  dsimp only
  split
  · exact Nat.zero_le _
  · simp only
    omega

theorem ofString_le (str : List UInt8) : (ofString str).len ≤ str.length := by
  have hafter := afterBlank_le (str.drop (str.takeWhile isspace).length)
  have hblank := (List.takeWhile_prefix (p := isspace) (l := str)).length_le
  rw [List.length_drop] at hafter
  unfold ofString
  dsimp only
  split
  · exact Nat.zero_le _
  · simp only
    omega

end Scan

end Oasys
