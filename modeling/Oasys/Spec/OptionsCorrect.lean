import Mathlib.Data.List.Find
import Mathlib.Tactic.ByContra
import Mathlib.Tactic.NormNum
import Oasys.Util.Options

/-!
# The numeric options

A text denotes a number if all of it is read as one, or all but a unit where the option has
units; a numeric option should store the number if its destination can hold it, and refuse it
otherwise (`wanted`). `set` does so under the condition `Careful`, and only then
(`call_eq_iff`): the number ends within the text, it fits, and an abbreviated unit is not taken
for a whole one.
-/

namespace Oasys

/-- The options that store a number. -/
inductive NumOpt where
  | int
  | uint
  | uint64
  | uint16
  | uint8
  | size
  | rate
  deriving DecidableEq, Repr

/-- A destination, and the flag at `setp_`. -/
structure Dest where
  val : Int
  set : Bool
  deriving DecidableEq, Repr

namespace NumOpt

def kind : NumOpt → OptKind
  | int => .int
  | uint => .uint
  | uint64 => .uint64
  | uint16 => .uint16
  | uint8 => .uint8
  | size => .size
  | rate => .rate

/-- What `set` stores. -/
def set (val : List UInt8) (len : Nat) : NumOpt → Option Int
  | int => IntOpt.set val len
  | uint => UIntOpt.set val len
  | uint64 => UInt64Opt.set val len
  | uint16 => UInt16Opt.set val len
  | uint8 => UInt8Opt.set val len
  | size => SizeOpt.set val len
  | rate => RateOpt.set val len

theorem setValue_kind {D : Type} (env : Platform D) (val : List UInt8) (len : Nat) (o : NumOpt) :
    o.kind.setValue env val len = (o.set val len).map .int := by
  cases o <;> rfl

/-- A call of `set`: what it returns, and what it leaves at `valp_` and `setp_`. -/
def call (o : NumOpt) (val : List UInt8) (len : Nat) (d : Dest) : Int × Dest :=
  match o.set val len with
  | none => (-1, d)
  | some n => (0, ⟨n, true⟩)

/-! ### What the text says -/

/-- The type of the destination. -/
def type : NumOpt → IntType
  | int => .int
  | uint => .u32
  | uint64 => .u64
  | uint16 => ⟨false, 16⟩
  | uint8 => .u8
  | size => .u64
  | rate => .u64

/-- The factor of what stands behind the number. -/
def factor (unit : List UInt8) : NumOpt → Option Nat
  | size =>
    match unit with
    | [] => some 1
    | [c] => SizeOpt.unit c
    | _ => none
  | rate =>
    if unit = [] then some 1
    else (RateOpt.units.find? fun u => strcasecmp unit u.1).map Prod.snd
  | _ => if unit = [] then some 1 else none

def denotes (o : NumOpt) (text : List UInt8) : Option Int :=
  let s := Scan.ofString text
  if s.len = 0 then none
  else (o.factor (text.drop s.len)).map fun f : Nat => s.value * f

def wanted (o : NumOpt) (text : List UInt8) : Option Int :=
  (o.denotes text).filter fun v => decide (o.type.InRange v)

/-- A number that does not fit, and is refused since what is left of it in 32 bits does not
    either. -/
def Caught (s : Scan) (o : NumOpt) : Prop :=
  let low := if s.n < 2 ^ 64 then s.value % 2 ^ 32 else 2 ^ 32 - 1
  match o with
  | uint16 => 65535 < low
  | uint8 => 255 < low
  | _ => False

/-- What a rate is taken for whose number goes on behind the text: the text is left there, and
    the unit is looked for behind the number. -/
def overrun (val : List UInt8) (len : Nat) (o : NumOpt) : Option Int :=
  if o = .rate ∧ len ≠ 0 then
    (RateOpt.units.find? fun u => strcasecmp (val.drop (Scan.ofString val).len) u.1).map fun u =>
      IntType.u64.conv ((strtoulBase0 val).1 * u.2)
  else none

/-- The inputs on which `set` does what is wanted. -/
def Careful (o : NumOpt) (val : List UInt8) (len : Nat) : Prop :=
  let s := Scan.ofString val
  let text := val.take len
  if s.len ≤ len then
    -- the number fits, and a unit is not abbreviated
    (∀ v, o.denotes text = some v → o.type.InRange v ∨ o.Caught s) ∧
      (o = .rate → 0 < s.len → s.len < len → ∀ u ∈ RateOpt.units,
        strcasecmp (text.drop s.len) (u.1.take (len - s.len)) = true →
        strcasecmp (text.drop s.len) u.1 = true)
  else
    -- the number goes on behind the text
    o.wanted text = o.overrun val len

/-! ### The numbers -/

theorem inRange_unsigned {w : Nat} {x : Int} :
    IntType.InRange ⟨false, w⟩ x ↔ 0 ≤ x ∧ x < 2 ^ w := by
  simp only [IntType.InRange, IntType.max, IntType.min, IntType.size, Bool.false_eq_true, if_false]
  omega

theorem strtoul_of_inRange {val : List UInt8}
    (h : IntType.u64.InRange (Scan.ofString val).value) :
    (((strtoulBase0 val).1 : Nat) : Int) = (Scan.ofString val).value := by
  obtain ⟨hlow, hhigh⟩ := inRange_unsigned.1 h
  have hn : ((Scan.ofString val).n : Int) = (Scan.ofString val).value := by
    unfold Scan.value at hlow ⊢
    split
    · rename_i hneg
      rw [if_pos hneg] at hlow
      omega
    · rfl
  unfold strtoulBase0
  dsimp only
  rw [if_pos (by omega)]
  omega

theorem strtoul_low (val : List UInt8) :
    IntType.u32.conv (strtoulBase0 val).1 =
      if (Scan.ofString val).n < 2 ^ 64 then (Scan.ofString val).value % 2 ^ 32
      else 2 ^ 32 - 1 := by
  rw [IntType.u32_conv]
  unfold strtoulBase0
  dsimp only
  split
  · omega
  · norm_num

theorem int_inRange {x : Int} : IntType.int.InRange x ↔ -(2 ^ 31) ≤ x ∧ x < 2 ^ 31 := by
  simp only [IntType.InRange, IntType.max, IntType.min, IntType.size, IntType.int, if_true]
  omega

theorem strtol_of_inRange {val : List UInt8} (hge : -(2 ^ 31) ≤ (Scan.ofString val).value)
    (hlt : (Scan.ofString val).value < 2 ^ 31) :
    (strtolBase0 val).1 = (Scan.ofString val).value := by
  unfold strtolBase0
  dsimp only
  generalize (Scan.ofString val).value = v at hge hlt ⊢
  omega

/-- The low bits, if they do not exceed a limit. -/
def storeLow (limit : Int) (val : List UInt8) : Option Int :=
  if IntType.u32.conv (strtoulBase0 val).1 > limit then none
  else some (IntType.u32.conv (strtoulBase0 val).1)

/-- What is stored of a number that ends where the text does. -/
def store (val : List UInt8) : NumOpt → Option Int
  | int => some (IntType.int.conv (strtolBase0 val).1)
  | uint => storeLow (2 ^ 32 - 1) val
  | uint16 => storeLow 65535 val
  | uint8 => storeLow 255 val
  | uint64 | size | rate => some ((strtoulBase0 val).1 : Int)

theorem storeLow_eq_iff {w : Nat} (hw : w ≤ 32) (limit : Int) (hlimit : limit + 1 = 2 ^ w)
    (val : List UInt8) :
    storeLow limit val =
        (some (Scan.ofString val).value).filter
          (fun v => decide (IntType.InRange ⟨false, w⟩ v)) ↔
      IntType.InRange ⟨false, w⟩ (Scan.ofString val).value ∨
        limit < IntType.u32.conv (strtoulBase0 val).1 := by
  have hpow : (2 : Int) ^ w ≤ 2 ^ 32 := pow_le_pow_right₀ (by norm_num) hw
  by_cases hfit : IntType.InRange ⟨false, w⟩ (Scan.ofString val).value
  · obtain ⟨hlow, hhigh⟩ := inRange_unsigned.1 hfit
    have hul := strtoul_of_inRange (inRange_unsigned.2 ⟨hlow, by omega⟩)
    have hconv : IntType.u32.conv (strtoulBase0 val).1 = (Scan.ofString val).value := by
      rw [hul]
      exact IntType.conv_of_inRange (inRange_unsigned.2 ⟨hlow, by omega⟩)
    have hle : ¬ (Scan.ofString val).value > limit := by omega
    simp [storeLow, hconv, hle, hfit, Option.filter_some]
  · unfold storeLow
    split
    · rename_i hgt
      simp [hfit, hgt, Option.filter_some]
    · rename_i hgt
      simp [hfit, hgt, Option.filter_some]

/-- Of a number that ends where the text does, what is stored is what is wanted exactly if it fits
    or is caught. -/
theorem store_eq_iff (o : NumOpt) (val : List UInt8) :
    o.store val =
        (some (Scan.ofString val).value).filter (fun v => decide (o.type.InRange v)) ↔
      o.type.InRange (Scan.ofString val).value ∨ o.Caught (Scan.ofString val) := by
  have hwide : ∀ o : NumOpt, o.store val = some ((strtoulBase0 val).1 : Int) →
      o.type = .u64 → (¬ o.Caught (Scan.ofString val)) →
      (o.store val = (some (Scan.ofString val).value).filter
          (fun v => decide (o.type.InRange v)) ↔
        o.type.InRange (Scan.ofString val).value ∨ o.Caught (Scan.ofString val)) := by
    intro o hstore htype hcaught
    rw [hstore, htype, or_iff_left hcaught]
    by_cases hfit : IntType.u64.InRange (Scan.ofString val).value
    · simp [hfit, strtoul_of_inRange hfit, Option.filter_some]
    · simp [hfit, Option.filter_some]
  have hlow := strtoul_low val
  cases o with
  | int =>
    by_cases hfit : IntType.int.InRange (Scan.ofString val).value
    · have hclamp : (strtolBase0 val).1 = (Scan.ofString val).value := by
        obtain ⟨hge, hle⟩ := int_inRange.1 hfit
        exact strtol_of_inRange hge hle
      have hstore : store val .int = some (Scan.ofString val).value := by
        rw [store, hclamp, IntType.conv_of_inRange hfit]
      simp [hstore, type, hfit, Option.filter_some]
    · have hstore : ∃ n, store val .int = some n := ⟨_, rfl⟩
      obtain ⟨n, hstore⟩ := hstore
      simp [hstore, type, hfit, Caught, Option.filter_some]
  | uint =>
    have hnever : ¬ (2 ^ 32 - 1 < IntType.u32.conv (strtoulBase0 val).1) := by
      have := (inRange_unsigned.1 (IntType.u32.inRange_conv (strtoulBase0 val).1)).2
      omega
    have h := storeLow_eq_iff (w := 32) (Nat.le_refl _) (2 ^ 32 - 1) (by norm_num) val
    rw [or_iff_left hnever] at h
    rw [or_iff_left (b := Caught (Scan.ofString val) .uint) id]
    exact h
  | uint16 =>
    have h := storeLow_eq_iff (w := 16) (by omega) 65535 (by norm_num) val
    rw [hlow] at h
    exact h
  | uint8 =>
    have h := storeLow_eq_iff (w := 8) (by omega) 255 (by norm_num) val
    rw [hlow] at h
    exact h
  | uint64 => exact hwide .uint64 rfl rfl id
  | size => exact hwide .size rfl rfl id
  | rate => exact hwide .rate rfl rfl id

/-! ### The text -/

variable {o : NumOpt}

theorem set_of_plain (hsize : o ≠ .size) (hrate : o ≠ .rate) (val : List UInt8) (len : Nat) :
    o.set val len =
      if len = 0 then none else if (Scan.ofString val).len ≠ len then none else o.store val := by
  cases o with
  | size => exact absurd rfl hsize
  | rate => exact absurd rfl hrate
  | _ => rfl

theorem denotes_of_whole (o : NumOpt) {text : List UInt8}
    (hlen : (Scan.ofString text).len = text.length) (hpos : text.length ≠ 0) :
    o.denotes text = some (Scan.ofString text).value := by
  have hfactor : o.factor [] = some 1 := by cases o <;> rfl
  unfold denotes
  dsimp only
  rw [if_neg (by omega), hlen, List.drop_length, hfactor]
  simp

variable {text : List UInt8}

theorem denotes_of_zero (hzero : (Scan.ofString text).len = 0) : o.denotes text = none := by
  unfold denotes
  dsimp only
  rw [if_pos hzero]

theorem denotes_of_plain (hsize : o ≠ .size) (hrate : o ≠ .rate) {text : List UInt8}
    (hlen : (Scan.ofString text).len < text.length) : o.denotes text = none := by
  have hdrop : text.drop (Scan.ofString text).len ≠ [] := by
    rw [Ne, List.drop_eq_nil_iff]
    omega
  have hfactor : o.factor (text.drop (Scan.ofString text).len) = none := by
    cases o with
    | size => exact absurd rfl hsize
    | rate => exact absurd rfl hrate
    | _ => exact if_neg hdrop
  unfold denotes
  dsimp only
  rw [hfactor]
  simp

theorem product_eq_iff {f : Nat} (hf : 0 < f) (val : List UInt8) :
    some (IntType.u64.conv ((strtoulBase0 val).1 * f)) =
        (some ((Scan.ofString val).value * f)).filter
          (fun v => decide (IntType.u64.InRange v)) ↔
      IntType.u64.InRange ((Scan.ofString val).value * f) := by
  by_cases hfit : IntType.u64.InRange ((Scan.ofString val).value * f)
  · obtain ⟨hlow, hhigh⟩ := inRange_unsigned.1 hfit
    have hf' : (1 : Int) ≤ f := by omega
    have hnonneg : 0 ≤ (Scan.ofString val).value := by
      by_contra hneg
      have := mul_neg_of_neg_of_pos (show (Scan.ofString val).value < 0 by omega)
        (show (0 : Int) < f by omega)
      omega
    have hle : (Scan.ofString val).value ≤ (Scan.ofString val).value * f :=
      le_mul_of_one_le_right hnonneg hf'
    have hul : ((strtoulBase0 val).1 : Int) = (Scan.ofString val).value :=
      strtoul_of_inRange (inRange_unsigned.2 ⟨hnonneg, by omega⟩)
    rw [hul, IntType.conv_of_inRange hfit]
    simp [hfit, Option.filter_some]
  · simp [hfit, Option.filter_some]

theorem wanted_of_denotes {v : Int} (h : o.denotes text = some v) :
    o.wanted text = (some v).filter fun v => decide (o.type.InRange v) := by
  rw [wanted, h]

theorem wanted_of_none (h : o.denotes text = none) : o.wanted text = none := by
  rw [wanted, h]
  rfl

theorem fits_iff_of_denotes {v : Int} (h : o.denotes text = some v) (P : Int → Prop) :
    (∀ v, o.denotes text = some v → P v) ↔ P v := by
  simp [h]

section Within

/-! The number ends within the text. -/

variable {o : NumOpt} {val : List UInt8} {len : Nat}

theorem set_eq_of_plain (hsize : o ≠ .size) (hrate : o ≠ .rate) (hlen : len ≤ val.length)
    (hle : (Scan.ofString val).len ≤ len) :
    o.set val len = o.wanted (val.take len) ↔
      ∀ v, o.denotes (val.take len) = some v →
        o.type.InRange v ∨ o.Caught (Scan.ofString val) := by
  have htake := Scan.ofString_take hle
  have htext : (val.take len).length = len := List.length_take_of_le hlen
  rw [set_of_plain hsize hrate]
  by_cases hzero : len = 0
  · have hnone : o.denotes (val.take len) = none := denotes_of_zero (by rw [htake]; omega)
    rw [if_pos hzero, wanted_of_none hnone, hnone]
    simp
  · rw [if_neg hzero]
    by_cases hend : (Scan.ofString val).len = len
    · have hdenotes := denotes_of_whole o (show (Scan.ofString (val.take len)).len = _ by
        rw [htake]
        omega) (by omega)
      rw [htake] at hdenotes
      rw [if_neg (not_not.2 hend), wanted_of_denotes hdenotes, store_eq_iff,
        fits_iff_of_denotes hdenotes fun v => o.type.InRange v ∨ o.Caught (Scan.ofString val)]
    · have hnone : o.denotes (val.take len) = none :=
        denotes_of_plain hsize hrate (by rw [htake]; omega)
      simp [hend, wanted_of_none hnone, hnone]

theorem set_eq_of_end (hset : o.set val len = if len = 0 ∨ (Scan.ofString val).len = 0 then none
      else o.store val)
    (hlen : len ≤ val.length) (hle : (Scan.ofString val).len ≤ len)
    (hend : (Scan.ofString val).len = 0 ∨ (Scan.ofString val).len = len) :
    o.set val len = o.wanted (val.take len) ↔
      ∀ v, o.denotes (val.take len) = some v →
        o.type.InRange v ∨ o.Caught (Scan.ofString val) := by
  have htake := Scan.ofString_take hle
  have htext : (val.take len).length = len := List.length_take_of_le hlen
  rw [hset]
  by_cases hzero : (Scan.ofString val).len = 0
  · have hnone : o.denotes (val.take len) = none := denotes_of_zero (by rw [htake, hzero])
    simp [hzero, wanted_of_none hnone, hnone]
  · have hend' := hend.resolve_left hzero
    have hdenotes := denotes_of_whole o (show (Scan.ofString (val.take len)).len = _ by
      rw [htake]
      omega) (by omega)
    rw [htake] at hdenotes
    rw [if_neg (by omega), wanted_of_denotes hdenotes, store_eq_iff,
      fits_iff_of_denotes hdenotes fun v => o.type.InRange v ∨ o.Caught (Scan.ofString val)]

theorem drop_text (hlen : len ≤ val.length) (hlt : (Scan.ofString val).len < len) :
    ∃ c rest, (val.take len).drop (Scan.ofString val).len = c :: rest ∧
      val[(Scan.ofString val).len]? = some c ∧
      rest.length + 1 = len - (Scan.ofString val).len := by
  have hi : (Scan.ofString val).len < val.length := by omega
  refine ⟨val[(Scan.ofString val).len], (val.drop ((Scan.ofString val).len + 1)).take
    (len - (Scan.ofString val).len - 1), ?_, List.getElem?_eq_getElem hi, ?_⟩
  · rw [List.drop_take, List.drop_eq_getElem_cons hi,
      show len - (Scan.ofString val).len = len - (Scan.ofString val).len - 1 + 1 by omega,
      List.take_succ_cons]
    rfl
  · rw [List.length_take, List.length_drop]
    omega

theorem size_unit_pos {c : UInt8} {f : Nat} (h : SizeOpt.unit c = some f) : 0 < f := by
  unfold SizeOpt.unit at h
  split at h
  · cases h
    omega
  · split at h
    · cases h
      omega
    · split at h
      · cases h
        omega
      · split at h
        · cases h
          omega
        · cases h

theorem set_eq_of_unit {f : Option Nat} (htype : o.type = .u64)
    (hcaught : ¬ o.Caught (Scan.ofString val)) (hpos : ∀ n, f = some n → 0 < n)
    (hset : o.set val len = f.map fun n : Nat => IntType.u64.conv ((strtoulBase0 val).1 * n))
    (hdenotes : o.denotes (val.take len) = f.map fun n : Nat => (Scan.ofString val).value * n) :
    o.set val len = o.wanted (val.take len) ↔
      ∀ v, o.denotes (val.take len) = some v →
        o.type.InRange v ∨ o.Caught (Scan.ofString val) := by
  rw [hset]
  cases f with
  | none =>
    rw [Option.map_none] at hdenotes
    simp [wanted_of_none hdenotes, hdenotes]
  | some n =>
    rw [Option.map_some] at hdenotes
    rw [wanted_of_denotes hdenotes, Option.map_some, htype, product_eq_iff (hpos n rfl),
      fits_iff_of_denotes hdenotes
        fun v => IntType.u64.InRange v ∨ o.Caught (Scan.ofString val), or_iff_left hcaught]

theorem set_size (val : List UInt8) (len : Nat) :
    NumOpt.size.set val len =
      if len = 0 then none
      else if (Scan.ofString val).len = 0 then none
      else if (Scan.ofString val).len ≠ len then
        if (Scan.ofString val).len + 1 ≠ len then none
        else
          match val[(Scan.ofString val).len]? with
          | none => none
          | some c => (SizeOpt.unit c).map fun factor : Nat =>
              IntType.u64.conv ((strtoulBase0 val).1 * factor)
      else NumOpt.size.store val := rfl

theorem size_eq (hlen : len ≤ val.length) (hle : (Scan.ofString val).len ≤ len) :
    NumOpt.size.set val len = NumOpt.size.wanted (val.take len) ↔
      ∀ v, NumOpt.size.denotes (val.take len) = some v →
        NumOpt.size.type.InRange v ∨ NumOpt.size.Caught (Scan.ofString val) := by
  have hset := set_size val len
  by_cases hend : (Scan.ofString val).len = 0 ∨ (Scan.ofString val).len = len
  · refine set_eq_of_end ?_ hlen hle hend
    rw [hset]
    rcases hend with hend | hend
    · simp [hend]
    · by_cases hzero : len = 0
      · simp [hzero]
      · rw [if_neg hzero, if_neg (by omega), if_neg (not_not.2 hend), if_neg (by omega)]
  · have hnot : len ≠ 0 ∧ (Scan.ofString val).len ≠ 0 ∧ (Scan.ofString val).len ≠ len := by
      omega
    obtain ⟨c, rest, hdrop, hget, hrest⟩ := drop_text hlen (by omega)
    have hdenotes : ∀ f, NumOpt.size.factor (c :: rest) = f →
        NumOpt.size.denotes (val.take len) =
          f.map fun n : Nat => (Scan.ofString val).value * n := by
      intro f hf
      unfold denotes
      dsimp only
      rw [Scan.ofString_take hle, if_neg hnot.2.1, hdrop, hf]
    rw [if_neg hnot.1, if_neg hnot.2.1, if_pos hnot.2.2] at hset
    cases rest with
    | nil =>
      rw [if_neg (by simp at hrest; omega), hget] at hset
      exact set_eq_of_unit rfl id (fun _ => size_unit_pos) hset (hdenotes _ rfl)
    | cons d rest =>
      rw [if_pos (by simp at hrest; omega)] at hset
      exact set_eq_of_unit (f := none) rfl id (fun _ h => nomatch h) hset (hdenotes _ rfl)

theorem set_rate (val : List UInt8) (len : Nat) :
    NumOpt.rate.set val len =
      if (Scan.ofString val).len = 0 ∨ len = 0 then none
      else if (Scan.ofString val).len ≠ len then
        (RateOpt.units.find? fun u => strncasecmp (val.drop (Scan.ofString val).len) u.1
          (IntType.u64.conv ((len : Int) - (Scan.ofString val).len)).toNat).map fun u =>
            IntType.u64.conv ((strtoulBase0 val).1 * u.2)
      else NumOpt.rate.store val := by
  unfold NumOpt.set RateOpt.set
  simp only [Bool.or_eq_true, decide_eq_true_eq]
  have hlen : (strtoulBase0 val).2 = (Scan.ofString val).len := rfl
  have hstore : some ((strtoulBase0 val).1 : Int) = NumOpt.rate.store val := rfl
  rw [hlen, hstore]
  cases RateOpt.units.find? fun u => strncasecmp (val.drop (Scan.ofString val).len) u.1
      (IntType.u64.conv ((len : Int) - (Scan.ofString val).len)).toNat with
  | none => rfl
  | some u => rfl

theorem strcasecmp_take {a b : List UInt8} (h : strcasecmp a b = true) :
    strcasecmp a (b.take a.length) = true := by
  unfold strcasecmp at h ⊢
  have hmap := of_decide_eq_true h
  have hlen : a.length = b.length := by simpa using congrArg List.length hmap
  rw [hlen, List.take_length]
  exact h

theorem units_pos : ∀ u ∈ RateOpt.units, 0 < u.2 := by decide +kernel

theorem units_eq_of_take {u u' : List UInt8 × Nat} (hu : u ∈ RateOpt.units)
    (hu' : u' ∈ RateOpt.units) {k : Nat}
    (h : (u.1.take k).map StdString.tolower = u'.1.map StdString.tolower) : u.1.take k = u.1 := by
  have hlong : ∀ u ∈ RateOpt.units, 3 ≤ u.1.length ∧ u.1.length ≤ 4 := by decide +kernel
  have hthree : ∀ u ∈ RateOpt.units, ∀ u' ∈ RateOpt.units,
      (u.1.take 3).map StdString.tolower = u'.1.map StdString.tolower → u.1.take 3 = u.1 := by
    decide +kernel
  have hlen := congrArg List.length h
  simp only [List.length_map, List.length_take] at hlen
  have hbound := hlong u hu
  have hbound' := hlong u' hu'
  by_cases hk : k = 3
  · subst hk
    exact hthree u hu u' hu' h
  · exact List.take_of_length_le (by omega)

theorem rate_eq (hlen : len ≤ val.length) (hmem : val.length < 2 ^ 64)
    (hle : (Scan.ofString val).len ≤ len) :
    NumOpt.rate.set val len = NumOpt.rate.wanted (val.take len) ↔
      (∀ v, NumOpt.rate.denotes (val.take len) = some v →
        NumOpt.rate.type.InRange v ∨ NumOpt.rate.Caught (Scan.ofString val)) ∧
      (0 < (Scan.ofString val).len → (Scan.ofString val).len < len → ∀ u ∈ RateOpt.units,
        strcasecmp ((val.take len).drop (Scan.ofString val).len)
          (u.1.take (len - (Scan.ofString val).len)) = true →
        strcasecmp ((val.take len).drop (Scan.ofString val).len) u.1 = true) := by
  have hset := set_rate val len
  by_cases hend : (Scan.ofString val).len = 0 ∨ (Scan.ofString val).len = len
  · rw [and_iff_left (fun h₀ h₁ => by omega)]
    refine set_eq_of_end ?_ hlen hle hend
    rw [hset]
    by_cases hzero : (Scan.ofString val).len = 0 ∨ len = 0
    · rw [if_pos hzero, if_pos hzero.symm]
    · rw [if_neg hzero, if_neg (by omega : ¬ (Scan.ofString val).len ≠ len),
        if_neg (by omega : ¬ (len = 0 ∨ (Scan.ofString val).len = 0))]
  · have hnot : (Scan.ofString val).len ≠ 0 ∧ len ≠ 0 ∧ (Scan.ofString val).len ≠ len := by
      omega
    obtain ⟨c, rest, hdrop, -, hrest⟩ := drop_text hlen (by omega)
    have hunitlen : (IntType.u64.conv ((len : Int) - (Scan.ofString val).len)).toNat =
        len - (Scan.ofString val).len := by
      rw [IntType.u64_conv]
      omega
    -- the comparison is one of the rest of the text
    have hcmp : ∀ u : List UInt8 × Nat, strncasecmp (val.drop (Scan.ofString val).len) u.1
          (IntType.u64.conv ((len : Int) - (Scan.ofString val).len)).toNat =
        strcasecmp ((val.take len).drop (Scan.ofString val).len)
          (u.1.take (len - (Scan.ofString val).len)) := by
      intro u
      rw [hunitlen, List.drop_take]
      rfl
    simp only [hcmp] at hset
    rw [if_neg (by omega), if_pos hnot.2.2] at hset
    have hdenotes : NumOpt.rate.denotes (val.take len) =
        ((RateOpt.units.find? fun u => strcasecmp ((val.take len).drop (Scan.ofString val).len)
          u.1).map Prod.snd).map fun n : Nat => (Scan.ofString val).value * n := by
      unfold denotes
      dsimp only
      rw [Scan.ofString_take hle, if_neg hnot.1, factor, if_neg (by rw [hdrop]; simp)]
    have hlentext : ((val.take len).drop (Scan.ofString val).len).length =
        len - (Scan.ofString val).len := by
      rw [List.length_drop, List.length_take]
      omega
    by_cases hwhole : ∀ u ∈ RateOpt.units,
        strcasecmp ((val.take len).drop (Scan.ofString val).len)
          (u.1.take (len - (Scan.ofString val).len)) = true →
        strcasecmp ((val.take len).drop (Scan.ofString val).len) u.1 = true
    · -- whole units only
      rw [and_iff_left (fun _ _ => hwhole)]
      have hfind : RateOpt.units.find? (fun u =>
            strcasecmp ((val.take len).drop (Scan.ofString val).len)
              (u.1.take (len - (Scan.ofString val).len))) =
          RateOpt.units.find? fun u =>
            strcasecmp ((val.take len).drop (Scan.ofString val).len) u.1 := by
        refine List.find?_congr fun u hu => ?_
        rw [Bool.eq_iff_iff]
        refine ⟨hwhole u hu, fun h => ?_⟩
        have htake := strcasecmp_take h
        rwa [hlentext] at htake
      rw [hfind] at hset
      refine set_eq_of_unit rfl id ?_ ?_ hdenotes
      · intro n hn
        obtain ⟨u, hu, rfl⟩ := Option.map_eq_some_iff.1 hn
        exact units_pos u (List.mem_of_find?_eq_some hu)
      · rw [hset, Option.map_map]
        rfl
    · -- an abbreviated unit
      refine iff_of_false ?_ fun h => hwhole (h.2 (by omega) (by omega))
      intro heq
      obtain ⟨u, hu, htake, hnot⟩ : ∃ u ∈ RateOpt.units,
          strcasecmp ((val.take len).drop (Scan.ofString val).len)
            (u.1.take (len - (Scan.ofString val).len)) = true ∧
          ¬ strcasecmp ((val.take len).drop (Scan.ofString val).len) u.1 = true := by
        simpa only [not_forall, exists_prop] using hwhole
      -- it is stored, but the text denotes no number
      have hnone : NumOpt.rate.denotes (val.take len) = none := by
        rw [hdenotes]
        simp only [Option.map_eq_none_iff, List.find?_eq_none]
        intro u' hu' hcmp'
        have hsame := units_eq_of_take hu hu'
          ((of_decide_eq_true htake).symm.trans (of_decide_eq_true hcmp'))
        rw [hsame] at htake
        exact hnot htake
      rw [wanted_of_none hnone, hset, Option.map_eq_none_iff, List.find?_eq_none] at heq
      exact heq u hu htake

end Within

/-! ### The whole -/

theorem strncasecmp_of_lt {a b : List UInt8} {n : Nat} (h : a.length < n) :
    strncasecmp a b n = strcasecmp a b := by
  unfold strncasecmp strcasecmp
  rw [List.take_of_length_le (Nat.le_of_lt h), decide_eq_decide]
  by_cases hb : b.length ≤ n
  · rw [List.take_of_length_le hb]
  · -- neither has the length of the text
    apply iff_of_false
    · intro heq
      have hlen := congrArg List.length heq
      simp only [List.length_map, List.length_take] at hlen
      omega
    · intro heq
      have hlen := congrArg List.length heq
      simp only [List.length_map] at hlen
      omega

/-- Where the number goes on behind the text, nothing is stored but a rate whose unit is found
    there. -/
theorem set_of_overrun (o : NumOpt) {val : List UInt8} {len : Nat} (hmem : val.length < 2 ^ 64)
    (hlt : len < (Scan.ofString val).len) : o.set val len = o.overrun val len := by
  have hle := Scan.ofString_le val
  by_cases hrate : o = .rate
  · subst hrate
    rw [set_rate, overrun]
    by_cases hzero : len = 0
    · simp [hzero]
    · rw [if_neg (by omega), if_pos (by omega), if_pos ⟨rfl, hzero⟩]
      have hunitlen : (val.drop (Scan.ofString val).len).length <
          (IntType.u64.conv ((len : Int) - (Scan.ofString val).len)).toNat := by
        rw [IntType.u64_conv, List.length_drop]
        omega
      simp only [strncasecmp_of_lt hunitlen]
  · have hnone : o.overrun val len = none := if_neg fun h => hrate h.1
    rw [hnone]
    by_cases hsize : o = .size
    · subst hsize
      rw [set_size]
      split
      · rfl
      · rw [if_neg (by omega), if_pos (by omega), if_pos (by omega)]
    · rw [set_of_plain hsize hrate, if_pos (by omega : (Scan.ofString val).len ≠ len), ite_self]

theorem set_eq_iff (o : NumOpt) {val : List UInt8} {len : Nat} (hlen : len ≤ val.length)
    (hmem : val.length < 2 ^ 64) : o.set val len = o.wanted (val.take len) ↔ o.Careful val len := by
  unfold Careful
  dsimp only
  split
  · rename_i hle
    by_cases hrate : o = .rate
    · subst hrate
      rw [rate_eq hlen hmem hle]
      simp
    · rw [and_iff_left (fun h => absurd h hrate)]
      by_cases hsize : o = .size
      · subst hsize
        exact size_eq hlen hle
      · exact set_eq_of_plain hsize hrate hlen hle
  · rename_i hle
    rw [set_of_overrun o hmem (by omega), eq_comm]

/-- A numeric option does what is wanted exactly on the careful inputs: it stores the number that
    the text denotes if the destination can hold it, and returns 0, or it returns -1 and changes
    nothing. -/
theorem call_eq_iff (o : NumOpt) {val : List UInt8} {len : Nat} (hlen : len ≤ val.length)
    (hmem : val.length < 2 ^ 64) (d : Dest) :
    (o.call val len d = match o.wanted (val.take len) with
      | some v => (0, ⟨v, true⟩)
      | none => (-1, d)) ↔ o.Careful val len := by
  have hcall : (o.call val len d = match o.wanted (val.take len) with
      | some v => (0, ⟨v, true⟩)
      | none => (-1, d)) ↔ o.set val len = o.wanted (val.take len) := by
    unfold call
    cases o.set val len with
    | none => cases o.wanted (val.take len) <;> simp
    | some n => cases o.wanted (val.take len) <;> simp
  rw [hcall]
  exact o.set_eq_iff hlen hmem

/-- `10K`, of which all is to be read. -/
theorem call_eq_tenK :
    NumOpt.size.call "10K".toUTF8.toList 3 ⟨0, false⟩ =
      match NumOpt.size.wanted ("10K".toUTF8.toList.take 3) with
      | some v => (0, ⟨v, true⟩)
      | none => (-1, ⟨0, false⟩) := by
  refine (call_eq_iff .size (by decide +kernel) (by decide +kernel) ⟨0, false⟩).2 ?_
  have hdenotes : NumOpt.size.denotes ("10K".toUTF8.toList.take 3) = some 10240 := by
    decide +kernel
  unfold Careful
  dsimp only
  rw [if_pos (by decide +kernel), hdenotes]
  refine ⟨fun v hv => .inl ?_, fun h => nomatch h⟩
  rw [← Option.some.inj hv]
  decide

/-- `4294967301` is stored as 5 where 65535 is the largest number. -/
theorem call_uint16_wraps :
    NumOpt.uint16.call "4294967301".toUTF8.toList 10 ⟨0, false⟩ = (0, ⟨5, true⟩) ∧
      NumOpt.uint16.wanted ("4294967301".toUTF8.toList.take 10) = none := by
  decide +kernel

end NumOpt

end Oasys
