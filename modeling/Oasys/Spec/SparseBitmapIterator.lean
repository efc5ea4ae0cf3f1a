import Oasys.Spec.SparseBitmapSet

/-!
# SparseBitmap: iteration

The positions of an iterator are numbered by the bits in front of it (`At`), and every
operation is one on these numbers: `++` and `--` go one on and one back, `+=` and `-=` as
many as they are told, across any number of entries. With the bits numbered in ascending
order this gives what a reader of a bitmap relies on.
-/

namespace Oasys.SparseBitmap

open RangeList (card run enumerate canonical_cons)

/-- The bits that are set, in ascending order. -/
abbrev bits : List Range → List Int := enumerate Range.start_ Range.end_

/-- The number of bits of an entry. -/
abbrev Range.len (r : Range) : Nat := card Range.start_ Range.end_ r

variable {B : Build} {T : IntType}

/-! ### Arithmetic on offsets -/

theorem min_nonpos (T : IntType) : T.min ≤ 0 := by
  have : (0 : Int) < 2 ^ (T.width - 1) := Int.pow_pos (by decide)
  rw [IntType.min]
  split <;> omega

theorem max_lt {n : Nat} (h : T.width ≤ n) : T.max < 2 ^ n := by
  have hsize : T.size ≤ 2 ^ n := by
    have := Nat.pow_le_pow_right (n := 2) (by decide) h
    rw [IntType.size]
    exact_mod_cast this
  have := min_nonpos T
  rw [IntType.max]
  omega

theorem inRange_of_le {z : Int} (hnonneg : 0 ≤ z) (hle : z ≤ T.max) : T.InRange z :=
  ⟨Int.le_trans (min_nonpos T) hnonneg, hle⟩

theorem u32_inRange {z : Int} (hnonneg : 0 ≤ z) (hlt : z < 2 ^ 32) : IntType.u32.InRange z := by
  simp only [IntType.InRange, IntType.max, IntType.min, IntType.size, IntType.u32]
  simp
  omega

theorem u64_inRange {z : Int} (hnonneg : 0 ≤ z) (hlt : z < 2 ^ 64) : IntType.u64.InRange z := by
  simp only [IntType.InRange, IntType.max, IntType.min, IntType.size, IntType.u64]
  simp
  omega

namespace Iterator

theorem withUnsigned_inRange {z : Int} (hnonneg : 0 ≤ z) (hle : z ≤ T.max) :
    (withUnsigned T).InRange z := by
  rw [withUnsigned]
  split
  · rename_i hwidth
    exact u32_inRange hnonneg (Int.lt_of_le_of_lt hle (max_lt hwidth))
  · exact inRange_of_le hnonneg hle

variable {offset diff : Int}

theorem forth_eq (hoffset : 0 ≤ offset) (hdiff : 0 ≤ diff) (hle : offset + diff ≤ T.max) :
    forth B T offset diff = .ok (offset + diff) := by
  have hsum := withUnsigned_inRange (T := T) (z := offset + diff) (by omega) hle
  have h₁ := withUnsigned_inRange (T := T) hoffset (by omega)
  have h₂ := withUnsigned_inRange (T := T) hdiff (by omega)
  simp [forth, IntType.conv_of_inRange h₁, IntType.conv_of_inRange h₂,
    IntType.arith_of_inRange B hsum,
    IntType.conv_of_inRange (inRange_of_le (T := T) (z := offset + diff) (by omega) hle)]

theorem back_eq (offset diff : Int) (hdiff : 0 ≤ diff) (hoffset : diff ≤ offset)
    (hle : offset ≤ T.max) :
    back B T offset diff = .ok (offset - diff) := by
  have hleft := withUnsigned_inRange (T := T) (z := offset - diff) (by omega) (by omega)
  have h₁ := withUnsigned_inRange (T := T) (z := offset) (by omega) hle
  have h₂ := withUnsigned_inRange (T := T) hdiff (by omega)
  simp [back, IntType.conv_of_inRange h₁, IntType.conv_of_inRange h₂,
    IntType.arith_of_inRange B hleft,
    IntType.conv_of_inRange (inRange_of_le (T := T) (z := offset - diff) (by omega) (by omega))]

theorem passSpace_eq {space : Int} (hspace : 0 ≤ space) (hlt : space < diff)
    (hdiff : diff < 2 ^ 32) : passSpace B diff space = .ok (diff - (space + 1)) := by
  have hused := u64_inRange (z := space + 1) (by omega) (by omega)
  have hconv := u64_inRange (z := diff) (by omega) (by omega)
  have hleft := u64_inRange (z := diff - (space + 1)) (by omega) (by omega)
  simp [passSpace, IntType.arith_of_inRange B hused, IntType.conv_of_inRange hconv,
    IntType.arith_of_inRange B hleft,
    IntType.conv_of_inRange (u32_inRange (z := diff - (space + 1)) (by omega) (by omega))]

theorem passOffset_eq (hoffset : 0 ≤ offset) (hlt : offset < diff) (hle : diff ≤ T.max)
    (hdiff : diff < 2 ^ 32) : passOffset B T diff offset = .ok (diff - (offset + 1)) := by
  have hused := inRange_of_le (T := T) (z := offset + 1) (by omega) (by omega)
  have h₁ := withUnsigned_inRange (T := T) (z := diff) (by omega) hle
  have h₂ := withUnsigned_inRange (T := T) (z := offset + 1) (by omega) (by omega)
  have hleft := withUnsigned_inRange (T := T) (z := diff - (offset + 1)) (by omega) (by omega)
  simp [passOffset, IntType.arith_of_inRange B hused, IntType.conv_of_inRange h₁,
    IntType.conv_of_inRange h₂, IntType.arith_of_inRange B hleft,
    IntType.conv_of_inRange (u32_inRange (z := diff - (offset + 1)) (by omega) (by omega))]

end Iterator

/-! ### Entries -/

/-- An entry whose ends are values of the type, and the number of its bits too. -/
structure Range.Fits (T : IntType) (r : Range) : Prop where
  start : T.InRange r.start_
  finish : T.InRange r.end_
  le : r.start_ ≤ r.end_
  len : (r.len : Int) ≤ T.max

namespace Range.Fits

variable {r : Range} {off : Nat}

theorem len_eq (h : r.Fits T) : (r.len : Int) = r.end_ - r.start_ + 1 := by
  have := h.le
  simp only [card]
  omega

theorem len_pos (h : r.Fits T) : 0 < r.len := by
  have := h.le
  have := h.len_eq
  omega

theorem arith_start (h : r.Fits T) (hoff : off < r.len) :
    T.arith B (r.start_ + off) = .ok (r.start_ + off) := by
  have hlen := h.len_eq
  have hstart := h.start.1
  have hfinish := h.finish.2
  exact IntType.arith_of_inRange B ⟨by omega, by omega⟩

theorem arith_space (h : r.Fits T) (hoff : off < r.len) :
    T.arith B (r.end_ - (r.start_ + off)) = .ok (r.end_ - (r.start_ + off)) := by
  have hlen := h.len_eq
  have hmax := h.len
  exact IntType.arith_of_inRange B (inRange_of_le (by omega) (by omega))

theorem inRange_offset (h : r.Fits T) (off : Nat) (hoff : off < r.len) : T.InRange off := by
  have hmax := h.len
  exact inRange_of_le (by omega) (by omega)

theorem lastOffset (h : r.Fits T) : Iterator.lastOffset B T r = .ok ((r.len - 1 : Nat) : Int) := by
  have hpos := h.len_pos
  have hlen := h.len_eq
  have hrange := h.inRange_offset (r.len - 1) (by omega)
  have heq : r.end_ - r.start_ = ((r.len - 1 : Nat) : Int) := by omega
  simp [Iterator.lastOffset, heq, IntType.arith_of_inRange B hrange,
    IntType.conv_of_inRange hrange]

end Range.Fits

/-- A list of such entries, which have no more bits together than the type can count. -/
structure Countable (T : IntType) (v : List Range) : Prop where
  width : T.width ≤ 64
  typed : Typed T v
  nonempty : ∀ r ∈ v, r.start_ ≤ r.end_
  count : ((bits v).length : Int) ≤ T.max

variable {v left right : List Range} {r : Range}

@[simp] theorem length_bits_cons (r : Range) (v : List Range) :
    (bits (r :: v)).length = r.len + (bits v).length := by
  simp [bits]

@[simp] theorem length_bits_append (v w : List Range) :
    (bits (v ++ w)).length = (bits v).length + (bits w).length := by
  simp [bits]

theorem Countable.fits (h : Countable T v) (hr : r ∈ v) : r.Fits T := by
  refine ⟨(h.typed r hr).1, (h.typed r hr).2, h.nonempty r hr, ?_⟩
  obtain ⟨left, right, rfl⟩ := List.append_of_mem hr
  have hcount := h.count
  simp only [length_bits_append, length_bits_cons] at hcount
  omega

/-! ### Positions -/

open Iterator

/-- An iterator with so many bits in front of it: in an entry, or at the end. -/
inductive At : List Range → Nat → Iterator → Prop
  | inside (left : List Range) (r : Range) (right : List Range) (off : Nat) (h : off < r.len) :
      At (left ++ r :: right) ((bits left).length + off) ⟨left.length, off⟩
  | finish (v : List Range) : At v (bits v).length («end» v)

variable {p n : Nat} {i j : Iterator}

theorem at_first (left right : List Range) (hpos : ∀ r ∈ right, 0 < r.len) :
    At (left ++ right) (bits left).length ⟨left.length, 0⟩ := by
  cases right with
  | nil => simpa [«end»] using At.finish left
  | cons r right => simpa using At.inside left r right 0 (hpos r (by simp))

theorem at_begin (h : Countable T v) : At v 0 begin :=
  at_first [] v fun _ hr => (h.fits hr).len_pos

theorem entry_append (left right : List Range) (r : Range) :
    entry (left ++ r :: right) left.length = .ok r := by
  simp [entry]

theorem At.cases_lt (hi : At v p i) (hp : p < (bits v).length) :
    ∃ left r right off, v = left ++ r :: right ∧ off < r.len ∧ p = (bits left).length + off ∧
      i = ⟨left.length, (off : Nat)⟩ := by
  cases hi with
  | inside left r right off h => exact ⟨left, r, right, off, rfl, h, rfl, rfl⟩
  | finish => omega

theorem At.eq_end (hi : At v (bits v).length i) : i = «end» v := by
  generalize hp : (bits v).length = p at hi
  cases hi with
  | inside left r right off h =>
    simp only [length_bits_append, length_bits_cons] at hp
    omega
  | finish => rfl

private theorem append_eq_nil_of_bit {mid : List Range} {off off' : Nat} (hoff : off < r.len)
    (hbit : (bits left).length + off = (bits (left ++ mid)).length + off')
    (hmid : r :: right = mid ++ v) : mid = [] := by
  cases mid with
  | nil => rfl
  | cons s mid =>
    obtain ⟨rfl, -⟩ := List.cons_eq_cons.mp hmid
    simp only [length_bits_append, length_bits_cons] at hbit
    omega

theorem At.unique (hi : At v p i) (hj : At v p j) : i = j := by
  by_cases hp : p < (bits v).length
  · obtain ⟨left, r, right, off, rfl, hoff, rfl, rfl⟩ := hi.cases_lt hp
    obtain ⟨left', r', right', off', hv, hoff', hbit, rfl⟩ := hj.cases_lt hp
    -- one of the two lists of entries in front starts with the other
    have hleft : left = left' := by
      rcases List.append_eq_append_iff.mp hv with ⟨mid, rfl, hmid⟩ | ⟨mid, rfl, hmid⟩
      · simp [append_eq_nil_of_bit hoff hbit hmid]
      · simp [append_eq_nil_of_bit hoff' hbit.symm hmid]
    subst hleft
    obtain rfl : off = off' := by omega
    rfl
  · have hend : p = (bits v).length := by
      cases hi with
      | inside left r right off h =>
        simp only [length_bits_append, length_bits_cons] at hp
        omega
      | finish => rfl
    subst hend
    rw [hi.eq_end, hj.eq_end]

theorem getElem?_bits (left right : List Range) {off : Nat} (hoff : off < r.len) :
    (bits (left ++ r :: right))[(bits left).length + off]? = some (r.start_ + off) := by
  rw [bits, RangeList.enumerate_append, List.getElem?_append_right (by simp),
    RangeList.enumerate_cons, Nat.add_sub_cancel_left,
    List.getElem?_append_left (by simpa using hoff), RangeList.getElem?_run hoff]

theorem deref_at (h : Countable T v) (hi : At v p i) {x : Int} (hx : (bits v)[p]? = some x) :
    deref B T v i = .ok x := by
  have hp : p < (bits v).length := (List.getElem?_eq_some_iff.mp hx).1
  obtain ⟨left, r, right, off, rfl, hoff, rfl, rfl⟩ := hi.cases_lt hp
  have hfits := h.fits (r := r) (by simp)
  have hval : x = r.start_ + off := Option.some.inj (hx.symm.trans (getElem?_bits left right hoff))
  have hrange : T.InRange (r.start_ + off) := by
    have := hfits.len_eq
    have := hfits.start.1
    have := hfits.finish.2
    exact ⟨by omega, by omega⟩
  simp [deref, entry_append, hfits.arith_start hoff, IntType.conv_of_inRange hrange, hval]

/-! ### One bit on and one back -/

theorem at_last (left right : List Range) {r : Range} (hpos : 0 < r.len) :
    At (left ++ r :: right) ((bits left).length + r.len - 1) ⟨left.length, (r.len - 1 : Nat)⟩ := by
  rw [Nat.add_sub_assoc hpos]
  exact .inside left r right (r.len - 1) (by omega)

theorem increment_at (h : Countable T v) (hi : At v p i) (hp : p < (bits v).length) :
    ∃ j, increment B T v i = .ok j ∧ At v (p + 1) j := by
  obtain ⟨left, r, right, off, rfl, hoff, rfl, rfl⟩ := hi.cases_lt hp
  have hfits := h.fits (r := r) (by simp)
  have hlen := hfits.len_eq
  by_cases hlast : off + 1 = r.len
  · -- the first bit behind the entry
    refine ⟨⟨left.length + 1, 0⟩, ?_, ?_⟩
    · have hsum : r.start_ + (off : Int) = r.end_ := by omega
      simp [increment, entry_append, hsum, IntType.arith_of_inRange B hfits.finish]
    · have hfirst := at_first (left ++ [r]) right fun s hs =>
        (h.fits (by simp [hs])).len_pos
      simpa [Nat.add_assoc, hlast] using hfirst
  · refine ⟨⟨left.length, (off + 1 : Nat)⟩, ?_, .inside left r right (off + 1) (by omega)⟩
    have hsum : r.start_ + (off : Int) ≠ r.end_ := by omega
    have hnext := hfits.inRange_offset (off + 1) (by omega)
    rw [Nat.cast_succ] at hnext ⊢
    simp [increment, entry_append, hfits.arith_start hoff, hsum,
      IntType.arith_of_inRange B hnext, IntType.conv_of_inRange hnext]

theorem exists_entry_before (left right : List Range) (hpos : 0 < (bits left).length) :
    ∃ init r, left = init ++ [r] ∧ left ++ right = init ++ r :: right := by
  rcases List.eq_nil_or_concat left with rfl | ⟨init, r, rfl⟩
  · simp at hpos
  · exact ⟨init, r, by simp, by simp⟩

theorem decrement_first (left right : List Range) (h : Countable T (left ++ right))
    (hpos : 0 < (bits left).length) :
    ∃ i, decrement B T (left ++ right) ⟨left.length, 0⟩ = .ok i ∧
      At (left ++ right) ((bits left).length - 1) i := by
  obtain ⟨init, r, rfl, hv⟩ := exists_entry_before left right hpos
  rw [hv] at h ⊢
  have hfits := h.fits (r := r) (by simp)
  refine ⟨⟨init.length, ((r.len - 1 : Nat))⟩, ?_, ?_⟩
  · simp [decrement, entry_append, hfits.lastOffset]
  · simpa using at_last init right hfits.len_pos

theorem decrement_at (h : Countable T v) (hj : At v (p + 1) j) :
    ∃ i, decrement B T v j = .ok i ∧ At v p i := by
  generalize hq : p + 1 = q at hj
  cases hj with
  | finish =>
    have := decrement_first (B := B) v [] (by simpa using h) (by omega)
    simpa [«end», ← hq] using this
  | inside left r right off hoff =>
    cases off with
    | zero =>
      obtain rfl : p = (bits left).length - 1 := by omega
      simpa using decrement_first (B := B) left (r :: right) h (by omega)
    | succ off =>
      have hfits := h.fits (r := r) (by simp)
      refine ⟨⟨left.length, (off : Nat)⟩, ?_, ?_⟩
      · have hprev := hfits.inRange_offset off (by omega)
        have hne : ((off + 1 : Nat) : Int) ≠ 0 := by omega
        have hsub : ((off + 1 : Nat) : Int) - 1 = off := by omega
        simp only [decrement, if_neg hne, hsub, IntType.arith_of_inRange B hprev,
          IntType.conv_of_inRange hprev, ok_bind, pure_eq_ok]
      · obtain rfl : p = (bits left).length + off := by omega
        exact .inside left r right off (by omega)

theorem times_increment_at (h : Countable T v) (hi : At v p i) (hn : p + n ≤ (bits v).length) :
    ∃ j, times (increment B T v) n i = .ok j ∧ At v (p + n) j := by
  induction n generalizing p i with
  | zero => exact ⟨i, rfl, hi⟩
  | succ n ih =>
    obtain ⟨k, hstep, hk⟩ := increment_at (B := B) h hi (by omega)
    obtain ⟨j, htimes, hj⟩ := ih hk (by omega)
    exact ⟨j, by simp [times, hstep, htimes], by rwa [Nat.add_right_comm] at hj⟩

theorem times_decrement_at (h : Countable T v) (hi : At v (p + n) i) :
    ∃ j, times (decrement B T v) n i = .ok j ∧ At v p j := by
  induction n generalizing i with
  | zero => exact ⟨i, rfl, hi⟩
  | succ n ih =>
    obtain ⟨k, hstep, hk⟩ := decrement_at (B := B) (p := p + n) h hi
    obtain ⟨j, htimes, hj⟩ := ih hk
    exact ⟨j, by simp [times, hstep, htimes], hj⟩

/-! ### Many bits at once -/

/-- The loop of `operator+=`, from an offset into the entry it has got to. -/
theorem addFrom_at (left right : List Range) (off : Nat) (h : Countable T (left ++ right))
    (hoff : ∀ r ∈ right.head?, off < r.len) (hend : right = [] → off = 0)
    (hn : off + n ≤ (bits right).length) (hdiff : n < 2 ^ 32) :
    ∃ j, addFrom B T left.length off n right = .ok j ∧
      At (left ++ right) ((bits left).length + off + n) j := by
  induction right generalizing left off n with
  | nil =>
    simp only [RangeList.enumerate_nil, List.length_nil, Nat.le_zero_eq, Nat.add_eq_zero_iff] at hn
    obtain ⟨rfl, rfl⟩ := hn
    exact ⟨⟨left.length, 0⟩, by simp [addFrom], by simpa using at_first left [] (by simp)⟩
  | cons r right ih =>
    have hoff := hoff r (by simp)
    have hfits := h.fits (r := r) (by simp)
    have hlen := hfits.len_eq
    have hmax := hfits.len
    have hwidth := max_lt h.width
    rw [addFrom]
    by_cases hzero : n = 0
    · subst hzero
      exact ⟨⟨left.length, off⟩, by simp, by simpa using At.inside left r right off hoff⟩
    have hne : (n : Int) ≠ 0 := by omega
    have hspace : IntType.u64.conv (r.end_ - (r.start_ + off)) = r.end_ - (r.start_ + off) :=
      IntType.conv_of_inRange (u64_inRange (by omega) (by omega))
    have hn64 : IntType.u64.conv n = n :=
      IntType.conv_of_inRange (u64_inRange (by omega) (by omega))
    rw [if_neg hne, hfits.arith_start hoff, ok_bind, hfits.arith_space hoff, ok_bind, hspace, hn64]
    simp only
    by_cases hroom : (n : Int) ≤ r.end_ - (r.start_ + off)
    · -- the entry has the bit
      refine ⟨⟨left.length, (off + n : Nat)⟩, ?_, ?_⟩
      · rw [if_pos hroom, forth_eq (by omega) (by omega) (by omega)]
        simp
      · rw [Nat.add_assoc]
        exact .inside left r right (off + n) (by omega)
    · rw [if_neg hroom, passSpace_eq (by omega) (by omega) (by omega)]
      have hleft : (n : Int) - (r.end_ - (r.start_ + off) + 1) = (n - (r.len - off) : Nat) := by
        omega
      rw [ok_bind, hleft]
      simp only [length_bits_cons] at hn
      obtain ⟨j, hadd, hj⟩ := ih (n := n - (r.len - off)) (left ++ [r]) 0
        (by simpa using h) (fun s hs => (h.fits (by simp [List.mem_of_mem_head? hs])).len_pos)
        (fun _ => rfl) (by omega) (by omega)
      refine ⟨j, by simpa using hadd, ?_⟩
      have hbit : (bits (left ++ [r])).length + 0 + (n - (r.len - off)) =
          (bits left).length + off + n := by
        simp only [length_bits_append, length_bits_cons, RangeList.enumerate_nil, List.length_nil]
        omega
      rw [hbit] at hj
      simpa using hj

theorem addAssign_at (h : Countable T v) (hi : At v p i) (hn : p + n ≤ (bits v).length)
    (hdiff : n < 2 ^ 32) : ∃ j, addAssign B T v i n = .ok j ∧ At v (p + n) j := by
  cases hi with
  | inside left r right off hoff =>
    simp only [length_bits_append, length_bits_cons] at hn
    have := addFrom_at (B := B) (n := n) left (r :: right) off h
      (by simpa using hoff) (by simp) (by simp only [length_bits_cons]; omega) hdiff
    simpa [addAssign] using this
  | finish =>
    have := addFrom_at (B := B) (n := n) v [] 0 (by simpa using h)
      (by simp) (by simp) (by simp; omega) hdiff
    simpa [addAssign, «end»] using this

theorem At.le (hi : At v p i) : p ≤ (bits v).length := by
  cases hi with
  | inside left r right off hoff =>
    simp only [length_bits_append, length_bits_cons]
    omega
  | finish => exact Nat.le_refl _

theorem At.eq_mk (hi : At v p i) : ∃ k off : Nat, i = ⟨k, off⟩ := by
  cases hi with
  | inside left r right off hoff => exact ⟨left.length, off, rfl⟩
  | finish => exact ⟨v.length, 0, rfl⟩

theorem At.offset_le {k off : Nat} (hi : At v p ⟨k, off⟩) : off ≤ p := by
  generalize hj : (⟨k, off⟩ : Iterator) = j at hi
  cases hi with
  | inside left r right off' hoff =>
    have := (Iterator.mk.inj hj).2
    omega
  | finish =>
    have := (Iterator.mk.inj hj).2
    omega

theorem At.back {k off : Nat} (hi : At v (p + n) ⟨k, off⟩) (hn : n ≤ off) :
    At v p ⟨k, (off - n : Nat)⟩ := by
  generalize hq : p + n = q, hj : (⟨k, off⟩ : Iterator) = j at hi
  cases hi with
  | inside left r right off' hoff =>
    obtain ⟨rfl, hoffset⟩ := Iterator.mk.inj hj
    obtain rfl : p = (bits left).length + (off - n) := by omega
    exact .inside left r right (off - n) (by omega)
  | finish =>
    obtain ⟨rfl, hoffset⟩ := Iterator.mk.inj hj
    obtain ⟨rfl, rfl⟩ : n = 0 ∧ off = 0 := by omega
    rw [← Nat.add_zero p, hq]
    exact .finish v

theorem At.before (h : Countable T v) {k off : Nat} (hi : At v (p + (off + 1)) ⟨k, off⟩) :
    ∃ k' r, k = k' + 1 ∧ entry v k' = .ok r ∧ r.Fits T ∧ At v p ⟨k', (r.len - 1 : Nat)⟩ := by
  have hfirst : ∀ left right : List Range, v = left ++ right → k = left.length →
      p + 1 = (bits left).length → ∃ k' r, k = k' + 1 ∧ entry v k' = .ok r ∧ r.Fits T ∧
        At v p ⟨k', (r.len - 1 : Nat)⟩ := by
    rintro left right rfl rfl hp
    obtain ⟨init, r, rfl, hv⟩ := exists_entry_before left right (by omega)
    rw [hv] at h ⊢
    have hfits := h.fits (r := r) (by simp)
    refine ⟨init.length, r, by simp, entry_append init right r, hfits, ?_⟩
    have hlast := at_last init right hfits.len_pos
    simp only [length_bits_append, length_bits_cons, RangeList.enumerate_nil, List.length_nil] at hp
    rwa [show p = (bits init).length + r.len - 1 by omega]
  generalize hq : p + (off + 1) = q, hj : (⟨k, off⟩ : Iterator) = j at hi
  cases hi with
  | inside left r right off' hoff =>
    obtain ⟨hk, hoffset⟩ := Iterator.mk.inj hj
    exact hfirst left (r :: right) rfl hk (by omega)
  | finish =>
    obtain ⟨hk, hoffset⟩ := Iterator.mk.inj hj
    exact hfirst v [] (by simp) hk (by omega)

theorem subFrom_room (h : Countable T v) {k off : Nat} (hi : At v (p + n) ⟨k, off⟩)
    (hroom : n ≤ off) : subFrom B T v off n k = .ok ⟨k, (off - n : Nat)⟩ := by
  have hcount := hi.le
  have hmax := h.count
  have hoff := hi.offset_le
  have hconv : T.conv n = n := IntType.conv_of_inRange (inRange_of_le (by omega) (by omega))
  have hback := back_eq (B := B) (T := T) off n (by omega) (by omega)
    (by omega)
  by_cases hzero : n = 0
  · cases k <;> simp [subFrom, hzero]
  · cases k <;> simp [subFrom, hzero, hconv, hroom, hback, Int.ofNat_sub hroom]

theorem subFrom_at (h : Countable T v) {k off : Nat} (hi : At v (p + n) ⟨k, off⟩)
    (hdiff : n < 2 ^ 32) : ∃ j, subFrom B T v off n k = .ok j ∧ At v p j := by
  induction k generalizing off n with
  | zero =>
    by_cases hroom : n ≤ off
    · exact ⟨_, subFrom_room h hi hroom, hi.back hroom⟩
    · obtain ⟨k', r, hk, -⟩ := At.before (p := p + (n - (off + 1))) h
        (by rwa [show p + (n - (off + 1)) + (off + 1) = p + n by omega])
      omega
  | succ k ih =>
    by_cases hroom : n ≤ off
    · exact ⟨_, subFrom_room h hi hroom, hi.back hroom⟩
    · obtain ⟨k', r, hk, hentry, hfits, hlast⟩ := At.before (p := p + (n - (off + 1))) h
        (by rwa [show p + (n - (off + 1)) + (off + 1) = p + n by omega])
      obtain rfl : k = k' := by omega
      obtain ⟨j, hsub, hj⟩ := ih hlast (by omega)
      have hle := hi.le
      have hmax := h.count
      have hconv : T.conv n = n := IntType.conv_of_inRange (inRange_of_le (by omega) (by omega))
      have hnot : ¬ (n : Int) ≤ off := by omega
      have hne : (n : Int) ≠ 0 := by omega
      have hleft : (n : Int) - (off + 1) = (n - (off + 1) : Nat) := by omega
      refine ⟨j, ?_, hj⟩
      rw [subFrom, if_neg hne, hconv, if_neg hnot,
        passOffset_eq (by omega) (by omega) (by omega) (by omega), hleft]
      simp only [ok_bind, hentry, hfits.lastOffset, hsub]

theorem subAssign_at (h : Countable T v) (hi : At v (p + n) i) (hdiff : n < 2 ^ 32) :
    ∃ j, subAssign B T v i n = .ok j ∧ At v p j := by
  obtain ⟨k, off, rfl⟩ := hi.eq_mk
  exact subFrom_at h hi hdiff

theorem skipContiguous_at (h : Countable T v) (hi : At v p i) {x : Int}
    (hx : (bits v)[p]? = some x) :
    ∃ r ∈ v, r.start_ ≤ x ∧ x ≤ r.end_ ∧ ∃ j q, skipContiguous B T v i = .ok j ∧ At v q j ∧
      (bits v)[q]? = some r.end_ := by
  have hp : p < (bits v).length := (List.getElem?_eq_some_iff.mp hx).1
  obtain ⟨left, r, right, off, rfl, hoff, rfl, rfl⟩ := hi.cases_lt hp
  have hfits := h.fits (r := r) (by simp)
  have hlen := hfits.len_eq
  have hval : x = r.start_ + off := Option.some.inj (hx.symm.trans (getElem?_bits left right hoff))
  have hlast : r.len - 1 < r.len := by omega
  refine ⟨r, by simp, by omega, by omega, ⟨left.length, (r.len - 1 : Nat)⟩, _, ?_,
    .inside left r right (r.len - 1) hlast, ?_⟩
  · simp [skipContiguous, entry_append, hfits.lastOffset]
  · rw [getElem?_bits left right hlast]
    exact congrArg some (by omega)

/-! ### Counting -/

theorem numSetFrom_eq (h : Countable T v) (ret : Nat)
    (hret : ((ret + (bits v).length : Nat) : Int) ≤ T.max) :
    numSetFrom B T ret v = .ok ((ret + (bits v).length : Nat) : Int) := by
  induction v generalizing ret with
  | nil => simp [numSetFrom]
  | cons r v ih =>
    have hfits := h.fits (r := r) (by simp)
    have hlen := hfits.len_eq
    have hpos := hfits.len_pos
    rw [length_bits_cons] at hret
    have hdiff := inRange_of_le (T := T) (z := r.end_ - r.start_) (by omega) (by omega)
    have hone := inRange_of_le (T := T) (z := r.end_ - r.start_ + 1) (by omega) (by omega)
    have hsum := inRange_of_le (T := T) (z := ret + (r.end_ - r.start_ + 1)) (by omega) (by omega)
    have hrest : Countable T v := ⟨h.width, fun s hs => h.typed s (by simp [hs]),
      fun s hs => h.nonempty s (by simp [hs]), by omega⟩
    have hnext : (ret : Int) + (r.end_ - r.start_ + 1) = (ret + r.len : Nat) := by omega
    rw [numSetFrom, IntType.arith_of_inRange B hdiff, ok_bind, IntType.arith_of_inRange B hone,
      ok_bind, IntType.arith_of_inRange B hsum, ok_bind, IntType.conv_of_inRange hsum, hnext,
      ih hrest _ (by omega), length_bits_cons, Nat.add_assoc]

/-! ### The bitmap -/

/-- What a reader of the bitmap relies on, at the positions that `++` gets to from `begin`. -/
structure Iterates (B : Build) (T : IntType) (v : List Range) : Prop where
  ascending : (bits v).Pairwise (· < ·)
  members : ∀ x, x ∈ bits v ↔ x ∈ members v
  visit : ∀ p x, (bits v)[p]? = some x → ∃ i, times (increment B T v) p begin = .ok i ∧
    i ≠ «end» v ∧ deref B T v i = .ok x
  finish : times (increment B T v) (bits v).length begin = .ok («end» v)
  undo : ∀ p < (bits v).length, ∃ i j, times (increment B T v) p begin = .ok i ∧
    increment B T v i = .ok j ∧ decrement B T v j = .ok i
  add : ∀ p n, p + n ≤ (bits v).length → n < 2 ^ 32 → ∃ i j,
    times (increment B T v) p begin = .ok i ∧ times (increment B T v) n i = .ok j ∧
      addAssign B T v i n = .ok j
  sub : ∀ p n, p + n ≤ (bits v).length → n < 2 ^ 32 → ∃ i j,
    times (increment B T v) (p + n) begin = .ok i ∧ times (decrement B T v) n i = .ok j ∧
      subAssign B T v i n = .ok j
  skip : ∀ p x, (bits v)[p]? = some x → ∃ i j q y, times (increment B T v) p begin = .ok i ∧
    skipContiguous B T v i = .ok j ∧ times (increment B T v) q begin = .ok j ∧
      (bits v)[q]? = some y ∧ x ≤ y ∧ (∀ z, x ≤ z → z ≤ y → z ∈ SparseBitmap.members v) ∧
        y + 1 ∉ SparseBitmap.members v
  num_set : numSet B T v = .ok ((bits v).length : Int)

theorem times_increment_begin (h : Countable T v) (hp : p ≤ (bits v).length) :
    ∃ i, times (increment B T v) p begin = .ok i ∧ At v p i := by
  simpa using times_increment_at (B := B) (n := p) h (at_begin h) (by omega)

/-- Over any integer type of up to the 64 bits of a `size_t`, with a number of bits set that the
    type holds. -/
theorem iterates_of_count_le (B : Build) (T : IntType) (hwidth : T.width ≤ 64) (b : Bitmap T)
    (hcount : ((bits b.ranges).length : Int) ≤ T.max) : Iterates B T b.ranges := by
  have h : Countable T b.ranges := ⟨hwidth, b.typed, b.canonical.nonempty, hcount⟩
  refine ⟨b.canonical.pairwise_enumerate, fun x => RangeList.mem_enumerate, ?_, ?_, ?_, ?_, ?_, ?_,
    by simpa [numSet] using numSetFrom_eq (B := B) h 0 (by simpa using hcount)⟩
  · intro p x hx
    have hp : p < (bits b.ranges).length := (List.getElem?_eq_some_iff.mp hx).1
    obtain ⟨i, htimes, hi⟩ := times_increment_begin (B := B) h (Nat.le_of_lt hp)
    refine ⟨i, htimes, ?_, deref_at h hi hx⟩
    rintro rfl
    obtain ⟨left, r, right, off, hv, -, -, hend⟩ := hi.cases_lt hp
    have := (Iterator.mk.inj hend).1
    simp [hv] at this
  · obtain ⟨i, htimes, hi⟩ := times_increment_begin (B := B) h (Nat.le_refl _)
    rw [htimes, hi.eq_end]
  · intro p hp
    obtain ⟨i, htimes, hi⟩ := times_increment_begin (B := B) h (Nat.le_of_lt hp)
    obtain ⟨j, hnext, hj⟩ := increment_at (B := B) h hi hp
    obtain ⟨i', hprev, hi'⟩ := decrement_at (B := B) h hj
    exact ⟨i, j, htimes, hnext, hi.unique hi' ▸ hprev⟩
  · intro p n hn hdiff
    obtain ⟨i, htimes, hi⟩ := times_increment_begin (B := B) (p := p) h (by omega)
    obtain ⟨j, hsteps, hj⟩ := times_increment_at (B := B) h hi hn
    obtain ⟨j', hadd, hj'⟩ := addAssign_at (B := B) h hi hn hdiff
    exact ⟨i, j, htimes, hsteps, hj'.unique hj ▸ hadd⟩
  · intro p n hn hdiff
    obtain ⟨i, htimes, hi⟩ := times_increment_begin (B := B) h hn
    obtain ⟨j, hsteps, hj⟩ := times_decrement_at (B := B) h hi
    obtain ⟨j', hsub, hj'⟩ := subAssign_at (B := B) h hi hdiff
    exact ⟨i, j, htimes, hsteps, hj'.unique hj ▸ hsub⟩
  · intro p x hx
    have hp : p < (bits b.ranges).length := (List.getElem?_eq_some_iff.mp hx).1
    obtain ⟨i, htimes, hi⟩ := times_increment_begin (B := B) h (Nat.le_of_lt hp)
    obtain ⟨r, hr, hlo, hhi, j, q, hskip, hj, hlast⟩ := skipContiguous_at (B := B) h hi hx
    obtain ⟨j', htimes', hj'⟩ := times_increment_begin (B := B) h hj.le
    exact ⟨i, j, q, r.end_, htimes, hskip, hj.unique hj' ▸ htimes', hlast, hhi,
      fun z hz hz' => ⟨r, hr, by omega, hz'⟩, b.canonical.succ_not_mem hr⟩

/-- The bits 1, 2, 5 and 6 of a bitmap of `int`. -/
theorem iterates_of_count_le_int : Iterates ⟨false, false⟩ .int [⟨1, 2⟩, ⟨5, 6⟩] :=
  iterates_of_count_le _ .int (by decide)
    ⟨[⟨1, 2⟩, ⟨5, 6⟩], ⟨by decide, by simp [RangeList.Before]⟩, by unfold Typed; decide⟩ (by decide)

end Oasys.SparseBitmap
