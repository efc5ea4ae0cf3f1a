import Mathlib.Tactic.ByContra
import Oasys.ForStd.Transition
import Oasys.Util.StringBuffer

/-!
# StringBuffer: concatenation

What a string buffer holds after any calls is the text that they append. Three things can go
wrong on the way: a numeral may be too long for the scratch area of `append_int`, the free
space may be too large for an `int`, which is what `vappendf` converts it to, and the first
try of `appendf` may cut a text off before a pointer, so that the pointer is not taken for what
it is. `StringBuffer.reachable_meets` is about all runs in which none of this happens.
-/

namespace Oasys.StringBuffer

variable {s : StringBuffer} {text : List UInt8}

/-! ### append_int -/

theorem ultoaLoop_hex (room val : Nat) (written : List UInt8)
    (hroom : (Hex.digits val).length ≤ room) :
    ultoaLoop 16 room val written = .ok (Hex.digits val ++ written) := by
  have hone : ∀ n < 16, Hex.digits n = [toChar n] := by decide
  induction room generalizing val written with
  | zero =>
    by_cases hlt : val < 16
    · rw [hone val hlt] at hroom
      simp at hroom
    · rw [Hex.digits_of_le (by omega), hone (val % 16) (by omega)] at hroom
      simp at hroom
  | succ room ih =>
    rw [ultoaLoop]
    by_cases hlt : val < 16
    · have hzero : val / 16 = 0 := by omega
      have hmod : val % 16 = val := by omega
      simp [hzero, hmod, hone val hlt]
    · -- the last digit is written first
      have hne : val / 16 ≠ 0 := by omega
      have hdigits := Hex.digits_of_le (Nat.le_of_not_lt hlt)
      rw [hone (val % 16) (by omega)] at hdigits
      rw [hdigits, List.length_append] at hroom
      have hrest : (Hex.digits (val / 16)).length ≤ room := by
        simp at hroom
        omega
      simp [hne, ih _ _ hrest, hdigits]

/-- A base that `append_int` is called with. -/
inductive Base where
  | dec
  | hex

namespace Base

def value : Base → Nat
  | dec => 10
  | hex => 16

def numeral : Base → Nat → List UInt8
  | dec => Decimal.digits
  | hex => Hex.digits

theorem numeral_ne_nil (base : Base) (n : Nat) : base.numeral n ≠ [] := by
  cases base with
  | dec => exact Decimal.digits_ne_nil n
  | hex => simp [numeral, Hex.digits, Nat.toDigits_ne_nil]

end Base

theorem Holds.appendInt_numeral (h : s.Holds text) (base : Base) {val : UInt64}
    (hlen : (base.numeral val.toNat).length < 16) :
    ∃ s', s.appendInt val base.value = .ok s' ∧
      s'.Holds (text ++ base.numeral val.toNat) := by
  have hultoa : fastUltoa val base.value 16 = .ok (base.numeral val.toNat) := by
    cases base with
    | dec => exact (fastUltoa_eq val (by decide)).trans (if_pos hlen.le)
    | hex =>
      have hloop := ultoaLoop_hex 16 val.toNat [] hlen.le
      rw [List.append_nil] at hloop
      exact hloop
  obtain ⟨s', hput, hs'⟩ := h.put (base.numeral_ne_nil val.toNat)
  exact ⟨s', by simp [StringBuffer.appendInt, hultoa, hlen, hput], hs'⟩

/-! ### c_str -/

theorem take_left_of_take {mem front back : List UInt8}
    (h : mem.take (front ++ back).length = front ++ back) : mem.take front.length = front := by
  have hpre := congrArg (List.take front.length) h
  rwa [List.take_take, List.take_left, List.length_append,
    Nat.min_eq_left (Nat.le_add_right _ _)] at hpre

/-- The memory at the start of which there is a string, for whoever reads up to its zero. -/
def Reads (mem text : List UInt8) : Prop :=
  0 ∈ mem ∧ mem.takeWhile (· ≠ 0) = text.takeWhile (· ≠ 0)

theorem reads_of_getLast {mem : List UInt8} (htake : mem.take text.length = text)
    (hlast : text.getLast? = some 0) : Reads mem text := by
  have hmem : (0 : UInt8) ∈ text := List.mem_of_getLast? hlast
  constructor
  · rw [← htake] at hmem
    exact List.mem_of_mem_take hmem
  · rw [← List.take_append_drop text.length mem, htake]
    rw [List.takeWhile_append]
    rw [if_neg]
    intro hall
    have hprefix := List.takeWhile_prefix (p := fun c : UInt8 => decide (c ≠ 0)) (l := text)
    have heq := hprefix.eq_of_length hall
    have hne := List.mem_takeWhile_imp (heq ▸ hmem)
    simp at hne

theorem reads_of_take {mem : List UInt8} (htake : mem.take (text ++ [0]).length = text ++ [0]) :
    Reads mem text := by
  have hreads : Reads mem (text ++ [0]) := reads_of_getLast htake List.getLast?_concat
  refine ⟨hreads.1, hreads.2.trans ?_⟩
  rw [List.takeWhile_append]
  split
  · rename_i hall
    rw [(List.takeWhile_prefix _).eq_of_length hall]
    simp
  · rfl

theorem Holds.nfree_eq (h : s.Holds text) :
    s.buf_.nfree = .ok (s.buf_.buf_len_ - text.length) := by
  have hfits := h.fits
  simp [ExpandableBuffer.nfree, h.len, hfits]

theorem Holds.unterminated_eq (h : s.Holds text) :
    s.unterminated = .ok (text.getLast? ≠ some 0) := by
  by_cases hnil : text = []
  · subst hnil
    simp [unterminated, h.len]
  · have hpos := List.length_pos_iff.2 hnil
    have hne : text.length ≠ 0 := by omega
    have hlast : s.buf_.bytes[text.length - 1]? = text.getLast? := by
      have hget : (s.buf_.bytes.take text.length)[text.length - 1]? =
          s.buf_.bytes[text.length - 1]? := List.getElem?_take_of_lt (by omega)
      rw [List.getLast?_eq_getElem?, ← hget, h.take]
    rw [unterminated, h.len, if_neg hne, hlast]
    cases hc : text.getLast? with
    | none => exact absurd (List.getLast?_eq_none_iff.1 hc) hnil
    | some c => simp

theorem Holds.cStr (h : s.Holds text) :
    ∃ s' mem, s.cStr = .ok (s', mem) ∧ s'.Holds text ∧ mem.take text.length = text ∧
      Reads mem text := by
  have hfits := h.fits
  have hroom := h.room
  rw [StringBuffer.cStr, h.unterminated_eq, ok_bind]
  by_cases hlast : text.getLast? = some 0
  · refine ⟨s, s.buf_.bytes, ?_, h, h.take, reads_of_getLast h.take hlast⟩
    have hdata : s.buf_.rawBuf = .ok s.buf_.bytes := h.data_eq
    simp [hlast, hdata]
  · -- there is room for the terminator, or it is made
    obtain ⟨b, hb, htake, hlen, hlt⟩ : ∃ b, (if s.buf_.buf_len_ - text.length = 0 then
        s.buf_.reserve (s.buf_.len_ + 1) else s.buf_) = b ∧ b.bytes.take text.length = text ∧
          b.len_ = text.length ∧ text.length < b.buf_len_ := by
      split
      · obtain ⟨more, hmore, hcap, hlen⟩ := s.buf_.bytes_reserve (s.buf_.len_ + 1)
        have hlen' := h.len
        refine ⟨_, rfl, ?_, hlen.trans h.len, by omega⟩
        rw [hmore, List.take_append_of_le_length hfits, h.take]
      · exact ⟨_, rfl, h.take, h.len, by omega⟩
    obtain ⟨b', hstore, hlen', hcap', htake'⟩ := ExpandableBuffer.store_eq [0] [] hlen htake
      (by simp; omega)
    rw [List.append_nil] at hstore
    have hcap : text.length < b'.buf_len_ := by omega
    have hholds : Holds ⟨b'⟩ text :=
      ⟨hlen'.trans hlen, take_left_of_take htake', hcap.le, Nat.zero_lt_of_lt hcap⟩
    have hraw : b'.rawBuf = .ok b'.bytes := hholds.data_eq
    refine ⟨⟨b'⟩, b'.bytes, ?_, hholds, hholds.take, reads_of_take htake'⟩
    have hend : b.endBuf = .ok b.len_ := ExpandableBuffer.endBuf_eq (by omega)
    simp [hlast, h.nfree_eq, hb, hend, hstore, hraw]

/-! ### appendf -/

/-- The memory that there is when `vappendf` has made a reservation. -/
def growth (len cap lenp : Nat) : Nat :=
  if cap - len < lenp + 1 then max (len + lenp + 1) (cap * 2) else cap

theorem le_growth (len cap lenp : Nat) :
    len + lenp + 1 ≤ growth len cap lenp ∧ cap ≤ growth len cap lenp := by
  rw [growth]
  split <;> omega

theorem Holds.reserveFor (h : s.Holds text) (lenp : Nat) :
    ∃ b more, reserveFor s.buf_ lenp = .ok b ∧ b.bytes = s.buf_.bytes ++ more ∧
      b.len_ = text.length ∧ b.buf_len_ = growth text.length s.buf_.buf_len_ lenp := by
  have hfits := h.fits
  have hroom := h.room
  rw [StringBuffer.reserveFor, h.nfree_eq, ok_bind, growth]
  by_cases hsmall : s.buf_.buf_len_ - text.length < lenp + 1
  · obtain ⟨more, hmore, hcap, hlen⟩ :=
      s.buf_.bytes_reserve (max (text.length + lenp + 1) (s.buf_.buf_len_ * 2))
    have hcap' : (s.buf_.reserve (max (text.length + lenp + 1) (s.buf_.buf_len_ * 2))).buf_len_ =
        max (text.length + lenp + 1) (s.buf_.buf_len_ * 2) := by omega
    have hne : s.buf_.buf_len_ ≠ 0 := by omega
    refine ⟨_, more, ?_, hmore, hlen.trans h.len, ?_⟩
    · have hle : text.length ≤ max (text.length + lenp + 1) (s.buf_.buf_len_ * 2) := by omega
      have hfree : lenp + 1 ≤ max (text.length + lenp + 1) (s.buf_.buf_len_ * 2) - text.length := by
        omega
      have hnfree : (s.buf_.reserve (max (text.length + lenp + 1) (s.buf_.buf_len_ * 2))).nfree =
          .ok (max (text.length + lenp + 1) (s.buf_.buf_len_ * 2) - text.length) := by
        rw [ExpandableBuffer.nfree, hlen, hcap', h.len, decide_eq_true hle, assert_true, ok_bind]
        rfl
      rw [if_pos hsmall, decide_eq_true hne, assert_true, ok_bind, h.len]
      dsimp only
      rw [hnfree, ok_bind, decide_eq_true hfree, assert_true, ok_bind]
      rfl
    · rw [if_pos hsmall, hcap']
  · refine ⟨s.buf_, [], ?_, (List.append_nil _).symm, h.len, ?_⟩
    · simp [hsmall]
    · rw [if_neg hsmall]

theorem store_zero {b : ExpandableBuffer} {mem : List UInt8} (hpos : 0 < b.buf_len_)
    (hle : mem.length ≤ b.buf_len_) :
    ∃ b', b.store 0 mem = .ok b' ∧ b'.len_ = b.len_ ∧ b'.buf_len_ = b.buf_len_ ∧
      b'.bytes.take mem.length = mem := by
  have hle' : 0 + mem.length ≤ b.buf_len_ := by omega
  refine ⟨{ b with buf_ := _ }, if_pos hle', rfl, ?_⟩
  cases hbuf : b.buf_ with
  | none =>
    have hnil : b.buf_len_ = 0 := by
      rw [ExpandableBuffer.buf_len_, ExpandableBuffer.bytes, hbuf]
      rfl
    omega
  | some buf =>
    have hbytes : b.buf_len_ = buf.length := by
      rw [ExpandableBuffer.buf_len_, ExpandableBuffer.bytes, hbuf]
      rfl
    rw [hbytes] at hle ⊢
    simp only [ExpandableBuffer.buf_len_, ExpandableBuffer.bytes, Option.map_some,
      Option.getD_some, List.take_zero, List.nil_append, Nat.zero_add, List.length_append,
      List.length_drop, List.take_left, and_true]
    omega

open Conversion (Fits expandAll)

variable {fmt : List Conversion}

theorem int_conv_le (n : Nat) :
    IntType.int.conv n ≤ n ∧ IntType.int.conv n < 2 ^ 31 ∧ -(2 ^ 31) ≤ IntType.int.conv n := by
  rw [IntType.int_conv]
  omega

/-- What `vappendf` makes of the length that has been printed and the free space as an `int`. -/
def lenpOf (n : Nat) (c : Int) : Nat := (IntType.u64.conv (min n c)).toNat

theorem lenpOf_of_nonneg (n : Nat) {c : Int} (hc : 0 ≤ c) (hlt : c < 2 ^ 31) :
    (lenpOf n c : Int) = min (n : Int) c := by
  rw [lenpOf, IntType.u64_conv]
  omega

theorem lenpOf_of_neg {n : Nat} {c : Int} (hc : c < 0) (hge : -(2 ^ 31) ≤ c) (hn : n < 2 ^ 31) :
    n < lenpOf n c := by
  rw [lenpOf, IntType.u64_conv]
  omega

/-- `vappendf`: as much of the text as fits is written, and the length is set. -/
theorem Holds.vappendf_eq (h : s.Holds text) {lenp free : Nat}
    (hfree : free = growth text.length s.buf_.buf_len_ lenp - text.length)
    (hfits : Fits (free - 1) [] fmt) :
    ∃ b : ExpandableBuffer, s.vappendf fmt lenp =
        (b.setLen (text.length + lenpOf (expandAll fmt).length (IntType.int.conv free)) >>=
          fun b => .ok (⟨b⟩, lenpOf (expandAll fmt).length (IntType.int.conv free),
            (expandAll fmt).length)) ∧
      b.buf_len_ = growth text.length s.buf_.buf_len_ lenp ∧
      b.bytes.take (text ++ (expandAll fmt).take (free - 1)).length =
        text ++ (expandAll fmt).take (free - 1) := by
  have hsfits := h.fits
  have hroom := h.room
  obtain ⟨b, more, hreserve, hmore, hlen, hcap⟩ := h.reserveFor lenp
  have hgrowth := le_growth text.length s.buf_.buf_len_ lenp
  rw [← hcap] at hgrowth
  have hend : b.endBuf = .ok text.length := by rw [ExpandableBuffer.endBuf_eq (by omega), hlen]
  have hnfree : b.nfree = .ok free := by
    have hle : text.length ≤ b.buf_len_ := by omega
    rw [ExpandableBuffer.nfree, hlen, decide_eq_true hle, assert_true, ok_bind, hfree, ← hcap]
    rfl
  have hbefore : b.bytes.take text.length = text := by
    rw [hmore, List.take_append_of_le_length hsfits, h.take]
  have hprintf := logVsnprintf_eq text (by omega) hfits
  -- the text and its terminator stay in the buffer
  have hmem : (text ++ (expandAll fmt).take (free - 1) ++ [0]).length ≤ b.buf_len_ := by
    simp only [List.length_append, List.length_take, List.length_singleton]
    omega
  obtain ⟨b', hstore, hlen', hcap', htake⟩ := store_zero (by omega) hmem
  have hret : decide ((0 : Int) ≤ ((expandAll fmt).length : Nat)) = true :=
    decide_eq_true (Int.natCast_nonneg _)
  refine ⟨b', ?_, hcap'.trans hcap, take_left_of_take htake⟩
  rw [StringBuffer.vappendf, hreserve, ok_bind, hend, ok_bind, hnfree, ok_bind, hbefore, hprintf,
    ok_bind]
  dsimp only
  rw [hstore, ok_bind, hret, assert_true, ok_bind, hlen', hlen]
  rfl

/-- `appendf` up to its second try, where the first one has a free space that is not negative:
    the buffer holds what it held before. -/
theorem Holds.appendf_eq (h : s.Holds text) {cap free : Nat}
    (hcap : cap = growth text.length s.buf_.buf_len_ 0) (hfree : free = cap - text.length)
    (hfits : Fits (free - 1) [] fmt) (hint : 0 ≤ IntType.int.conv free) :
    ∃ s' : StringBuffer, s'.Holds text ∧ s'.buf_.buf_len_ = cap ∧
      s.appendf fmt = (do
        let (s, len, ret) ← s'.vappendf fmt (expandAll fmt).length
        assert (ret = len)
        return s) := by
  have hsfits := h.fits
  have hroom := h.room
  obtain ⟨b, hfirst, hcap₁, htake₁⟩ := h.vappendf_eq (hcap ▸ hfree) hfits
  obtain ⟨hconv, hlt, -⟩ := int_conv_le free
  have hk := lenpOf_of_nonneg (expandAll fmt).length hint hlt
  generalize lenpOf (expandAll fmt).length (IntType.int.conv free) = k at hfirst hk
  generalize IntType.int.conv free = c at hint hconv hlt hk
  have hgrowth := le_growth text.length s.buf_.buf_len_ 0
  rw [← hcap] at hgrowth
  have hle : k ≤ (expandAll fmt).length := by omega
  have hcap₁' : b.buf_len_ = cap := hcap₁.trans hcap.symm
  have hkle : text.length + k ≤ b.buf_len_ := by omega
  have hsetle : text.length ≤ b.buf_len_ := by omega
  have hset := ExpandableBuffer.setLen_eq hkle
  have htrim := trim_back b (k := k) hsetle
  refine ⟨⟨{ b with len_ := text.length }⟩, ⟨rfl, take_left_of_take htake₁, hsetle, ?_⟩,
    hcap₁', ?_⟩
  · show 0 < b.buf_len_
    omega
  · rw [StringBuffer.appendf, hfirst, hset, ok_bind, ok_bind]
    dsimp only
    rw [if_pos hle, htrim, ok_bind]

/-- `appendf`. In the first try there is room for a terminator at least, in the second one for
    the text. -/
theorem Holds.appendf (h : s.Holds text) {cap free free' : Nat}
    (hcap : cap = growth text.length s.buf_.buf_len_ 0) (hfree : free = cap - text.length)
    (hfree' : free' = growth text.length cap (expandAll fmt).length - text.length)
    (hfits : Fits (free - 1) [] fmt) (hint : 0 ≤ IntType.int.conv free)
    (hint' : (expandAll fmt).length ≤ IntType.int.conv free') :
    ∃ s', s.appendf fmt = .ok s' ∧ s'.Holds (text ++ expandAll fmt) := by
  obtain ⟨s₂, hs₂, hcap₂, happend⟩ := h.appendf_eq hcap hfree hfits hint
  have hk : lenpOf (expandAll fmt).length (IntType.int.conv free') = (expandAll fmt).length := by
    have hlt := (int_conv_le free').2.1
    have hlenp := lenpOf_of_nonneg (expandAll fmt).length ((Int.natCast_nonneg _).trans hint') hlt
    rw [min_eq_left hint'] at hlenp
    exact Int.ofNat_inj.1 hlenp
  clear hint hint'
  have hgrowth := le_growth text.length cap (expandAll fmt).length
  rw [← hcap₂] at hfree' hgrowth
  have hmono : free - 1 ≤ free' - 1 := by
    clear hk
    omega
  obtain ⟨b, hsecond, hcap₃, htake₃⟩ := hs₂.vappendf_eq hfree' (hfits.mono hmono)
  rw [hk] at hsecond
  clear hk
  have hall : (expandAll fmt).take (free' - 1) = expandAll fmt :=
    List.take_of_length_le (by omega)
  rw [hall] at htake₃
  have hle : text.length + (expandAll fmt).length ≤ b.buf_len_ := by omega
  have hpos : 0 < b.buf_len_ := by omega
  refine ⟨⟨{ b with len_ := text.length + (expandAll fmt).length }⟩, ?_,
    ⟨List.length_append.symm, htake₃, List.length_append ▸ hle, hpos⟩⟩
  rw [happend, hsecond]
  simp [ExpandableBuffer.setLen, hle]

/-- It fails if one of the free spaces is negative as an `int`, or the second one too small. -/
theorem Holds.appendf_iff (h : s.Holds text) {cap free free' : Nat}
    (hcap : cap = growth text.length s.buf_.buf_len_ 0) (hfree : free = cap - text.length)
    (hfree' : free' = growth text.length cap (expandAll fmt).length - text.length)
    (hfits : Fits 0 [] fmt) (hshort : (expandAll fmt).length < 2 ^ 31) :
    (∃ s', s.appendf fmt = .ok s') ↔
      0 ≤ IntType.int.conv free ∧ (expandAll fmt).length ≤ IntType.int.conv free' := by
  constructor
  · intro ⟨s', hs'⟩
    have hint : 0 ≤ IntType.int.conv free := by
      by_contra hneg
      -- the length that is asked for is too large, or not the one that is returned
      obtain ⟨b, hfirst, -⟩ := h.vappendf_eq (hcap ▸ hfree) (hfits.mono (Nat.zero_le _))
      have hlt := lenpOf_of_neg (lt_of_not_ge hneg) (int_conv_le free).2.2 hshort
      rw [StringBuffer.appendf, hfirst, bind_eq_ok] at hs'
      obtain ⟨⟨s₁, k, ret⟩, hset, hs'⟩ := hs'
      rw [bind_eq_ok] at hset
      obtain ⟨b', -, hret⟩ := hset
      obtain ⟨-, rfl, rfl⟩ := by simpa using Except.ok.inj hret
      simp [Nat.not_le_of_lt hlt, hlt.ne] at hs'
    refine ⟨hint, ?_⟩
    by_contra hsmall
    obtain ⟨s₂, hs₂, hcap₂, happend⟩ := h.appendf_eq hcap hfree (hfits.mono (Nat.zero_le _)) hint
    rw [← hcap₂] at hfree'
    obtain ⟨b, hsecond, -⟩ := hs₂.vappendf_eq hfree' (hfits.mono (Nat.zero_le _))
    have hne : (expandAll fmt).length ≠
        lenpOf (expandAll fmt).length (IntType.int.conv free') := by
      by_cases hnonneg : 0 ≤ IntType.int.conv free'
      · have hlenp := lenpOf_of_nonneg (expandAll fmt).length hnonneg (int_conv_le free').2.1
        intro heq
        rw [← heq] at hlenp
        exact hsmall (min_eq_left_iff.1 hlenp.symm)
      · exact (lenpOf_of_neg (lt_of_not_ge hnonneg) (int_conv_le free').2.2 hshort).ne
    rw [happend, hsecond, bind_eq_ok] at hs'
    obtain ⟨⟨s₁, k, ret⟩, hset, hs'⟩ := hs'
    rw [bind_eq_ok] at hset
    obtain ⟨b', -, hret⟩ := hset
    obtain ⟨-, rfl, rfl⟩ := by simpa using Except.ok.inj hret
    simp [hne] at hs'
  · intro ⟨hint, hint'⟩
    obtain ⟨s', hs', -⟩ := h.appendf hcap hfree hfree' (hfits.mono (Nat.zero_le _)) hint hint'
    exact ⟨s', hs'⟩

/-! ### Runs -/

/-- A call. A string has no zero in it, and one with a length is no shorter; without a length
    the whole string is appended. -/
inductive Call where
  | append (str : List UInt8) (len : Nat) (hnul : 0 ∉ str) (hlen : len ≤ str.length)
  | appendChar (c : UInt8)
  | appendf (fmt : List Conversion)
  | appendInt32 (val : UInt32) (base : Base)
  | appendInt (val : UInt64) (base : Base)
  | trim (cnt : Nat)
  | cStr

namespace Call

/-- The call. -/
def run (s : StringBuffer) : Call → Except Fault StringBuffer
  | append str len _ _ => s.append (str ++ [0]) len
  | appendChar c => s.appendChar c
  | appendf fmt => s.appendf fmt
  | appendInt32 val base => s.appendInt32 val base.value
  | appendInt val base => s.appendInt val base.value
  | trim cnt => s.trim cnt
  | cStr => Prod.fst <$> s.cStr

/-- What it should make of the text. -/
def apply (text : List UInt8) : Call → List UInt8
  | append str len _ _ => text ++ if len = 0 then str else str.take len
  | appendChar c => text ++ [c]
  | appendf fmt => text ++ expandAll fmt
  | appendInt32 val base => text ++ base.numeral val.toNat
  | appendInt val base => text ++ base.numeral val.toNat
  | trim cnt => text.take (text.length - cnt)
  | cStr => text

/-- What has to be so before a call: a numeral is shorter than the scratch area; no more is
    trimmed than there is; and for `appendf` the free space after the first growth and after
    the second one is not negative and not smaller than the text as an `int`, and the first
    one is enough for what stands before a pointer. -/
def Fine (s : StringBuffer) : Call → Prop
  | appendf fmt =>
    let cap := growth s.length s.buf_.buf_len_ 0
    let cap' := growth s.length cap (expandAll fmt).length
    Fits (cap - s.length - 1) [] fmt ∧ 0 ≤ IntType.int.conv (cap - s.length : Nat) ∧
      (expandAll fmt).length ≤ IntType.int.conv (cap' - s.length : Nat)
  | appendInt32 val base => (base.numeral val.toNat).length < 16
  | appendInt val base => (base.numeral val.toNat).length < 16
  | trim cnt => cnt ≤ s.length
  | _ => True

end Call

theorem Holds.append_take (h : s.Holds text) {str : List UInt8} {len : Nat} (hnul : 0 ∉ str)
    (hlen : len ≤ str.length) :
    ∃ s', s.append (str ++ [0]) len = .ok s' ∧
      s'.Holds (text ++ if len = 0 then str else str.take len) := by
  by_cases hnil : str = []
  · subst hnil
    obtain rfl : len = 0 := by simpa using hlen
    exact ⟨s, rfl, by simpa using h⟩
  · have hpos := List.length_pos_iff.2 hnil
    by_cases hzero : len = 0
    · subst hzero
      obtain ⟨s', hput, hs'⟩ := h.put hnil
      have hne : str.length ≠ 0 := by omega
      exact ⟨s', by simp [StringBuffer.append, strlen_concat hnul, hnil, hput], hs'⟩
    · have htake : (str ++ [0]).take len = str.take len := List.take_append_of_le_length hlen
      have hne : str.take len ≠ [] := by
        intro heq
        have := List.length_take_of_le hlen
        rw [heq] at this
        exact hzero this.symm
      obtain ⟨s', hput, hs'⟩ := h.put hne
      rw [if_neg hzero]
      exact ⟨s', by simp [StringBuffer.append, strlen_concat hnul, hzero, hlen, htake, hput], hs'⟩

theorem Holds.run (h : s.Holds text) {c : Call} (hc : c.Fine s) :
    ∃ s', c.run s = .ok s' ∧ s'.Holds (c.apply text) := by
  cases c with
  | append str len hnul hlen => exact h.append_take hnul hlen
  | appendChar c => exact h.appendChar c
  | appendf fmt =>
    simp only [Call.Fine, StringBuffer.length, h.len] at hc
    exact h.appendf rfl rfl rfl hc.1 hc.2.1 hc.2.2
  | appendInt32 val base =>
    have hval : val.toUInt64.toNat = val.toNat := UInt32.toNat_toUInt64 val
    have hlen : (base.numeral val.toUInt64.toNat).length < 16 := by rwa [hval]
    have happend := h.appendInt_numeral base hlen
    rwa [hval] at happend
  | appendInt val base => exact h.appendInt_numeral base hc
  | trim cnt =>
    have hle : cnt ≤ text.length := by rw [← h.len]; exact hc
    have hsplit := List.take_append_drop (text.length - cnt) text
    have hcnt : (text.drop (text.length - cnt)).length = cnt := by
      rw [List.length_drop]
      omega
    rw [← hsplit] at h
    have htrim := h.trim
    rwa [hcnt] at htrim
  | cStr =>
    obtain ⟨s', mem, hcStr, hs', -⟩ := h.cStr
    exact ⟨s', map_eq_ok.2 ⟨_, hcStr, rfl⟩, hs'⟩

/-- The formats have no pointer in them, and the call has nothing but them that can fail. -/
def Call.Plain : Call → Prop
  | .append .. => True
  | .appendChar _ => True
  | .appendf fmt => Fits 0 [] fmt ∧ (expandAll fmt).length < 2 ^ 31
  | _ => False

theorem Holds.run_iff (h : s.Holds text) {c : Call} (hc : c.Plain) :
    (∃ s', c.run s = .ok s') ↔ c.Fine s := by
  have hrun : c.Fine s → ∃ s', c.run s = .ok s' := by
    intro hfine
    obtain ⟨s', hs', -⟩ := h.run hfine
    exact ⟨s', hs'⟩
  cases c with
  | append str len hnul hlen => exact ⟨fun _ => trivial, hrun⟩
  | appendChar c => exact ⟨fun _ => trivial, hrun⟩
  | appendf fmt =>
    have hiff := h.appendf_iff rfl rfl rfl hc.1 hc.2
    refine ⟨fun hs' => ?_, hrun⟩
    simp only [Call.Fine, StringBuffer.length, h.len]
    exact ⟨hc.1.mono (Nat.zero_le _), hiff.1 hs'⟩
  | _ => exact hc.elim

/-- Every call of a list is fine where it is made. -/
def AllFine : StringBuffer → List Call → Prop
  | _, [] => True
  | s, c :: calls => c.Fine s ∧ ∀ s', c.run s = .ok s' → AllFine s' calls

theorem Holds.foldlM_run (h : s.Holds text) {calls : List Call} (hfine : AllFine s calls) :
    ∃ s', calls.foldlM Call.run s = .ok s' ∧ s'.Holds (calls.foldl Call.apply text) := by
  induction calls generalizing s text with
  | nil => exact ⟨s, rfl, h⟩
  | cons c calls ih =>
    obtain ⟨s₁, hs₁, hholds⟩ := h.run hfine.1
    obtain ⟨s', hs', hholds'⟩ := ih hholds (hfine.2 s₁ hs₁)
    exact ⟨s', by rw [List.foldlM_cons, hs₁, ok_bind, hs'], hholds'⟩

theorem Holds.allFine (h : s.Holds text) {calls : List Call} (hplain : ∀ c ∈ calls, c.Plain)
    {s' : StringBuffer} (hrun : calls.foldlM Call.run s = .ok s') : AllFine s calls := by
  induction calls generalizing s text with
  | nil => trivial
  | cons c calls ih =>
    rw [List.foldlM_cons, bind_eq_ok] at hrun
    obtain ⟨s₁, hs₁, hrest⟩ := hrun
    have hfine := (h.run_iff (hplain c (by simp))).1 ⟨s₁, hs₁⟩
    refine ⟨hfine, ?_⟩
    intro s₂ hs₂
    obtain rfl := Except.ok.inj (hs₁.symm.trans hs₂)
    obtain ⟨s₃, hs₃, hholds⟩ := h.run hfine
    obtain rfl := Except.ok.inj (hs₁.symm.trans hs₃)
    exact ih hholds (fun c hc => hplain c (by simp [hc])) hrest

/-- A buffer of some capacity and the calls on it, with the text that they should make. A call
    that does not return leaves a fault, and there is none after it. -/
def system (initsz : Nat) : TransitionSystem (Except Fault StringBuffer × List UInt8) Call where
  init x := x = (new initsz, [])
  step x c y := ∃ s, x.1 = .ok s ∧ y = (c.run s, c.apply x.2)

def FineAt (x : Except Fault StringBuffer × List UInt8) (c : Call) : Prop :=
  ∀ s, x.1 = .ok s → c.Fine s

/-- The buffer is the text: the length, the contents, and what `c_str` gives, which terminates
    the text and leaves the length as it is. -/
structure Meets (s : StringBuffer) (text : List UInt8) : Prop where
  length : s.length = text.length
  contents : ∃ mem, s.data = .ok mem ∧ mem.take text.length = text
  c_str : ∃ s' mem, s.cStr = .ok (s', mem) ∧ s'.length = s.length ∧
    mem.take text.length = text ∧ Reads mem text

theorem Holds.meets (h : s.Holds text) : Meets s text := by
  obtain ⟨s', mem, hcStr, hs', htake, hreads⟩ := h.cStr
  exact ⟨h.len, ⟨_, h.data_eq, h.take⟩, s', mem, hcStr, hs'.len.trans h.len.symm, htake, hreads⟩

/-- In every run whose calls are fine none of them fails, and the buffer is always the text. -/
theorem reachable_meets {initsz : Nat} (hinit : 0 < initsz)
    {x : Except Fault StringBuffer × List UInt8} (hx : (system initsz).ReachableWith FineAt x) :
    ∃ s, x.1 = .ok s ∧ Meets s x.2 := by
  have hholds : ∃ s, x.1 = .ok s ∧ s.Holds x.2 := by
    refine hx.invariant (P := fun x => ∃ s, x.1 = .ok s ∧ s.Holds x.2) ?_ ?_
    · rintro x rfl
      exact new_ok hinit
    · intro x c y ⟨s, hs, hholds⟩ hfine ⟨s', hs', hy⟩
      obtain rfl := Except.ok.inj (hs.symm.trans hs')
      subst hy
      exact hholds.run (hfine s hs)
  obtain ⟨s, hs, hholds⟩ := hholds
  exact ⟨s, hs, hholds.meets⟩

/-- A format, in a buffer that has no room for its text at first. -/
theorem reachable_meets_xyzzy :
    ∃ s, Call.run ⟨ExpandableBuffer.new.reserve 5⟩ (.appendf [.printed [120, 121, 122, 122, 121]]) =
      .ok s ∧ Meets s [120, 121, 122, 122, 121] := by
  have hnew : new 5 = .ok ⟨ExpandableBuffer.new.reserve 5⟩ := rfl
  have hfine : FineAt (new 5, []) (.appendf [.printed [120, 121, 122, 122, 121]]) := by
    intro s hs
    obtain rfl := Except.ok.inj (hnew.symm.trans hs)
    refine ⟨⟨fun _ _ h => (nomatch h), by decide, trivial⟩, by decide, by decide⟩
  exact reachable_meets (by decide) (.step (.init rfl) hfine ⟨_, hnew, rfl⟩)

/-- A numeral of 16 digits. -/
theorem not_reachable_meets :
    ¬ ∀ x, (system 256).Reachable x → ∃ s, x.1 = .ok s ∧ Meets s x.2 := by
  intro h
  have hnew : new 256 = .ok ⟨ExpandableBuffer.new.reserve 256⟩ := rfl
  obtain ⟨s, hs, -⟩ := h _ (.step (.init rfl) trivial
    ⟨_, hnew, rfl⟩ : (system 256).Reachable (_, Call.apply [] (.appendInt (10 ^ 15) .dec)))
  have hlarge : ¬ (10 ^ 15 : UInt64).toNat < 10 ^ 15 := by decide
  obtain ⟨e, he⟩ := appendInt_error ⟨ExpandableBuffer.new.reserve 256⟩ hlarge
  cases he.symm.trans hs

end Oasys.StringBuffer
