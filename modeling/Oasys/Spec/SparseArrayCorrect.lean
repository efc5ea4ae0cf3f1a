import Oasys.Util.SparseArray
import Mathlib.Logic.Basic
import Mathlib.Tactic.ByContra

/-!
# SparseArray correctness

Where a write reaches into a block behind it, `allocate` gives `realloc` a number of
elements for a number of bytes, and copies the block behind over the end of the memory it
gets. With elements of one byte the two numbers are the same, and the array is one.

With larger elements the same holds for the writes that do not take that branch: those
inside a block, and those that swallow every later block they reach.
-/

namespace Oasys.SparseArray

variable {α : Type}

/-! ### Blocks -/

/-- A block has elements, and memory for them. -/
structure Block.Sound (b : Block α) : Prop where
  pos : 0 < b.size_
  length : b.data_.length = b.size_

/-- What the block has at an index of the array, `none` outside it. -/
def Block.at (b : Block α) (i : Nat) : Option (Option α) :=
  if b.offset_ ≤ i ∧ i < b.finish then b.data_[i - b.offset_]? else none

/-- Blocks in the order of their offsets, none of which reaches into the next. -/
structure Ordered (blocks : List (Block α)) : Prop where
  sound : ∀ b ∈ blocks, b.Sound
  apart : blocks.Pairwise fun a b => a.finish ≤ b.offset_

/-- What is left of that where a block may have no elements. -/
structure Laid (blocks : List (Block α)) : Prop where
  length : ∀ b ∈ blocks, b.data_.length = b.size_
  apart : blocks.Pairwise fun a b => a.finish ≤ b.offset_

def lookup : List (Block α) → Nat → Option (Option α)
  | [], _ => none
  | b :: blocks, i => (b.at i).or (lookup blocks i)

variable {b itr : Block α} {blocks : List (Block α)} {i : Nat}

theorem Ordered.head (h : Ordered (b :: blocks)) : b.Sound := h.sound b (by simp)

theorem Ordered.tail (h : Ordered (b :: blocks)) : Ordered blocks :=
  ⟨fun c hc => h.sound c (by simp [hc]), (List.pairwise_cons.1 h.apart).2⟩

theorem Ordered.laid (h : Ordered blocks) : Laid blocks :=
  ⟨fun b hb => (h.sound b hb).length, h.apart⟩

theorem Laid.tail (h : Laid (b :: blocks)) : Laid blocks :=
  ⟨fun c hc => h.length c (by simp [hc]), (List.pairwise_cons.1 h.apart).2⟩

theorem Laid.le (h : Laid (b :: blocks)) {c : Block α} (hc : c ∈ blocks) :
    b.finish ≤ c.offset_ :=
  (List.pairwise_cons.1 h.apart).1 c hc

theorem Ordered.le (h : Ordered (b :: blocks)) {c : Block α} (hc : c ∈ blocks) :
    b.finish ≤ c.offset_ :=
  (List.pairwise_cons.1 h.apart).1 c hc

theorem Block.at_eq_none (h : ¬ (b.offset_ ≤ i ∧ i < b.finish)) : b.at i = none := if_neg h

theorem Block.at_eq (h : b.offset_ ≤ i ∧ i < b.finish) : b.at i = b.data_[i - b.offset_]? :=
  if_pos h

theorem lookup_eq_none (h : ∀ b ∈ blocks, i < b.offset_) : lookup blocks i = none := by
  induction blocks with
  | nil => rfl
  | cons b blocks ih =>
    have hb := h b (by simp)
    rw [lookup, Block.at_eq_none (by omega), ih fun c hc => h c (by simp [hc])]
    rfl

theorem lookup_eq_none_of_finish_le (h : ∀ b ∈ blocks, b.finish ≤ i) : lookup blocks i = none := by
  induction blocks with
  | nil => rfl
  | cons b blocks ih =>
    have hb := h b (by simp)
    rw [lookup, Block.at_eq_none (by omega), ih fun c hc => h c (by simp [hc])]
    rfl

theorem lookup_append (before after : List (Block α)) :
    lookup (before ++ after) i = (lookup before i).or (lookup after i) := by
  induction before with
  | nil => rfl
  | cons b before ih => rw [List.cons_append, lookup, lookup, ih, Option.or_assoc]

theorem Ordered.get (T : ElemType α) (h : Ordered blocks) (i : Nat) :
    get T i blocks = .ok ((lookup blocks i).getD (some T.default)) := by
  induction blocks with
  | nil => rfl
  | cons b blocks ih =>
    have hlength := h.head.length
    rw [SparseArray.get, lookup]
    by_cases hin : b.offset_ ≤ i ∧ i < b.finish
    · have hlt : i - b.offset_ < b.data_.length := by
        simp only [Block.finish] at hin
        omega
      rw [if_pos ⟨hin.1, hin.2⟩, Block.at_eq hin, load, List.getElem?_eq_getElem hlt]
      rfl
    · rw [if_neg (fun hc => hin ⟨hc.1, hc.2⟩), Block.at_eq_none hin, Option.none_or]
      split
      · -- the later blocks start behind this one
        rw [lookup_eq_none]
        · rfl
        · intro c hc
          have := h.le hc
          simp only [Block.finish] at this
          omega
      · exact ih h.tail

/-! ### The loops of allocate -/

theorem length_realloc (data : List (Option α)) (n : Nat) : (realloc data n).length = n := by
  simp only [realloc, List.length_append, List.length_take, List.length_replicate]
  omega

theorem getElem?_realloc {data : List (Option α)} {n j : Nat} (hj : j < data.length)
    (hn : j < n) : (realloc data n)[j]? = data[j]? := by
  rw [realloc, List.getElem?_append_left (by simp; omega), List.getElem?_take, if_pos hn]

theorem copy_ok (src : List (Option α)) (offset n : Nat) :
    ∀ (i : Nat) (dest : List (Option α)), i + n ≤ src.length → offset + i + n ≤ dest.length →
      ∃ dest', copy src offset i n dest = .ok dest' ∧ dest'.length = dest.length ∧
        ∀ j, dest'[j]? =
          if offset + i ≤ j ∧ j < offset + i + n then src[j - offset]? else dest[j]? := by
  induction n with
  | zero =>
    intro i dest _ _
    refine ⟨dest, rfl, rfl, fun j => ?_⟩
    rw [if_neg (by omega)]
  | succ n ih =>
    intro i dest hsrc hdest
    have hi : i < src.length := by omega
    obtain ⟨dest', hcopy, hlength, hget⟩ := ih (i + 1)
      (dest.set (offset + i) src[i]) (by omega) (by simp only [List.length_set]; omega)
    refine ⟨dest', ?_, by simpa using hlength, fun j => ?_⟩
    · simp [copy, load, store, List.getElem?_eq_getElem hi, hcopy,
        show offset + i < dest.length by omega]
    · rw [hget]
      by_cases hfirst : j = offset + i
      · -- the element of the first round, which the later ones leave alone
        subst hfirst
        rw [if_neg (by omega), if_pos (by omega), List.getElem?_set_self (by omega),
          Nat.add_sub_cancel_left, List.getElem?_eq_getElem hi]
      · rw [List.getElem?_set_ne (Ne.symm hfirst)]
        by_cases hin : offset + (i + 1) ≤ j ∧ j < offset + (i + 1) + n
        · rw [if_pos hin, if_pos (by omega)]
        · rw [if_neg hin, if_neg (by omega)]

theorem copy_fault (src : List (Option α)) (offset n : Nat) :
    ∀ (i : Nat) (dest : List (Option α)), 0 < n → i + n ≤ src.length →
      dest.length < offset + i + n → copy src offset i n dest = .error .outOfBounds := by
  induction n with
  | zero =>
    intro i dest hn
    omega
  | succ n ih =>
    intro i dest _ hsrc hdest
    have hi : i < src.length := by omega
    simp only [copy, load, List.getElem?_eq_getElem hi, pure_eq_ok, ok_bind, store]
    split
    · -- this element still fits, so there is another round
      rename_i hfits
      exact ih (i + 1) _ (by omega) (by omega) (by simp only [List.length_set]; omega)
    · rfl

/-- Where the first loop ends: the blocks stepped over end by `offset`, and no other branch
    is left. -/
theorem Laid.search (h : Laid blocks) (offset size : Nat) :
    ∃ before found, search offset size blocks = .ok (before, found) ∧
      (∀ b ∈ before, b.finish ≤ offset) ∧
      match found with
      | .contained itr rest =>
        blocks = before ++ itr :: rest ∧ itr.offset_ ≤ offset ∧ offset + size ≤ itr.finish ∧
          offset < itr.finish
      | .merge itr rest =>
        blocks = before ++ itr :: rest ∧ itr.offset_ ≤ offset ∧ offset < itr.finish ∧
          itr.finish < offset + size
      | .insert rest => blocks = before ++ rest ∧ ∀ b ∈ rest, offset < b.offset_ := by
  induction blocks with
  | nil => exact ⟨[], .insert [], rfl, by simp, rfl, by simp⟩
  | cons b blocks ih =>
    rw [SparseArray.search]
    by_cases hbefore : b.offset_ + b.size_ ≤ offset
    · obtain ⟨before, found, hsearch, hle, hfound⟩ := ih h.tail
      refine ⟨b :: before, found, by simp [hbefore, hsearch], ?_, ?_⟩
      · intro c hc
        rcases List.mem_cons.1 hc with rfl | hc
        · exact hbefore
        · exact hle c hc
      · cases found with
        | contained itr rest => exact ⟨by rw [hfound.1]; rfl, hfound.2⟩
        | merge itr rest => exact ⟨by rw [hfound.1]; rfl, hfound.2⟩
        | insert rest => exact ⟨by rw [hfound.1]; rfl, hfound.2⟩
    · rw [if_neg hbefore]
      by_cases hstarts : b.offset_ ≤ offset
      · by_cases hroom : b.offset_ + b.size_ ≥ offset + size
        · rw [if_pos ⟨hstarts, hroom⟩]
          exact ⟨[], .contained b blocks, rfl, by simp, rfl, hstarts, hroom, by
            simp only [Block.finish]
            omega⟩
        · rw [if_neg (fun hc => hroom hc.2), if_pos ⟨hstarts, by omega, by omega⟩]
          exact ⟨[], .merge b blocks, rfl, by simp, rfl, hstarts, by
            simp only [Block.finish]
            omega, by
            simp only [Block.finish]
            omega⟩
      · rw [if_neg (fun hc => hstarts hc.1), if_neg (fun hc => hstarts hc.1),
          if_pos (by omega)]
        refine ⟨[], .insert (b :: blocks), rfl, by simp, rfl, ?_⟩
        intro c hc
        rcases List.mem_cons.1 hc with rfl | hc
        · omega
        · have := h.le hc
          simp only [Block.finish] at this
          omega

private theorem copy_tail {tail : Block α} (data : List (Option α))
    (hfit : tail.data_.length = tail.size_)
    (hstart : itr.offset_ ≤ tail.offset_) (hle : tail.offset_ ≤ itr.finish)
    (hlength : itr.data_.length = itr.size_)
    (hdata : data.length = max itr.finish tail.finish - itr.offset_)
    (hkept : ∀ j < itr.size_, data[j]? = itr.data_[j]?) :
    ∃ data', copy tail.data_ (tail.offset_ - itr.offset_) 0 tail.size_ data = .ok data' ∧
      data'.length = data.length ∧
      ∀ i, Block.at ⟨itr.offset_, data.length, data'⟩ i = (tail.at i).or (itr.at i) := by
  simp only [Block.finish] at hle hdata
  obtain ⟨data', hcopy, hlength', hget⟩ := copy_ok tail.data_
    (tail.offset_ - itr.offset_) tail.size_ 0 data (by omega) (by omega)
  refine ⟨data', hcopy, hlength', fun i => ?_⟩
  have hout : ¬ (itr.offset_ ≤ i ∧ i < itr.offset_ + data.length) →
      Block.at ⟨itr.offset_, data.length, data'⟩ i = none := fun h => if_neg h
  have hin : itr.offset_ ≤ i ∧ i < itr.offset_ + data.length →
      Block.at ⟨itr.offset_, data.length, data'⟩ i = data'[i - itr.offset_]? := fun h => if_pos h
  by_cases htailAt : tail.offset_ ≤ i ∧ i < tail.offset_ + tail.size_
  · have hlt : i - tail.offset_ < tail.data_.length := by omega
    rw [Block.at_eq htailAt, hin (by omega), hget, if_pos (by omega),
      show i - itr.offset_ - (tail.offset_ - itr.offset_) = i - tail.offset_ by omega,
      List.getElem?_eq_getElem hlt]
    rfl
  · rw [Block.at_eq_none htailAt, Option.none_or]
    by_cases hitrAt : itr.offset_ ≤ i ∧ i < itr.offset_ + itr.size_
    · rw [Block.at_eq hitrAt, hin (by omega), hget, if_neg (by omega)]
      exact hkept _ (by omega)
    · rw [Block.at_eq_none hitrAt, hout (by omega)]

/-- The second loop, where the elements are bytes or no block reaches out of `itr`: `itr`
    comes to hold what the blocks it has taken in hold, and otherwise what it held. -/
theorem absorb_ok (T : ElemType α) {rest : List (Block α)} (hrest : Laid rest) :
    ∀ itr : Block α, itr.data_.length = itr.size_ → (∀ b ∈ rest, itr.offset_ ≤ b.offset_) →
      (T.sizeof = 1 ∨ ∀ b ∈ rest, b.offset_ ≤ itr.finish → b.finish ≤ itr.finish) →
      ∃ itr' rest', absorb T itr rest = .ok (itr', rest') ∧ itr'.offset_ = itr.offset_ ∧
        itr.finish ≤ itr'.finish ∧ itr'.data_.length = itr'.size_ ∧ rest' <:+ rest ∧
        (∀ b ∈ rest', itr'.finish < b.offset_) ∧
        ∀ i, lookup (itr' :: rest') i = (lookup rest i).or (itr.at i) := by
  induction rest with
  | nil =>
    intro itr hlength _ _
    exact ⟨itr, [], rfl, rfl, Nat.le_refl _, hlength, List.suffix_rfl, by simp, fun i => by
      simp [lookup]⟩
  | cons tail rest ih =>
    intro itr hlength hstart hroom
    have htail := hrest.length tail (by simp)
    have hstartTail := hstart tail (by simp)
    -- what lies behind `tail` has nothing where `tail` has something
    have hswap : ∀ i, (lookup rest i).or ((tail.at i).or (itr.at i)) =
        (lookup (tail :: rest) i).or (itr.at i) := by
      intro i
      by_cases hin : tail.offset_ ≤ i ∧ i < tail.finish
      · have hnone : lookup rest i = none := lookup_eq_none fun b hb => by
          have := hrest.le hb
          omega
        simp [lookup, hnone]
      · simp [lookup, Block.at_eq_none hin]
    rw [absorb]
    by_cases hpast : tail.offset_ > itr.offset_ + itr.size_
    · rw [if_pos hpast]
      refine ⟨itr, tail :: rest, rfl, rfl, Nat.le_refl _, hlength, List.suffix_rfl, ?_, fun i => ?_⟩
      · intro b hb
        rcases List.mem_cons.1 hb with rfl | hb
        · exact hpast
        · have := hrest.le hb
          simp only [Block.finish] at this ⊢
          omega
      · by_cases hin : itr.offset_ ≤ i ∧ i < itr.finish
        · have hnone : lookup (tail :: rest) i = none := lookup_eq_none fun b hb => by
            rcases List.mem_cons.1 hb with rfl | hb
            · simp only [Block.finish] at hin
              omega
            · have := hrest.le hb
              simp only [Block.finish] at hin this
              omega
          rw [lookup, hnone]
          simp
        · rw [lookup, Block.at_eq_none hin]
          simp
    · rw [if_neg hpast]
      have hle : tail.offset_ ≤ itr.finish := by
        simp only [Block.finish]
        omega
      by_cases hinside : tail.offset_ + tail.size_ ≤ itr.offset_ + itr.size_
      · -- case 1: the memory of `itr` is large enough
        rw [if_pos ⟨hle, hinside⟩]
        obtain ⟨data', hcopy, hlength', hat⟩ := copy_tail itr.data_ htail hstartTail
          hle hlength (by simp only [Block.finish]; omega) (fun _ _ => rfl)
        rw [hlength] at hlength' hat
        obtain ⟨itr', rest', habsorb, hoffset, hfinish, hlength'', hsuffix, hbehind, hlookup⟩ :=
          ih hrest.tail { itr with data_ := data' } hlength'
            (fun b hb => hstart b (by simp [hb]))
            (hroom.imp_right fun hroom b hb => hroom b (by simp [hb]))
        refine ⟨itr', rest', by simp [hcopy, habsorb], hoffset, hfinish, hlength'',
          hsuffix.trans (List.suffix_cons _ _), hbehind, fun i => ?_⟩
        rw [hlookup i, ← hswap i, ← hat i]
      · -- case 2: only with elements of one byte
        have hbyte : T.sizeof = 1 :=
          hroom.resolve_right fun hroom => hinside (hroom tail (by simp) hle)
        have hle' : tail.offset_ ≤ itr.offset_ + itr.size_ := hle
        rw [if_neg (fun hc => hinside hc.2), if_pos hle', hbyte]
        simp only [Nat.div_one]
        obtain ⟨data', hcopy, hlength', hat⟩ := copy_tail
          (realloc itr.data_ (tail.offset_ + tail.size_ - itr.offset_)) htail hstartTail hle hlength
          (by rw [length_realloc]; simp only [Block.finish]; omega)
          (fun j hj => getElem?_realloc (by omega) (by simp only [Block.finish] at hle; omega))
        rw [length_realloc] at hlength' hat
        obtain ⟨itr', rest', habsorb, hoffset, hfinish, hlength'', hsuffix, hbehind, hlookup⟩ :=
          ih hrest.tail
            ⟨itr.offset_, tail.offset_ + tail.size_ - itr.offset_, data'⟩ hlength'
            (fun b hb => hstart b (by simp [hb])) (.inl hbyte)
        refine ⟨itr', rest', by simp [hcopy, habsorb], hoffset, ?_, hlength'',
          hsuffix.trans (List.suffix_cons _ _), hbehind, fun i => ?_⟩
        · simp only [Block.finish] at hfinish ⊢
          omega
        · rw [hlookup i, ← hswap i, ← hat i]

/-- The second loop, where the elements are larger and a block reaches out of `itr`. -/
theorem absorb_fault {T : ElemType α} (hsizeof : T.sizeof ≠ 1) {rest : List (Block α)}
    (hrest : Laid rest) :
    ∀ itr : Block α, itr.data_.length = itr.size_ → (∀ b ∈ rest, itr.offset_ ≤ b.offset_) →
      (∃ b ∈ rest, b.offset_ ≤ itr.finish ∧ itr.finish < b.finish) →
      absorb T itr rest = .error .outOfBounds := by
  induction rest with
  | nil =>
    rintro itr _ _ ⟨b, hb, -⟩
    simp at hb
  | cons tail rest ih =>
    intro itr hlength hstart ⟨b, hb, hreach, hout⟩
    have htail := hrest.length tail (by simp)
    have hstartTail := hstart tail (by simp)
    have hle : tail.offset_ ≤ itr.finish := by
      rcases List.mem_cons.1 hb with rfl | hb
      · exact hreach
      · have := hrest.le hb
        simp only [Block.finish] at this hreach ⊢
        omega
    rw [absorb, if_neg (by simp only [Block.finish] at hle; omega)]
    by_cases hinside : tail.offset_ + tail.size_ ≤ itr.offset_ + itr.size_
    · rw [if_pos ⟨hle, hinside⟩]
      obtain ⟨data', hcopy, hlength', -⟩ := copy_tail itr.data_ htail hstartTail
        hle hlength (by simp only [Block.finish]; omega) (fun _ _ => rfl)
      -- so it is a later block that reaches out
      have hb : b ∈ rest := by
        rcases List.mem_cons.1 hb with rfl | hb
        · simp only [Block.finish] at hout
          omega
        · exact hb
      have := ih hrest.tail { itr with data_ := data' } (hlength'.trans hlength)
        (fun c hc => hstart c (by simp [hc])) ⟨b, hb, hreach, hout⟩
      simp [hcopy, this]
    · have hle' : tail.offset_ ≤ itr.offset_ + itr.size_ := hle
      rw [if_neg (fun hc => hinside hc.2), if_pos hle']
      have hdiv : (tail.offset_ + tail.size_ - itr.offset_) / T.sizeof <
          tail.offset_ + tail.size_ - itr.offset_ := by
        rcases Nat.eq_zero_or_pos T.sizeof with hzero | hpos
        · rw [hzero, Nat.div_zero]
          omega
        · exact Nat.div_lt_self (by omega) (by omega)
      have hcopy := copy_fault tail.data_ (tail.offset_ - itr.offset_) tail.size_ 0
        (realloc itr.data_ ((tail.offset_ + tail.size_ - itr.offset_) / T.sizeof))
        (by simp only [Block.finish] at hle; omega) (by omega) (by rw [length_realloc]; omega)
      simp [hcopy]

/-! ### range_write -/

def Contained (blocks : List (Block α)) (offset size : Nat) : Prop :=
  ∃ b ∈ blocks, b.offset_ ≤ offset ∧ offset + size ≤ b.finish

/-- No later block that the write reaches goes on behind its end. -/
def Swallows (blocks : List (Block α)) (offset size : Nat) : Prop :=
  ∀ b ∈ blocks, offset < b.offset_ → b.offset_ ≤ offset + size → b.finish ≤ offset + size

/-- A write that does not take the branch with the wrong size. -/
def Grows (T : ElemType α) (blocks : List (Block α)) (offset size : Nat) : Prop :=
  T.sizeof = 1 ∨ Contained blocks offset size ∨ Swallows blocks offset size

private theorem copy_vals {vals : List α} {offset : Nat} (hlength : itr.data_.length = itr.size_)
    (hstart : itr.offset_ ≤ offset) (hroom : offset + vals.length ≤ itr.finish) :
    ∃ data, copy (vals.map some) (offset - itr.offset_) 0 vals.length itr.data_ = .ok data ∧
      data.length = itr.size_ ∧
      ∀ i, Block.at { itr with data_ := data } i =
        if offset ≤ i ∧ i < offset + vals.length then (vals[i - offset]?).map some
        else itr.at i := by
  simp only [Block.finish] at hroom
  obtain ⟨data, hcopy, hlength', hget⟩ := copy_ok (vals.map some)
    (offset - itr.offset_) vals.length 0 itr.data_ (by simp) (by omega)
  refine ⟨data, hcopy, hlength'.trans hlength, fun i => ?_⟩
  have hout : ¬ (itr.offset_ ≤ i ∧ i < itr.offset_ + itr.size_) →
      Block.at { itr with data_ := data } i = none := fun h => if_neg h
  have hin : itr.offset_ ≤ i ∧ i < itr.offset_ + itr.size_ →
      Block.at { itr with data_ := data } i = data[i - itr.offset_]? := fun h => if_pos h
  by_cases hitrAt : itr.offset_ ≤ i ∧ i < itr.offset_ + itr.size_
  · rw [Block.at_eq hitrAt, hin hitrAt, hget]
    by_cases hwritten : offset ≤ i ∧ i < offset + vals.length
    · rw [if_pos hwritten, if_pos (by omega),
        show i - itr.offset_ - (offset - itr.offset_) = i - offset by omega, List.getElem?_map]
    · rw [if_neg hwritten, if_neg (by omega)]
  · rw [Block.at_eq_none hitrAt, hout hitrAt, if_neg (by omega)]

theorem laid_append {before after : List (Block α)} :
    Laid (before ++ after) ↔
      Laid before ∧ Laid after ∧ ∀ a ∈ before, ∀ b ∈ after, a.finish ≤ b.offset_ := by
  constructor
  · intro h
    obtain ⟨hbefore, hafter, hle⟩ := List.pairwise_append.1 h.apart
    exact ⟨⟨fun b hb => h.length b (by simp [hb]), hbefore⟩,
      ⟨fun b hb => h.length b (by simp [hb]), hafter⟩, hle⟩
  · rintro ⟨hbefore, hafter, hle⟩
    refine ⟨?_, List.pairwise_append.2 ⟨hbefore.apart, hafter.apart, hle⟩⟩
    intro b hb
    rcases List.mem_append.1 hb with hb | hb
    · exact hbefore.length b hb
    · exact hafter.length b hb

theorem laid_cons :
    Laid (b :: blocks) ↔
      b.data_.length = b.size_ ∧ Laid blocks ∧ ∀ c ∈ blocks, b.finish ≤ c.offset_ := by
  constructor
  · intro h
    exact ⟨h.length b (by simp), h.tail, fun c hc => h.le hc⟩
  · rintro ⟨hb, hblocks, hle⟩
    refine ⟨?_, List.pairwise_cons.2 ⟨hle, hblocks.apart⟩⟩
    intro c hc
    rcases List.mem_cons.1 hc with rfl | hc
    · exact hb
    · exact hblocks.length c hc

private theorem absorb_between (T : ElemType α) (itr : Block α) {before rest : List (Block α)}
    (hbefore : Laid before) (hrest : Laid rest)
    (hlength : itr.data_.length = itr.size_) (hle : ∀ b ∈ before, b.finish ≤ itr.offset_)
    (hstart : ∀ b ∈ rest, itr.offset_ ≤ b.offset_)
    (hroom : T.sizeof = 1 ∨ ∀ b ∈ rest, b.offset_ ≤ itr.finish → b.finish ≤ itr.finish) :
    ∃ itr' rest', absorb T itr rest = .ok (itr', rest') ∧ itr'.offset_ = itr.offset_ ∧
      itr.finish ≤ itr'.finish ∧ rest' <:+ rest ∧ Laid (before ++ itr' :: rest') ∧
      ∀ i, lookup (before ++ itr' :: rest') i =
        (lookup before i).or ((lookup rest i).or (itr.at i)) := by
  obtain ⟨itr', rest', habsorb, hoffset, hfinish, hlength', hsuffix, hbehind, hlookup⟩ :=
    absorb_ok T hrest itr hlength hstart hroom
  refine ⟨itr', rest', habsorb, hoffset, hfinish, hsuffix, ?_, fun i => by
    rw [lookup_append, hlookup]⟩
  have hrest' : Laid rest' :=
    ⟨fun b hb => hrest.length b (hsuffix.mem hb), hrest.apart.sublist hsuffix.sublist⟩
  refine laid_append.2 ⟨hbefore, laid_cons.2 ⟨hlength', hrest', fun c hc => ?_⟩, ?_⟩
  · have := hbehind c hc
    omega
  · intro a ha c hc
    have hla := hle a ha
    rcases List.mem_cons.1 hc with rfl | hc
    · omega
    · have := hbehind c hc
      simp only [Block.finish] at this hfinish hla ⊢
      omega

/-- `allocate` on a write that does not take the branch with the wrong size: it finds a block
    with room for the elements, and outside them nothing has changed. -/
theorem Laid.allocate (T : ElemType α) (h : Laid blocks) {offset size : Nat}
    (hgrows : Grows T blocks offset size) :
    ∃ before itr rest, allocate T blocks offset size = .ok (before, itr, rest) ∧
      Laid (before ++ itr :: rest) ∧ (∀ b ∈ before ++ rest, b ∈ blocks) ∧
      (∀ b ∈ before, b.finish ≤ offset) ∧
      itr.offset_ ≤ offset ∧ offset + size ≤ itr.finish ∧
      ∀ i, ¬ (offset ≤ i ∧ i < offset + size) →
        lookup (before ++ itr :: rest) i = lookup blocks i := by
  obtain ⟨before, found, hsearch, hbefore, hfound⟩ := h.search offset size
  cases found with
  | contained itr rest =>
    obtain ⟨rfl, hstart, hend, -⟩ := hfound
    exact ⟨before, itr, rest, by simp [SparseArray.allocate, hsearch], h, fun b hb => by
      rcases List.mem_append.1 hb with hb | hb <;> simp [hb], hbefore, hstart, hend,
      fun _ _ => rfl⟩
  | merge itr rest =>
    obtain ⟨rfl, hstart, hinside, hout⟩ := hfound
    obtain ⟨hordered, hitr, hle⟩ := laid_append.1 h
    obtain ⟨hlength, hrest, hbehind⟩ := laid_cons.1 hitr
    -- `itr` reaches up to the end of the write, and what it held stays where it was
    have hat : ∀ i, ¬ (offset ≤ i ∧ i < offset + size) →
        Block.at ⟨itr.offset_, offset + size - itr.offset_,
          realloc itr.data_ (offset + size - itr.offset_)⟩ i = itr.at i := by
      intro i hi
      simp only [Block.finish] at hinside hout
      by_cases hin : itr.offset_ ≤ i ∧ i < itr.offset_ + itr.size_
      · rw [Block.at_eq hin, ← getElem?_realloc (n := offset + size - itr.offset_) (by omega)
          (by omega)]
        exact if_pos ⟨hin.1, by simp only [Block.finish]; omega⟩
      · rw [Block.at_eq_none hin]
        exact if_neg (by simp only [Block.finish]; omega)
    obtain ⟨itr', rest', habsorb, hoffset, hfinish, hsuffix, hordered', hlookup⟩ :=
      absorb_between T ⟨itr.offset_, offset + size - itr.offset_,
          realloc itr.data_ (offset + size - itr.offset_)⟩ hordered hrest (length_realloc ..)
        (fun b hb => hle b hb itr (by simp)) (fun b hb => by
          have := hbehind b hb
          simp only [Block.finish] at this ⊢
          omega) (by
        rcases hgrows with hbyte | ⟨c, hc, hcstart, hcend⟩ | hswallows
        · exact .inl hbyte
        · -- the write is not inside a block
          exfalso
          rcases List.mem_append.1 hc with hc | hc
          · have := hbefore c hc
            omega
          · rcases List.mem_cons.1 hc with rfl | hc
            · omega
            · have := hbehind c hc
              omega
        · refine .inr fun b hb hreach => ?_
          have := hbehind b hb
          simp only [Block.finish] at hreach
          have := hswallows b (by simp [hb]) (by omega) (by omega)
          simp only [Block.finish] at this ⊢
          omega)
    simp only [Block.finish] at hfinish
    refine ⟨before, itr', rest', by simp [SparseArray.allocate, hsearch, habsorb], hordered',
      fun b hb => ?_, hbefore, by simp only at hoffset; omega, by
      simp only [Block.finish]; omega, fun i hi => ?_⟩
    · rcases List.mem_append.1 hb with hb | hb
      · simp [hb]
      · simp [hsuffix.mem hb]
    rw [hlookup, hat i hi, lookup_append, lookup]
    by_cases hin : itr.offset_ ≤ i ∧ i < itr.finish
    · have hnone : lookup rest i = none := lookup_eq_none fun b hb => by
        have := hbehind b hb
        omega
      simp [hnone]
    · simp [Block.at_eq_none hin]
  | insert rest =>
    obtain ⟨rfl, hstart⟩ := hfound
    obtain ⟨hordered, hrest, hle⟩ := laid_append.1 h
    obtain ⟨itr', rest', habsorb, hoffset, hfinish, hsuffix, hordered', hlookup⟩ :=
      absorb_between T (.new T offset size) hordered hrest (List.length_replicate ..)
        hbefore (fun b hb => Nat.le_of_lt (hstart b hb)) (by
        rcases hgrows with hbyte | ⟨c, hc, hcstart, hcend⟩ | hswallows
        · exact .inl hbyte
        · -- only a write of nothing is inside a block that ends in front of it
          have hempty : size = 0 := by
            rcases List.mem_append.1 hc with hc | hc
            · have := hbefore c hc
              omega
            · have := hstart c hc
              omega
          refine .inr fun b hb hreach => ?_
          have := hstart b hb
          simp only [Block.new, Block.finish] at hreach
          omega
        · exact .inr fun b hb hreach => hswallows b (by simp [hb]) (hstart b hb) hreach)
    refine ⟨before, itr', rest', by simp [SparseArray.allocate, hsearch, habsorb], hordered',
      fun b hb => ?_, hbefore, Nat.le_of_eq hoffset, hfinish, fun i hi => ?_⟩
    · rcases List.mem_append.1 hb with hb | hb
      · simp [hb]
      · simp [hsuffix.mem hb]
    rw [hlookup, lookup_append, Block.at_eq_none (b := .new T offset size) hi, Option.or_none]

/-- The effect of `range_write`. A block is one that was there, or the one written to. -/
theorem Laid.rangeWrite (T : ElemType α) (h : Laid blocks) {offset : Nat} {vals : List α}
    (hgrows : Grows T blocks offset vals.length) :
    ∃ blocks', rangeWrite T blocks offset vals = .ok blocks' ∧ Laid blocks' ∧
      (∀ b ∈ blocks', b ∈ blocks ∨ b.offset_ ≤ offset ∧ offset + vals.length ≤ b.finish) ∧
      ∀ i, lookup blocks' i =
        if offset ≤ i ∧ i < offset + vals.length then (vals[i - offset]?).map some
        else lookup blocks i := by
  obtain ⟨before, itr, rest, hallocate, hlaid, hold, hbefore, hstart, hend, hlookup⟩ :=
    h.allocate T hgrows
  obtain ⟨hlaid₁, hlaid₂, hle⟩ := laid_append.1 hlaid
  obtain ⟨hlength, hrest, hbehind⟩ := laid_cons.1 hlaid₂
  obtain ⟨data, hcopy, hlength', hat⟩ := copy_vals hlength hstart hend
  refine ⟨before ++ { itr with data_ := data } :: rest, by
    simp [SparseArray.rangeWrite, hallocate, hcopy], ?_, fun b hb => ?_, fun i => ?_⟩
  · -- the block has the same place as before
    refine laid_append.2 ⟨hlaid₁, laid_cons.2 ⟨hlength', hrest, hbehind⟩, ?_⟩
    intro a ha c hc
    rcases List.mem_cons.1 hc with rfl | hc
    · exact hle a ha itr (by simp)
    · exact hle a ha c (by simp [hc])
  · rcases List.mem_append.1 hb with hb | hb
    · exact .inl (hold b (by simp [hb]))
    · rcases List.mem_cons.1 hb with rfl | hb
      · exact .inr ⟨hstart, hend⟩
      · exact .inl (hold b (by simp [hb]))
  · rw [lookup_append, lookup, hat]
    by_cases hin : offset ≤ i ∧ i < offset + vals.length
    · have hlt : i - offset < vals.length := by omega
      rw [if_pos hin, if_pos hin, lookup_eq_none_of_finish_le fun b hb => by
        have := hbefore b hb
        omega, List.getElem?_eq_getElem hlt]
      rfl
    · rw [if_neg hin, if_neg hin, ← hlookup i hin, lookup_append, lookup]

theorem Ordered.rangeWrite (T : ElemType α) (h : Ordered blocks) {offset : Nat} {vals : List α}
    (hpos : 0 < vals.length) (hgrows : Grows T blocks offset vals.length) :
    ∃ blocks', rangeWrite T blocks offset vals = .ok blocks' ∧ Ordered blocks' ∧
      ∀ i, lookup blocks' i =
        if offset ≤ i ∧ i < offset + vals.length then (vals[i - offset]?).map some
        else lookup blocks i := by
  obtain ⟨blocks', hwrite, hlaid, hblocks', hlookup⟩ := h.laid.rangeWrite T hgrows
  refine ⟨blocks', hwrite, ⟨fun b hb => ⟨?_, hlaid.length b hb⟩, hlaid.apart⟩, hlookup⟩
  rcases hblocks' b hb with hold | ⟨hstart, hend⟩
  · exact (h.sound b hold).pos
  · simp only [Block.finish] at hend
    omega

/-- A write that takes the branch with the wrong size goes on behind the memory that `realloc`
    has left. -/
theorem Laid.rangeWrite_fault {T : ElemType α} (h : Laid blocks) {offset : Nat} {vals : List α}
    (hgrows : ¬ Grows T blocks offset vals.length) :
    SparseArray.rangeWrite T blocks offset vals = .error .outOfBounds := by
  simp only [Grows, not_or] at hgrows
  obtain ⟨hsizeof, hcontained, hswallows⟩ := hgrows
  simp only [Swallows, not_forall, Nat.not_le] at hswallows
  obtain ⟨b, hb, hstart, hreach, hout⟩ := hswallows
  obtain ⟨before, found, hsearch, hbefore, hfound⟩ := h.search offset vals.length
  have hnotBefore : b ∉ before := fun hc => by
    have := hbefore b hc
    simp only [Block.finish] at this
    omega
  cases found with
  | contained itr rest =>
    obtain ⟨rfl, hitr, hend, -⟩ := hfound
    exact absurd ⟨itr, by simp, hitr, hend⟩ hcontained
  | merge itr rest =>
    obtain ⟨rfl, hitr, -, -⟩ := hfound
    obtain ⟨-, hordered, -⟩ := laid_append.1 h
    obtain ⟨hsound, hrest, hbehind⟩ := laid_cons.1 hordered
    have hbrest : b ∈ rest := by
      have : b ≠ itr := by
        rintro rfl
        omega
      simpa [hnotBefore, this] using hb
    have hfault := absorb_fault hsizeof hrest
      ⟨itr.offset_, offset + vals.length - itr.offset_,
        realloc itr.data_ (offset + vals.length - itr.offset_)⟩ (length_realloc ..)
      (fun c hc => by
        have := hbehind c hc
        simp only [Block.finish] at this ⊢
        omega) ⟨b, hbrest, by simp only [Block.finish]; omega, by
        simp only [Block.finish] at hout ⊢
        omega⟩
    simp [SparseArray.rangeWrite, SparseArray.allocate, hsearch, hfault]
  | insert rest =>
    obtain ⟨rfl, hbehind⟩ := hfound
    obtain ⟨-, hrest, -⟩ := laid_append.1 h
    have hbrest : b ∈ rest := by simpa [hnotBefore] using hb
    have hfault := absorb_fault hsizeof hrest (.new T offset vals.length)
      (List.length_replicate ..) (fun c hc => Nat.le_of_lt (hbehind c hc)) ⟨b, hbrest, hreach, hout⟩
    simp [SparseArray.rangeWrite, SparseArray.allocate, hsearch, hfault]

/-! ### Runs -/

/-- What an array is in a state: a read gives the value written last, or the default; the
    blocks are in order and apart; the size is the end of the last of them; and a write that
    `ok` allows goes through, so that it does not get to `NOTREACHED`. -/
structure IsArray (T : ElemType α) (ok : State α → Nat × List α → Prop) (s : State α) : Prop where
  read : ∀ i, get T i s.blocks_ = .ok (some ((s.written i).getD T.default))
  sorted : s.blocks_.Pairwise fun a b => a.offset_ < b.offset_
  disjoint : s.blocks_.Pairwise fun a b => a.offset_ + a.size_ ≤ b.offset_
  size_last : ∀ b, s.blocks_.getLast? = some b → size s.blocks_ = b.offset_ + b.size_
  size_end : ∀ i, (s.written i).isSome → i < size s.blocks_
  write : ∀ a, ok s a → ∃ blocks', rangeWrite T s.blocks_ a.1 a.2 = .ok blocks'

def Admissible (_ : State α) (a : Nat × List α) : Prop :=
  a.2 ≠ [] ∧ a.1 + a.2.length < 2 ^ 64 - 1

/-- Elements are bytes, or the write is inside a block, or no later block that it reaches goes
    on behind its end. -/
def Careful (T : ElemType α) (s : State α) (a : Nat × List α) : Prop :=
  Admissible s a ∧ Grows T s.blocks_ a.1 a.2.length

/-- What holds between any two writes. -/
structure Inv (s : State α) : Prop where
  ordered : Ordered s.blocks_
  written : ∀ i, lookup s.blocks_ i = (s.written i).map some

theorem inv_new : Inv ⟨([] : List (Block α)), fun _ => none⟩ :=
  ⟨⟨by simp, .nil⟩, fun _ => rfl⟩

variable {T : ElemType α} {s s' : State α} {a : Nat × List α}

theorem Inv.step (h : Inv s) (hcareful : Careful T s a) (hstep : (system T).step s a s') :
    Inv s' := by
  obtain ⟨hwrite, hwritten⟩ := hstep
  obtain ⟨⟨hne, -⟩, hgrows⟩ := hcareful
  obtain ⟨blocks', hwrite', hordered, hlookup⟩ :=
    h.ordered.rangeWrite T (List.length_pos_iff.2 hne) hgrows
  obtain rfl : blocks' = s'.blocks_ := Except.ok.inj (hwrite'.symm.trans hwrite)
  refine ⟨hordered, fun i => ?_⟩
  rw [hlookup, hwritten, overwrite, h.written]
  split <;> rfl

theorem Ordered.finish_le_size (h : Ordered blocks) {b : Block α} (hb : b ∈ blocks) :
    b.finish ≤ size blocks := by
  induction blocks generalizing b with
  | nil => simp at hb
  | cons c blocks ih =>
    cases blocks with
    | nil =>
      obtain rfl := List.mem_singleton.1 hb
      exact Nat.le_refl _
    | cons d blocks =>
      have hsize : size (c :: d :: blocks) = size (d :: blocks) := by
        simp [size, List.getLast?_cons_cons]
      rw [hsize]
      rcases List.mem_cons.1 hb with rfl | hb
      · have hle := h.le (c := d) (by simp)
        have := ih h.tail (b := d) (by simp)
        simp only [Block.finish] at this hle ⊢
        omega
      · exact ih h.tail hb

theorem exists_of_lookup (h : (lookup blocks i).isSome) : ∃ b ∈ blocks, i < b.finish := by
  by_contra hno
  simp only [not_exists, not_and, Nat.not_lt] at hno
  rw [lookup_eq_none_of_finish_le hno] at h
  simp at h

theorem Inv.isArray (h : Inv s) : IsArray T (Careful T) s where
  read i := by
    rw [h.ordered.get, h.written]
    cases s.written i <;> rfl
  sorted := h.ordered.apart.imp_of_mem fun ha _ hle => by
    have := (h.ordered.sound _ ha).pos
    simp only [Block.finish] at hle
    omega
  disjoint := h.ordered.apart
  size_last b hb := by simp [size, hb]
  size_end i hi := by
    have hlookup : (lookup s.blocks_ i).isSome := by
      rw [h.written]
      simpa using hi
    obtain ⟨b, hb, hlt⟩ := exists_of_lookup hlookup
    exact Nat.lt_of_lt_of_le hlt (h.ordered.finish_le_size hb)
  write a hcareful := by
    obtain ⟨blocks', hwrite, -⟩ :=
      h.ordered.rangeWrite T (List.length_pos_iff.2 hcareful.1.1) hcareful.2
    exact ⟨blocks', hwrite⟩

/-- In every run whose writes are careful, of any length. -/
theorem isArray_of_careful (T : ElemType α) {s : State α}
    (hs : (system T).ReachableWith (Careful T) s) : IsArray T (Careful T) s := by
  have hinv : Inv s := by
    apply hs.invariant
    · rintro s rfl
      exact inv_new
    · intro s a s' h hcareful hstep
      exact h.step hcareful hstep
  exact hinv.isArray

/-- Elements of four bytes, of which the one with the bytes 0 is the default. -/
private def word : ElemType Nat := { sizeof := 4, zero := 0, default := 0 }

/-- A write of three elements swallows a block of one. -/
theorem isArray_of_careful_word : ∃ s : State Nat, s.blocks_ = [⟨1, 3, [some 7, some 8, some 9]⟩] ∧
    IsArray word (Careful word) s := by
  have hfirst : (system word).ReachableWith (Careful word)
      ⟨[⟨2, 1, [some 5]⟩], overwrite (fun _ => none) 2 [5]⟩ :=
    .step (a := (2, [5])) (.init rfl)
      ⟨⟨by simp, by decide⟩, .inr (.inr fun b hb => by simp at hb)⟩ ⟨rfl, rfl⟩
  have hsecond : (system word).ReachableWith (Careful word)
      ⟨[⟨1, 3, [some 7, some 8, some 9]⟩],
        overwrite (overwrite (fun _ => none) 2 [5]) 1 [7, 8, 9]⟩ := by
    refine .step (a := (1, [7, 8, 9])) hfirst ⟨⟨by simp, by decide⟩, .inr (.inr ?_)⟩ ⟨rfl, rfl⟩
    intro b hb hstart hreach
    obtain rfl := List.mem_singleton.1 hb
    decide
  exact ⟨_, rfl, isArray_of_careful word hsecond⟩

/-- Without the condition the second of two overlapping writes goes on behind the memory of its
    block. -/
theorem not_isArray : ¬ ∀ (α : Type) (T : ElemType α) (s : State α), 0 < T.sizeof →
    (system T).ReachableWith Admissible s → IsArray T Admissible s := by
  intro h
  have hfirst : (system word).ReachableWith Admissible
      ⟨[⟨2, 2, [some 5, some 6]⟩], overwrite (fun _ => none) 2 [5, 6]⟩ :=
    .step (a := (2, [5, 6])) (.init rfl) ⟨by simp, by decide⟩ ⟨rfl, rfl⟩
  obtain ⟨blocks', hwrite⟩ :=
    (h Nat word _ (by decide) hfirst).write (1, [7, 8]) ⟨by simp, by decide⟩
  exact absurd hwrite (by simp [show rangeWrite word [⟨2, 2, [some 5, some 6]⟩] 1 [7, 8] =
    .error .outOfBounds from rfl])

end Oasys.SparseArray

/-!
### SparseArray allocation

Whether a block has memory for all of its elements, over the writes of any run, those of no
elements too. The one `realloc` that is given elements for bytes decides it: a write goes
through, and leaves every block its memory, exactly if it does not get there.
-/

namespace Oasys.SparseArray

variable {α : Type} {T : ElemType α} {s s' : State α} {a : Nat × List α}

/-- The block has memory for all of its elements: what its memory holds are whole elements. -/
def Block.Allocated (b : Block α) : Prop := b.size_ ≤ b.data_.length

/-- The end of the write is one that a `size_t` holds. -/
def Fits (_ : State α) (a : Nat × List α) : Prop := a.1 + a.2.length < 2 ^ 64

theorem Laid.allocated {blocks : List (Block α)} (h : Laid blocks) :
    ∀ b ∈ blocks, b.Allocated :=
  fun b hb => Nat.le_of_eq (h.length b hb).symm

theorem Laid.step (h : Laid s.blocks_) (hstep : (system T).step s a s') : Laid s'.blocks_ := by
  obtain ⟨hwrite, -⟩ := hstep
  by_cases hgrows : Grows T s.blocks_ a.1 a.2.length
  · obtain ⟨blocks', hwrite', hlaid, -⟩ := h.rangeWrite T hgrows
    rw [hwrite'] at hwrite
    exact Except.ok.inj hwrite ▸ hlaid
  · rw [h.rangeWrite_fault hgrows] at hwrite
    simp at hwrite

/-- Between the writes of any run the blocks are laid out one behind the other, each of them
    with memory for its elements and no more. -/
theorem laid_of_reachable {ok : State α → Nat × List α → Prop}
    (hs : (system T).ReachableWith ok s) : Laid s.blocks_ := by
  apply hs.invariant (P := fun s => Laid s.blocks_)
  · rintro s rfl
    exact ⟨by simp, .nil⟩
  · intro s a s' h _ hstep
    exact h.step hstep

/-- A write goes through, with memory for every block behind it, if and only if it does not get
    to the wrong `realloc`; and the blocks it starts from have theirs. -/
theorem allocated_iff_grows (T : ElemType α) {s : State α}
    (hs : (system T).ReachableWith Fits s) :
    (∀ b ∈ s.blocks_, b.Allocated) ∧
      ∀ a, Fits s a → ((∃ blocks', rangeWrite T s.blocks_ a.1 a.2 = .ok blocks' ∧
        ∀ b ∈ blocks', b.Allocated) ↔ Grows T s.blocks_ a.1 a.2.length) := by
  have hlaid := laid_of_reachable hs
  refine ⟨hlaid.allocated, fun a _ => ⟨?_, ?_⟩⟩
  · rintro ⟨blocks', hwrite, -⟩
    by_contra hgrows
    rw [hlaid.rangeWrite_fault hgrows] at hwrite
    simp at hwrite
  · intro hgrows
    obtain ⟨blocks', hwrite, hlaid', -⟩ := hlaid.rangeWrite T hgrows
    exact ⟨blocks', hwrite, hlaid'.allocated⟩

private def fourBytes : ElemType Nat := { sizeof := 4, zero := 0, default := 0 }

private def pairAtFour : State Nat :=
  ⟨[⟨4, 2, [some 5, some 6]⟩], overwrite (fun _ => none) 4 [5, 6]⟩

private theorem reachable_pairAtFour : (system fourBytes).ReachableWith Fits pairAtFour :=
  .step (a := (4, [5, 6])) (.init rfl) (by simp [Fits]) ⟨rfl, rfl⟩

/-- Behind a block of two, a write that swallows it goes through. -/
theorem allocated_iff_grows_pair : ∃ blocks',
    rangeWrite fourBytes pairAtFour.blocks_ 3 [7, 8, 9] = .ok blocks' ∧
      ∀ b ∈ blocks', b.Allocated := by
  refine ((allocated_iff_grows fourBytes reachable_pairAtFour).2 (3, [7, 8, 9])
    (by simp [Fits])).2 (.inr (.inr ?_))
  intro b hb hstart hreach
  obtain rfl := List.mem_singleton.1 hb
  decide

/-- One that ends inside the block does not. -/
theorem not_allocated : ¬ ∀ (α : Type) (T : ElemType α) (s : State α), 0 < T.sizeof →
    (system T).ReachableWith Fits s → ∀ a, Fits s a →
      ∃ blocks', rangeWrite T s.blocks_ a.1 a.2 = .ok blocks' ∧ ∀ b ∈ blocks', b.Allocated := by
  intro h
  obtain ⟨blocks', hwrite, -⟩ :=
    h Nat fourBytes _ (by decide) reachable_pairAtFour (3, [7, 8]) (by simp [Fits])
  have hfault : rangeWrite fourBytes pairAtFour.blocks_ 3 [7, 8] = .error .outOfBounds := rfl
  rw [hfault] at hwrite
  simp at hwrite

end Oasys.SparseArray
