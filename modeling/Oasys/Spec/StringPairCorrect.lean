import Oasys.Serialize.StringPairSerialize

/-!
# StringPair round trip

Which objects `StringPairSerialize::Unmarshal` recovers from the list that `Marshal` makes of
them. Every field is read from the text of the first field with its name, so the list keeps a
field when that text reads as its value; for the first field with a name itself, this is a
condition on the value alone.

## Key results

- `serialize_pushes`: `Marshal` makes a pair of every field, or stops
- `Item.reads_text`: which values read back from their own texts
- `transfer_roundTrips_iff`: an object makes the round trip when every field is kept
-/

namespace Oasys.StringPair

/-! ### What is to be recovered -/

/-- What a pair is made of: a field, or the number of elements of a vector. -/
inductive Item where
  | basic (x : Basic)
  | size (n : Nat)
  deriving DecidableEq, Repr

mutual

/-- The items of a value, in the order they are processed in, with their names. -/
def items (name : List UInt8) : Value → List (List UInt8 × Item)
  | .basic x => [(name, .basic x)]
  | .object fields => fieldItems fields
  | .vector _ elems => (ascii "size", .size elems.length) :: elemItems elems

def fieldItems : NamedObject → List (List UInt8 × Item)
  | [] => []
  | (name, v) :: fields => items name v ++ fieldItems fields

def elemItems : List Value → List (List UInt8 × Item)
  | [] => []
  | e :: elems => items (ascii "element") e ++ elemItems elems

end

/-- A value that was read is the one that was written. A carrier has the same bytes, and one
    with a terminator the same bytes before it. -/
def Basic.Recovers : Basic → Basic → Prop
  | .carrier c', .carrier c =>
    ∃ bytes, readBytes c.buf_ c.len_ = .ok bytes ∧ readBytes c'.buf_ c'.len_ = .ok bytes
  | .terminated c' t', .terminated c t =>
    t' = t ∧ ∃ bytes rest rest', t ∉ bytes ∧ c.buf_ = some (bytes ++ t :: rest) ∧
      c'.buf_ = some (bytes ++ t :: rest') ∧ c'.len_ = bytes.length
  | y, x => y = x

mutual

/-- The same for the fields of an object and the elements of a vector, as many as there
    are. -/
def Recovers : Value → Value → Prop
  | .basic y, .basic x => Basic.Recovers y x
  | .object fields', .object fields => RecoversFields fields' fields
  | .vector _ elems', .vector _ elems => RecoversElems elems' elems
  | _, _ => False

/-- An object. -/
def RecoversFields : NamedObject → NamedObject → Prop
  | [], [] => True
  | (name', v') :: fields', (name, v) :: fields =>
    name' = name ∧ Recovers v' v ∧ RecoversFields fields' fields
  | _, _ => False

def RecoversElems : List Value → List Value → Prop
  | [], [] => True
  | e' :: elems', e :: elems => Recovers e' e ∧ RecoversElems elems' elems
  | _, _ => False

end

/-- The value can be read into one of the same type. -/
def Basic.Matches : Basic → Basic → Prop
  | .int j, .int i => j.kind = i.kind
  | .bool _, .bool _ => True
  | .buf bq, .buf bp => bq.bytes.length = bp.bytes.length
  | .carrier _, .carrier _ => True
  | .terminated _ t', .terminated _ t => t' = t
  | .string _, .string _ => True
  | _, _ => False

mutual

/-- The same for objects with the same fields and for vectors, of which the one that is read
    into has no elements yet. -/
def Matches : Value → Value → Prop
  | .basic y, .basic x => Basic.Matches y x
  | .object fields', .object fields => MatchesFields fields' fields
  | .vector builder elems', .vector _ elems => elems' = [] ∧ ∀ e ∈ elems, Matches builder e
  | _, _ => False

/-- An object. -/
def MatchesFields : NamedObject → NamedObject → Prop
  | [], [] => True
  | (name', v') :: fields', (name, v) :: fields =>
    name' = name ∧ Matches v' v ∧ MatchesFields fields' fields
  | _, _ => False

end

/-- An object, and an object of its type that it is to be read into. -/
structure Transfer where
  source : NamedObject
  target : NamedObject
  matched : MatchesFields target source

/-- The object is marshalled, and from the list unmarshalled with every field as it was. -/
def Transfer.RoundTrips (x : Transfer) : Prop :=
  ∃ rep_ o, StringPairMarshal.action x.source = .ok (0, rep_, o) ∧
    ∃ r, StringPairUnmarshal.action rep_ x.target = .ok (0, r) ∧ RecoversFields r x.source

/-! ### What the list keeps -/

/-- The text of an item. -/
def Item.text : Item → List UInt8
  | .basic (.int i) => StringPairMarshal.formatInt i
  | .basic (.bool b) => ascii (if b then "TRUE" else "FALSE")
  | .basic (.string s) => s
  | .basic (.buf bp) => hex2str bp.bytes
  | .basic (.carrier c) => hex2str ((readBytes c.buf_ c.len_).toOption.getD [])
  | .basic (.terminated c t) =>
    -- `strchr` does not look behind a zero
    let bytes := (c.buf_.getD []).takeWhile (· ≠ t)
    if 0 ∈ bytes then [] else hex2str bytes
  | .size n => StringPairMarshal.formatInt (.size n)

/-- The value is one that its own text keeps: integers of 64 bits are below `2 ^ 63` and not
    negative, strings hold no zero, and carriers are empty. -/
def Item.Kept : Item → Prop
  | .basic (.int i) => 0 ≤ i.val ∧ i.val < 2 ^ 63 ∨ (i.kind ≠ .u64 ∧ i.kind ≠ .i64)
  | .basic (.bool _) => True
  | .basic (.string s) => 0 ∉ s
  | .basic (.buf _) => True
  | .basic (.carrier c) => c.len_ = 0
  | .basic (.terminated c t) => ∃ rest, c.buf_ = some (t :: rest)
  | .size n => n < 2 ^ 32

/-- A text reads as the value. What is read into a buffer may leave some of its bytes, which
    were those of `old`. -/
def Item.Reads (text old : List UInt8) : Item → Prop
  | .basic (.int i) => StringPairUnmarshal.loadInt i.kind text = i
  | .basic (.bool b) => StringPairUnmarshal.loadBool text = some b
  | .basic (.string s) => cStr text = s
  | .basic (.buf bp) =>
    let amt := min old.length (cStr text).length
    str2hex (cStr text ++ [0]) amt = .ok (bp.bytes.take amt) ∧ old.drop amt = bp.bytes.drop amt
  | .basic (.carrier c) =>
    ∃ bytes, readBytes c.buf_ c.len_ = .ok bytes ∧ IntType.int.conv text.length = bytes.length ∧
      str2hex (text ++ [0]) bytes.length = .ok bytes
  | .basic (.terminated c t) =>
    ∃ bytes rest, t ∉ bytes ∧ c.buf_ = some (bytes ++ t :: rest) ∧
      IntType.int.conv text.length = bytes.length ∧ bytes.length < 2 ^ 31 - 1 ∧
      str2hex (text ++ [0]) bytes.length = .ok bytes
  | .size n => (StringPairUnmarshal.loadInt .u32 text).val = n

/-- The list keeps an item: where the first item with the name is this one, its own text
    does, and otherwise the text of the first reads as its value, too. -/
def KeptIn (first : List (List UInt8 × Item)) (name old : List UInt8) (x : Item) : Prop :=
  ∃ y, first.lookup name = some y ∧ (y = x → x.Kept) ∧ (y ≠ x → x.Reads y.text old)

def Basic.held : Basic → List UInt8
  | .buf bp => bp.bytes
  | _ => []

mutual

/-- All items of a value are kept, where it is read into the first value. -/
def AllKept (first : List (List UInt8 × Item)) (name : List UInt8) : Value → Value → Prop
  | .basic y, .basic x => KeptIn first name (Basic.held y) (.basic x)
  | .object fields', .object fields => AllKeptFields first fields' fields
  | .vector builder _, .vector _ elems =>
    KeptIn first (ascii "size") [] (.size elems.length) ∧
      ∀ e ∈ elems, AllKept first (ascii "element") builder e
  | _, _ => False

/-- Those of an object. -/
def AllKeptFields (first : List (List UInt8 × Item)) : NamedObject → NamedObject → Prop
  | [], [] => True
  | (_, v') :: fields', (name, v) :: fields =>
    AllKept first name v' v ∧ AllKeptFields first fields' fields
  | _, _ => False

end

/-- Every item of the object is kept in the list that is made of it. -/
def Transfer.Kept (x : Transfer) : Prop :=
  AllKeptFields (fieldItems x.source) x.target x.source

/-! ### Texts that are read back -/

theorem cStr_eq_self_iff {s : List UInt8} : cStr s = s ↔ 0 ∉ s := by
  unfold cStr
  rw [List.takeWhile_eq_self_iff]
  constructor
  · intro h hzero
    simpa using h 0 hzero
  · intro h b hb
    have hne : b ≠ 0 := fun hzero => h (hzero ▸ hb)
    simpa using hne

private theorem digit_cases {c : UInt8} (h : Decimal.isDigit c = true) :
    isspace c = false ∧ c ≠ 45 ∧ c ≠ 43 := by
  have hdigit : ∀ n < 256, Decimal.isDigit (.ofNat n) = true →
      isspace (.ofNat n) = false ∧ UInt8.ofNat n ≠ 45 ∧ UInt8.ofNat n ≠ 43 := by
    decide +kernel
  have hc := hdigit c.toNat c.toNat_lt
  rw [UInt8.ofNat_toNat] at hc
  exact hc h

private theorem skip_digits (n : Nat) :
    (Decimal.digits n).dropWhile isspace = Decimal.digits n ∧
      skipSign (Decimal.digits n) = (false, Decimal.digits n) := by
  obtain ⟨c, rest, hdigits⟩ := List.exists_cons_of_ne_nil (Decimal.digits_ne_nil n)
  have hmem : c ∈ Decimal.digits n := hdigits ▸ List.mem_cons_self
  obtain ⟨hspace, hminus, hplus⟩ := digit_cases (Decimal.isDigit_of_mem hmem)
  rw [hdigits]
  constructor
  · exact List.dropWhile_cons_of_neg (by simp [hspace])
  · unfold skipSign
    split <;> simp_all

theorem strtoll_digits (n : Nat) : strtoll (Decimal.digits n) = min n (2 ^ 63 - 1) := by
  obtain ⟨hspace, hsign⟩ := skip_digits n
  unfold strtoll
  rw [hspace, hsign]
  simp only [Decimal.value_digits, Bool.false_eq_true, if_false]
  omega

theorem strtoll_minus (n : Nat) :
    strtoll (45 :: Decimal.digits n) = max (-2 ^ 63) (-(n : Int)) := by
  have hspace : (45 :: Decimal.digits n).dropWhile isspace = 45 :: Decimal.digits n :=
    List.dropWhile_cons_of_neg (by decide)
  unfold strtoll
  rw [hspace]
  simp only [skipSign, Decimal.value_digits, if_true]
  omega

private theorem strtoll_unsigned (n : Nat) :
    strtoll (cStr (Decimal.digits n)) = min n (2 ^ 63 - 1) := by
  rw [cStr_eq_self_iff.2 (Decimal.not_mem_digits rfl), strtoll_digits]

private theorem strtoll_signed {z : Int} (hmin : -2 ^ 63 ≤ z) (hmax : z < 2 ^ 63) :
    strtoll (cStr (if z < 0 then 45 :: Decimal.digits z.natAbs else Decimal.digits z.natAbs)) =
      z := by
  have hzero : 0 ∉ Decimal.digits z.natAbs := Decimal.not_mem_digits rfl
  split
  · have hzero' : 0 ∉ 45 :: Decimal.digits z.natAbs := by simp [hzero]
    rw [cStr_eq_self_iff.2 hzero', strtoll_minus]
    omega
  · rw [cStr_eq_self_iff.2 hzero, strtoll_digits]
    omega

private theorem strtoll_format_signed {i : Integer}
    (h : i.kind = .i32 ∨ i.kind = .i16 ∨ i.kind = .i8) :
    strtoll (cStr (StringPairMarshal.formatInt i)) = i.val := by
  obtain ⟨kind, val, hrange⟩ := i
  have hval : -2 ^ 63 ≤ val ∧ val < 2 ^ 63 := by
    simp only [IntType.InRange, IntType.max, IntType.min, IntType.size] at hrange
    rcases h with rfl | rfl | rfl <;> simp [IntKind.type, IntType.int] at hrange <;> omega
  have hread := strtoll_signed hval.1 hval.2
  rcases h with rfl | rfl | rfl <;> exact hread

private theorem loadInt_val (kind : IntKind) (text : List UInt8) :
    (StringPairUnmarshal.loadInt kind text).val = kind.type.conv (strtoll (cStr text)) := by
  cases kind <;> first | rfl | exact IntType.conv_int_conv (by decide) _

private theorem kept_iff_cast {i : Integer}
    (h : ¬ (i.kind = .i32 ∨ i.kind = .i16 ∨ i.kind = .i8)) :
    (Item.basic (.int i)).Kept ↔ i.cast < 2 ^ 63 := by
  have hcast := i.cast_eq
  have hrange := i.inRange
  obtain ⟨kind, val, _⟩ := i
  simp only [IntType.InRange, IntType.max, IntType.min, IntType.size] at hrange
  unfold Item.Kept
  cases kind <;>
    simp [IntKind.type, IntType.u64, IntType.u32, IntType.u8, IntType.i64] at h hcast hrange ⊢ <;>
    omega

/-- An integer that is printed as what it is cast to is read back when that is a `long`. -/
theorem loadInt_digits_cast (i : Integer) :
    StringPairUnmarshal.loadInt i.kind (Decimal.digits i.cast) = i ↔ i.cast < 2 ^ 63 := by
  have hval : StringPairUnmarshal.loadInt i.kind (Decimal.digits i.cast) = i ↔
      (StringPairUnmarshal.loadInt i.kind (Decimal.digits i.cast)).val = i.val :=
    ⟨congrArg Integer.val, Integer.eq_of_val_eq rfl⟩
  rw [hval, loadInt_val, strtoll_unsigned]
  have hcast := i.cast_eq
  constructor
  · intro hload
    by_contra hge
    -- the largest `long` is read instead, and is what the integer is cast to
    have hmin : min i.cast (2 ^ 63 - 1) = 2 ^ 63 - 1 := by omega
    have hemod := IntType.conv_emod i.kind.type ((2 ^ 63 - 1 : Nat) : Int)
    rw [hmin] at hload
    rw [hload] at hemod
    have hmod : (i.cast : Int) = ((2 ^ 63 - 1) % 2 ^ i.kind.type.width : Nat) := by
      rw [hcast, Int.natCast_mod, Nat.cast_pow]
      exact hemod
    have hle := Nat.mod_le (2 ^ 63 - 1) (2 ^ i.kind.type.width)
    omega
  · intro hlt
    have hmin : min i.cast (2 ^ 63 - 1) = i.cast := by omega
    rw [hmin, hcast]
    exact IntType.conv_eq_of_emod i.inRange (Int.emod_emod_of_dvd _ dvd_rfl)

/-- An integer is read back from its text when there is such a `long`. -/
theorem loadInt_formatInt (i : Integer) :
    StringPairUnmarshal.loadInt i.kind (StringPairMarshal.formatInt i) = i ↔
      (Item.basic (.int i)).Kept := by
  by_cases h : i.kind = .i32 ∨ i.kind = .i16 ∨ i.kind = .i8
  · have hread : StringPairUnmarshal.loadInt i.kind (StringPairMarshal.formatInt i) = i := by
      refine Integer.eq_of_val_eq rfl ?_
      rw [loadInt_val, strtoll_format_signed h, IntType.conv_of_inRange i.inRange]
    have hkept : (Item.basic (.int i)).Kept := by
      right
      rcases h with h | h | h <;> simp [h]
    exact iff_of_true hread hkept
  · have hformat : StringPairMarshal.formatInt i = Decimal.digits i.cast := by
      unfold StringPairMarshal.formatInt
      split <;> simp_all
    rw [hformat, loadInt_digits_cast, kept_iff_cast h]

private theorem loadInt_formatSize (n : Nat) :
    (StringPairUnmarshal.loadInt .u32 (StringPairMarshal.formatInt (.size n))).val = n ↔
      n < 2 ^ 32 := by
  have hkept : (Item.basic (.int (.size n))).Kept := .inr ⟨nofun, nofun⟩
  have hload : (StringPairUnmarshal.loadInt .u32 (StringPairMarshal.formatInt (.size n))).val =
      n % 2 ^ 32 :=
    (congrArg Integer.val ((loadInt_formatInt (.size n)).2 hkept)).trans (IntType.u32_conv n)
  rw [hload]
  omega

/-- The digits of some bytes, of which `loadCarrier` expects twice as many, are read only
    where there are none. -/
private theorem length_of_conv {bytes data : List UInt8}
    (h : IntType.int.conv (hex2str data).length = bytes.length) (hle : bytes = data) :
    data = [] := by
  rw [length_hex2str, IntType.int_conv, hle] at h
  apply List.length_eq_zero_iff.1
  push_cast at h
  omega

private theorem carrier_reads_text (c : BufferCarrier) (old : List UInt8) :
    (Item.basic (.carrier c)).Reads (Item.basic (.carrier c)).text old ↔ c.len_ = 0 := by
  constructor
  · intro h
    obtain ⟨bytes, hread, hlen, -⟩ := h
    have htext : (Item.basic (.carrier c)).text = hex2str bytes := by
      simp [Item.text, hread, Except.toOption]
    rw [htext] at hlen
    have hnil := length_of_conv hlen rfl
    subst hnil
    exact (length_of_readBytes hread).symm
  · intro h
    have hread : readBytes c.buf_ c.len_ = .ok [] := by
      rw [h, readBytes_zero]
    have htext : (Item.basic (.carrier c)).text = [] := by
      simp [Item.text, hread, Except.toOption, hex2str]
    exact ⟨[], hread, by rw [htext]; decide, by rw [htext]; rfl⟩

private theorem terminated_reads_text (c : BufferCarrier) (t : UInt8) (old : List UInt8) :
    (Item.basic (.terminated c t)).Reads (Item.basic (.terminated c t)).text old ↔
      ∃ rest, c.buf_ = some (t :: rest) := by
  constructor
  · intro h
    obtain ⟨bytes, rest, hmem, hbuf, hlen, -⟩ := h
    have htake : (bytes ++ t :: rest).takeWhile (· ≠ t) = bytes := by
      rw [List.takeWhile_append_of_pos]
      · simp
      · intro b hb
        have hne : b ≠ t := fun heq => hmem (heq ▸ hb)
        simpa using hne
    have hnil : bytes = [] := by
      simp only [Item.text, hbuf, Option.getD_some, htake] at hlen
      split at hlen
      · rename_i hzero
        have hpos := List.length_pos_of_mem hzero
        rw [List.length_nil, IntType.int_conv] at hlen
        omega
      · exact length_of_conv hlen rfl
    subst hnil
    exact ⟨rest, hbuf⟩
  · intro h
    obtain ⟨rest, hbuf⟩ := h
    have htext : (Item.basic (.terminated c t)).text = [] := by
      simp [Item.text, hbuf, hex2str]
    exact ⟨[], rest, List.not_mem_nil, hbuf, by rw [htext]; decide, by decide, by rw [htext]; rfl⟩

private theorem buf_reads_text (bp : FixedBuffer) {old : List UInt8}
    (hold : old.length = bp.bytes.length) :
    (Item.basic (.buf bp)).Reads (Item.basic (.buf bp)).text old := by
  have hmin : min old.length (hex2str bp.bytes).length = bp.bytes.length := by
    rw [length_hex2str]
    omega
  unfold Item.Reads Item.text
  simp only [cStr_eq_self_iff.2 (zero_not_mem_hex2str bp.bytes), hmin, str2hex_hex2str,
    List.take_length, List.drop_length, true_and]
  exact List.drop_of_length_le hold.le

variable {old name mem text : List UInt8} {x : Item}

theorem Item.reads_text (hold : ∀ bp, x = .basic (.buf bp) → old.length = bp.bytes.length) :
    x.Reads x.text old ↔ x.Kept := by
  match x with
  | .size n => exact loadInt_formatSize n
  | .basic (.int i) => exact loadInt_formatInt i
  | .basic (.bool b) => cases b <;> exact iff_of_true rfl trivial
  | .basic (.string s) => exact cStr_eq_self_iff
  | .basic (.buf bp) => exact iff_of_true (buf_reads_text bp (hold bp rfl)) trivial
  | .basic (.carrier c) => exact carrier_reads_text c old
  | .basic (.terminated c t) => exact terminated_reads_text c t old

variable {first : List (List UInt8 × Item)}

theorem keptIn_iff (hold : ∀ bp, x = .basic (.buf bp) → old.length = bp.bytes.length) :
    KeptIn first name old x ↔ ∃ y, first.lookup name = some y ∧ x.Reads y.text old := by
  unfold KeptIn
  constructor
  · intro h
    obtain ⟨y, hfirst, hsame, hother⟩ := h
    by_cases hyx : y = x
    · subst hyx
      exact ⟨y, hfirst, (Item.reads_text hold).2 (hsame rfl)⟩
    · exact ⟨y, hfirst, hother hyx⟩
  · intro h
    obtain ⟨y, hfirst, hreads⟩ := h
    refine ⟨y, hfirst, ?_, fun _ => hreads⟩
    intro hyx
    subst hyx
    exact (Item.reads_text hold).1 hreads

/-! ### Marshal -/

def pairs (its : List (List UInt8 × Item)) : List StringPair :=
  its.map fun it => (it.1, it.2.text)

@[simp] theorem pairs_append (its its' : List (List UInt8 × Item)) :
    pairs (its ++ its') = pairs its ++ pairs its' :=
  List.map_append

/-- `Marshal` can read what it makes the text of. -/
def Item.Readable : Item → Prop
  | .basic (.carrier c) => ∃ bytes, readBytes c.buf_ c.len_ = .ok bytes
  | .basic (.terminated c t) => ∃ mem, c.buf_ = some mem ∧ t ∈ mem
  | _ => True

/-- A computation puts the pairs of some items behind those in the list, if it returns, and
    it does if they can be read. -/
structure Pushes {α : Type} (its : List (List UInt8 × Item)) (rep_ : List StringPair)
    (r : Except Fault (List StringPair × α)) : Prop where
  ok : (∀ it ∈ its, it.2.Readable) → ∃ a, r = .ok (rep_ ++ pairs its, a)
  eq : ∀ rep_' a, r = .ok (rep_', a) → rep_' = rep_ ++ pairs its

variable {α β : Type} {rep_ : List StringPair} {its its' : List (List UInt8 × Item)}

theorem Pushes.nil (rep_ : List StringPair) (a : α) : Pushes [] rep_ (.ok (rep_, a)) where
  ok _ := ⟨a, by simp [pairs]⟩
  eq := by simp_all [pairs]

theorem Pushes.single (rep_ : List StringPair) (name : List UInt8) (x : Item) (a : α) :
    Pushes [(name, x)] rep_ (.ok (rep_ ++ [(name, x.text)], a)) where
  ok _ := ⟨a, rfl⟩
  eq := by simp_all [pairs]

theorem Pushes.bind {r : Except Fault (List StringPair × α)}
    {f : List StringPair × α → Except Fault (List StringPair × β)} (hr : Pushes its rep_ r)
    (hf : ∀ rep_ a, Pushes its' rep_ (f (rep_, a))) : Pushes (its ++ its') rep_ (r >>= f) where
  ok hread := by
    obtain ⟨a, rfl⟩ := hr.ok fun it hit => hread it (List.mem_append_left its' hit)
    obtain ⟨b, hb⟩ := (hf (rep_ ++ pairs its) a).ok
      fun it hit => hread it (List.mem_append_right its hit)
    exact ⟨b, by simp [hb]⟩
  eq rep_' b h := by
    obtain ⟨⟨rep_'', a⟩, hra, hfa⟩ := bind_eq_ok.1 h
    rw [(hf rep_'' a).eq rep_' b hfa, hr.eq rep_'' a hra]
    simp

theorem Pushes.map {r : Except Fault (List StringPair × α)} (hr : Pushes its rep_ r) (g : α → β) :
    Pushes its rep_ (r >>= fun p => .ok (p.1, g p.2)) := by
  have h : Pushes (its ++ []) rep_ (r >>= fun p => .ok (p.1, g p.2)) :=
    hr.bind fun rep_ a => Pushes.nil rep_ (g a)
  rwa [List.append_nil] at h

variable {t : UInt8}

private theorem strchr_eq {p : Option Nat} (h : strchr mem t = .ok p) :
    p = if 0 ∈ mem.takeWhile (· ≠ t) then none else some (mem.takeWhile (· ≠ t)).length := by
  induction mem generalizing p with
  | nil => cases h
  | cons b mem ih =>
    unfold strchr at h
    split at h
    · rename_i hbt
      cases h
      simp [hbt]
    · rename_i hbt
      have htake : (b :: mem).takeWhile (· ≠ t) = b :: mem.takeWhile (· ≠ t) :=
        List.takeWhile_cons_of_pos (by simpa using hbt)
      rw [htake]
      split at h
      · rename_i hb
        cases h
        simp [hb]
      · rename_i hb
        obtain ⟨q, hq, hp⟩ := bind_eq_ok.1 h
        cases hp
        rw [ih hq]
        split <;> simp_all [Ne.symm hb]

private theorem strchr_ok (h : t ∈ mem) : ∃ p, strchr mem t = .ok p := by
  induction mem with
  | nil => cases h
  | cons b mem ih =>
    unfold strchr
    split
    · exact ⟨_, rfl⟩
    · rename_i hbt
      split
      · exact ⟨_, rfl⟩
      · obtain ⟨p, hp⟩ := ih ((List.mem_cons.1 h).resolve_left (Ne.symm hbt))
        exact ⟨_, by rw [hp]; rfl⟩

variable {c c' : BufferCarrier}

private theorem formatCarrier_terminated
    {p : Option Nat} (hbuf : c.buf_ = some mem) (h : strchr mem t = .ok p) :
    StringPairMarshal.formatCarrier (c.setLen (p.getD 0)) =
      .ok (Item.basic (.terminated c t)).text := by
  have hprefix : mem.take (mem.takeWhile (· ≠ t)).length = mem.takeWhile (· ≠ t) :=
    (List.prefix_iff_eq_take.1 (List.takeWhile_prefix _)).symm
  have hle : (mem.takeWhile (· ≠ t)).length ≤ mem.length := (List.takeWhile_prefix _).length_le
  rw [strchr_eq h]
  simp only [StringPairMarshal.formatCarrier, BufferCarrier.setLen, hbuf, Item.text,
    Option.getD_some]
  generalize mem.takeWhile (· ≠ t) = bytes at hprefix hle ⊢
  split
  · simp [readBytes, hex2str]
  · simp [readBytes, hle, hprefix]

theorem processBasic_pushes (rep_ : List StringPair) (name : List UInt8) (x : Basic) :
    Pushes [(name, .basic x)] rep_ (StringPairMarshal.processBasic rep_ name x) := by
  cases x with
  | carrier c =>
    unfold StringPairMarshal.processBasic StringPairMarshal.formatCarrier
    constructor
    · intro hread
      obtain ⟨bytes, hbytes⟩ := hread _ List.mem_cons_self
      exact ⟨.carrier c, by simp [hbytes, pairs, Item.text, Except.toOption]⟩
    · intro rep_' a h
      obtain ⟨text, htext, h⟩ := bind_eq_ok.1 h
      obtain ⟨bytes, hbytes, htext⟩ := bind_eq_ok.1 htext
      cases htext
      cases h
      simp_all [pairs, Item.text, Except.toOption]
  | terminated c t =>
    constructor
    · intro hread
      obtain ⟨mem, hbuf, ht⟩ := hread _ List.mem_cons_self
      obtain ⟨p, hp⟩ := strchr_ok ht
      exact ⟨.terminated (c.setLen (p.getD 0)) t, by
        simp [StringPairMarshal.processBasic, hbuf, hp, formatCarrier_terminated hbuf hp, pairs]⟩
    · intro rep_' a h
      simp only [StringPairMarshal.processBasic] at h
      cases hbuf : c.buf_ with
      | none =>
        rw [hbuf] at h
        cases h
      | some mem =>
        rw [hbuf] at h
        obtain ⟨p, hp, h⟩ := bind_eq_ok.1 h
        rw [formatCarrier_terminated hbuf hp] at h
        cases h
        rfl
  | _ => exact Pushes.single rep_ name _ _

private theorem serialize_pushes_of {fields : NamedObject}
    (hfields : ∀ f ∈ fields, ∀ rep_ name,
      Pushes (items name f.2) rep_ (StringPairMarshal.process rep_ name f.2))
    (rep_ : List StringPair) :
    Pushes (fieldItems fields) rep_ (StringPairMarshal.serialize rep_ fields) := by
  induction fields generalizing rep_ with
  | nil =>
    rw [StringPairMarshal.serialize, fieldItems]
    exact Pushes.nil rep_ []
  | cons f fields ih =>
    obtain ⟨name, v⟩ := f
    rw [StringPairMarshal.serialize, fieldItems]
    apply (hfields _ List.mem_cons_self rep_ name).bind
    intro rep_ v
    exact (ih (fun f hf => hfields f (List.mem_cons_of_mem _ hf)) rep_).map _

variable {elems : List Value}

private theorem processElems_pushes_of (helems : ∀ e ∈ elems, ∀ rep_ name,
      Pushes (items name e) rep_ (StringPairMarshal.process rep_ name e)) (rep_ : List StringPair) :
    Pushes (elemItems elems) rep_ (StringPairMarshal.processElems rep_ elems) := by
  induction elems generalizing rep_ with
  | nil =>
    rw [StringPairMarshal.processElems, elemItems]
    exact Pushes.nil rep_ []
  | cons e elems ih =>
    rw [StringPairMarshal.processElems, elemItems]
    apply (helems e List.mem_cons_self rep_ _).bind
    intro rep_ e
    exact (ih (fun e he => helems e (List.mem_cons_of_mem _ he)) rep_).map _

theorem process_pushes (v : Value) (rep_ : List StringPair) (name : List UInt8) :
    Pushes (items name v) rep_ (StringPairMarshal.process rep_ name v) := by
  induction v using Value.ind generalizing rep_ name with
  | basic x =>
    rw [StringPairMarshal.process, items]
    exact (processBasic_pushes rep_ name x).map _
  | object fields ih =>
    rw [StringPairMarshal.process, items]
    exact (serialize_pushes_of ih rep_).map _
  | vector builder elems _ ih =>
    have hsize : Pushes [(ascii "size", .size elems.length)] rep_
        (StringPairMarshal.processBasic rep_ (ascii "size") (.int (.size elems.length))) :=
      Pushes.single rep_ (ascii "size") (.size elems.length) _
    rw [StringPairMarshal.process, items, ← List.singleton_append]
    apply hsize.bind
    intro rep_ _
    exact (processElems_pushes_of ih rep_).map _

theorem serialize_pushes (o : NamedObject) (rep_ : List StringPair) :
    Pushes (fieldItems o) rep_ (StringPairMarshal.serialize rep_ o) :=
  serialize_pushes_of (fun f _ => process_pushes f.2) rep_

/-! ### Unmarshal -/

/-- A computation that signals no error gives a value of which something holds. -/
def Gives {α : Type} (r : Except Fault (Bool × α)) (P : α → Prop) : Prop :=
  ∃ a, r = .ok (false, a) ∧ P a

theorem gives_map {r : Except Fault (Bool × α)} (g : α → β) {P : β → Prop} :
    Gives (r >>= fun p => .ok (p.1, g p.2)) P ↔ Gives r (fun a => P (g a)) := by
  unfold Gives
  cases r with
  | error e => simp
  | ok p =>
    obtain ⟨signalled, a⟩ := p
    simp

theorem gives_bind {γ : Type} {r : Except Fault (Bool × α)} {r' : Except Fault (Bool × β)}
    (g : α → β → γ) {P : γ → Prop} {Q : α → Prop} {Q' : β → Prop}
    (hP : ∀ a b, P (g a b) ↔ Q a ∧ Q' b) :
    Gives (r >>= fun p => r' >>= fun p' => .ok (p.1 || p'.1, g p.2 p'.2)) P ↔
      Gives r Q ∧ Gives r' Q' := by
  unfold Gives
  cases r with
  | error e => simp
  | ok p =>
    cases r' with
    | error e => simp
    | ok p' =>
      obtain ⟨signalled, a⟩ := p
      obtain ⟨signalled', b⟩ := p'
      simp [hP]
      tauto

theorem textOf_pairs (first : List (List UInt8 × Item)) (name : List UInt8) :
    StringPairUnmarshal.textOf (pairs first) name =
      match first.lookup name with
      | some y => .ok y.text
      | none => .error .assertFailed := by
  unfold StringPairUnmarshal.textOf StringPairUnmarshal.find
  induction first with
  | nil => rfl
  | cons it first ih =>
    obtain ⟨name', y⟩ := it
    by_cases hname : name' = name
    · subst hname
      simp [pairs, List.findIdx_cons]
    · have hbeq : (name == name') = false := by simpa using Ne.symm hname
      simp only [pairs, List.map_cons, List.findIdx_cons, List.lookup_cons, hbeq, hname] at ih ⊢
      simpa using ih

/-- The bytes of a carrier are as many as the text has, and each is read from two of its
    characters. -/
theorem loadCarrier_eq_ok {behind : List UInt8} :
    StringPairUnmarshal.loadCarrier c text behind = .ok c' ↔
      ∃ bytes, IntType.int.conv text.length = bytes.length ∧
        bytes.length + behind.length < 2 ^ 31 ∧
        str2hex (text ++ [0]) bytes.length = .ok bytes ∧
        c' = ⟨some (bytes ++ behind), bytes.length⟩ := by
  have hint : ∀ z, IntType.int.InRange z ↔ -2 ^ 31 ≤ z ∧ z < 2 ^ 31 := by
    intro z
    simp only [IntType.InRange, IntType.max, IntType.min, IntType.size, IntType.int, if_true]
    omega
  have hrange := (hint _).1 (IntType.int.inRange_conv text.length)
  unfold StringPairUnmarshal.loadCarrier
  generalize IntType.int.conv text.length = len at hrange ⊢
  by_cases hneg : len < 0
  · -- no negative number of bytes can be stored
    have herror : ∀ bytes : List UInt8, len ≠ bytes.length := by
      intro bytes
      omega
    simp only [herror, false_and, exists_false, iff_false, if_pos hneg]
    intro h
    split at h
    · cases h
    · obtain ⟨_, -, h⟩ := bind_eq_ok.1 h
      cases h
  · obtain ⟨n, rfl⟩ := Int.eq_ofNat_of_zero_le (Int.not_lt.1 hneg)
    have hpos : (0 : Int) ≤ (n : Int) + behind.length := by omega
    by_cases hsize : n + behind.length < 2 ^ 31
    · have hin : IntType.int.InRange ((n : Int) + behind.length) := (hint _).2 (by omega)
      simp only [hin, not_true, if_false, hneg, hpos, decide_true, assert_true, ok_bind,
        Int.toNat_natCast, BufferCarrier.setBuf]
      constructor
      · intro h
        obtain ⟨bytes, hbytes, hc⟩ := bind_eq_ok.1 h
        have hlen := (length_of_str2hex hbytes).2
        cases hc
        subst hlen
        exact ⟨bytes, rfl, hsize, hbytes, rfl⟩
      · intro h
        obtain ⟨bytes, hlen, -, hbytes, rfl⟩ := h
        obtain rfl : n = bytes.length := Int.ofNat.inj hlen
        rw [hbytes]
        rfl
    · have hout : ¬ IntType.int.InRange ((n : Int) + behind.length) := by
        rw [hint]
        omega
      simp only [hout, not_false_iff, if_true, throw_eq_error, error_bind, reduceCtorEq, false_iff]
      intro h
      obtain ⟨bytes, hlen, hlt, -⟩ := h
      omega

private theorem loadBuf_eq_ok {bq bp : FixedBuffer} (hlen : bq.bytes.length = bp.bytes.length) :
    StringPairUnmarshal.loadBuf bq text = .ok bp ↔
      (Item.basic (.buf bp)).Reads text bq.bytes := by
  unfold StringPairUnmarshal.loadBuf Item.Reads
  generalize hamt : min bq.bytes.length (cStr text).length = amt
  have hle : amt ≤ bq.bytes.length := by omega
  simp only [hamt]
  constructor
  · intro h
    obtain ⟨bytes, hbytes, hbp⟩ := bind_eq_ok.1 h
    have hsize := (length_of_str2hex hbytes).2
    have hall : bytes ++ bq.bytes.drop amt = bp.bytes := by
      have hbp' : (bytes ++ bq.bytes.drop amt).take bq.bytes.length = bp.bytes :=
        congrArg FixedBuffer.bytes (Except.ok.inj hbp)
      rwa [List.take_of_length_le] at hbp'
      rw [List.length_append, List.length_drop]
      omega
    have htake := congrArg (List.take amt) hall
    have hdrop := congrArg (List.drop amt) hall
    rw [List.take_append_of_le_length hsize.ge, List.take_of_length_le hsize.le] at htake
    rw [List.drop_append_of_le_length hsize.ge, List.drop_of_length_le hsize.le] at hdrop
    exact ⟨htake ▸ hbytes, hdrop⟩
  · intro h
    obtain ⟨hbytes, hdrop⟩ := h
    obtain ⟨bytes, hfits⟩ := bp
    simp only [hbytes, hdrop, ok_bind, List.take_append_drop, hlen, List.take_length]
    rfl

private theorem carrier_gives :
    Gives (StringPairUnmarshal.loadCarrier c' text [] >>= fun c => .ok (false, Basic.carrier c))
      (Basic.Recovers · (.carrier c)) ↔ (Item.basic (.carrier c)).Reads text old := by
  constructor
  · intro h
    obtain ⟨_, hload, hrec⟩ := h
    obtain ⟨c'', hc'', hload⟩ := bind_eq_ok.1 hload
    cases hload
    obtain ⟨bytes', hlen, -, hbytes', rfl⟩ := loadCarrier_eq_ok.1 hc''
    obtain ⟨bytes, hbytes, hread⟩ := hrec
    rw [List.append_nil, readBytes_self, Except.ok.injEq] at hread
    subst hread
    exact ⟨bytes', hbytes, hlen, hbytes'⟩
  · intro h
    obtain ⟨bytes, hbytes, hlen, hread⟩ := h
    have hlt : bytes.length + ([] : List UInt8).length < 2 ^ 31 := by
      rw [IntType.int_conv] at hlen
      simp only [List.length_nil]
      omega
    have hload : StringPairUnmarshal.loadCarrier c' text [] =
        .ok ⟨some (bytes ++ []), bytes.length⟩ :=
      loadCarrier_eq_ok.2 ⟨bytes, hlen, hlt, hread, rfl⟩
    refine ⟨.carrier ⟨some (bytes ++ []), bytes.length⟩, by rw [hload]; rfl, bytes, hbytes, ?_⟩
    rw [List.append_nil, readBytes_self]

private theorem terminated_gives : Gives (StringPairUnmarshal.loadCarrier c' text [t] >>=
        fun c => .ok (false, Basic.terminated c t))
      (Basic.Recovers · (.terminated c t)) ↔ (Item.basic (.terminated c t)).Reads text old := by
  constructor
  · intro h
    obtain ⟨_, hload, hrec⟩ := h
    obtain ⟨c'', hc'', hload⟩ := bind_eq_ok.1 hload
    cases hload
    obtain ⟨bytes', hlen, hlt, hbytes', rfl⟩ := loadCarrier_eq_ok.1 hc''
    obtain ⟨-, bytes, rest, rest', hmem, hbuf, hbuf', hsize⟩ := hrec
    -- the terminator that was written is the first one
    obtain ⟨rfl, -⟩ := List.append_inj (Option.some.inj hbuf') hsize
    simp only [List.length_singleton] at hlt
    exact ⟨bytes', rest, hmem, hbuf, hlen, by omega, hbytes'⟩
  · intro h
    obtain ⟨bytes, rest, hmem, hbuf, hlen, hlt, hread⟩ := h
    have hload : StringPairUnmarshal.loadCarrier c' text [t] =
        .ok ⟨some (bytes ++ [t]), bytes.length⟩ :=
      loadCarrier_eq_ok.2 ⟨bytes, hlen, by simp only [List.length_singleton]; omega, hread, rfl⟩
    exact ⟨.terminated ⟨some (bytes ++ [t]), bytes.length⟩ t, by rw [hload]; rfl,
      rfl, bytes, rest, [], hmem, hbuf, rfl, rfl⟩

/-- A value is given as it was exactly when it is read from the text of the first item with
    the name. -/
theorem processBasic_gives {y x : Basic} (hmatch : Basic.Matches y x)
    (first : List (List UInt8 × Item)) (name : List UInt8) :
    Gives (StringPairUnmarshal.processBasic (pairs first) name y) (Basic.Recovers · x) ↔
      ∃ z, first.lookup name = some z ∧ (Item.basic x).Reads z.text (Basic.held y) := by
  have htext := textOf_pairs first name
  cases hlookup : first.lookup name with
  | none =>
    rw [hlookup] at htext
    cases y <;> simp [Gives, StringPairUnmarshal.processBasic, htext]
  | some z =>
    rw [hlookup] at htext
    have hreads : (∃ z', some z = some z' ∧ (Item.basic x).Reads z'.text (Basic.held y)) ↔
        (Item.basic x).Reads z.text (Basic.held y) := by
      constructor
      · intro h
        obtain ⟨z', hz, h⟩ := h
        obtain rfl : z = z' := Option.some.inj hz
        exact h
      · intro h
        exact ⟨z, rfl, h⟩
    rw [hreads]
    cases y with
    | int j =>
      cases x with
      | int i =>
        have hkind : j.kind = i.kind := hmatch
        simp [StringPairUnmarshal.processBasic, htext, Gives, Basic.Recovers, Item.Reads, hkind]
      | _ => exact hmatch.elim
    | bool b' =>
      cases x with
      | bool b =>
        simp only [StringPairUnmarshal.processBasic, htext, Gives, Item.Reads, ok_bind]
        cases StringPairUnmarshal.loadBool z.text with
        | none => simp
        | some b'' => simp [Basic.Recovers]
      | _ => exact hmatch.elim
    | string s' =>
      cases x with
      | string s =>
        simp [StringPairUnmarshal.processBasic, htext, Gives, Basic.Recovers, Item.Reads]
      | _ => exact hmatch.elim
    | buf bq =>
      cases x with
      | buf bp =>
        rw [Basic.held, ← loadBuf_eq_ok hmatch]
        simp only [StringPairUnmarshal.processBasic, htext, Gives, ok_bind]
        cases StringPairUnmarshal.loadBuf bq z.text with
        | error e => simp
        | ok bp' => simp [Basic.Recovers]
      | _ => exact hmatch.elim
    | carrier c' =>
      cases x with
      | carrier c =>
        rw [StringPairUnmarshal.processBasic, htext, ok_bind]
        exact carrier_gives
      | _ => exact hmatch.elim
    | terminated c' t' =>
      cases x with
      | terminated c t =>
        obtain rfl : t' = t := hmatch
        rw [StringPairUnmarshal.processBasic, htext, ok_bind]
        exact terminated_gives
      | _ => exact hmatch.elim

theorem processBasic_gives_iff {y x : Basic} (hmatch : Basic.Matches y x)
    (first : List (List UInt8 × Item)) (name : List UInt8) :
    Gives (StringPairUnmarshal.processBasic (pairs first) name y) (Basic.Recovers · x) ↔
      KeptIn first name (Basic.held y) (.basic x) := by
  rw [processBasic_gives hmatch, keptIn_iff]
  intro bp hbp
  cases hbp
  cases y with
  | buf bq => exact hmatch
  | _ => exact hmatch.elim

private theorem processElems_gives {r : Except Fault (Bool × Value)} {n : Nat} :
    Gives (StringPairUnmarshal.processElems r n) (RecoversElems · elems) ↔
      n = elems.length ∧ ∀ e ∈ elems, Gives r (Recovers · e) := by
  induction elems generalizing n with
  | nil =>
    cases n with
    | zero => simp [Gives, StringPairUnmarshal.processElems, RecoversElems]
    | succ n =>
      constructor
      · intro h
        obtain ⟨es, hes, hrec⟩ := h
        obtain ⟨⟨_, e⟩, -, hes⟩ := bind_eq_ok.1 hes
        obtain ⟨⟨_, es'⟩, -, hes⟩ := bind_eq_ok.1 hes
        simp only [pure_eq_ok, Except.ok.injEq, Prod.mk.injEq] at hes
        obtain ⟨-, rfl⟩ := hes
        exact hrec.elim
      · intro h
        cases h.1
  | cons e elems ih =>
    cases n with
    | zero =>
      constructor
      · intro h
        obtain ⟨es, hes, hrec⟩ := h
        cases hes
        exact hrec.elim
      · intro h
        cases h.1
    | succ n =>
      have hcons : Gives (StringPairUnmarshal.processElems r (n + 1))
          (RecoversElems · (e :: elems)) ↔ Gives r (Recovers · e) ∧
            Gives (StringPairUnmarshal.processElems r n) (RecoversElems · elems) := by
        rw [StringPairUnmarshal.processElems]
        exact gives_bind List.cons fun _ _ => by rw [RecoversElems]
      rw [hcons, ih, List.forall_mem_cons, List.length_cons, Nat.succ_inj]
      tauto

private theorem length_of_processElems {r : Except Fault (Bool × Value)} {n : Nat}
    {signalled : Bool} {es : List Value}
    (h : StringPairUnmarshal.processElems r n = .ok (signalled, es)) :
    es.length = n := by
  induction n generalizing signalled es with
  | zero =>
    cases h
    rfl
  | succ n ih =>
    obtain ⟨⟨_, e⟩, -, h⟩ := bind_eq_ok.1 h
    obtain ⟨⟨_, es'⟩, hes, h⟩ := bind_eq_ok.1 h
    simp only [pure_eq_ok, Except.ok.injEq, Prod.mk.injEq] at h
    obtain ⟨-, rfl⟩ := h
    rw [List.length_cons, ih hes]

variable {rep_ : List StringPair}

private theorem vector_gives {builder builder' : Value} :
    Gives (StringPairUnmarshal.process rep_ name (.vector builder' []))
      (Recovers · (.vector builder elems)) ↔
      ∃ text, StringPairUnmarshal.textOf rep_ (ascii "size") = .ok text ∧
        Gives (StringPairUnmarshal.processElems
            (StringPairUnmarshal.process rep_ (ascii "element") builder')
            (StringPairUnmarshal.loadInt .u32 text).val.toNat)
          (RecoversElems · elems) := by
  rw [StringPairUnmarshal.process]
  constructor
  · intro h
    obtain ⟨v, hv, hrec⟩ := h
    obtain ⟨text, htext, hv⟩ := bind_eq_ok.1 hv
    obtain ⟨⟨signalled, new⟩, hnew, hv⟩ := bind_eq_ok.1 hv
    obtain ⟨_, -, hv⟩ := bind_eq_ok.1 hv
    simp only [pure_eq_ok, Except.ok.injEq, Prod.mk.injEq] at hv
    obtain ⟨rfl, rfl⟩ := hv
    exact ⟨text, htext, new, hnew, hrec⟩
  · intro h
    obtain ⟨text, htext, new, hnew, hrec⟩ := h
    have hlen := length_of_processElems hnew
    refine ⟨.vector builder' new, ?_, hrec⟩
    simp [htext, hnew, hlen]

variable {target : NamedObject}

private theorem serialize_gives_of {fields : NamedObject}
    (hfields : ∀ f ∈ fields, ∀ {v'}, Matches v' f.2 → ∀ name,
      (Gives (StringPairUnmarshal.process (pairs first) name v') (Recovers · f.2) ↔
        AllKept first name v' f.2)) (hmatch : MatchesFields target fields) :
    Gives (StringPairUnmarshal.serialize (pairs first) target) (RecoversFields · fields) ↔
      AllKeptFields first target fields := by
  induction fields generalizing target with
  | nil =>
    cases target with
    | nil => simp [Gives, StringPairUnmarshal.serialize, RecoversFields, AllKeptFields]
    | cons => exact hmatch.elim
  | cons f fields ih =>
    obtain ⟨name, v⟩ := f
    cases target with
    | nil => exact hmatch.elim
    | cons f' target =>
      obtain ⟨name', v'⟩ := f'
      obtain ⟨rfl, hv, hrest⟩ := hmatch
      have hcons : Gives (StringPairUnmarshal.serialize (pairs first) ((name', v') :: target))
          (RecoversFields · ((name', v) :: fields)) ↔
            Gives (StringPairUnmarshal.process (pairs first) name' v') (Recovers · v) ∧
            Gives (StringPairUnmarshal.serialize (pairs first) target)
              (RecoversFields · fields) := by
        rw [StringPairUnmarshal.serialize]
        exact gives_bind (fun v o => (name', v) :: o) fun _ _ => by simp [RecoversFields]
      have htail := ih (fun f hf => hfields f (List.mem_cons_of_mem _ hf)) hrest
      rw [hcons, hfields _ List.mem_cons_self hv, htail, AllKeptFields]

/-- A value is given as it was exactly when all its items are kept. -/
theorem process_gives {v' v : Value} (hmatch : Matches v' v) (first : List (List UInt8 × Item))
    (name : List UInt8) :
    Gives (StringPairUnmarshal.process (pairs first) name v') (Recovers · v) ↔
      AllKept first name v' v := by
  induction v using Value.ind generalizing v' name with
  | basic x =>
    cases v' with
    | basic y =>
      rw [StringPairUnmarshal.process, AllKept, ← processBasic_gives_iff hmatch]
      exact gives_map Value.basic
    | _ => exact hmatch.elim
  | object fields ih =>
    cases v' with
    | object target =>
      rw [StringPairUnmarshal.process, AllKept,
        ← serialize_gives_of (fun f hf _ hmatch name => ih f hf hmatch name) hmatch]
      exact gives_map Value.object
    | _ => exact hmatch.elim
  | vector builder elems _ ih =>
    cases v' with
    | vector builder' elems' =>
      obtain ⟨rfl, hmatch⟩ := hmatch
      have hsize : KeptIn first (ascii "size") [] (.size elems.length) ↔
          ∃ y, first.lookup (ascii "size") = some y ∧
            (StringPairUnmarshal.loadInt .u32 y.text).val = elems.length :=
        keptIn_iff (by simp)
      have helems : (∀ e ∈ elems, Gives (StringPairUnmarshal.process (pairs first)
          (ascii "element") builder') (Recovers · e)) ↔
          ∀ e ∈ elems, AllKept first (ascii "element") builder' e :=
        forall₂_congr fun e he => ih e he (hmatch e he) (ascii "element")
      have htext := textOf_pairs first (ascii "size")
      rw [vector_gives, AllKept, hsize, ← helems]
      cases hlookup : first.lookup (ascii "size") with
      | none => simp_all
      | some y =>
        rw [hlookup] at htext
        have hnonneg : 0 ≤ (StringPairUnmarshal.loadInt .u32 y.text).val :=
          (StringPairUnmarshal.loadInt .u32 y.text).inRange.1
        simp only [htext, Except.ok.injEq, exists_eq_left', Option.some.injEq, processElems_gives]
        apply and_congr_left'
        omega
    | _ => exact hmatch.elim

theorem serialize_gives {source : NamedObject} (hmatch : MatchesFields target source)
    (first : List (List UInt8 × Item)) :
    Gives (StringPairUnmarshal.serialize (pairs first) target) (RecoversFields · source) ↔
      AllKeptFields first target source :=
  serialize_gives_of (fun _ _ _ hmatch name => process_gives hmatch first name) hmatch

/-! ### The round trip -/

theorem KeptIn.readable (h : KeptIn first name old x) : x.Readable := by
  have hreads : x.Kept ∨ ∃ text, x.Reads text old := by
    obtain ⟨y, -, hsame, hother⟩ := h
    by_cases hyx : y = x
    · exact .inl (hsame hyx)
    · exact .inr ⟨y.text, hother hyx⟩
  match x with
  | .basic (.carrier c) =>
    rcases hreads with hlen | ⟨text, bytes, hbytes, -⟩
    · have hlen : c.len_ = 0 := hlen
      exact ⟨[], by rw [hlen, readBytes_zero]⟩
    · exact ⟨bytes, hbytes⟩
  | .basic (.terminated c t) =>
    rcases hreads with ⟨rest, hbuf⟩ | ⟨text, bytes, rest, -, hbuf, -⟩
    · exact ⟨_, hbuf, List.mem_cons_self⟩
    · exact ⟨_, hbuf, by simp⟩
  | .basic (.int _) => trivial
  | .basic (.bool _) => trivial
  | .basic (.string _) => trivial
  | .basic (.buf _) => trivial
  | .size _ => trivial

theorem AllKept.readable {v' v : Value}
    (h : AllKept first name v' v) : ∀ it ∈ items name v, it.2.Readable := by
  induction v using Value.ind generalizing v' name with
  | basic x =>
    cases v' with
    | basic y =>
      intro it hit
      rw [items, List.mem_singleton] at hit
      subst hit
      exact KeptIn.readable h
    | _ => exact h.elim
  | object fields ih =>
    cases v' with
    | object target =>
      rw [AllKept] at h
      rw [items]
      induction fields generalizing target with
      | nil => simp [fieldItems]
      | cons f fields ih' =>
        cases target with
        | nil => exact h.elim
        | cons f' target =>
          obtain ⟨hf, hrest⟩ := h
          rw [fieldItems]
          intro it hit
          rcases List.mem_append.1 hit with hit | hit
          · exact ih f List.mem_cons_self hf it hit
          · exact ih' (fun f hf => ih f (List.mem_cons_of_mem _ hf)) target hrest it hit
    | _ => exact h.elim
  | vector builder elems _ ih =>
    cases v' with
    | vector builder' elems' =>
      obtain ⟨-, helems⟩ := h
      rw [items]
      rw [List.forall_mem_cons]
      refine ⟨trivial, ?_⟩
      induction elems with
      | nil => simp [elemItems]
      | cons e elems ih' =>
        rw [elemItems]
        intro it hit
        rcases List.mem_append.1 hit with hit | hit
        · exact ih e List.mem_cons_self (helems e List.mem_cons_self) it hit
        · exact ih' (fun e he => ih e (List.mem_cons_of_mem _ he))
            (fun e he => helems e (List.mem_cons_of_mem _ he)) it hit
    | _ => exact h.elim

theorem AllKeptFields.readable {source : NamedObject}
    (h : AllKeptFields first target source) : ∀ it ∈ fieldItems source, it.2.Readable := by
  have hobject : AllKept first [] (.object target) (.object source) := by
    rw [AllKept]
    exact h
  have hread := AllKept.readable hobject
  rwa [items] at hread

theorem pairs_of_action {o o' : NamedObject} {code : Int}
    (h : StringPairMarshal.action o = .ok (code, rep_, o')) : rep_ = pairs (fieldItems o) := by
  obtain ⟨⟨rep_', o''⟩, hserialize, h⟩ := bind_eq_ok.1 h
  simp only [pure_eq_ok, Except.ok.injEq, Prod.mk.injEq] at h
  obtain ⟨-, rfl, -⟩ := h
  simpa using (serialize_pushes o []).eq rep_' o'' hserialize

theorem action_gives {P : NamedObject → Prop} :
    (∃ r, StringPairUnmarshal.action rep_ target = .ok (0, r) ∧ P r) ↔
      Gives (StringPairUnmarshal.serialize rep_ target) P := by
  unfold StringPairUnmarshal.action Gives
  cases StringPairUnmarshal.serialize rep_ target with
  | error e => simp
  | ok p =>
    obtain ⟨signalled, o⟩ := p
    cases signalled <;> simp

/-- An object makes the round trip exactly when the list keeps all its fields: each is one
    that its own text keeps, and where the name was used before, the first text with the name
    reads as its value. -/
theorem transfer_roundTrips_iff (x : Transfer) : x.RoundTrips ↔ x.Kept := by
  have hgives := serialize_gives x.matched (fieldItems x.source)
  unfold Transfer.RoundTrips Transfer.Kept
  constructor
  · intro h
    obtain ⟨rep_, o, hmarshal, hunmarshal⟩ := h
    rw [pairs_of_action hmarshal, action_gives] at hunmarshal
    exact hgives.1 hunmarshal
  · intro h
    obtain ⟨o, hpush⟩ := (serialize_pushes x.source []).ok h.readable
    rw [List.nil_append] at hpush
    exact ⟨pairs (fieldItems x.source), o, by rw [StringPairMarshal.action, hpush]; rfl,
      action_gives.2 (hgives.2 h)⟩

private def oneByte : Transfer where
  source := [(ascii "data", .basic (.carrier ⟨some [171], 1⟩))]
  target := [(ascii "data", .basic (.carrier .new))]
  matched := ⟨rfl, trivial, trivial⟩

/-- A carrier that is not empty is read behind the end of its text. -/
theorem not_transfer_roundTrips : ¬ ∀ x : Transfer, x.RoundTrips := by
  intro h
  obtain ⟨rep_, o, hmarshal, r, hunmarshal, -⟩ := h oneByte
  have hlist : rep_ = [(ascii "data", [97, 98])] := pairs_of_action hmarshal
  subst hlist
  cases hunmarshal

end Oasys.StringPair
