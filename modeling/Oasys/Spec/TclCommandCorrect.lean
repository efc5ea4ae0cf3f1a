import Oasys.Spec.OptionsCorrect
import Oasys.Spec.StringBufferCorrect
import Oasys.Tclcmd.TclCommand

/-!
# What `set` does to a variable

The value that a text stands for (`HasValue`) and the text of a value (`OptKind.text`), for every
kind of option. A `set` that is refused should leave the bound variables as they were, and one
that is accepted should leave the value in the variable and its text as the result (`Meets`).
It does so exactly under the condition `Kept`: a value that the option has parsed is in the
variable when the hook refuses it, and a number may be another one than the text says.
-/

namespace Oasys

open Conversion

variable {D : Type}

/-! ### Printing -/

namespace StringBuffer

variable {s s' : StringBuffer} {text bytes : List UInt8}

theorem vappendf_ne_ok {fmt : List Conversion} (h : ∀ room, Overflows room fmt) (len : Nat)
    (x : StringBuffer × Nat × Nat) : s.vappendf fmt len ≠ .ok x := by
  intro hrun
  rw [StringBuffer.vappendf, bind_eq_ok] at hrun
  obtain ⟨b, -, hrun⟩ := hrun
  rw [bind_eq_ok] at hrun
  obtain ⟨p, -, hrun⟩ := hrun
  rw [bind_eq_ok] at hrun
  obtain ⟨nfree, -, hrun⟩ := hrun
  obtain ⟨mem, hprint⟩ := logVsnprintf_overflows (b.bytes.take p) (h (nfree - 1))
  rw [hprint, ok_bind, bind_eq_ok] at hrun
  obtain ⟨b', -, hrun⟩ := hrun
  cases hrun

theorem Holds.of_appendf (h : s.Holds text) (hrun : s.appendf [.printed bytes] = .ok s') :
    s'.Holds (text ++ bytes) := by
  by_cases hshort : bytes.length < 2 ^ 31
  · have hplain : (Call.appendf [.printed bytes]).Plain := ⟨⟨nofun, hshort, trivial⟩, hshort⟩
    have hfine := (h.run_iff hplain).1 ⟨s', hrun⟩
    obtain ⟨s₁, hs₁, hholds⟩ := h.run hfine
    obtain rfl := Except.ok.inj (hs₁.symm.trans hrun)
    exact hholds
  · have hlong : ∀ room, Overflows room [.printed bytes] := by
      intro room
      exact ⟨[], bytes, [], rfl, trivial, Nat.le_of_not_lt hshort, nofun⟩
    rw [StringBuffer.appendf, bind_eq_ok] at hrun
    obtain ⟨x, hx, -⟩ := hrun
    exact absurd hx (vappendf_ne_ok hlong 0 x)

theorem appendf_new (hnew : new 256 = .ok s) (hlen : bytes.length < 256) :
    ∃ s', s.appendf [.printed bytes] = .ok s' := by
  obtain ⟨s₁, hs₁, hholds⟩ := new_ok (show 0 < 256 by decide)
  obtain rfl := Except.ok.inj (hs₁.symm.trans hnew)
  have hcap : s₁.buf_.buf_len_ = 256 := by
    obtain rfl := Except.ok.inj hnew
    obtain ⟨-, -, hcap, -⟩ := ExpandableBuffer.new.bytes_reserve 256
    exact hcap
  have hgrowth : ∀ n < 256, growth 0 256 n = 256 := by
    intro n hn
    rw [growth, if_neg (by omega)]
  have hfree : IntType.int.conv ((256 - 0 : Nat) : Int) = 256 := by
    rw [IntType.int_conv]
    rfl
  have hfine : (Call.appendf [.printed bytes]).Fine s₁ := by
    have hlen₁ : s₁.length = 0 := hholds.len
    have hall : (expandAll [.printed bytes]).length = bytes.length := rfl
    simp only [Call.Fine, hlen₁, hcap, hall, hgrowth 0 (by decide), hgrowth _ hlen, hfree]
    refine ⟨⟨by simp, ?_, trivial⟩, by decide, by omega⟩
    show bytes.length < 2 ^ 31
    omega
  obtain ⟨s', hs', -⟩ := hholds.run hfine
  exact ⟨s', hs'⟩

end StringBuffer

/-! ### The texts -/

/-- An octet of an address, the first one being that with the number 3. -/
def octet (addr : UInt32) (i : Nat) : Nat := addr.toNat / 256 ^ i % 256

def dotted (addr : UInt32) : List UInt8 :=
  Decimal.digits (octet addr 3) ++ 46 :: (Decimal.digits (octet addr 2) ++ 46 ::
    (Decimal.digits (octet addr 1) ++ 46 :: Decimal.digits (octet addr 0)))

theorem intoaByte_eq {byte : Nat} (h : byte < 256) (cp : List UInt8) :
    intoaByte byte cp = Decimal.digits byte ++ cp := by
  have hchar : ∀ n, digitChar n = .ofNat (48 + n) := fun n => congrArg _ (Nat.add_comm n 48)
  have hone : ∀ n < 10, Decimal.digits n = [digitChar n] := by
    intro n hn
    rw [Decimal.digits_eq_if, if_pos hn, hchar]
  have hmore : ∀ n, ¬ n < 10 →
      Decimal.digits n = Decimal.digits (n / 10) ++ [digitChar (n % 10)] := by
    intro n hn
    rw [Decimal.digits_eq_if, if_neg hn, hchar]
  simp only [intoaByte]
  by_cases hten : byte < 10
  · rw [if_neg (by omega), hone byte hten, Nat.mod_eq_of_lt hten]
    rfl
  · rw [if_pos (by omega), hmore byte hten]
    by_cases hhundred : byte / 10 < 10
    · rw [if_neg (by omega), hone (byte / 10) hhundred, Nat.mod_eq_of_lt hhundred]
      rfl
    · rw [if_pos (by omega), hmore (byte / 10) hhundred, hone (byte / 10 / 10) (by omega)]
      rfl

theorem intoa_eq (addr : UInt32) : intoa addr = dotted addr := by
  have hoctet : ∀ a : UInt32, (a &&& 0xff).toNat = octet a 0 := by
    intro a
    rw [UInt32.toNat_and, octet, Nat.pow_zero, Nat.div_one]
    exact Nat.and_two_pow_sub_one_eq_mod a.toNat 8
  have hshift : ∀ (a : UInt32) (i : Nat), octet (a >>> 8) i = octet a (i + 1) := by
    intro a i
    rw [octet, octet, UInt32.toNat_shiftRight, Nat.pow_succ', ← Nat.div_div_eq_div_mul]
    exact congrArg (· / 256 ^ i % 256) (Nat.shiftRight_eq_div_pow a.toNat 8)
  have hlt : ∀ (a : UInt32) (i : Nat), octet a i < 256 := fun a i => Nat.mod_lt _ (by decide)
  simp only [intoa, intoaLoop, hoctet, hshift, intoaByte_eq (hlt _ _), dotted]
  simp

namespace OptKind

/-- The cases of a variable of bit flags that `get` names. -/
def named (cases_ : List (List UInt8 × Int)) (n : Int) : List (List UInt8 × Int) :=
  cases_.filter fun c => n = c.2 || OptValue.bitAnd n c.2

theorem named_cons (c : List UInt8 × Int) (cases_ : List (List UInt8 × Int)) (n : Int) :
    named (c :: cases_) n =
      if n = c.2 || OptValue.bitAnd n c.2 then c :: named cases_ n else named cases_ n :=
  List.filter_cons

/-- The text of a value: of an enumeration the first name of it, of bit flags the names of all
    that are set. -/
def text (fmt : DoubleFormat D) (kind : OptKind) (val : OptValue D) : List UInt8 :=
  match kind, val with
  | .bool, .bool b => if b then "true".toUTF8.toList else "false".toUTF8.toList
  | .double, .double d => fmt.print d
  | .string, .chars s => s
  | .charBuf _, .chars s => s
  | .inAddr, .inAddr addr => dotted addr
  | .enum cases_ false, .int n => ((cases_.find? fun c => n = c.2).map Prod.fst).getD []
  | .enum cases_ true, .int n => (named cases_ n).flatMap Prod.fst
  | _, .int n => decimal n
  | _, _ => []

/-- A value whose text has no zero byte in it, and is short enough for a precision. -/
def Printable (val : OptValue D) : Prop :=
  ∀ s, val = .chars s → 0 ∉ s ∧ s.length < 2 ^ 31

end OptKind

/-- No name of the cases of an option has a zero byte in it. -/
def OptKind.KeysNoZero (kind : OptKind) : Prop :=
  ∀ cases_ is_bitflag_, kind = .enum cases_ is_bitflag_ → ∀ c ∈ cases_, 0 ∉ c.1

theorem takeWhile_ne_zero {s : List UInt8} (h : 0 ∉ s) : s.takeWhile (· ≠ 0) = s := by
  rw [List.takeWhile_eq_self_iff]
  intro c hc
  simpa using ne_of_mem_of_not_mem hc h

theorem zero_notMem_digits (n : Nat) : 0 ∉ Decimal.digits n := Decimal.not_mem_digits rfl

theorem zero_notMem_decimal (n : Int) : 0 ∉ decimal n := by
  unfold decimal
  split
  · rw [List.mem_cons, not_or]
    exact ⟨by decide, zero_notMem_digits _⟩
  · exact zero_notMem_digits _

theorem zero_notMem_dotted (addr : UInt32) : 0 ∉ dotted addr := by
  simp [dotted, zero_notMem_digits]

theorem OptKind.zero_notMem_text (fmt : DoubleFormat D) {kind : OptKind} (hkeys : kind.KeysNoZero)
    {val : OptValue D} (hval : OptKind.Printable val) : 0 ∉ kind.text fmt val := by
  unfold OptKind.text
  split
  · split <;> decide +kernel
  · exact fmt.print_nul _
  · exact (hval _ rfl).1
  · exact (hval _ rfl).1
  · exact zero_notMem_dotted _
  · rename_i cases_ n
    cases hfind : cases_.find? fun c => n = c.2 with
    | none => exact List.not_mem_nil
    | some c => exact hkeys cases_ false rfl c (List.mem_of_find?_eq_some hfind)
  · rename_i cases_ n
    intro hmem
    obtain ⟨c, hc, hzero⟩ := List.mem_flatMap.1 hmem
    exact hkeys cases_ true rfl c (List.mem_of_mem_filter hc) hzero
  · exact zero_notMem_decimal _
  · exact List.not_mem_nil

/-! ### get -/

theorem getEnum_holds {cases_ : List (List UInt8 × Int)} (hkeys : ∀ c ∈ cases_, 0 ∉ c.1)
    {buf : StringBuffer} {text : List UInt8} (h : buf.Holds text) (n : Int) :
    ∃ buf', OptKind.getEnum false n cases_ buf = .ok buf' ∧
      buf'.Holds (text ++ ((cases_.find? fun c => n = c.2).map Prod.fst).getD []) := by
  induction cases_ with
  | nil => exact ⟨buf, rfl, by rwa [List.find?_nil, Option.map_none, Option.getD_none,
      List.append_nil]⟩
  | cons c cases_ ih =>
    obtain ⟨key, v⟩ := c
    by_cases hv : n = v
    · obtain ⟨buf', happend, hholds⟩ :=
        h.append_take (hkeys (key, v) List.mem_cons_self) (Nat.zero_le key.length)
      refine ⟨buf', by simp [OptKind.getEnum, hv, happend], ?_⟩
      simpa [hv] using hholds
    · obtain ⟨buf', hget, hholds⟩ := ih (fun c hc => hkeys c (List.mem_cons_of_mem _ hc))
      refine ⟨buf', by simp [OptKind.getEnum, hv, hget], ?_⟩
      simpa [hv] using hholds

theorem getFlags_holds {cases_ : List (List UInt8 × Int)} (hkeys : ∀ c ∈ cases_, 0 ∉ c.1)
    {buf : StringBuffer} {text : List UInt8} (h : buf.Holds text) (n : Int) :
    ∃ buf', OptKind.getEnum true n cases_ buf = .ok buf' ∧
      buf'.Holds (text ++ (OptKind.named cases_ n).flatMap Prod.fst) := by
  induction cases_ generalizing buf text with
  | nil => exact ⟨buf, rfl, by rwa [OptKind.named, List.filter_nil, List.flatMap_nil,
      List.append_nil]⟩
  | cons c cases_ ih =>
    obtain ⟨key, v⟩ := c
    have hrest : ∀ c ∈ cases_, 0 ∉ c.1 := fun c hc => hkeys c (List.mem_cons_of_mem _ hc)
    by_cases hv : (n = v || OptValue.bitAnd n v) = true
    · obtain ⟨buf₁, happend, hholds₁⟩ :=
        h.append_take (hkeys (key, v) List.mem_cons_self) (Nat.zero_le key.length)
      rw [if_pos rfl] at hholds₁
      obtain ⟨buf', hget, hholds⟩ := ih hrest hholds₁
      refine ⟨buf', ?_, ?_⟩
      · rw [OptKind.getEnum, Bool.true_and, if_pos hv, happend, ok_bind, if_pos rfl, hget]
      · rwa [OptKind.named_cons, if_pos hv, List.flatMap_cons, ← List.append_assoc]
    · obtain ⟨buf', hget, hholds⟩ := ih hrest h
      refine ⟨buf', ?_, ?_⟩
      · rw [OptKind.getEnum, Bool.true_and, if_neg hv, hget]
      · rwa [OptKind.named_cons, if_neg hv]

/-- What `get` of an option leaves in an empty buffer, if it returns. -/
theorem OptKind.get_holds {fmt : DoubleFormat D} {kind : OptKind} (hkeys : kind.KeysNoZero)
    {val : OptValue D} (hval : OptKind.Printable val) {buf buf' : StringBuffer} (h : buf.Holds [])
    (hget : kind.get fmt val buf = .ok buf') : buf'.Holds (kind.text fmt val) := by
  unfold OptKind.get at hget
  split at hget
  · split at hget
    · rename_i hb
      simpa [OptKind.text, hb] using h.of_appendf hget
    · rename_i hb
      simpa [OptKind.text, hb] using h.of_appendf hget
  · exact h.of_appendf hget
  · exact h.of_appendf hget
  · exact h.of_appendf hget
  · exact h.of_appendf hget
  · exact h.of_appendf hget
  · exact h.of_appendf hget
  · exact h.of_appendf hget
  · exact h.of_appendf hget
  · rw [takeWhile_ne_zero (hval _ rfl).1] at hget
    exact h.of_appendf hget
  · rename_i s
    obtain ⟨hzero, hshort⟩ := hval s rfl
    dsimp only at hget
    rw [IntType.int_conv_of_lt hshort, if_neg (by omega), Int.toNat_natCast, List.take_length,
      takeWhile_ne_zero hzero] at hget
    exact h.of_appendf hget
  · rw [intoa_eq] at hget
    exact h.of_appendf hget
  · rename_i cases_ is_bitflag_ n
    cases is_bitflag_ with
    | false =>
      obtain ⟨buf₁, hbuf₁, hholds⟩ := getEnum_holds (hkeys cases_ false rfl) h n
      obtain rfl := Except.ok.inj (hbuf₁.symm.trans hget)
      exact hholds
    | true =>
      obtain ⟨buf₁, hbuf₁, hholds⟩ := getFlags_holds (hkeys cases_ true rfl) h n
      obtain rfl := Except.ok.inj (hbuf₁.symm.trans hget)
      exact hholds
  · cases hget

/-! ### The numbers -/

theorem strtoul_lt (val : List UInt8) : (strtoulBase0 val).1 < 2 ^ 64 := by
  unfold strtoulBase0
  dsimp only
  split <;> omega

theorem u64_conv_bounds (z : Int) : 0 ≤ IntType.u64.conv z ∧ IntType.u64.conv z < 2 ^ 64 := by
  rw [IntType.u64_conv]
  omega

namespace NumOpt

/-- A number that is stored is one of 32 bits with a sign, or of 64 bits without one. -/
theorem set_bounds {o : NumOpt} {val : List UInt8} {len : Nat} {n : Int}
    (h : o.set val len = some n) : -(2 ^ 31) ≤ n ∧ n < 2 ^ 64 := by
  have hlow : ∀ limit, setUInt limit val len = some n → -(2 ^ 31) ≤ n ∧ n < 2 ^ 64 := by
    intro limit h
    have hconv := IntType.u32_conv (strtoulBase0 val).1
    simp only [setUInt] at h
    split at h
    · cases h
    · split at h
      · cases h
      · split at h
        · cases h
        · obtain rfl := Option.some.inj h
          omega
  have hlt := strtoul_lt val
  cases o with
  | int =>
    have hconv := IntType.int_conv (strtolBase0 val).1
    simp only [NumOpt.set, IntOpt.set] at h
    split at h
    · cases h
    · split at h
      · cases h
      · obtain rfl := Option.some.inj h
        omega
  | uint => exact hlow _ h
  | uint16 => exact hlow _ h
  | uint8 => exact hlow _ h
  | uint64 =>
    simp only [NumOpt.set, UInt64Opt.set] at h
    split at h
    · cases h
    · split at h
      · cases h
      · obtain rfl := Option.some.inj h
        omega
  | size =>
    simp only [NumOpt.set, SizeOpt.set] at h
    split at h
    · cases h
    · split at h
      · cases h
      · split at h
        · split at h
          · cases h
          · split at h
            · cases h
            · obtain ⟨factor, -, rfl⟩ := Option.map_eq_some_iff.1 h
              have hconv := u64_conv_bounds ((strtoulBase0 val).1 * factor)
              omega
        · obtain rfl := Option.some.inj h
          omega
  | rate =>
    simp only [NumOpt.set, RateOpt.set] at h
    split at h
    · cases h
    · split at h
      · split at h
        · cases h
        · rename_i u _
          obtain rfl := Option.some.inj h
          have hconv := u64_conv_bounds ((strtoulBase0 val).1 * u.2)
          omega
      · obtain rfl := Option.some.inj h
        omega

end NumOpt

theorem length_decimal {n : Int} (hge : -(2 ^ 31) ≤ n) (hlt : n < 2 ^ 64) :
    (decimal n).length < 256 := by
  have hdigits : ∀ k < 10 ^ 20, (Decimal.digits k).length ≤ 20 := fun k hk =>
    (Decimal.length_digits_le_iff (by decide)).2 hk
  unfold decimal
  split
  · have hlen := hdigits (-n).toNat (by omega)
    rw [List.length_cons]
    omega
  · have hlen := hdigits n.toNat (by omega)
    omega

/-! ### The value of a text -/

/-- The text is an abbreviation of one of the words, in either case. -/
def Abbreviates (text : List UInt8) (words : List (List UInt8)) : Prop :=
  ∃ word ∈ words, text.map StdString.tolower <+: word

namespace OptKind

def words : Bool → List (List UInt8)
  | true => ["t".toUTF8.toList, "true".toUTF8.toList, "1".toUTF8.toList]
  | false => ["f".toUTF8.toList, "false".toUTF8.toList, "0".toUTF8.toList]

/-- The option as a numeric one. -/
def numOpt : OptKind → Option NumOpt
  | .int => some .int
  | .uint => some .uint
  | .uint64 => some .uint64
  | .uint16 => some .uint16
  | .uint8 => some .uint8
  | .size => some .size
  | .rate => some .rate
  | _ => none

theorem numOpt_kind (o : NumOpt) : o.kind.numOpt = some o := by
  cases o <;> rfl

theorem eq_kind_of_numOpt {kind : OptKind} {o : NumOpt} (h : kind.numOpt = some o) :
    kind = o.kind := by
  cases kind <;> cases h <;> rfl

/-- The value in a variable that is no number is that of a text. An abbreviation of words for
    both truth values is true; bit flags are in the variable that has their bits, since they can
    be set one after another. -/
def HasOther (env : Platform D) (kind : OptKind) (text : List UInt8) (val : OptValue D) : Prop :=
  match kind with
  | .bool => ∃ b, val = .bool b ∧ Abbreviates text (words b) ∧
      (b = false → ¬ Abbreviates text (words true))
  | .double => (env.strtod text).2 = text.length ∧ val = .double (env.strtod text).1
  | .inAddr => ∃ addr, env.gethostbyname text = some addr ∧ val = .inAddr addr
  | .enum cases_ is_bitflag_ => ∃ n, val = .int n ∧
      ∃ c, (cases_.find? fun c => strcasecmp c.1 text) = some c ∧
        if is_bitflag_ then BitVec.ofInt 32 n &&& BitVec.ofInt 32 c.2 = BitVec.ofInt 32 c.2
        else n = c.2
  | _ => val = .chars text

/-- The value in a variable is that of a text. A number is the one that the text denotes. -/
def HasValue (env : Platform D) (kind : OptKind) (text : List UInt8) (val : OptValue D) : Prop :=
  match kind.numOpt with
  | some o => ∃ n, val = .int n ∧ o.wanted text = some n
  | none => HasOther env kind text val

theorem strncasecmp_length_iff {text word : List UInt8}
    (hword : word.map StdString.tolower = word) :
    strncasecmp text word text.length = true ↔ text.map StdString.tolower <+: word := by
  rw [strncasecmp, decide_eq_true_iff, List.take_length, List.map_take, hword,
    List.prefix_iff_eq_take, List.length_map]

theorem setBool_eq_some {text : List UInt8} {b : Bool}
    (h : setBool (some text) text.length = some b) :
    Abbreviates text (words b) ∧ (b = false → ¬ Abbreviates text (words true)) := by
  have hlower : ∀ b, ∀ word ∈ words b, word.map StdString.tolower = word := by decide +kernel
  have hany : ∀ b, Abbreviates text (words b) ↔
      ∃ word ∈ words b, strncasecmp text word text.length = true := by
    intro b
    constructor
    · intro ⟨word, hmem, hprefix⟩
      exact ⟨word, hmem, (strncasecmp_length_iff (hlower b word hmem)).2 hprefix⟩
    · intro ⟨word, hmem, hcmp⟩
      exact ⟨word, hmem, (strncasecmp_length_iff (hlower b word hmem)).1 hcmp⟩
  rw [hany, hany]
  simp only [words, List.mem_cons, List.not_mem_nil, or_false, exists_eq_or_imp, exists_eq_left]
  unfold setBool at h
  dsimp only at h
  split at h
  · rename_i htrue
    obtain rfl := Option.some.inj h
    refine ⟨?_, fun h => nomatch h⟩
    simpa [or_assoc] using htrue
  · split at h
    · rename_i htrue hfalse
      obtain rfl := Option.some.inj h
      refine ⟨by simpa [or_assoc] using hfalse, fun _ => by simpa [or_assoc] using htrue⟩
    · cases h

theorem hasValue_kind_iff {env : Platform D} {o : NumOpt} {text : List UInt8}
    (hmem : text.length < 2 ^ 64) {n : Int} (hset : o.set text text.length = some n) :
    HasValue env o.kind text (.int n) ↔ o.Careful text text.length := by
  rw [← o.set_eq_iff (Nat.le_refl _) hmem, List.take_length, hset, HasValue, numOpt_kind]
  dsimp only
  constructor
  · intro ⟨m, hm, hwanted⟩
    rw [hwanted, OptValue.int.inj hm]
  · intro hwanted
    exact ⟨n, rfl, hwanted.symm⟩

theorem bitOr_and (x y : Int) :
    BitVec.ofInt 32 (OptValue.bitOr x y) &&& BitVec.ofInt 32 y = BitVec.ofInt 32 y := by
  rw [OptValue.bitOr, BitVec.ofInt_toInt]
  ext i hi
  rw [BitVec.getElem_and, BitVec.getElem_or]
  cases (BitVec.ofInt 32 x)[i] <;> cases (BitVec.ofInt 32 y)[i] <;> rfl

/-- Every other value that has been parsed and stored is that of the text. -/
theorem hasValue_of_setValue {env : Platform D} {kind : OptKind} (hkind : kind.numOpt = none)
    {text : List UInt8} {old new val : OptValue D}
    (hset : kind.setValue env text text.length = some new) (hstore : old.store new = .ok val) :
    HasValue env kind text val := by
  rw [HasValue, hkind]
  dsimp only
  cases kind with
  | bool =>
    obtain ⟨b, hb, rfl⟩ := Option.map_eq_some_iff.1 hset
    obtain rfl := Except.ok.inj hstore
    exact ⟨b, rfl, setBool_eq_some hb⟩
  | double =>
    simp only [setValue] at hset
    split at hset
    · cases hset
    · split at hset
      · cases hset
      · rename_i hend
        obtain rfl := Option.some.inj hset
        obtain rfl := Except.ok.inj hstore
        exact ⟨not_not.1 hend, rfl⟩
  | string =>
    obtain rfl := Option.some.inj hset
    obtain rfl := Except.ok.inj hstore
    exact congrArg _ List.take_length
  | charBuf buflen_ =>
    simp only [setValue] at hset
    split at hset
    · cases hset
    · obtain rfl := Option.some.inj hset
      obtain rfl := Except.ok.inj hstore
      exact congrArg _ List.take_length
  | inAddr =>
    obtain ⟨addr, haddr, rfl⟩ := Option.map_eq_some_iff.1 hset
    obtain rfl := Except.ok.inj hstore
    exact ⟨addr, haddr, rfl⟩
  | enum cases_ is_bitflag_ =>
    obtain ⟨c, hc, rfl⟩ := Option.map_eq_some_iff.1 hset
    cases is_bitflag_ with
    | false =>
      obtain rfl := Except.ok.inj hstore
      exact ⟨c.2, rfl, c, hc, rfl⟩
    | true =>
      cases old with
      | int x =>
        obtain rfl := Except.ok.inj hstore
        exact ⟨_, rfl, c, hc, bitOr_and x c.2⟩
      | _ => cases hstore
  | _ => cases hkind

theorem printable_of_setValue {env : Platform D} {kind : OptKind} {val : TclString}
    {old new v : OptValue D} (hset : kind.setValue env val.text val.text.length = some new)
    (hstore : old.store new = .ok v) : Printable v := by
  rintro s rfl
  have hnew : new = .chars s := by
    cases new with
    | bits n =>
      cases old with
      | int x => cases hstore
      | _ => cases hstore
    | _ => exact Except.ok.inj hstore
  subst hnew
  have htext : s = val.text.take val.text.length := by
    cases kind with
    | string => exact (OptValue.chars.inj (Option.some.inj hset)).symm
    | charBuf buflen_ =>
      simp only [setValue] at hset
      split at hset
      · cases hset
      · exact (OptValue.chars.inj (Option.some.inj hset)).symm
    | double =>
      simp only [setValue] at hset
      split at hset
      · cases hset
      · split at hset
        · cases hset
        · cases hset
    | enum cases_ is_bitflag_ =>
      obtain ⟨c, -, hc⟩ := Option.map_eq_some_iff.1 hset
      cases is_bitflag_ <;> cases hc
    | _ =>
      obtain ⟨x, -, hx⟩ := Option.map_eq_some_iff.1 hset
      cases hx
  rw [htext, List.take_length]
  exact ⟨val.no_zero, val.short⟩

end OptKind

/-! ### The steps of the command -/

namespace TclState

variable {s s' : TclState D}

theorem setResult_of_reads {mem text : List UInt8} (h : StringBuffer.Reads mem text)
    (hzero : 0 ∉ text) : s.setResult mem = .ok { s with result := text } := by
  obtain ⟨hmem, hreads⟩ := h
  have htake : mem.take (mem.idxOf 0) = mem.takeWhile (· ≠ 0) := by
    clear hreads
    induction mem with
    | nil => rfl
    | cons c mem ih =>
      by_cases hc : c = 0
      · subst hc
        simp
      · have hrest : 0 ∈ mem := by
          rcases List.mem_cons.1 hmem with heq | hrest
          · exact absurd heq.symm hc
          · exact hrest
        rw [List.idxOf_cons_ne _ hc, List.take_succ_cons, ih hrest, List.takeWhile_cons_of_pos]
        simpa using hc
  have hlen : strlen mem = .ok (mem.idxOf 0) := by rw [strlen, if_pos hmem]; rfl
  rw [TclState.setResult, hlen, ok_bind, htake, hreads, takeWhile_ne_zero hzero]
  rfl

theorem setResult_vals {mem : List UInt8} (h : s.setResult mem = .ok s') : s'.vals = s.vals := by
  rw [TclState.setResult, bind_eq_ok] at h
  obtain ⟨len, -, h⟩ := h
  obtain rfl := Except.ok.inj h
  rfl

theorem resultf_vals {fmt : List Conversion} (h : s.resultf fmt = .ok s') : s'.vals = s.vals := by
  rw [TclState.resultf, bind_eq_ok] at h
  obtain ⟨buf, -, h⟩ := h
  rw [bind_eq_ok] at h
  obtain ⟨buf', -, h⟩ := h
  rw [bind_eq_ok] at h
  obtain ⟨x, -, h⟩ := h
  exact setResult_vals h

theorem assign_ok {opt : BoundOpt} {new : OptValue D} (h : s.assign opt new = .ok s') :
    ∃ v, (s.vals opt.valp_).store new = .ok v ∧
      s'.vals = Function.update s.vals opt.valp_ v := by
  rw [TclState.assign, bind_eq_ok] at h
  obtain ⟨v, hstore, h⟩ := h
  obtain rfl := Except.ok.inj h
  exact ⟨v, hstore, rfl⟩

end TclState

namespace TclCommand

variable {env : Platform D} {fmt : DoubleFormat D} {cmd : TclCommand D} {objv : List TclString}
  {name sub var val : TclString} {opt : BoundOpt} {s s' : TclState D} {ret : TclStatus}

theorem getVar_ok (h : getVar fmt opt s = .ok (ret, s')) :
    ret = .ok ∧ s'.vals = s.vals ∧ (OptKind.Printable (s.vals opt.valp_) →
      s'.result = opt.kind.text fmt (s.vals opt.valp_)) := by
  obtain ⟨buf, hnew, hbuf⟩ := StringBuffer.new_ok (show 0 < 256 by decide)
  rw [getVar, hnew, ok_bind, bind_eq_ok] at h
  obtain ⟨buf', hget, h⟩ := h
  rw [bind_eq_ok] at h
  obtain ⟨⟨buf₂, mem⟩, hcStr, h⟩ := h
  rw [bind_eq_ok] at h
  obtain ⟨s₁, hresult, h⟩ := h
  cases h
  refine ⟨rfl, TclState.setResult_vals hresult, ?_⟩
  intro hval
  have hholds := OptKind.get_holds opt.keys_no_zero hval hbuf hget
  obtain ⟨buf₃, mem', hcStr', -, -, hreads⟩ := hholds.cStr
  cases hcStr.symm.trans hcStr'
  have hset := TclState.setResult_of_reads (s := s) hreads
    (OptKind.zero_notMem_text fmt opt.keys_no_zero hval)
  cases hresult.symm.trans hset
  rfl

theorem getVar_number {o : NumOpt} (hkind : opt.kind = o.kind) {n : Int}
    (hval : s.vals opt.valp_ = .int n) (hge : -(2 ^ 31) ≤ n) (hlt : n < 2 ^ 64) :
    ∃ s', getVar fmt opt s = .ok (.ok, s') := by
  obtain ⟨buf, hnew, hbuf⟩ := StringBuffer.new_ok (show 0 < 256 by decide)
  obtain ⟨buf', happend⟩ := StringBuffer.appendf_new hnew (length_decimal hge hlt)
  obtain ⟨buf₂, mem, hcStr, -, -, hreads⟩ := (hbuf.of_appendf happend).cStr
  rw [List.nil_append] at hreads
  have hget : opt.kind.get fmt (s.vals opt.valp_) buf = .ok buf' := by
    rw [hkind, hval, ← happend]
    cases o <;> rfl
  refine ⟨{ s with result := decimal n }, ?_⟩
  rw [getVar, hnew, ok_bind, hget, ok_bind, hcStr, ok_bind]
  dsimp only
  rw [TclState.setResult_of_reads hreads (zero_notMem_decimal n), ok_bind]
  rfl

/-- How `cmd_set` with a value ends: the option does not take the value, and nothing changes; or
    it has been stored, and the hook refuses it; or the hook accepts it. -/
theorem setVar_ok (h : cmd.setVar env fmt name var val opt s = .ok (ret, s')) :
    (ret = .error ∧ s'.vals = s.vals) ∨
      ∃ new s₁, opt.kind.setValue env val.text val.text.length = some new ∧
        s.assign opt new = .ok s₁ ∧ s'.vals = s₁.vals ∧
        ((ret = .error ∧ (cmd.validate var.text val.text opt s₁).1 ≠ 0) ∨
          (ret = .ok ∧ (cmd.validate var.text val.text opt s₁).1 = 0 ∧
            s'.result = opt.kind.text fmt (s'.vals opt.valp_))) := by
  unfold setVar at h
  split at h
  · rw [bind_eq_ok] at h
    obtain ⟨s₁, hresultf, h⟩ := h
    cases h
    exact .inl ⟨rfl, TclState.resultf_vals hresultf⟩
  · rename_i new hnew
    rw [bind_eq_ok] at h
    obtain ⟨s₁, hassign, h⟩ := h
    refine .inr ⟨new, s₁, hnew, hassign, ?_⟩
    dsimp only at h
    split at h
    · rename_i hret
      cases h
      exact ⟨rfl, .inl ⟨rfl, hret⟩⟩
    · rename_i hret
      obtain ⟨hok, hvals, hresult⟩ := getVar_ok h
      obtain ⟨v, hstore, hassigned⟩ := TclState.assign_ok hassign
      refine ⟨hvals, .inr ⟨hok, not_not.1 hret, ?_⟩⟩
      rw [hvals]
      apply hresult
      show OptKind.Printable (s₁.vals opt.valp_)
      rw [hassigned, Function.update_self]
      exact OptKind.printable_of_setValue hnew hstore

theorem cmdSet_eq (hopt : cmd.bindings_.lookup var.text = some opt) :
    cmd.cmdSet env fmt [name, sub, var, val] s = cmd.setVar env fmt name var val opt s := by
  simp [cmdSet, hopt]

/-- How `cmd_set` ends: with an error before a variable is touched, or as it does without a value,
    or with one. -/
theorem cmdSet_ok (h : cmd.cmdSet env fmt objv s = .ok (ret, s')) :
    (ret = .error ∧ s'.vals = s.vals) ∨
      (objv.length = 3 ∧ ret = .ok ∧ s'.vals = s.vals) ∨
      ∃ name sub var val opt, objv = [name, sub, var, val] ∧
        cmd.bindings_.lookup var.text = some opt ∧
        cmd.setVar env fmt name var val opt s = .ok (ret, s') := by
  unfold cmdSet at h
  rw [bind_eq_ok] at h
  obtain ⟨_, -, h⟩ := h
  split at h
  · rw [bind_eq_ok] at h
    obtain ⟨s₁, hresultf, h⟩ := h
    cases h
    exact .inl ⟨rfl, TclState.resultf_vals hresultf⟩
  · rename_i hnum
    simp only [Bool.or_eq_true, decide_eq_true_eq, not_or, not_lt] at hnum
    split at h
    · rename_i name sub var more
      split at h
      · rw [bind_eq_ok] at h
        obtain ⟨s₁, hresultf, h⟩ := h
        cases h
        exact .inl ⟨rfl, TclState.resultf_vals hresultf⟩
      · rename_i opt hopt
        match more with
        | [] =>
          obtain ⟨hok, hvals, -⟩ := getVar_ok h
          exact .inr (.inl ⟨rfl, hok, hvals⟩)
        | [val] => exact .inr (.inr ⟨name, sub, var, val, opt, rfl, hopt, h⟩)
        | _ :: _ :: _ =>
          simp only [List.length_cons] at hnum
          omega
    · cases h

/-! ### The property -/

/-- If `cmd_set` fails, every bound variable has the value it had before. If it succeeds with a
    value, the variable has that value, and the result is its text. -/
def Meets (env : Platform D) (fmt : DoubleFormat D) (cmd : TclCommand D) (objv : List TclString)
    (s : TclState D) : Prop :=
  ∀ ret s', cmd.cmdSet env fmt objv s = .ok (ret, s') →
    match ret with
    | .error => ∀ name opt, cmd.bindings_.lookup name = some opt →
        s'.vals opt.valp_ = s.vals opt.valp_
    | .ok => ∀ var val opt, objv[2]? = some var → objv[3]? = some val →
        cmd.bindings_.lookup var.text = some opt →
        opt.kind.HasValue env val.text (s'.vals opt.valp_) ∧
          s'.result = opt.kind.text fmt (s'.vals opt.valp_)

/-- Where a value is given that the option takes: the hook accepts it, and a numeric option reads
    its text as it should; or the hook refuses it, and the variable had it before. -/
def Kept (env : Platform D) (cmd : TclCommand D) (objv : List TclString) (s : TclState D) : Prop :=
  ∀ name sub var val opt new s₁, objv = [name, sub, var, val] →
    cmd.bindings_.lookup var.text = some opt →
    opt.kind.setValue env val.text val.text.length = some new → s.assign opt new = .ok s₁ →
    if (cmd.validate var.text val.text opt s₁).1 = 0 then
      ∀ o, opt.kind.numOpt = some o → o.Careful val.text val.text.length
    else (s.vals opt.valp_).store new = .ok (s.vals opt.valp_)

/-- A value that has been parsed and stored is that of the text, if a number is read as it
    should. -/
theorem hasValue_of_assign {new : OptValue D} {s₁ : TclState D}
    (hset : opt.kind.setValue env val.text val.text.length = some new)
    (hassign : s.assign opt new = .ok s₁)
    (hcareful : ∀ o, opt.kind.numOpt = some o → o.Careful val.text val.text.length) :
    opt.kind.HasValue env val.text (s₁.vals opt.valp_) := by
  obtain ⟨v, hstore, hvals⟩ := TclState.assign_ok hassign
  rw [hvals, Function.update_self]
  cases hnum : opt.kind.numOpt with
  | none => exact OptKind.hasValue_of_setValue hnum hset hstore
  | some o =>
    have hkind := OptKind.eq_kind_of_numOpt hnum
    rw [hkind, NumOpt.setValue_kind] at hset
    obtain ⟨n, hn, rfl⟩ := Option.map_eq_some_iff.1 hset
    obtain rfl := Except.ok.inj hstore
    rw [hkind]
    have hshort := val.short
    exact (OptKind.hasValue_kind_iff (by omega) hn).2 (hcareful o hnum)

/-- `set` leaves the variables alone when it fails, and leaves the value when it succeeds, exactly
    where the condition holds. -/
theorem meets_iff_kept (env : Platform D) (fmt : DoubleFormat D) (cmd : TclCommand D)
    (objv : List TclString) (s : TclState D) :
    Meets env fmt cmd objv s ↔ Kept env cmd objv s := by
  constructor
  · intro h name sub var val opt new s₁ hobjv hopt hset hassign
    subst hobjv
    obtain ⟨v, hstore, hvals⟩ := TclState.assign_ok hassign
    have hval : s₁.vals opt.valp_ = v := by rw [hvals, Function.update_self]
    have hrun : cmd.cmdSet env fmt [name, sub, var, val] s =
        cmd.setVar env fmt name var val opt s := cmdSet_eq hopt
    simp only [setVar, hset, hassign, ok_bind] at hrun
    split
    · rename_i hret
      intro o hnum
      have hkind := OptKind.eq_kind_of_numOpt hnum
      rw [hkind, NumOpt.setValue_kind] at hset
      obtain ⟨n, hn, rfl⟩ := Option.map_eq_some_iff.1 hset
      obtain rfl := Except.ok.inj hstore
      obtain ⟨hge, hlt⟩ := NumOpt.set_bounds hn
      rw [if_neg (not_not.2 hret)] at hrun
      obtain ⟨s', hs'⟩ : ∃ s', getVar fmt opt
          { s₁ with result := (cmd.validate var.text val.text opt s₁).2 } = .ok (.ok, s') :=
        getVar_number hkind hval hge hlt
      rw [hs'] at hrun
      obtain ⟨hvalue, -⟩ := h .ok s' hrun var val opt rfl rfl hopt
      obtain ⟨-, hvals', -⟩ := getVar_ok hs'
      rw [hvals', hval, hkind] at hvalue
      have hshort := val.short
      exact (OptKind.hasValue_kind_iff (by omega) hn).1 hvalue
    · rename_i hret
      rw [if_pos hret] at hrun
      have hsame : s₁.vals opt.valp_ = s.vals opt.valp_ := h .error _ hrun var.text opt hopt
      rw [hstore, ← hsame, hval]
  · intro h ret s' hrun
    rcases cmdSet_ok hrun with ⟨rfl, hvals⟩ | ⟨hlen, rfl, -⟩ |
      ⟨name, sub, var, val, opt, hobjv, hopt, hsetVar⟩
    · intro name opt hopt
      rw [hvals]
    · intro var val opt hvar hval
      rw [List.getElem?_eq_none (by omega)] at hval
      cases hval
    · rcases setVar_ok hsetVar with ⟨rfl, hvals⟩ | ⟨new, s₁, hset, hassign, hvals, hend⟩
      · intro name opt hopt
        rw [hvals]
      · have hkept := h name sub var val opt new s₁ hobjv hopt hset hassign
        rcases hend with ⟨rfl, hret⟩ | ⟨rfl, hret, hresult⟩
        · -- the value that the hook refuses was there before
          rw [if_neg hret] at hkept
          obtain ⟨v, hstore, hassigned⟩ := TclState.assign_ok hassign
          obtain rfl := Except.ok.inj (hkept.symm.trans hstore)
          intro name' opt' hopt'
          rw [hvals, hassigned, Function.update_eq_self]
        · rw [if_pos hret] at hkept
          intro var' val' opt' hvar' hval' hopt'
          subst hobjv
          cases hvar'
          cases hval'
          obtain rfl := Option.some.inj (hopt.symm.trans hopt')
          refine ⟨?_, hresult⟩
          rw [hvals]
          exact hasValue_of_assign hset hassign hkept

/-- An option for a port. -/
def portOpt : BoundOpt where
  longopt_ := "port".toUTF8.toList
  kind := .uint16
  valp_ := 0
  setp_ := none
  keys_no_zero := fun _ _ h => nomatch h

def portCommand : TclCommand Unit where
  bindings_ := AList.insert "port".toUTF8.toList portOpt ∅
  validate _ val _ s := (if val = "80".toUTF8.toList then 0 else -1, s.result)

/-- The arguments of `net set port 81`. -/
def portArgs : List TclString :=
  [⟨"net".toUTF8.toList, by decide +kernel, by decide +kernel⟩,
    ⟨"set".toUTF8.toList, by decide +kernel, by decide +kernel⟩,
    ⟨"port".toUTF8.toList, by decide +kernel, by decide +kernel⟩,
    ⟨"81".toUTF8.toList, by decide +kernel, by decide +kernel⟩]

/-- The port was 80, and it is 81 when the hook has refused that. -/
theorem not_meets : ¬ ∀ (D : Type) (env : Platform D) (fmt : DoubleFormat D) (cmd : TclCommand D)
    (objv : List TclString) (s : TclState D), Meets env fmt cmd objv s := by
  intro h
  let env : Platform Unit := ⟨fun _ => ((), 0), fun _ => none⟩
  let fmt : DoubleFormat Unit := ⟨fun _ => [], fun _ => List.not_mem_nil⟩
  let s : TclState Unit := ⟨fun _ => .int 80, fun _ => false, []⟩
  have hopt : portCommand.bindings_.lookup "port".toUTF8.toList = some portOpt :=
    AList.lookup_insert _
  have hset : portOpt.kind.setValue env "81".toUTF8.toList "81".toUTF8.toList.length =
      some (.int 81) := by decide +kernel
  have hval : ("81".toUTF8.toList : List UInt8) ≠ "80".toUTF8.toList := by decide +kernel
  have hrun : portCommand.cmdSet env fmt portArgs s =
      .ok (.error, { s with vals := Function.update s.vals 0 (.int 81) }) := by
    rw [portArgs, cmdSet_eq hopt, setVar, hset]
    simp only [portCommand, if_neg hval]
    rfl
  have hsame := h Unit env fmt portCommand portArgs s .error _ hrun _ portOpt hopt
  cases hsame

end TclCommand

end Oasys
