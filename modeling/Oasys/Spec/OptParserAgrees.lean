import Oasys.ForStd.UntilRefused
import Oasys.Spec.OptParserCorrect
import Oasys.Spec.OptionsCorrect

/-!
# The entry points of OptParser

`parse` of a string walks the string and gives each option what is left of it, with a length;
`parse` of a vector gives it the argument. Both do the same exactly if the string does not begin
with white space, no option reads on behind its value, and the vector's `invalidp` is there when
an argument is refused (`parse_agrees_iff`).
-/

namespace Oasys

variable {D σ : Type}

/-- `strtod` looks at what it reads, and does not read on over white space. -/
structure Platform.ReadsNumbers (env : Platform D) : Prop where
  take : ∀ str k, (env.strtod str).2 ≤ k → env.strtod (str.take k) = env.strtod str
  append : ∀ str w rest, (env.strtod str).2 ≠ 0 → isspace w = true →
    env.strtod (str ++ w :: rest) = env.strtod str

/-! ### A value with something behind it -/

/-- The option reads the value in the same way with something behind it: an enumeration and a host
    name are compared with all of it, and a rate that has no number of its own must not find one
    with a unit there. -/
def ReadsAlike (env : Platform D) (val behind : List UInt8) : OptKind → Prop
  | .enum cases_ _ =>
    (cases_.find? fun c => strcasecmp c.1 (val ++ behind)).map Prod.snd =
      (cases_.find? fun c => strcasecmp c.1 val).map Prod.snd
  | .inAddr => env.gethostbyname (val ++ behind) = env.gethostbyname val
  | .rate => val.length < (Scan.ofString (val ++ behind)).len → ∀ u ∈ RateOpt.units,
      strcasecmp ((val ++ behind).drop (Scan.ofString (val ++ behind)).len) u.1 = false
  | _ => True

/-- A number is read in the same way with white space behind it, or there is none and one is read
    behind the white space. -/
theorem ofString_append_cases (val : List UInt8) {w : UInt8} (hw : isspace w = true)
    (rest : List UInt8) :
    Scan.ofString (val ++ w :: rest) = Scan.ofString val ∨
      (Scan.ofString val).len = 0 ∧ val.length < (Scan.ofString (val ++ w :: rest)).len := by
  by_cases hpos : (Scan.ofString val).len = 0
  · by_cases hle : (Scan.ofString (val ++ w :: rest)).len ≤ val.length
    · have htake := Scan.ofString_take hle
      rw [List.take_left] at htake
      exact .inl htake.symm
    · exact .inr ⟨hpos, by omega⟩
  · exact .inl (Scan.ofString_append hpos hw rest)

namespace NumOpt

theorem store_congr {val val' : List UInt8} (h : Scan.ofString val' = Scan.ofString val)
    (o : NumOpt) : o.store val' = o.store val := by
  have hl : strtolBase0 val' = strtolBase0 val := by simp only [strtolBase0, h]
  have hul : strtoulBase0 val' = strtoulBase0 val := by simp only [strtoulBase0, h]
  cases o with
  | int => rw [store, store, hl]
  | uint64 | size | rate => rw [store, store, hul]
  | uint | uint16 | uint8 => rw [store, store, storeLow, storeLow, hul]

theorem set_of_zero (o : NumOpt) {val : List UInt8} {len : Nat} (hlen : len ≠ 0)
    (hzero : (Scan.ofString val).len = 0) : o.set val len = none := by
  by_cases hrate : o = .rate
  · rw [hrate, set_rate, if_pos (.inl hzero)]
  · by_cases hsize : o = .size
    · rw [hsize, set_size, if_neg hlen, if_pos hzero]
    · rw [set_of_plain hsize hrate, if_neg hlen, if_pos (by omega)]

theorem set_append_of_eq (o : NumOpt) {val behind : List UInt8} (hmem : val.length < 2 ^ 64)
    (h : Scan.ofString (val ++ behind) = Scan.ofString val) :
    o.set (val ++ behind) val.length = o.set val val.length := by
  have hle := Scan.ofString_le val
  have hstore := store_congr h o
  have hul : strtoulBase0 (val ++ behind) = strtoulBase0 val := by simp only [strtoulBase0, h]
  by_cases hrate : o = .rate
  · subst hrate
    have hunitlen : (IntType.u64.conv ((val.length : Int) - (Scan.ofString val).len)).toNat =
        (val.drop (Scan.ofString val).len).length := by
      rw [IntType.u64_conv, List.length_drop]
      omega
    have hcmp : ∀ u : List UInt8 × Nat,
        strncasecmp ((val ++ behind).drop (Scan.ofString val).len) u.1
          (val.drop (Scan.ofString val).len).length =
        strncasecmp (val.drop (Scan.ofString val).len) u.1
          (val.drop (Scan.ofString val).len).length := by
      intro u
      unfold strncasecmp
      rw [List.drop_append_of_le_length hle, List.take_left, List.take_length]
    rw [set_rate, set_rate, hstore, hul, h, hunitlen]
    simp only [hcmp]
  · by_cases hsize : o = .size
    · subst hsize
      rw [set_size, set_size, hstore, hul, h]
      by_cases hlt : (Scan.ofString val).len < val.length
      · rw [List.getElem?_append_left hlt]
      · have heq : (Scan.ofString val).len = val.length := by omega
        simp [heq]
    · rw [set_of_plain hsize hrate, set_of_plain hsize hrate, hstore, h]

theorem set_append (o : NumOpt) {val behind : List UInt8} (hne : val ≠ [])
    (hmem : (val ++ behind).length < 2 ^ 64) (hbehind : ∀ c ∈ behind.head?, isspace c = true) :
    o.set (val ++ behind) val.length = o.set val val.length ↔
      (o = .rate → val.length < (Scan.ofString (val ++ behind)).len → ∀ u ∈ RateOpt.units,
        strcasecmp ((val ++ behind).drop (Scan.ofString (val ++ behind)).len) u.1 = false) := by
  have hlen : val.length ≠ 0 := fun h => hne (List.length_eq_zero_iff.1 h)
  have hle := Scan.ofString_le val
  have hmem' : val.length < 2 ^ 64 := by
    rw [List.length_append] at hmem
    omega
  have hcases : Scan.ofString (val ++ behind) = Scan.ofString val ∨
      (Scan.ofString val).len = 0 ∧ val.length < (Scan.ofString (val ++ behind)).len := by
    cases behind with
    | nil => exact .inl (by rw [List.append_nil])
    | cons w rest => exact ofString_append_cases val (hbehind w rfl) rest
  rcases hcases with hsame | ⟨hzero, hover⟩
  · refine iff_of_true (set_append_of_eq o hmem' hsame) fun _ hlt => ?_
    rw [hsame] at hlt
    omega
  · rw [set_of_zero o hlen hzero, set_of_overrun o hmem hover, overrun]
    by_cases hrate : o = .rate
    · rw [if_pos ⟨hrate, hlen⟩]
      simp [hrate, hover, List.find?_eq_none]
    · rw [if_neg fun h => hrate h.1]
      simp [hrate]

end NumOpt

theorem strtod_append {env : Platform D} (henv : env.ReadsNumbers) {val behind : List UInt8}
    (hne : val ≠ []) (hbehind : ∀ c ∈ behind.head?, isspace c = true) :
    (env.strtod (val ++ behind)).2 = val.length ∧ env.strtod (val ++ behind) = env.strtod val ∨
      (env.strtod (val ++ behind)).2 ≠ val.length ∧ (env.strtod val).2 ≠ val.length := by
  have hlen : val.length ≠ 0 := fun h => hne (List.length_eq_zero_iff.1 h)
  have hlong : (env.strtod (val ++ behind)).2 = val.length →
      env.strtod (val ++ behind) = env.strtod val := by
    intro h
    have htake := henv.take (val ++ behind) val.length (Nat.le_of_eq h)
    rw [List.take_left] at htake
    exact htake.symm
  have hshort : (env.strtod val).2 = val.length →
      env.strtod (val ++ behind) = env.strtod val := by
    intro h
    cases behind with
    | nil => rw [List.append_nil]
    | cons w rest => exact henv.append val w rest (by omega) (hbehind w rfl)
  by_cases h : (env.strtod (val ++ behind)).2 = val.length
  · exact .inl ⟨h, hlong h⟩
  · refine .inr ⟨h, fun hval => h ?_⟩
    rw [hshort hval, hval]

/-- An option is set alike with and without what is behind the value exactly if it reads alike. -/
theorem setValue_append {env : Platform D} (henv : env.ReadsNumbers) (kind : OptKind)
    {val behind : List UInt8} (hne : val ≠ []) (hmem : (val ++ behind).length < 2 ^ 64)
    (hbehind : ∀ c ∈ behind.head?, isspace c = true) :
    kind.setValue env (val ++ behind) val.length = kind.setValue env val val.length ↔
      ReadsAlike env val behind kind := by
  have hnum : ∀ o : NumOpt, o ≠ .rate →
      o.kind.setValue env (val ++ behind) val.length = o.kind.setValue env val val.length := by
    intro o ho
    rw [NumOpt.setValue_kind, NumOpt.setValue_kind,
      (NumOpt.set_append o hne hmem hbehind).2 fun h => absurd h ho]
  cases kind with
  | int => exact iff_of_true (hnum .int (by decide)) trivial
  | uint => exact iff_of_true (hnum .uint (by decide)) trivial
  | uint64 => exact iff_of_true (hnum .uint64 (by decide)) trivial
  | uint16 => exact iff_of_true (hnum .uint16 (by decide)) trivial
  | uint8 => exact iff_of_true (hnum .uint8 (by decide)) trivial
  | size => exact iff_of_true (hnum .size (by decide)) trivial
  | rate =>
    have h := NumOpt.set_append .rate hne hmem hbehind
    rw [show OptKind.rate = NumOpt.rate.kind from rfl, NumOpt.setValue_kind,
      NumOpt.setValue_kind, (Option.map_injective fun _ _ h => by simpa using h).eq_iff, h]
    simp [ReadsAlike, NumOpt.kind]
  | bool =>
    refine iff_of_true ?_ trivial
    simp only [OptKind.setValue, OptKind.setBool, strncasecmp, List.take_left, List.take_length]
  | string =>
    refine iff_of_true ?_ trivial
    simp only [OptKind.setValue, List.take_left, List.take_length]
  | charBuf buflen_ =>
    refine iff_of_true ?_ trivial
    simp only [OptKind.setValue, List.take_left, List.take_length]
  | double =>
    refine iff_of_true ?_ trivial
    have hdouble : ∀ (val : List UInt8) (len : Nat), OptKind.double.setValue env val len =
        if len = 0 then none
        else if (env.strtod val).2 ≠ len then none
        else some (.double (env.strtod val).1) := fun _ _ => rfl
    rw [hdouble, hdouble]
    rcases strtod_append henv hne hbehind with ⟨-, hsame⟩ | ⟨hlong, hshort⟩
    · rw [hsame]
    · rw [if_pos hlong, if_pos hshort]
  | inAddr =>
    simp only [OptKind.setValue, ReadsAlike]
    rw [(Option.map_injective fun _ _ h => by simpa using h).eq_iff]
  | enum cases_ is_bitflag_ =>
    simp only [OptKind.setValue, ReadsAlike]
    have hmap : ∀ found : Option (List UInt8 × Int),
        (found.map fun c => if is_bitflag_ then OptValue.bits (D := D) c.2 else .int c.2) =
          (found.map Prod.snd).map fun n => if is_bitflag_ then .bits n else .int n := by
      intro found
      cases found <;> rfl
    rw [hmap, hmap, (Option.map_injective fun m n h => ?_).eq_iff]
    cases is_bitflag_ with
    | false => simpa using h
    | true => simpa using h

/-! ### An argument with something behind it -/

namespace OptParser

def isWhite (c : UInt8) : Bool := c ∈ whitespace

theorem isspace_of_isWhite {c : UInt8} (hc : isWhite c = true) : isspace c = true := by
  have hall : ∀ d ∈ whitespace, isspace d = true := by decide +kernel
  exact hall c (of_decide_eq_true hc)

/-- The option of an argument with a value reads it alike. -/
def ArgAlike (allopts : List Opt) (env : Platform D) (arg behind : List UInt8) : Prop :=
  ∀ name val i opt, arg = argText name (some val) → IsName name → val ≠ [] →
    findOpt arg name.length allopts 0 = some (i, opt) → ReadsAlike env val behind opt.kind

theorem findOpt_argText (name : List UInt8) (val : Option (List UInt8)) (behind : List UInt8)
    (allopts : List Opt) (k : Nat) :
    findOpt (argText name val ++ behind) name.length allopts k =
      findOpt (argText name val) name.length allopts k := by
  have hle : name.length ≤ (argText name val).length := by
    cases val <;> simp [argText]
  have hcmp : ∀ longopt : List UInt8, strncmp (argText name val ++ behind) longopt name.length =
      strncmp (argText name val) longopt name.length := by
    intro longopt
    rw [strncmp, strncmp, List.take_append_of_le_length hle]
  induction allopts generalizing k with
  | nil => rfl
  | cons o allopts ih => rw [findOpt, findOpt, ih, hcmp]

theorem answer_argText (allopts : List Opt) (env : Platform D) {name val behind : List UInt8}
    (hname : IsName name) (hval : val ≠ []) (hbehind : EndsArg behind) :
    (answer allopts env (argText name (some val) ++ behind)
        (argText name (some val)).length).2 =
      (findOpt (argText name (some val)) name.length allopts 0).bind fun found =>
        (found.2.kind.setValue env (val ++ behind) val.length).map (found.1, ·) := by
  have hparse := parseOpt_argText (D := D)
    ⟨allopts, env, fun _ i value => some (i, value)⟩ hname (some val)
    (fun h => hval (Option.some.inj h)) hbehind none
  rw [answer, hparse, matchOpt]
  simp only [findOpt_argText]
  cases findOpt (argText name (some val)) name.length allopts 0 with
  | none => rfl
  | some found =>
    simp only [applyOpt, Option.map_some, Option.isNone_some, Bool.and_false, Bool.false_eq_true,
      if_false, OptKind.set, pure_eq_ok, ok_bind, Option.elim_some, Option.bind_some]
    cases found.2.kind.setValue env (val ++ behind) val.length <;> rfl

theorem answer_of_none (allopts : List Opt) (env : Platform D) {name behind : List UInt8}
    (hname : IsName name) (hbehind : EndsArg behind) :
    (answer allopts env (name ++ behind) name.length).2 =
      (answer allopts env name name.length).2 := by
  have hparse : ∀ behind, EndsArg behind → parseOpt
      ⟨allopts, env, fun _ i value => some (i, value)⟩ (name ++ behind) name.length none =
        matchOpt (D := D) ⟨allopts, env, fun _ i value => some (i, value)⟩ (name ++ behind)
          name.length none 0 none :=
    fun behind h => parseOpt_argText _ hname none (fun h => nomatch h) h none
  have hshort := hparse [] (fun _ h => nomatch h)
  rw [List.append_nil] at hshort
  have hfind := findOpt_argText name none behind allopts 0
  simp only [argText] at hfind
  rw [answer, answer, hparse behind hbehind, hshort, matchOpt, matchOpt]
  simp only [hfind]

theorem answer_of_eq (allopts : List Opt) (env : Platform D) (opt_str : List UInt8) (len : Nat) :
    (answer allopts env (61 :: opt_str) len).2 = none := by
  have hzero : strcspn (61 :: opt_str) (61 :: whitespace) = 0 := by simp [strcspn]
  simp [answer, parseOpt, hzero]

theorem answer_of_nil (allopts : List Opt) (env : Platform D) {name behind : List UInt8}
    (hname : IsName name) (hbehind : EndsArg behind) :
    (answer allopts env (argText name (some []) ++ behind)
      (argText name (some [])).length).2 = none := by
  rw [answer, parseOpt_argText_nil _ hname hbehind]

theorem arg_cases {arg : List UInt8} (hne : arg ≠ []) (hwhite : ∀ c ∈ arg, isWhite c = false) :
    (∃ rest, arg = 61 :: rest) ∨ IsName arg ∨
      ∃ name val, IsName name ∧ arg = argText name (some val) := by
  have hnot : ∀ name : List UInt8, name ≠ [] → (∀ c ∈ name, c ∈ arg ∧ c ≠ 61) → IsName name := by
    intro name hne h
    refine ⟨hne, fun c hc => ?_⟩
    obtain ⟨harg, hc61⟩ := h c hc
    simpa [hc61] using of_decide_eq_false (hwhite c harg)
  by_cases hmem : 61 ∈ arg
  · obtain ⟨name, val, rfl, hname⟩ := List.eq_append_cons_of_mem hmem
    cases name with
    | nil => exact .inl ⟨val, rfl⟩
    | cons c name =>
      refine .inr (.inr ⟨c :: name, val, hnot _ (List.cons_ne_nil _ _) fun d hd => ?_, rfl⟩)
      exact ⟨List.mem_append_left _ hd, fun h => hname (h ▸ hd)⟩
  · exact .inr (.inl (hnot arg hne fun c hc => ⟨hc, fun h => hmem (h ▸ hc)⟩))

/-- An argument is answered alike with and without what is behind it exactly if its option reads
    the value alike. -/
theorem answer_append {env : Platform D} (henv : env.ReadsNumbers) (allopts : List Opt)
    {arg behind : List UInt8} (hne : arg ≠ []) (hwhite : ∀ c ∈ arg, isWhite c = false)
    (hbehind : ∀ c ∈ behind.head?, isWhite c = true)
    (hmem : (arg ++ behind).length < 2 ^ 64) :
    (answer allopts env (arg ++ behind) arg.length).2 = (answer allopts env arg arg.length).2 ↔
      ArgAlike allopts env arg behind := by
  have hends : EndsArg behind := fun c hc => of_decide_eq_true (hbehind c hc)
  have hspace : ∀ c ∈ behind.head?, isspace c = true :=
    fun c hc => isspace_of_isWhite (hbehind c hc)
  have hnil : EndsArg [] := fun _ h => nomatch h
  -- an argument has one name
  have hunique : ∀ {name name' : List UInt8} {val val' : List UInt8}, IsName name → IsName name' →
      argText name (some val) = argText name' (some val') → name = name' ∧ val = val' := by
    intro name name' val val' hname hname' heq
    have hlen := strcspn_argText hname (some val) hnil
    rw [heq, strcspn_argText hname' (some val') hnil] at hlen
    obtain ⟨h₁, h₂⟩ := List.append_inj heq hlen.symm
    exact ⟨h₁, (List.cons.inj h₂).2⟩
  rcases arg_cases hne hwhite with ⟨rest, rfl⟩ | hname | ⟨name, val, hname, rfl⟩
  · refine iff_of_true ?_ ?_
    · rw [List.cons_append, answer_of_eq, answer_of_eq]
    · intro name val i opt harg hname
      obtain ⟨c, name, rfl⟩ := List.exists_cons_of_ne_nil hname.1
      have hc := hname.2 c List.mem_cons_self
      rw [← (List.cons.inj harg).1] at hc
      exact absurd List.mem_cons_self hc
  · refine iff_of_true (answer_of_none allopts env hname hends) ?_
    intro name val i opt harg
    have hmem61 : 61 ∈ arg := by simp [harg, argText]
    exact absurd List.mem_cons_self (hname.2 61 hmem61)
  · by_cases hval : val = []
    · subst hval
      refine iff_of_true ?_ ?_
      · rw [answer_of_nil allopts env hname hends, ← answer_of_nil allopts env hname hnil,
          List.append_nil]
      · intro name' val' i opt harg hname' hval'
        exact absurd (hunique hname hname' harg).2.symm hval'
    · have hlong := answer_argText allopts env hname hval hends
      have hshort := answer_argText allopts env hname hval hnil
      rw [List.append_nil, List.append_nil] at hshort
      have hvalmem : (val ++ behind).length < 2 ^ 64 := by
        simp only [argText, List.length_append, List.length_cons] at hmem
        rw [List.length_append]
        omega
      rw [hlong, hshort]
      cases hfind : findOpt (argText name (some val)) name.length allopts 0 with
      | none =>
        refine iff_of_true rfl fun name' val' i opt harg hname' hval' hfind' => ?_
        rw [← (hunique hname hname' harg).1, hfind] at hfind'
        cases hfind'
      | some found =>
        simp only [Option.bind_some]
        rw [(Option.map_injective fun _ _ h => (Prod.mk.inj h).2).eq_iff,
          setValue_append henv found.2.kind hval hvalmem hspace]
        constructor
        · intro halike name' val' i opt harg hname' hval' hfind'
          obtain ⟨rfl, rfl⟩ := hunique hname hname' harg
          rw [hfind] at hfind'
          rw [Option.some.inj hfind'] at halike
          exact halike
        · intro halike
          exact halike name val found.1 found.2 rfl hname hval hfind

/-! ### The loops -/

def tokens (args : List UInt8) : List (List UInt8) := words isWhite args

/-- What the walk over a string reads of an argument. -/
def readAt (allopts : List Opt) (env : Platform D) (arg : List UInt8 × List UInt8) :
    Option (Nat × OptValue D) :=
  (answer allopts env (arg.1 ++ arg.2) arg.1.length).2

def readAlone (allopts : List Opt) (env : Platform D) (arg : List UInt8 × List UInt8) :
    Option (Nat × OptValue D) :=
  (answer allopts env arg.1 arg.1.length).2

/-- What is left of the state by the values that are stored. -/
def Parser.puts (p : Parser D σ) (s : σ) (values : List (Nat × OptValue D)) : σ :=
  values.foldl (fun s value => p.store s value.1 value.2) s

/-- An outcome, of which the offending argument is looked at as far as it goes. -/
def Outcome.byToken (o : Outcome σ) : Outcome σ :=
  ⟨o.state, o.invalid.map fun opt => opt.takeWhile fun c => !isWhite c⟩

theorem strcspn_whitespace (opt : List UInt8) :
    strcspn opt whitespace = (opt.takeWhile fun c => !isWhite c).length := by
  simp [strcspn, isWhite]

theorem drop_strspn (opt : List UInt8) :
    opt.drop (strspn opt whitespace) = opt.dropWhile isWhite := by
  have hspan : (opt.takeWhile isWhite) ++ opt.dropWhile isWhite = opt :=
    List.takeWhile_append_dropWhile
  have hlen : strspn opt whitespace = (opt.takeWhile isWhite).length := rfl
  calc opt.drop (strspn opt whitespace)
      = (opt.takeWhile isWhite ++ opt.dropWhile isWhite).drop (opt.takeWhile isWhite).length := by
        rw [hlen, hspan]
    _ = opt.dropWhile isWhite := List.drop_left

theorem parseFrom_eq (p : Parser D σ) {opt : List UInt8}
    (hhead : ∀ c ∈ opt.head?, isWhite c = false) {fuel : Nat} (hfuel : opt.length < fuel) (s : σ) :
    parseFrom p fuel opt s =
      .ok ⟨p.puts s (untilRefused (readAt p.allopts_ p.env) (wordsWith isWhite opt)).1,
        (untilRefused (readAt p.allopts_ p.env) (wordsWith isWhite opt)).2.map
          fun arg => arg.1 ++ arg.2⟩ := by
  induction fuel generalizing opt s with
  | zero => omega
  | succ fuel ih =>
    by_cases hne : opt = []
    · subst hne
      simp [parseFrom, strcspn, Parser.puts]
    · obtain ⟨arg, behind, rfl, harg, hwhite, hbehind⟩ := Words.split_word hne hhead
      have hlen : strcspn (arg ++ behind) whitespace = arg.length := by
        rw [strcspn_whitespace, List.takeWhile_append_of_stop (fun c hc => by simp [hwhite c hc])
          (fun c hc => by simp [hbehind c hc])]
      have hpos : arg.length ≠ 0 := fun h => harg (List.length_eq_zero_iff.1 h)
      rw [Words.wordsWith_append harg hwhite hbehind]
      rw [parseFrom, hlen, if_neg hpos, parseOpt_eq]
      simp only [ok_bind, answer_valid]
      cases hread : readAt p.allopts_ p.env (arg, behind) with
      | none =>
        have hanswer : (answer p.allopts_ p.env (arg ++ behind) arg.length).2 = none := hread
        rw [UntilRefused.cons_of_none hread, hanswer]
        rfl
      | some value =>
        have hanswer : (answer p.allopts_ p.env (arg ++ behind) arg.length).2 = some value := hread
        rw [UntilRefused.cons_of_some hread, hanswer]
        simp only [Option.isSome_some, if_true, List.drop_left, drop_strspn]
        have hle := (List.dropWhile_suffix (l := behind) isWhite).length_le
        rw [List.length_append] at hfuel
        rw [ih (fun _ hc => List.head?_dropWhile_stop hc) (by omega), Words.wordsWith_dropWhile]
        rfl

theorem parseVector_eq (p : Parser D σ) (invalidp : Bool) (args : List (List UInt8 × List UInt8))
    (s : σ) :
    parseVector p invalidp (args.map Prod.fst) s =
      let r := untilRefused (readAlone p.allopts_ p.env) args
      if r.2.isSome && !invalidp then .error .nullDeref
      else .ok ⟨p.puts s r.1, r.2.map Prod.fst⟩ := by
  induction args generalizing s with
  | nil => rfl
  | cons arg args ih =>
    rw [List.map_cons, parseVector, parseOpt_eq]
    simp only [ok_bind, answer_valid]
    cases hread : readAlone p.allopts_ p.env arg with
    | none =>
      have hanswer : (answer p.allopts_ p.env arg.1 arg.1.length).2 = none := hread
      rw [UntilRefused.cons_of_none hread, hanswer]
      cases invalidp <;> rfl
    | some value =>
      have hanswer : (answer p.allopts_ p.env arg.1 arg.1.length).2 = some value := hread
      rw [UntilRefused.cons_of_some hread, hanswer]
      simp only [Option.isSome_some, if_true]
      rw [ih]
      rfl

/-! ### The entry points -/

/-- Whatever the options store, `parse` of a string does what `parse` of its arguments does. -/
def Agrees (allopts : List Opt) (env : Platform D) (invalidp : Bool) (args : List UInt8) : Prop :=
  ∀ (σ : Type) (store : σ → Nat → OptValue D → σ) (s : σ),
    (parse ⟨allopts, env, store⟩ args s).map Outcome.byToken =
      parseVector ⟨allopts, env, store⟩ invalidp (tokens args) s

/-- `parse_opt` returns true of the argument alone. -/
def Accepted (allopts : List Opt) (env : Platform D) (arg : List UInt8) : Prop :=
  (answer allopts env arg arg.length).1.valid = true

/-- The strings for which it does. -/
structure Agreeable (allopts : List Opt) (env : Platform D) (invalidp : Bool)
    (args : List UInt8) : Prop where
  /-- No white space comes before the first argument. -/
  head : tokens args = [] ∨ ∀ c ∈ args.head?, c ∉ whitespace
  /-- There is something to write the offending argument to. -/
  invalidp : invalidp = true ∨ ∀ arg ∈ tokens args, Accepted allopts env arg
  /-- Up to the first argument that is refused, values are read alike. -/
  alike : ∀ front arg behind back, wordsWith isWhite args = front ++ (arg, behind) :: back →
    (∀ x ∈ front, Accepted allopts env x.1) → ArgAlike allopts env arg behind

theorem map_fst_tokens (args : List UInt8) :
    (wordsWith isWhite args).map Prod.fst = tokens args := Words.map_wordsWith args

theorem tokens_eq_nil_iff {args : List UInt8} : tokens args = [] ↔ wordsWith isWhite args = [] := by
  rw [← map_fst_tokens, List.map_eq_nil_iff]

theorem accepted_iff {allopts : List Opt} {env : Platform D} (arg : List UInt8 × List UInt8) :
    Accepted allopts env arg.1 ↔ (readAlone allopts env arg).isSome = true := by
  rw [Accepted, answer_valid, readAlone]

theorem alike_iff {env : Platform D} (henv : env.ReadsNumbers) (allopts : List Opt)
    {args : List UInt8} (hmem : args.length < 2 ^ 64) :
    UntilRefused.Alike (readAt allopts env) (readAlone allopts env) (wordsWith isWhite args) ↔
      ∀ front arg behind back, wordsWith isWhite args = front ++ (arg, behind) :: back →
        (∀ x ∈ front, Accepted allopts env x.1) → ArgAlike allopts env arg behind := by
  have hone : ∀ front arg behind back, wordsWith isWhite args = front ++ (arg, behind) :: back →
      (readAt allopts env (arg, behind) = readAlone allopts env (arg, behind) ↔
        ArgAlike allopts env arg behind) := by
    intro front arg behind back hsplit
    have hmemArg : (arg, behind) ∈ wordsWith isWhite args := by simp [hsplit]
    obtain ⟨hne, hwhite, hbehind, hend⟩ := Words.of_mem_wordsWith _ hmemArg
    exact answer_append henv allopts hne hwhite hbehind (Nat.lt_of_le_of_lt hend.length_le hmem)
  constructor
  · intro h front arg behind back hsplit hfront
    exact (hone front arg behind back hsplit).1
      (h front (arg, behind) back hsplit fun x hx => (accepted_iff x).1 (hfront x hx))
  · intro h front ⟨arg, behind⟩ back hsplit hfront
    exact (hone front arg behind back hsplit).2
      (h front arg behind back hsplit fun x hx => (accepted_iff x).2 (hfront x hx))

theorem parse_byToken (p : Parser D σ) {args : List UInt8}
    (hhead : ∀ c ∈ args.head?, isWhite c = false) (s : σ) :
    (parse p args s).map Outcome.byToken =
      .ok ⟨p.puts s (untilRefused (readAt p.allopts_ p.env) (wordsWith isWhite args)).1,
        (untilRefused (readAt p.allopts_ p.env) (wordsWith isWhite args)).2.map Prod.fst⟩ := by
  rw [parse, parseFrom_eq p hhead (Nat.lt_succ_self _)]
  cases hrefused : (untilRefused (readAt p.allopts_ p.env) (wordsWith isWhite args)).2 with
  | none => rfl
  | some arg =>
    obtain ⟨-, hwhite, hbehind, -⟩ :=
      Words.of_mem_wordsWith arg (UntilRefused.mem_of_snd hrefused)
    have htoken : (arg.1 ++ arg.2).takeWhile (fun c => !isWhite c) = arg.1 :=
      List.takeWhile_append_of_stop (fun c hc => by simp [hwhite c hc])
        (fun c hc => by simp [hbehind c hc])
    simp only [Except.map, Outcome.byToken, Option.map_some, htoken]

theorem parse_of_white (p : Parser D σ) {c : UInt8} (hc : isWhite c = true) (args : List UInt8)
    (s : σ) : parse p (c :: args) s = .ok ⟨s, none⟩ := by
  have hzero : strcspn (c :: args) whitespace = 0 := by
    rw [strcspn_whitespace]
    simp [hc]
  rw [parse, parseFrom, if_pos hzero]
  rfl

def logStore (log : List (Nat × OptValue D)) (i : Nat) (value : OptValue D) :
    List (Nat × OptValue D) :=
  log ++ [(i, value)]

theorem puts_log (allopts : List Opt) (env : Platform D) (log values : List (Nat × OptValue D)) :
    Parser.puts ⟨allopts, env, logStore⟩ log values = log ++ values := by
  induction values generalizing log with
  | nil => simp [Parser.puts]
  | cons value values ih =>
    have h := ih (logStore log value.1 value.2)
    simp only [Parser.puts, List.foldl_cons] at h ⊢
    rw [h]
    simp [logStore]

/-- The entry points agree exactly on these strings. -/
theorem parse_agrees_iff {env : Platform D} (henv : env.ReadsNumbers) (allopts : List Opt)
    (invalidp : Bool) {args : List UInt8} (hmem : args.length < 2 ^ 64) :
    Agrees allopts env invalidp args ↔ Agreeable allopts env invalidp args := by
  have hvector : ∀ (σ : Type) (store : σ → Nat → OptValue D → σ) (s : σ), _ := fun σ store s =>
    parseVector_eq ⟨allopts, env, store⟩ invalidp (wordsWith isWhite args) s
  simp only [map_fst_tokens] at hvector
  have hall : (untilRefused (readAlone allopts env) (wordsWith isWhite args)).2 = none ↔
      ∀ arg ∈ tokens args, Accepted allopts env arg := by
    rw [UntilRefused.snd_eq_none_iff, ← map_fst_tokens, List.forall_mem_map]
    exact forall₂_congr fun arg _ => (accepted_iff arg).symm
  by_cases hhead : ∀ c ∈ args.head?, isWhite c = false
  · have hstring := fun (σ : Type) (store : σ → Nat → OptValue D → σ) (s : σ) =>
      parse_byToken ⟨allopts, env, store⟩ hhead s
    constructor
    · intro h
      have hlog := h _ logStore []
      rw [hstring, hvector, puts_log, puts_log] at hlog
      dsimp only at hlog
      split at hlog
      · cases hlog
      · rename_i hinvalidp
        have heq := Except.ok.inj hlog
        simp only [List.nil_append, Outcome.mk.injEq] at heq
        refine ⟨.inr fun c hc => of_decide_eq_false (hhead c hc), ?_,
          (alike_iff henv allopts hmem).1 (UntilRefused.same_iff.1 ⟨heq.1, ?_⟩)⟩
        · rw [← hall]
          cases invalidp with
          | true => exact .inl rfl
          | false =>
            refine .inr (Option.not_isSome_iff_eq_none.1 fun hsome => hinvalidp ?_)
            rw [hsome]
            rfl
        · simpa using congrArg Option.isSome heq.2
    · intro h σ store s
      have hsame := UntilRefused.eq_of_alike ((alike_iff henv allopts hmem).2 h.alike)
      rw [hstring, hvector]
      dsimp only
      rw [hsame, if_neg]
      rcases h.invalidp with htrue | haccepted
      · simp [htrue]
      · rw [hall.2 haccepted]
        simp
  · obtain ⟨c, rest, rfl, hc⟩ : ∃ c rest, args = c :: rest ∧ isWhite c = true := by
      cases args with
      | nil => exact absurd (fun _ h => nomatch h) hhead
      | cons c rest => exact ⟨c, rest, rfl, by simpa using hhead⟩
    constructor
    · intro h
      have hlog := h _ logStore []
      rw [parse_of_white _ hc, hvector, puts_log] at hlog
      dsimp only [Except.map, Outcome.byToken] at hlog
      split at hlog
      · cases hlog
      · have heq := Except.ok.inj hlog
        simp only [List.nil_append, Outcome.mk.injEq, Option.map_none] at heq
        -- then there was nothing to read
        have hnil := UntilRefused.eq_nil_iff.1
          (Prod.ext heq.1.symm (Option.map_eq_none_iff.1 heq.2.symm))
        refine ⟨.inl (tokens_eq_nil_iff.2 hnil), ?_, ?_⟩
        · rw [tokens_eq_nil_iff.2 hnil]
          exact .inr fun arg harg => nomatch harg
        · intro front arg behind back hsplit
          rw [hnil] at hsplit
          simp at hsplit
    · intro h σ store s
      have hnil : tokens (c :: rest) = [] := by
        refine h.head.resolve_right fun hnot => ?_
        exact hnot c rfl (of_decide_eq_true hc)
      rw [parse_of_white _ hc, hnil]
      rfl

/-- A `strtod` for the integers that `strtol` reads. -/
def scanPlatform : Platform Scan where
  strtod := fun str => (Scan.ofString str, (Scan.ofString str).len)
  gethostbyname := fun _ => none

theorem scanPlatform_readsNumbers : scanPlatform.ReadsNumbers where
  take := fun str k hk => by simp only [scanPlatform, Scan.ofString_take hk]
  append := fun str w rest hpos hw => by simp only [scanPlatform, Scan.ofString_append hpos hw]

/-- Numbers are read alike in any string. -/
theorem parse_agrees_port :
    Agrees [⟨"port".toUTF8.toList, .int⟩] scanPlatform true "port=1  port=x ".toUTF8.toList := by
  refine (parse_agrees_iff scanPlatform_readsNumbers _ true (by decide +kernel)).2
    ⟨.inr (by decide +kernel), .inl rfl, ?_⟩
  intro front arg behind back _ _ name val i opt _ _ _ hfind
  obtain ⟨_, _, hsplit, -⟩ := findOpt_some hfind
  have hopt : opt = ⟨"port".toUTF8.toList, .int⟩ := by
    refine List.mem_singleton.1 ?_
    rw [hsplit]
    exact List.mem_append_right _ List.mem_cons_self
  rw [hopt]
  exact trivial

def enumParser : Parser Unit (List (Nat × OptValue Unit)) where
  allopts_ := [⟨[109], .enum [([97], 1)] false⟩]
  env := ⟨fun _ => ((), 0), fun _ => none⟩
  store := logStore

/-- In `m=a m=a` it is refused, where it is compared with all that is left of the string. -/
theorem parse_not_agrees_enum :
    ¬ Agrees enumParser.allopts_ enumParser.env true [109, 61, 97, 32, 109, 61, 97] := by
  intro h
  have hlog := h _ logStore []
  have hvector : parseVector enumParser true (tokens [109, 61, 97, 32, 109, 61, 97]) [] =
      .ok ⟨[(0, .int 1), (0, .int 1)], none⟩ := by decide +kernel
  have hstring : (parse enumParser [109, 61, 97, 32, 109, 61, 97] []).map Outcome.byToken =
      .ok ⟨[], some [109, 61, 97]⟩ := by decide +kernel
  cases hstring.symm.trans (hlog.trans hvector)

end OptParser

end Oasys
