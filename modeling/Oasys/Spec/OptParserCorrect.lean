import Mathlib.Data.List.Basic
import Oasys.Util.OptParser

/-!
# What parse_opt and parse_and_shift do

`parse_opt` looks at the options only, not at what they have stored: `answer` is its verdict on
an argument, with the value that is stored and the option it is stored for. From this the law of
`parse_and_shift` follows by an induction over its scan (`parseAndShift_keeps`).

The option is the first one whose name starts with the name of the argument, which is the one
with that name unless a longer name comes before it (`parseOpt_exact_iff`).
-/

namespace Oasys.OptParser

variable {D σ : Type}

def Parser.put (p : Parser D σ) (s : σ) : Option (Nat × OptValue D) → σ
  | none => s
  | some (i, value) => p.store s i value

@[simp] theorem Parser.put_none (p : Parser D σ) (s : σ) : p.put s none = s := rfl

@[simp] theorem Parser.put_some (p : Parser D σ) (s : σ) (i : Nat) (value : OptValue D) :
    p.put s (some (i, value)) = p.store s i value := rfl

/-- What `parse_opt` returns, and the value that it stores: it is run with a store that keeps
    this value only. -/
def answer (allopts : List Opt) (env : Platform D) (opt_str : List UInt8) (len : Nat) :
    Verdict × Option (Nat × OptValue D) :=
  match parseOpt ⟨allopts, env, fun _ i value => some (i, value)⟩ opt_str len none with
  | .ok r => r
  | .error _ => (⟨false, false⟩, none)

/-! ### parse_opt does not look at the state -/

/-- A verdict and a value that some code gives in every state, whatever it is made of. -/
def Gives (allopts : List Opt) (env : Platform D) (v : Verdict) (w : Option (Nat × OptValue D))
    (f : ∀ σ : Type, Parser D σ → σ → Except Fault (Verdict × σ)) : Prop :=
  v.valid = w.isSome ∧ ∀ (σ : Type) (store : σ → Nat → OptValue D → σ) (s : σ),
    f σ ⟨allopts, env, store⟩ s = .ok (v, Parser.put ⟨allopts, env, store⟩ s w)

theorem gives_applyOpt (allopts : List Opt) (env : Platform D) (i : Nat) (opt : Opt)
    (val_str : Option (List UInt8)) (val_len : Nat) :
    ∃ v w, Gives allopts env v w fun _ p => applyOpt p i opt val_str val_len := by
  by_cases hval : (opt.kind.needval_ && val_str.isNone) = true
  · exact ⟨⟨false, true⟩, none, rfl, fun σ store s => by simp [applyOpt, hval]⟩
  · -- so that nothing but a flag is set without a value
    obtain ⟨r, hset⟩ : ∃ r, opt.kind.set env val_str val_len = .ok r := by
      cases val_str with
      | some val => exact ⟨_, rfl⟩
      | none =>
        have hkind : opt.kind = .bool := by simpa [OptKind.needval_] using hval
        rw [hkind]
        exact ⟨_, rfl⟩
    cases r with
    | none =>
      refine ⟨⟨false, true⟩, none, rfl, fun σ store s => ?_⟩
      simp only [applyOpt, hval, Bool.false_eq_true, if_false, hset, ok_bind]
      rfl
    | some value =>
      refine ⟨⟨true, false⟩, some (i, value), rfl, fun σ store s => ?_⟩
      simp only [applyOpt, hval, Bool.false_eq_true, if_false, hset, ok_bind]
      rfl

theorem gives_matchOpt (allopts : List Opt) (env : Platform D) (opt_str : List UInt8)
    (opt_len : Nat) (val_str : Option (List UInt8)) (val_len : Nat) :
    ∃ v w, Gives allopts env v w fun _ p => matchOpt p opt_str opt_len val_str val_len := by
  cases hfind : findOpt opt_str opt_len allopts 0 with
  | none => exact ⟨⟨false, false⟩, none, rfl, fun σ store s => by simp [matchOpt, hfind]⟩
  | some found =>
    obtain ⟨v, w, hvalid, happly⟩ := gives_applyOpt allopts env found.1 found.2 val_str val_len
    refine ⟨v, w, hvalid, fun σ store s => ?_⟩
    simp only [matchOpt, hfind]
    exact happly σ store s

theorem gives_parseOpt (allopts : List Opt) (env : Platform D) (opt_str : List UInt8) (len : Nat) :
    ∃ v w, Gives allopts env v w fun _ p => parseOpt p opt_str len := by
  unfold parseOpt
  dsimp only
  split
  · exact ⟨⟨false, false⟩, none, rfl, fun _ _ _ => rfl⟩
  · split
    · exact gives_matchOpt ..
    · split
      · exact ⟨⟨false, true⟩, none, rfl, fun _ _ _ => rfl⟩
      · exact gives_matchOpt ..

theorem parseOpt_eq (p : Parser D σ) (opt_str : List UInt8) (len : Nat) (s : σ) :
    parseOpt p opt_str len s = .ok ((answer p.allopts_ p.env opt_str len).1,
      p.put s (answer p.allopts_ p.env opt_str len).2) := by
  obtain ⟨v, w, -, h⟩ := gives_parseOpt p.allopts_ p.env opt_str len
  have hanswer : answer p.allopts_ p.env opt_str len = (v, w) := by
    simp only [answer, h]
    cases w <;> rfl
  rw [hanswer]
  exact h σ p.store s

theorem answer_valid (allopts : List Opt) (env : Platform D) (opt_str : List UInt8) (len : Nat) :
    (answer allopts env opt_str len).1.valid = (answer allopts env opt_str len).2.isSome := by
  obtain ⟨v, w, hvalid, h⟩ := gives_parseOpt allopts env opt_str len
  have hanswer : answer allopts env opt_str len = (v, w) := by
    simp only [answer, h]
    cases w <;> rfl
  rw [hanswer]
  exact hvalid

/-! ### parse_and_shift -/

def Parser.parses (p : Parser D σ) (arg : List UInt8) : Bool :=
  (answer p.allopts_ p.env arg arg.length).1.valid

/-- The argument does not, and `parse_and_shift` stops at it: its value is invalid. -/
def Parser.stops (p : Parser D σ) (arg : List UInt8) : Bool :=
  !p.parses arg && (answer p.allopts_ p.env arg arg.length).1.invalid_value

def Parser.leftover (p : Parser D σ) (args : List (List UInt8)) : List (List UInt8) :=
  args.filter fun arg => !p.parses arg

theorem take_set_succ {α : Type} {xs : List α} {k : Nat} (x : α) (hk : k < xs.length) :
    (xs.set k x).take (k + 1) = xs.take k ++ [x] := by
  rw [List.set_eq_take_append_cons_drop, if_pos hk, List.take_append, List.take_take]
  simp only [List.length_take]
  have hmin : min k xs.length = k := by omega
  have hmin' : min (k + 1) k = k := by omega
  rw [hmin, hmin', Nat.add_sub_cancel_left]
  rfl

/-- What the scan does from the argument `i` on, with `last_slot` arguments left over before it. -/
theorem shiftFrom_keeps (p : Parser D σ) (n i last_slot : Nat) (argv : List (List UInt8))
    (vc : Int) (s : σ) (hlen : argv.length = i + n) (hslot : last_slot ≤ i) :
    ∃ count argv' s', shiftFrom p n i argv last_slot vc s = .ok (count, argv', s') ∧
      argv'.length = argv.length ∧
      ((∀ arg ∈ argv.drop i, p.stops arg = false) ∧
          count = vc + ((argv.drop i).filter p.parses).length ∧
          argv'.take (last_slot + (p.leftover (argv.drop i)).length) =
            argv.take last_slot ++ p.leftover (argv.drop i) ∨
        count = -1 ∧ ∃ front bad back, argv.drop i = front ++ bad :: back ∧
          (∀ arg ∈ front, p.stops arg = false) ∧ p.stops bad = true ∧
          argv'.take (last_slot + (p.leftover front).length + 1) =
            argv.take last_slot ++ p.leftover front ++ [bad] ∧
          argv'.drop (i + front.length + 1) = back) := by
  induction n generalizing i last_slot argv vc s with
  | zero =>
    have hdrop : argv.drop i = [] := List.drop_eq_nil_iff.2 (by omega)
    exact ⟨vc, argv, s, rfl, rfl, .inl (by simp [hdrop, Parser.leftover])⟩
  | succ n ih =>
    have hi : i < argv.length := by omega
    have hget : argv[i]? = some argv[i] := List.getElem?_eq_getElem hi
    have hcons : argv.drop i = argv[i] :: argv.drop (i + 1) := List.drop_eq_getElem_cons hi
    generalize argv[i] = arg at hget hcons
    simp only [shiftFrom, hget, parseOpt_eq, ok_bind]
    split
    · -- it parses
      rename_i hvalid
      have hparses : p.parses arg = true := hvalid
      have hstops : p.stops arg = false := by simp [Parser.stops, hparses]
      obtain ⟨count, argv', s', hrun, hlen', hcase⟩ := ih (i + 1) last_slot argv (vc + 1)
        (p.put s (answer p.allopts_ p.env arg arg.length).2)
        (by omega) (by omega)
      refine ⟨count, argv', s', hrun, hlen', ?_⟩
      have hleft : ∀ args, p.leftover (arg :: args) = p.leftover args := by
        simp [Parser.leftover, hparses]
      rw [hcons]
      rcases hcase with ⟨hall, hcount, htake⟩ |
        ⟨hcount, front, bad, back, hsplit, hall, hbad, htake, hdrop⟩
      · refine .inl ⟨by simpa [hstops] using hall, ?_, by rwa [hleft]⟩
        rw [hcount, List.filter_cons_of_pos hparses, List.length_cons]
        omega
      · refine .inr ⟨hcount, arg :: front, bad, back, by rw [hsplit]; rfl,
          by simpa [hstops] using hall, hbad, by rwa [hleft], ?_⟩
        rw [← hdrop, List.length_cons]
        congr 1
        omega
    · -- it is moved to the first free slot
      rename_i hvalid
      have hparses : p.parses arg = false := Bool.eq_false_iff.2 hvalid
      have htakeset := take_set_succ arg (show last_slot < argv.length by omega)
      have hdropset : (argv.set last_slot arg).drop (i + 1) = argv.drop (i + 1) :=
        List.drop_set_of_lt (by omega)
      split
      · -- and the scan stops there
        rename_i hinvalid
        have hstops : p.stops arg = true := by simp [Parser.stops, hparses, hinvalid]
        refine ⟨-1, argv.set last_slot arg, _, rfl, List.length_set, .inr ⟨rfl, [], arg,
          argv.drop (i + 1), by rw [hcons]; rfl, by simp, hstops, ?_, ?_⟩⟩
        · simpa [Parser.leftover] using htakeset
        · exact hdropset
      · rename_i hinvalid
        have hstops : p.stops arg = false := by simp [Parser.stops, hinvalid]
        obtain ⟨count, argv', s', hrun, hlen', hcase⟩ := ih (i + 1) (last_slot + 1)
          (argv.set last_slot arg) vc (p.put s (answer p.allopts_ p.env arg arg.length).2)
          (by rw [List.length_set]; omega) (by omega)
        refine ⟨count, argv', s', hrun, by rw [hlen', List.length_set], ?_⟩
        have hleft : ∀ args, p.leftover (arg :: args) = arg :: p.leftover args := by
          simp [Parser.leftover, hparses]
        rw [hdropset, htakeset] at hcase
        rw [hcons]
        rcases hcase with ⟨hall, hcount, htake⟩ |
          ⟨hcount, front, bad, back, hsplit, hall, hbad, htake, hdrop⟩
        · refine .inl ⟨by simpa [hstops] using hall, ?_, ?_⟩
          · rw [hcount, List.filter_cons_of_neg (by simp [hparses])]
          · have hsum : last_slot + ((p.leftover (argv.drop (i + 1))).length + 1) =
                last_slot + 1 + (p.leftover (argv.drop (i + 1))).length := by omega
            rw [hleft, List.length_cons, hsum, htake]
            simp
        · refine .inr ⟨hcount, arg :: front, bad, back, by rw [hsplit]; rfl,
            by simpa [hstops] using hall, hbad, ?_, ?_⟩
          · have hsum : last_slot + ((p.leftover front).length + 1) + 1 =
                last_slot + 1 + (p.leftover front).length + 1 := by omega
            rw [hleft, List.length_cons, hsum, htake]
            simp
          · rw [← hdrop, List.length_cons]
            congr 1
            omega

theorem sublist_of_take_drop {α : Type} {xs front back : List α} {k m : Nat} (hkm : k ≤ m)
    (hfront : xs.take k = front) (hback : xs.drop m = back) : (front ++ back).Sublist xs := by
  have hsuffix : back.Sublist (xs.drop k) := by
    rw [← hback, show m = k + (m - k) by omega, ← List.drop_drop]
    exact List.drop_sublist _ _
  calc (front ++ back).Sublist (front ++ xs.drop k) := (List.Sublist.refl _).append hsuffix
    _ = xs := by rw [← hfront, List.take_append_drop]

/-- `parse_and_shift` counts the arguments that parse and keeps the others, in order and at the
    start; or an argument with an invalid value stops it, it returns -1, and everything that has
    not been consumed is still there in order. -/
theorem parseAndShift_keeps (p : Parser D σ) (argv : List (List UInt8)) (s : σ) :
    ∃ count argv' s', parseAndShift p argv s = .ok (count, argv', s') ∧
      argv'.length = argv.length ∧
      ((∀ arg ∈ argv, p.stops arg = false) ∧ count = (argv.filter p.parses).length ∧
          argv'.take (argv.length - (argv.filter p.parses).length) = p.leftover argv ∨
        count = -1 ∧ ∃ front bad back, argv = front ++ bad :: back ∧
          (∀ arg ∈ front, p.stops arg = false) ∧ p.stops bad = true ∧
          (p.leftover front ++ bad :: back).Sublist argv') := by
  obtain ⟨count, argv', s', hrun, hlen, hcase⟩ := shiftFrom_keeps p argv.length 0 0 argv 0 s
    (Nat.zero_add _).symm (Nat.le_refl 0)
  refine ⟨count, argv', s', hrun, hlen, ?_⟩
  simp only [List.drop_zero, Int.zero_add, Nat.zero_add, List.take_zero, List.nil_append] at hcase
  rcases hcase with ⟨hall, hcount, htake⟩ |
    ⟨hcount, front, bad, back, hsplit, hall, hbad, htake, hdrop⟩
  · refine .inl ⟨hall, hcount, ?_⟩
    have hpart : (p.leftover argv).length = argv.length - (argv.filter p.parses).length := by
      have := List.length_eq_length_filter_add (l := argv) p.parses
      unfold Parser.leftover
      omega
    rw [← hpart, htake]
  · refine .inr ⟨hcount, front, bad, back, hsplit, hall, hbad, ?_⟩
    have hle : (p.leftover front).length ≤ front.length := List.length_filter_le ..
    rw [show p.leftover front ++ bad :: back = p.leftover front ++ [bad] ++ back by simp]
    exact sublist_of_take_drop (by omega) htake hdrop

/-! ### Names -/

/-- An argument: a name, with a value behind `=` if there is one. -/
def argText (name : List UInt8) : Option (List UInt8) → List UInt8
  | none => name
  | some val => name ++ 61 :: val

def IsName (name : List UInt8) : Prop := name ≠ [] ∧ ∀ c ∈ name, c ∉ 61 :: whitespace

instance (name : List UInt8) : Decidable (IsName name) := inferInstanceAs (Decidable (_ ∧ _))

/-- There is nothing behind an argument, or white space. -/
def EndsArg (behind : List UInt8) : Prop := ∀ c ∈ behind.head?, c ∈ whitespace

instance (behind : List UInt8) : Decidable (EndsArg behind) :=
  inferInstanceAs (Decidable (∀ _ ∈ _, _))

/-- The argument is applied to an option with exactly its name, and if no option has it the
    argument is refused and nothing changes. The option is the one whose `set` is called. A
    `=` without a value is refused whatever the options are. -/
def MatchedExactly (p : Parser D σ) (name : List UInt8) (val : Option (List UInt8))
    (behind : List UInt8) : Prop :=
  let opt_str := argText name val ++ behind
  if val = some [] then
    ∀ s, parseOpt p opt_str (argText name val).length s = .ok (⟨false, true⟩, s)
  else match findOpt opt_str name.length p.allopts_ 0 with
  | some (i, opt) => p.allopts_[i]? = some opt ∧ opt.longopt_ = name ∧
      ∀ s, parseOpt p opt_str (argText name val).length s =
        applyOpt p i opt (val.map (· ++ behind)) (val.elim 0 List.length) s
  | none => (∀ opt ∈ p.allopts_, opt.longopt_ ≠ name) ∧
      ∀ s, parseOpt p opt_str (argText name val).length s = .ok (⟨false, false⟩, s)

theorem strcspn_argText {name : List UInt8} (hname : IsName name) (val : Option (List UInt8))
    {behind : List UInt8} (hbehind : EndsArg behind) :
    strcspn (argText name val ++ behind) (61 :: whitespace) = name.length := by
  have htake : ∀ rest : List UInt8, (∀ c ∈ rest.head?, c ∈ 61 :: whitespace) →
      strcspn (name ++ rest) (61 :: whitespace) = name.length := by
    intro rest hrest
    have hall : ∀ c ∈ name, decide (c ∉ 61 :: whitespace) = true :=
      fun c hc => decide_eq_true (hname.2 c hc)
    have hstop : ∀ c ∈ rest.head?, decide (c ∉ 61 :: whitespace) = false :=
      fun c hc => decide_eq_false fun hnot => hnot (hrest c hc)
    unfold strcspn
    rw [List.takeWhile_append_of_stop hall hstop]
  cases val with
  | none => exact htake behind fun c hc => List.mem_cons_of_mem _ (hbehind c hc)
  | some val =>
    simp only [argText, List.append_assoc, List.cons_append]
    refine htake _ fun c hc => ?_
    obtain rfl : c = 61 := by simpa using hc.symm
    exact List.mem_cons_self

/-- `parse_opt` of an argument is the loop over the options, with the value that it has. -/
theorem parseOpt_argText (p : Parser D σ) {name : List UInt8} (hname : IsName name)
    (val : Option (List UInt8)) (hval : val ≠ some []) {behind : List UInt8}
    (hbehind : EndsArg behind) (s : σ) :
    parseOpt p (argText name val ++ behind) (argText name val).length s =
      matchOpt p (argText name val ++ behind) name.length (val.map (· ++ behind))
        (val.elim 0 List.length) s := by
  have hpos : name.length ≠ 0 := fun h => hname.1 (List.length_eq_zero_iff.1 h)
  have hlen := strcspn_argText hname val hbehind
  cases val with
  | none =>
    have hchar : (name ++ behind)[name.length]? ≠ some 61 := by
      rw [List.getElem?_append_right (Nat.le_refl _), Nat.sub_self]
      intro h
      rw [← List.head?_eq_getElem?] at h
      exact absurd (hbehind 61 h) (by decide)
    simp only [argText] at hlen ⊢
    simp [parseOpt, hlen, hpos, hchar]
  | some val =>
    have hne : val.length ≠ 0 := fun h => hval (by rw [List.length_eq_zero_iff.1 h])
    have hchar : (name ++ 61 :: val ++ behind)[name.length]? = some 61 := by simp
    have hdrop : (name ++ 61 :: val ++ behind).drop (name.length + 1) = val ++ behind := by
      simp [List.drop_append]
    have hsub : name.length + (val.length + 1) - (name.length + 1) = val.length := by omega
    simp only [argText] at hlen ⊢
    simp only [parseOpt, hlen, hchar, hdrop, List.length_append, List.length_cons, hsub]
    simp [hpos, hne]

theorem strncmp_argText {name : List UInt8} {val : Option (List UInt8)}
    {behind longopt : List UInt8} :
    strncmp (argText name val ++ behind) longopt name.length = true ↔ name <+: longopt := by
  have htake : (argText name val ++ behind).take name.length = name := by
    cases val with
    | none => simp [argText]
    | some val => simp [argText]
  unfold strncmp
  rw [htake, decide_eq_true_iff, List.prefix_iff_eq_take]

/-- The loop stops at the first option whose name begins with the name of the argument. -/
theorem findOpt_some {opt_str : List UInt8} {opt_len : Nat} {allopts : List Opt} {k i : Nat}
    {opt : Opt} (h : findOpt opt_str opt_len allopts k = some (i, opt)) :
    ∃ front back, allopts = front ++ opt :: back ∧ i = k + front.length ∧
      strncmp opt_str opt.longopt_ opt_len = true ∧
      ∀ o ∈ front, strncmp opt_str o.longopt_ opt_len = false := by
  induction allopts generalizing k with
  | nil => cases h
  | cons o allopts ih =>
    rw [findOpt] at h
    split at h
    · rename_i hmatch
      obtain ⟨rfl, rfl⟩ : k = i ∧ o = opt := by simpa using h
      exact ⟨[], allopts, rfl, rfl, hmatch, by simp⟩
    · rename_i hmatch
      obtain ⟨front, back, rfl, rfl, hopt, hall⟩ := ih h
      refine ⟨o :: front, back, rfl, by simp; omega, hopt, ?_⟩
      simpa [Bool.eq_false_iff.2 hmatch] using hall

theorem findOpt_none {opt_str : List UInt8} {opt_len : Nat} {allopts : List Opt} {k : Nat} :
    findOpt opt_str opt_len allopts k = none ↔
      ∀ o ∈ allopts, strncmp opt_str o.longopt_ opt_len = false := by
  induction allopts generalizing k with
  | nil => simp [findOpt]
  | cons o allopts ih =>
    rw [findOpt]
    split
    · rename_i hmatch
      simp [hmatch]
    · rename_i hmatch
      simp [ih, Bool.eq_false_iff.2 hmatch]

theorem parseOpt_argText_nil (p : Parser D σ) {name : List UInt8} (hname : IsName name)
    {behind : List UInt8} (hbehind : EndsArg behind) (s : σ) :
    parseOpt p (argText name (some []) ++ behind) (argText name (some [])).length s =
      .ok (⟨false, true⟩, s) := by
  have hpos : name.length ≠ 0 := fun h => hname.1 (List.length_eq_zero_iff.1 h)
  have hlen := strcspn_argText hname (some []) hbehind
  have hchar : (name ++ [61] ++ behind)[name.length]? = some 61 := by simp
  simp only [argText] at hlen ⊢
  simp only [parseOpt, hlen, hchar]
  simp [hpos]

/-- An argument is matched exactly if and only if every option whose name is longer and begins
    with its name comes behind one that has just this name, or it has a `=` without a value. -/
theorem parseOpt_exact_iff (p : Parser D σ) {name : List UInt8} (hname : IsName name)
    (val : Option (List UInt8)) {behind : List UInt8} (hbehind : EndsArg behind) :
    MatchedExactly p name val behind ↔ val = some [] ∨
      ∀ front opt back, p.allopts_ = front ++ opt :: back → name <+: opt.longopt_ →
        opt.longopt_ = name ∨ ∃ o ∈ front, o.longopt_ = name := by
  by_cases hval : val = some []
  · subst hval
    simp only [MatchedExactly, if_true, true_or, iff_true]
    exact parseOpt_argText_nil p hname hbehind
  have hparse := parseOpt_argText p hname val hval hbehind
  unfold MatchedExactly
  dsimp only
  rw [if_neg hval, or_iff_right hval]
  cases hfind : findOpt (argText name val ++ behind) name.length p.allopts_ 0 with
  | none =>
    have hnone : ∀ o ∈ p.allopts_, ¬ name <+: o.longopt_ := fun o ho hpre => by
      have := findOpt_none.1 hfind o ho
      rw [strncmp_argText.2 hpre] at this
      cases this
    dsimp only
    constructor
    · intro _ front opt back hsplit hpre
      exact absurd hpre (hnone opt (by simp [hsplit]))
    · intro _
      refine ⟨fun opt hopt heq => hnone opt hopt (heq ▸ List.prefix_rfl), fun s => ?_⟩
      rw [hparse, matchOpt, hfind]
      rfl
  | some found =>
    obtain ⟨i, opt⟩ := found
    obtain ⟨front, back, hsplit, hi, hopt, hfront⟩ := findOpt_some hfind
    have hnot : ∀ o ∈ front, ¬ name <+: o.longopt_ := fun o ho hpre => by
      have := hfront o ho
      rw [strncmp_argText.2 hpre] at this
      cases this
    have hpre := strncmp_argText.1 hopt
    have hget : p.allopts_[i]? = some opt := by
      rw [hsplit, hi]
      simp
    dsimp only
    constructor
    · intro ⟨_, hexact, _⟩ front' opt' back' hsplit' hpre'
      -- an earlier option would have been the first one that begins so
      have hmem : opt' = opt ∨ opt ∈ front' := by
        rcases List.append_eq_append_iff.1 (hsplit ▸ hsplit') with ⟨mid, h₁, h₂⟩ | ⟨mid, h₁, h₂⟩
        · cases mid with
          | nil =>
            simp only [List.nil_append, List.cons.injEq] at h₂
            exact .inl h₂.1.symm
          | cons m mid =>
            simp only [List.cons_append, List.cons.injEq] at h₂
            exact .inr (by simp [h₁, h₂.1])
        · cases mid with
          | nil =>
            simp only [List.nil_append, List.cons.injEq] at h₂
            exact .inl h₂.1
          | cons m mid =>
            simp only [List.cons_append, List.cons.injEq] at h₂
            exact absurd hpre' (hnot opt' (by simp [h₁, h₂.1]))
      rcases hmem with rfl | hmem
      · exact .inl hexact
      · exact .inr ⟨opt, hmem, hexact⟩
    · intro hcond
      have hexact : opt.longopt_ = name := by
        rcases hcond front opt back hsplit hpre with heq | ⟨o, ho, heq⟩
        · exact heq
        · exact absurd (heq ▸ List.prefix_rfl) (hnot o ho)
      refine ⟨hget, hexact, fun s => ?_⟩
      rw [hparse, matchOpt, hfind]

/-- Options that are not parsed for what they store. -/
def namesOnly (names : List String) : Parser Unit Unit where
  allopts_ := names.map fun name => ⟨name.toUTF8.toList, .int⟩
  env := ⟨fun _ => ((), 0), fun _ => none⟩
  store := fun _ _ _ => ()

/-- `foo=1` is applied to `foo` where this comes first. -/
theorem parseOpt_exact_foo :
    MatchedExactly (namesOnly ["foo", "foobar"]) "foo".toUTF8.toList (some [49]) [] := by
  refine (parseOpt_exact_iff (namesOnly ["foo", "foobar"]) (by decide +kernel) (some [49])
    (by decide +kernel)).2 (.inr fun front opt back hsplit _ => ?_)
  cases front with
  | nil => exact .inl (by rw [← (List.cons.inj hsplit).1])
  | cons o front => exact .inr ⟨o, List.mem_cons_self, by rw [← (List.cons.inj hsplit).1]⟩

/-- Without it, `foo=1` is applied to `foobar`. -/
theorem parseOpt_not_exact :
    ¬ MatchedExactly (namesOnly ["foobar"]) "foo".toUTF8.toList (some [49]) [] := by
  intro h
  have hfind : findOpt (argText "foo".toUTF8.toList (some [49]) ++ []) "foo".toUTF8.toList.length
      (namesOnly ["foobar"]).allopts_ 0 = some (0, ⟨"foobar".toUTF8.toList, .int⟩) := by
    decide +kernel
  unfold MatchedExactly at h
  rw [if_neg (by simp)] at h
  simp only [hfind] at h
  exact absurd h.2.1 (by decide +kernel)

end Oasys.OptParser
