import Oasys.Debug.Log
import Oasys.ForStd.FirstBest
import Oasys.Spec.GlobCorrect

/-!
# Log correctness

`parse_debug_file` leaves the rules in the order of the lines, and `find_rule` takes the first
that it accepts. On rules that `rule_compare` has sorted that is the most specific one, but
nothing sorts them, and rules with a pattern that is longer than the path are passed over.

## Key results

- `parseLines_ok`: the rules of a file, line by line
- `findRuleLoop_eq`: the scan of `find_rule`
- `isBest_of_sorted`: what the scan finds where the rules are sorted
- `logLevel_isBest_iff`: where the level in force is right in every order of the lines
- `not_isBest`: a file in the wrong order
-/

namespace Oasys.Log

variable {build : Build} {path : List Char} {rule : Rule} {rules : List Rule}
  {default l : LogLevel}

/-! ### The most specific rule -/

/-- A rule with a pattern that matches the path. -/
def globMatches (rule : Rule) (path : List Char) : Bool :=
  match rule.path_ with
  | '+' :: pat =>
    match Glob.fixedGlob pat path with
    | .ok b => b
    | .error _ => false
  | _ => false

/-- A rule for the path: the path is at or below that of the rule, or its pattern matches. -/
def Matches (rule : Rule) (path : List Char) : Prop :=
  rule.path_ <+: path ∨ globMatches rule path = true

instance (rule : Rule) (path : List Char) : Decidable (Matches rule path) :=
  inferInstanceAs (Decidable (_ ∨ _))

/-- The level of the longest rule for the path, and the most permissive one among these; or the
    default where there is no rule for it. -/
def IsBest (rules : List Rule) (path : List Char) (default l : LogLevel) : Prop :=
  (∃ r ∈ rules, Matches r path ∧ r.level_ = l ∧ ∀ r' ∈ rules, Matches r' path →
    r'.path_.length < r.path_.length ∨
      r'.path_.length = r.path_.length ∧ r.level_.value ≤ r'.level_.value) ∨
  (∀ r ∈ rules, ¬ Matches r path) ∧ l = default

theorem LogLevel.value_inj {l l' : LogLevel} (h : l.value = l'.value) : l = l' := by
  cases l <;> cases l' <;> first | rfl | (exact absurd h (by decide))

theorem IsBest.unique {l' : LogLevel} (h : IsBest rules path default l)
    (h' : IsBest rules path default l') : l = l' := by
  rcases h with ⟨r, hr, hmatch, rfl, hbest⟩ | ⟨hnone, rfl⟩
  · rcases h' with ⟨r', hr', hmatch', rfl, hbest'⟩ | ⟨hnone', -⟩
    · have h₁ := hbest r' hr' hmatch'
      have h₂ := hbest' r hr hmatch
      exact LogLevel.value_inj (by omega)
    · exact absurd hmatch (hnone' r hr)
  · rcases h' with ⟨r', hr', hmatch', -, -⟩ | ⟨-, rfl⟩
    · exact absurd hmatch' (hnone r' hr')
    · rfl

/-! ### The scan -/

def Accepts (rule : Rule) (path : List Char) : Prop :=
  rule.path_.length ≤ path.length ∧ Matches rule path

instance (rule : Rule) (path : List Char) : Decidable (Accepts rule path) :=
  inferInstanceAs (Decidable (_ ∧ _))

theorem findRuleLoop_eq (rules : List Rule) :
    findRuleLoop path rules = .ok (rules.find? fun rule => Accepts rule path) := by
  induction rules with
  | nil => rfl
  | cons rule rules ih =>
    rw [findRuleLoop]
    by_cases hlong : rule.path_.length > path.length
    · have hnot : ¬ Accepts rule path := fun h => by
        have := h.1
        omega
      rw [if_pos hlong, List.find?_cons_of_neg (by simpa using hnot)]
      exact ih
    · have hle : rule.path_.length ≤ path.length := by omega
      rw [if_neg hlong]
      by_cases hpath : rule.path_ = path.take rule.path_.length
      · have haccept : Accepts rule path := ⟨hle, .inl (List.prefix_iff_eq_take.2 hpath)⟩
        rw [if_pos hpath, List.find?_cons_of_pos (by simpa using haccept)]
        rfl
      · have hiff : Accepts rule path ↔ globMatches rule path = true := by
          simp [Accepts, Matches, hle, List.prefix_iff_eq_take, hpath]
        rw [if_neg hpath]
        split
        · rename_i pat hpat
          have hpath : path ≠ [] := by
            rintro rfl
            simp [hpat] at hle
          obtain ⟨b, hb, -⟩ := Glob.fixedGlob_ok pat hpath
          have hglob : globMatches rule path = b := by simp [globMatches, hpat, hb]
          cases b with
          | true =>
            rw [hb, List.find?_cons_of_pos (by simpa using hiff.2 hglob)]
            rfl
          | false =>
            rw [hb, List.find?_cons_of_neg (by simpa [hiff] using hglob)]
            exact ih
        · rename_i hpat
          have hglob : globMatches rule path = false := by
            rw [globMatches]
            split
            · rename_i pat hpat'
              exact absurd hpat' (hpat pat)
            · rfl
          rw [List.find?_cons_of_neg (by simpa [hiff] using hglob)]
          exact ih

theorem logLevel_eq (rules : List Rule) (default : LogLevel) (path : List Char) :
    logLevel ⟨rules, default, true⟩ path =
      .ok (((rules.find? fun rule => Accepts rule path).map Rule.level_).getD default) := by
  simp only [logLevel, findRule, assert_true, ok_bind, findRuleLoop_eq]
  cases rules.find? fun rule => Accepts rule path with
  | none => rfl
  | some rule => rfl

/-- Where the rules are sorted as `rule_compare` does it, and none that matches is passed over,
    the scan finds the most specific one. -/
theorem isBest_of_sorted (hsorted : rules.Pairwise fun r r' => ruleCompare r' r = false)
    (haccept : ∀ r ∈ rules, Matches r path → Accepts r path) :
    ∃ l, logLevel ⟨rules, default, true⟩ path = .ok l ∧ IsBest rules path default l := by
  refine ⟨_, logLevel_eq rules default path, ?_⟩
  cases hfind : rules.find? fun rule => Accepts rule path with
  | none =>
    refine .inr ⟨fun r hr hmatch => ?_, rfl⟩
    have := List.find?_eq_none.1 hfind r hr
    simp [haccept r hr hmatch] at this
  | some r =>
    have hr : Accepts r path := by simpa using List.find?_some hfind
    refine .inl ⟨r, List.mem_of_find?_eq_some hfind, hr.2, rfl, fun r' hr' hmatch' => ?_⟩
    rcases List.find?_of_pairwise hsorted hfind r' hr' (by simpa using haccept r' hr' hmatch') with
      rfl | hle
    · exact .inr ⟨rfl, Int.le_refl _⟩
    · simp only [ruleCompare, Bool.or_eq_false_iff, Bool.and_eq_false_iff, decide_eq_false_iff_not]
        at hle
      omega

/-- The longer one of two rules. -/
theorem isBest_of_sorted_two :
    ∃ l, logLevel ⟨[⟨"/a/b".toList, .debug⟩, ⟨"/a".toList, .info⟩], .warn, true⟩ "/a/b/c".toList =
      .ok l ∧
      IsBest [⟨"/a/b".toList, .debug⟩, ⟨"/a".toList, .info⟩] "/a/b/c".toList .warn l :=
  isBest_of_sorted (by decide) (by decide)

/-! ### The debug file -/

/-- A line of a debug file that is no longer than the buffer, and gives a rule or is to be
    skipped. -/
structure DebugLine (build : Build) where
  text : List Char
  fits : text.length < 1023
  single : '\n' ∉ text
  rule : Option Rule
  parses : parseLine build (text ++ ['\n']) = .ok rule

def file (lines : List (DebugLine build)) : List Char :=
  lines.flatMap fun line => line.text ++ ['\n']

def rulesOf (lines : List (DebugLine build)) : List Rule := lines.filterMap DebugLine.rule

theorem fgets_line (line : DebugLine build) (rest : List Char) :
    fgets 1024 (line.text ++ '\n' :: rest) = (line.text ++ ['\n'], rest) := by
  have hline : ∀ c ∈ line.text, decide (c ≠ '\n') = true := by
    intro c hc
    rw [decide_eq_true_eq]
    rintro rfl
    exact line.single hc
  have htake : (line.text ++ '\n' :: rest).takeWhile (· ≠ '\n') = line.text := by
    rw [List.takeWhile_append_of_pos hline]
    simp
  have hdrop : (line.text ++ '\n' :: rest).dropWhile (· ≠ '\n') = '\n' :: rest := by
    rw [List.dropWhile_append_of_pos hline]
    simp
  have hfits := line.fits
  have hlength : (line.text ++ ['\n']).take (1024 - 1) = line.text ++ ['\n'] :=
    List.take_of_length_le (by simp; omega)
  have hsplit : line.text ++ '\n' :: rest = (line.text ++ ['\n']) ++ rest := by simp
  simp only [fgets, htake, hdrop, List.take_succ_cons, List.take_zero, hlength]
  rw [hsplit, List.drop_left']
  rfl

theorem parseLines_ok (lines : List (DebugLine build)) : ∀ fuel rule_list,
    (file lines).length ≤ fuel →
    parseLines build fuel (file lines) rule_list = .ok (rule_list ++ rulesOf lines) := by
  induction lines with
  | nil => simp [file, rulesOf, parseLines]
  | cons line lines ih =>
    intro fuel rule_list hfuel
    have hfile : file (line :: lines) = line.text ++ '\n' :: file lines := by simp [file]
    rw [hfile] at hfuel ⊢
    simp only [List.length_append, List.length_cons] at hfuel
    obtain ⟨fuel, rfl⟩ : ∃ n, fuel = n + 1 := ⟨fuel - 1, by omega⟩
    rw [parseLines]
    · simp only [fgets_line, line.parses, ok_bind]
      cases hrule : line.rule with
      | none =>
        simp only [hrule, rulesOf, List.filterMap_cons]
        exact ih fuel rule_list (by omega)
      | some rule =>
        simp only [hrule, rulesOf, List.filterMap_cons]
        rw [ih fuel _ (by omega)]
        simp [rulesOf]
    · simp

def threshold (build : Build) (defaultlvl : LogLevel) : LogLevel :=
  if build.ndebug && defaultlvl = .debug then .info else defaultlvl

theorem doInit_ok (defaultlvl : LogLevel) (lines : List (DebugLine build)) :
    doInit build defaultlvl (some (file lines)) =
      .ok ⟨rulesOf lines, threshold build defaultlvl, true⟩ := by
  simp [doInit, parseDebugFile, parseLines_ok lines _ [] (Nat.le_refl _), threshold]

/-- In every order of the lines the level in force is that of the most specific rule, exactly
    where each rule that the scan stops at has that level, and the default has it if there is
    no such rule. -/
theorem logLevel_isBest_iff (defaultlvl : LogLevel) (lines : List (DebugLine build))
    (path : List Char) :
    (∀ lines' : List (DebugLine build), lines'.Perm lines → ∃ log l,
      doInit build defaultlvl (some (file lines')) = .ok log ∧ logLevel log path = .ok l ∧
        IsBest (rulesOf lines) path log.default_threshold_ l) ↔
      (∀ r ∈ rulesOf lines, Accepts r path →
        IsBest (rulesOf lines) path (threshold build defaultlvl) r.level_) ∧
      ((∀ r ∈ rulesOf lines, ¬ Accepts r path) →
        IsBest (rulesOf lines) path (threshold build defaultlvl) (threshold build defaultlvl)) := by
  have hscan := List.forall_perm_find?_filterMap_iff (f := DebugLine.rule)
    (p := fun rule => decide (Accepts rule path)) (l := lines)
    (P := fun r => IsBest (rulesOf lines) path (threshold build defaultlvl)
      ((r.map Rule.level_).getD (threshold build defaultlvl)))
  simp only [decide_eq_true_eq, decide_eq_false_iff_not, Option.map_some, Option.getD_some,
    Option.map_none, Option.getD_none] at hscan
  refine Iff.trans (forall₂_congr fun lines' _ => ⟨?_, fun hbest => ?_⟩) hscan
  · rintro ⟨log, l, hinit, hlevel, hbest⟩
    rw [doInit_ok] at hinit
    obtain rfl := Except.ok.inj hinit
    rw [logLevel_eq] at hlevel
    obtain rfl := Except.ok.inj hlevel
    exact hbest
  · exact ⟨_, _, doInit_ok defaultlvl lines', logLevel_eq _ _ path, hbest⟩

def wrongOrder : List (DebugLine ⟨false, false⟩) :=
  [⟨"/dtn info".toList, by decide, by decide, some ⟨"/dtn".toList, .info⟩, rfl⟩,
    ⟨"/dtn/bundle debug".toList, by decide, by decide, some ⟨"/dtn/bundle".toList, .debug⟩, rfl⟩]

/-- The first rule decides, although the second is more specific. -/
theorem not_isBest : ¬ ∀ (build : Build) (defaultlvl : LogLevel) (lines : List (DebugLine build))
    (path : List Char), ∃ log l, doInit build defaultlvl (some (file lines)) = .ok log ∧
      logLevel log path = .ok l ∧ IsBest (rulesOf lines) path log.default_threshold_ l := by
  intro h
  obtain ⟨log, l, hinit, hlevel, hbest⟩ :=
    h ⟨false, false⟩ .notice wrongOrder "/dtn/bundle/daemon".toList
  rw [doInit_ok] at hinit
  obtain rfl := Except.ok.inj hinit
  have hinfo : logLevel ⟨rulesOf wrongOrder, .notice, true⟩ "/dtn/bundle/daemon".toList =
      .ok .info := by decide
  obtain rfl := Except.ok.inj (hlevel.symm.trans hinfo)
  have hdebug : IsBest (rulesOf wrongOrder) "/dtn/bundle/daemon".toList .notice .debug :=
    .inl ⟨⟨"/dtn/bundle".toList, .debug⟩, by decide, by decide, rfl, by decide⟩
  exact absurd (hbest.unique hdebug) (by decide)

end Oasys.Log
