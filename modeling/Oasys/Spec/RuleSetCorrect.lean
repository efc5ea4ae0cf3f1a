import Mathlib.Data.List.Forall2
import Oasys.ForStd.FirstBest
import Oasys.Spec.GlobCorrect
import Oasys.Util.RuleSet

/-!
# RuleSet: what the rules do

The rules are added to a storage that has something in it before, and a path is matched.
What the set should do is said of the calls: the rules of the first `MAX_RULES` of them are
kept, and the first one of highest priority is found among those that match the path.
`RuleSet.meets_iff` says when it does.
-/

namespace Oasys.RuleSet

open RuleStorage (MAX_RULES MAX_RULE_LENGTH)

/-! ### The calls -/

/-- A call that adds a rule. -/
inductive Add where
  | prefixRule (rule : List Char) (log_level : Int)
  | globRule (rule : List Char) (log_level priority : Int)

namespace Add

def flags : Add → RuleFlags
  | prefixRule .. => .PREFIX
  | globRule .. => .GLOB

def rule : Add → List Char
  | prefixRule rule _ => rule
  | globRule rule _ _ => rule

def log_level : Add → Int
  | prefixRule _ log_level => log_level
  | globRule _ log_level _ => log_level

/-- The priority that the rule should have: for a prefix its length. -/
def priority : Add → Int
  | prefixRule rule _ => rule.length
  | globRule _ _ priority => priority

def run (s : RuleSet) : Add → Except Fault RuleSet
  | prefixRule rule log_level => s.addPrefixRule rule log_level
  | globRule rule log_level priority => s.addGlobRule rule log_level priority

def Matches (path : List Char) : Add → Prop
  | prefixRule rule _ => rule <+: path
  | globRule rule _ _ => Glob.Matches rule path

/-- What the code finds out about a path and the rule. -/
def sees (path : List Char) : Add → Except Fault Bool
  | prefixRule rule _ => pure (rule.isPrefixOf path)
  | globRule rule _ _ => Glob.fixedGlob rule path

theorem matches_of_sees {a : Add} {path : List Char} (h : a.sees path = .ok true) :
    a.Matches path := by
  cases a with
  | prefixRule rule log_level =>
    have hprefix : rule.isPrefixOf path = true := Except.ok.inj h
    exact List.isPrefixOf_iff_prefix.1 hprefix
  | globRule rule log_level priority =>
    have hglob : Glob.fixedGlob rule path = .ok true := h
    by_cases hpath : path = []
    · subst hpath
      rw [Glob.fixedGlob_nil] at hglob
      split at hglob
      · cases hglob
      · obtain rfl := of_decide_eq_true (Except.ok.inj hglob)
        exact .nil
    · obtain ⟨b, hb, hmatches⟩ := Glob.fixedGlob_ok rule hpath
      obtain rfl := Except.ok.inj (hglob.symm.trans hb)
      exact hmatches rfl

theorem sees_iff {a : Add} {path : List Char} :
    (∃ b, a.sees path = .ok b) ↔ (path = [] → a.flags = .GLOB → a.rule.head? ≠ some '*') := by
  cases a with
  | prefixRule rule log_level =>
    constructor
    · intro _ _ hflags
      cases hflags
    · intro _
      exact ⟨_, rfl⟩
  | globRule rule log_level priority =>
    change (∃ b, Glob.fixedGlob rule path = .ok b) ↔ (path = [] → _ → rule.head? ≠ some '*')
    by_cases hpath : path = []
    · subst hpath
      rw [Glob.fixedGlob_nil]
      by_cases hhead : rule.head? = some '*' <;> simp [hhead, flags]
    · obtain ⟨b, hb, -⟩ := Glob.fixedGlob_ok rule hpath
      exact ⟨fun _ h => absurd h hpath, fun _ => ⟨b, hb⟩⟩

end Add

/-! ### What the set should do -/

/-- A slot has a rule in it. -/
structure Holds (item : RuleStorage.Item) (a : Add) : Prop where
  flags : item.flags_ = a.flags
  log_level : item.log_level_ = a.log_level
  priority : item.priority_ = a.priority
  text : cString item.rule_ = .ok a.rule

def kept (adds : List Add) : List Add := adds.take MAX_RULES

/-- The calls stay in the storage, the rules that are to be kept are in it afterwards, and the
    first best of those that match a path is found. -/
def Meets (rs : RuleStorage) (adds : List Add) (path : List Char) : Prop :=
  ∃ s, adds.foldlM Add.run (new rs) = .ok s ∧
    List.Forall₂ Holds (s.rules_.items_.take s.num_rules_) (kept adds) ∧
    ∃ r, s.matchRule path = .ok r ∧
      FirstBest (Add.Matches path) Add.priority (kept adds) r

/-! ### Adding rules -/

/-- What is written into a slot. -/
def stored (item : RuleStorage.Item) (a : Add) : RuleStorage.Item where
  flags_ := a.flags
  log_level_ := a.log_level
  priority_ :=
    match a with
    | .prefixRule rule _ => IntType.int.conv rule.length
    | .globRule _ _ priority => priority
  rule_ := copyRule item a.rule
  length_rule_ := length_copyRule item a.rule

/-- What the storage is after some calls. -/
structure Stored (rs : RuleStorage) (adds : List Add) (s : RuleSet) : Prop where
  num_rules : s.num_rules_ = adds.length
  items : s.rules_.items_ =
    List.zipWith stored rs.items_ adds ++ rs.items_.drop adds.length

variable {rs : RuleStorage} {adds : List Add} {s : RuleSet} {path : List Char}

theorem stored_new (rs : RuleStorage) : Stored rs [] (new rs) := ⟨rfl, by simp [new]⟩

theorem run_of_getElem {item : RuleStorage.Item} (a : Add)
    (hitem : s.rules_.items_[s.num_rules_]? = some item) :
    ∃ s', Add.run s a = .ok s' ∧ s'.num_rules_ = s.num_rules_ + 1 ∧
      s'.rules_.items_ = s.rules_.items_.set s.num_rules_ (stored item a) := by
  have hlt : s.num_rules_ < MAX_RULES := by
    rw [← s.rules_.length_items_]
    exact (List.getElem?_eq_some_iff.1 hitem).1
  have hroom : ¬ s.num_rules_ > MAX_RULES := by omega
  have hlength : (s.rules_.items_.set s.num_rules_ (stored item a)).length = MAX_RULES := by
    rw [List.length_set, s.rules_.length_items_]
  refine ⟨⟨⟨_, hlength⟩, s.num_rules_ + 1⟩, ?_, rfl, rfl⟩
  cases a with
  | prefixRule rule log_level =>
    simp only [Add.run, addPrefixRule, addRule, hroom, if_false, hitem]
    rfl
  | globRule rule log_level priority =>
    simp only [Add.run, addGlobRule, addRule, hroom, if_false, hitem]
    rfl

theorem run_full (a : Add) (hfull : s.num_rules_ = MAX_RULES) :
    Add.run s a = .error .outOfBounds := by
  have hroom : ¬ s.num_rules_ > MAX_RULES := by omega
  have hitem : s.rules_.items_[s.num_rules_]? = none := by
    rw [List.getElem?_eq_none_iff, s.rules_.length_items_, hfull]
  cases a with
  | prefixRule rule log_level =>
    simp only [Add.run, addPrefixRule, addRule, hroom, if_false, hitem]
    rfl
  | globRule rule log_level priority =>
    simp only [Add.run, addGlobRule, addRule, hroom, if_false, hitem]
    rfl

theorem Stored.run (h : Stored rs adds s) (a : Add) (hroom : adds.length < MAX_RULES) :
    ∃ s', Add.run s a = .ok s' ∧ Stored rs (adds ++ [a]) s' := by
  -- the slots before the next one, that one, and the ones behind it
  obtain ⟨front, old, back, hitems, hfront⟩ :
      ∃ front old back, rs.items_ = front ++ old :: back ∧ front.length = adds.length := by
    have hlt : adds.length < rs.items_.length := by rw [rs.length_items_]; exact hroom
    refine ⟨rs.items_.take adds.length, rs.items_.get ⟨adds.length, hlt⟩,
      rs.items_.drop (adds.length + 1), ?_, ?_⟩
    · rw [List.get_eq_getElem, List.getElem_cons_drop, List.take_append_drop]
    · rw [List.length_take]
      omega
  have hbefore : s.rules_.items_ = List.zipWith stored front adds ++ old :: back := by
    have hzip : List.zipWith stored (front ++ old :: back) (adds ++ []) =
        List.zipWith stored front adds ++ List.zipWith stored (old :: back) [] :=
      List.zipWith_append hfront
    rw [List.append_nil, List.zipWith_nil_right, List.append_nil] at hzip
    rw [h.items, hitems, hzip, ← hfront, List.drop_left]
  have hlength : (List.zipWith stored front adds).length = adds.length := by
    rw [List.length_zipWith, hfront, Nat.min_self]
  have hitem : s.rules_.items_[s.num_rules_]? = some old := by
    rw [hbefore, h.num_rules, List.getElem?_append_right (by omega), hlength, Nat.sub_self]
    rfl
  obtain ⟨s', hrun, hnum, hset⟩ := run_of_getElem a hitem
  refine ⟨s', hrun, by rw [hnum, h.num_rules, List.length_append]; rfl, ?_⟩
  have hzip : List.zipWith stored (front ++ old :: back) (adds ++ [a]) =
      List.zipWith stored front adds ++ List.zipWith stored (old :: back) [a] :=
    List.zipWith_append hfront
  rw [hset, hbefore, h.num_rules, List.set_append_right _ _ (by omega), hlength, Nat.sub_self,
    List.set_cons_zero, hitems, hzip, List.zipWith_cons_cons, List.zipWith_nil_right,
    List.append_assoc, List.length_append, ← hfront, ← List.drop_drop, List.drop_left]
  rfl

theorem stored_of_le (rs : RuleStorage) (adds : List Add) (hroom : adds.length ≤ MAX_RULES) :
    ∃ s, adds.foldlM Add.run (new rs) = .ok s ∧ Stored rs adds s := by
  induction adds using List.reverseRecOn with
  | nil => exact ⟨_, rfl, stored_new rs⟩
  | append_singleton adds a ih =>
    rw [List.length_append, List.length_singleton] at hroom
    obtain ⟨s, hadds, hs⟩ := ih (by omega)
    obtain ⟨s', hrun, hs'⟩ := hs.run a (by omega)
    refine ⟨s', ?_, hs'⟩
    rw [List.foldlM_append, hadds, ok_bind, List.foldlM_cons, hrun, ok_bind]
    rfl

theorem adds_full (rs : RuleStorage) (adds : List Add) (hfull : MAX_RULES < adds.length) :
    adds.foldlM Add.run (new rs) = .error .outOfBounds := by
  have hlength : (adds.take MAX_RULES).length = MAX_RULES := by
    rw [List.length_take]
    omega
  obtain ⟨s, hadds, hs⟩ := stored_of_le rs (adds.take MAX_RULES) (le_of_eq hlength)
  have hnum : s.num_rules_ = MAX_RULES := by rw [hs.num_rules, hlength]
  cases hrest : adds.drop MAX_RULES with
  | nil =>
    have := List.drop_eq_nil_iff.1 hrest
    omega
  | cons a rest =>
    rw [← List.take_append_drop MAX_RULES adds, hrest, List.foldlM_append, hadds, ok_bind,
      List.foldlM_cons, run_full a hnum]
    rfl

/-! ### The text of a rule -/

/-- There is a zero in the storage where the text of a rule ends. -/
def Ends (item : RuleStorage.Item) (a : Add) : Prop :=
  item.rule_[a.rule.length]? = some '\x00'

theorem cString_copyRule_iff (item : RuleStorage.Item) {rule : List Char}
    (hrule : '\x00' ∉ rule) :
    cString (copyRule item rule) = .ok rule ↔ item.rule_[rule.length]? = some '\x00' := by
  have htake : ∀ c ∈ rule, decide (c ≠ '\x00') = true := by
    intro c hc
    exact decide_eq_true fun h => hrule (h ▸ hc)
  by_cases hlen : rule.length < MAX_RULE_LENGTH
  · -- the character behind the text is the one that was there
    obtain ⟨z, back, hback⟩ : ∃ z back, item.rule_.drop rule.length = z :: back := by
      cases hdrop : item.rule_.drop rule.length with
      | nil =>
        have := List.drop_eq_nil_iff.1 hdrop
        rw [item.length_rule_] at this
        omega
      | cons z back => exact ⟨z, back, rfl⟩
    have hz : item.rule_[rule.length]? = some z := by
      rw [← List.head?_drop, hback]
      rfl
    have hcopy : copyRule item rule = rule ++ z :: back := by
      rw [copyRule, List.take_of_length_le (by omega), Nat.min_eq_right (by omega), hback]
    rw [hcopy, hz, cString]
    by_cases hzero : z = '\x00'
    · subst hzero
      rw [if_pos (by simp), List.takeWhile_append_of_pos htake]
      simp [pure_eq_ok]
    · simp only [Option.some.injEq, hzero, iff_false]
      split
      · rw [List.takeWhile_append_of_pos htake, List.takeWhile_cons]
        simp [hzero, pure_eq_ok]
      · simp
  · -- no room for a zero
    have hnone : item.rule_[rule.length]? = none := by
      rw [List.getElem?_eq_none_iff, item.length_rule_]
      omega
    have hcopy : copyRule item rule = rule.take MAX_RULE_LENGTH := by
      rw [copyRule, Nat.min_eq_left (by omega), List.drop_of_length_le
        (by rw [item.length_rule_]), List.append_nil]
    have hmem : '\x00' ∉ rule.take MAX_RULE_LENGTH := fun h => hrule (List.mem_of_mem_take h)
    simp [hcopy, hnone, cString, hmem]

theorem Ends.length_lt {item : RuleStorage.Item} {a : Add} (h : Ends item a) :
    a.rule.length < MAX_RULE_LENGTH := by
  rw [← item.length_rule_]
  exact (List.getElem?_eq_some_iff.1 h).1

theorem holds_stored_iff {item : RuleStorage.Item} {a : Add} (ha : '\x00' ∉ a.rule) :
    Holds (stored item a) a ↔ Ends item a := by
  constructor
  · intro h
    exact (cString_copyRule_iff item ha).1 h.text
  · intro h
    refine ⟨rfl, rfl, ?_, (cString_copyRule_iff item ha).2 h⟩
    cases a with
    | prefixRule rule log_level =>
      have hlt := h.length_lt
      have hsmall : rule.length < 2 ^ 31 := lt_trans hlt (by decide)
      exact IntType.int_conv_of_lt hsmall
    | globRule rule log_level priority => rfl

/-! ### Matching -/

theorem doMatch_eq {item : RuleStorage.Item} {a : Add} (h : Holds item a) :
    doMatch path item = a.sees path := by
  rw [doMatch, h.text, ok_bind, h.flags]
  cases a <;> rfl

/-- What the loop knows of the rules that it has seen. -/
abbrev Seen (path : List Char) (adds : List Add) (found : Option Nat) (cur_priority : Int) :
    Prop :=
  FirstBest.Scanned (fun a => a.sees path = .ok true) Add.priority (-1000) adds found cur_priority

/-- The loop returns if every rule can be matched, and then with the best. -/
theorem matchFrom_seen {items : List RuleStorage.Item} {rest : List Add}
    (hitems : List.Forall₂ Holds items rest) :
    ∀ {adds : List Add} {found : Option Nat} {cur_priority : Int},
      Seen path adds found cur_priority → (∀ a ∈ rest, ∃ b, a.sees path = .ok b) →
      ∃ r cur, matchFrom path adds.length items found cur_priority = .ok r ∧
        Seen path (adds ++ rest) r cur := by
  induction hitems with
  | nil =>
    intro adds found cur_priority hseen _
    exact ⟨found, cur_priority, rfl, by rw [List.append_nil]; exact hseen⟩
  | @cons item a items rest hitem _ ih =>
    intro adds found cur_priority hseen hsees
    obtain ⟨b, hb⟩ := hsees a (by simp)
    have hlength : (adds ++ [a]).length = adds.length + 1 := by simp
    have hnext : ∀ {found cur_priority}, Seen path (adds ++ [a]) found cur_priority →
        ∃ r cur, matchFrom path (adds.length + 1) items found cur_priority = .ok r ∧
          Seen path (adds ++ a :: rest) r cur := by
      intro found cur_priority hseen
      have h := ih hseen fun a ha => hsees a (by simp [ha])
      rwa [hlength, List.append_assoc] at h
    rw [matchFrom, doMatch_eq hitem, hb, ok_bind, hitem.priority]
    by_cases hbetter : (b && decide (a.priority > cur_priority)) = true
    · rw [if_pos hbetter]
      obtain ⟨hmatched, hlt⟩ := Bool.and_eq_true_iff.1 hbetter
      subst hmatched
      exact hnext (hseen.take hb (of_decide_eq_true hlt))
    · rw [if_neg hbetter]
      refine hnext (hseen.skip ?_)
      intro ⟨hmatched, hlt⟩
      obtain rfl := Except.ok.inj (hb.symm.trans hmatched)
      exact hbetter (by simpa using hlt)

theorem sees_of_matchFrom {items : List RuleStorage.Item} {rest : List Add}
    (hitems : List.Forall₂ Holds items rest) :
    ∀ {i : Nat} {found r : Option Nat} {cur_priority : Int},
      matchFrom path i items found cur_priority = .ok r → ∀ a ∈ rest, ∃ b, a.sees path = .ok b := by
  induction hitems with
  | nil => simp
  | @cons item a items rest hitem _ ih =>
    intro i found r cur_priority h a' ha'
    rw [matchFrom, doMatch_eq hitem, bind_eq_ok] at h
    obtain ⟨b, hb, h⟩ := h
    rcases List.mem_cons.1 ha' with rfl | ha'
    · exact ⟨b, hb⟩
    · split at h
      · exact ih h a' ha'
      · exact ih h a' ha'

/-! ### The set -/

theorem forall₂_holds_iff (items : List RuleStorage.Item) (hadds : ∀ a ∈ adds, '\x00' ∉ a.rule) :
    List.Forall₂ Holds (List.zipWith stored items adds) adds ↔
      List.Forall₂ Ends (items.take adds.length) adds := by
  induction adds generalizing items with
  | nil => simp
  | cons a adds ih =>
    cases items with
    | nil => simp
    | cons item items =>
      rw [List.zipWith_cons_cons, List.length_cons, List.take_succ_cons, List.forall₂_cons,
        List.forall₂_cons, holds_stored_iff (hadds a (by simp)),
        ih items fun a ha => hadds a (by simp [ha])]

/-- What the calls and the path have to be like. -/
structure Fits (rs : RuleStorage) (adds : List Add) (path : List Char) : Prop where
  room : adds.length ≤ MAX_RULES
  ends : List.Forall₂ Ends (rs.items_.take adds.length) adds
  reads : path = [] → ∀ a ∈ adds, a.flags = .GLOB → a.rule.head? ≠ some '*'
  finds : ∀ i a, FirstBest (Add.Matches path) Add.priority adds (some i) → adds[i]? = some a →
    a.sees path = .ok true ∧ -1000 < a.priority

theorem Stored.take_items (h : Stored rs adds s) (hroom : adds.length ≤ MAX_RULES) :
    s.rules_.items_.take s.num_rules_ = List.zipWith stored rs.items_ adds := by
  have hlength : (List.zipWith stored rs.items_ adds).length = s.num_rules_ := by
    rw [List.length_zipWith, rs.length_items_, h.num_rules, Nat.min_eq_right hroom]
  rw [h.items, ← hlength, List.take_left]

/-- The set does what it should exactly if there are no more than `MAX_RULES` calls, the
    storage has a zero where the text of each rule ends, the path is not empty if there is a
    glob that starts with a `*`, and the first best of the rules that match is seen and has a
    priority of more than `-1000`. -/
theorem meets_iff (rs : RuleStorage) (path : List Char) (hadds : ∀ a ∈ adds, '\x00' ∉ a.rule) :
    Meets rs adds path ↔ Fits rs adds path := by
  by_cases hroom : adds.length ≤ MAX_RULES
  · obtain ⟨s, hrun, hs⟩ := stored_of_le rs adds hroom
    have hkept : kept adds = adds := List.take_of_length_le hroom
    have hitems := forall₂_holds_iff rs.items_ hadds
    rw [← hs.take_items hroom] at hitems
    -- what is seen and what matches
    have hsound : ∀ r, FirstBest (fun a => a.sees path = .ok true ∧ -1000 < a.priority)
        Add.priority adds r → (FirstBest (Add.Matches path) Add.priority adds r ↔
          ∀ i a, FirstBest (Add.Matches path) Add.priority adds (some i) → adds[i]? = some a →
            a.sees path = .ok true ∧ -1000 < a.priority) := by
      intro r hr
      rw [FirstBest.congr_iff hr, and_iff_left_iff_imp]
      intro _ j y _ hseen hnot
      exact absurd (Add.matches_of_sees hseen.1) hnot
    constructor
    · intro ⟨s', hrun', hholds, r, hmatch, hbest⟩
      obtain rfl := Except.ok.inj (hrun.symm.trans hrun')
      rw [hkept] at hholds hbest
      have hsees := sees_of_matchFrom hholds hmatch
      obtain ⟨r', cur, hmatch', hseen⟩ := matchFrom_seen hholds .nil hsees
      obtain rfl := Except.ok.inj (hmatch'.symm.trans hmatch)
      refine ⟨hroom, hitems.1 hholds, ?_, (hsound _ hseen.best).1 hbest⟩
      intro hpath a ha
      exact Add.sees_iff.1 (hsees a ha) hpath
    · intro h
      have hholds := hitems.2 h.ends
      have hsees : ∀ a ∈ adds, ∃ b, a.sees path = .ok b := by
        intro a ha
        exact Add.sees_iff.2 fun hpath => h.reads hpath a ha
      obtain ⟨r, cur, hmatch, hseen⟩ := matchFrom_seen hholds .nil hsees
      refine ⟨s, hrun, by rw [hkept]; exact hholds, r, hmatch, ?_⟩
      rw [hkept]
      exact (hsound _ hseen.best).2 h.finds
  · constructor
    · intro ⟨s, hrun, _⟩
      rw [adds_full rs adds (by omega)] at hrun
      cases hrun
    · intro h
      exact absurd h.room hroom

def zeroStorage : RuleStorage where
  items_ := List.replicate MAX_RULES
    ⟨.PREFIX, 0, 0, List.replicate MAX_RULE_LENGTH '\x00', List.length_replicate⟩
  length_items_ := List.length_replicate

/-- The rules that the source has for a test of its own. -/
theorem meets_iff_foo :
    Meets zeroStorage [.prefixRule "/foo".toList 1, .prefixRule "/foo/bar".toList 2,
        .globRule "*baz".toList 3 1000] "/foo/baz".toList ↔
      Fits zeroStorage [.prefixRule "/foo".toList 1, .prefixRule "/foo/bar".toList 2,
        .globRule "*baz".toList 3 1000] "/foo/baz".toList :=
  meets_iff _ _ (by decide)

/-- One rule more than there is room for. -/
theorem not_meets_full :
    ¬ Meets zeroStorage (List.replicate 129 (.prefixRule "/foo".toList 1)) "/foo".toList := by
  intro ⟨s, hrun, _⟩
  rw [adds_full _ _ (by rw [List.length_replicate]; decide)] at hrun
  cases hrun

end Oasys.RuleSet
