import Mathlib.Data.List.TakeWhile
import Oasys.Debug.LogFile

/-!
# Correctness of parse_debug_file

The loops of `parse_debug_file` stop at white space, and two of them do not stop at the end of
the string. They stay in a line exactly where white space follows its level, and there they find
the rule that `parseLine` does (`parseBuffer_of_terminated`); elsewhere they go on into what
earlier lines have left.
-/

namespace Oasys.Log

/-! ### Loops -/

section Scan

variable {p : Char → Bool} {cs : List Char} {buf cells : Buffer} {i j : Nat}

theorem scan_map (p : Char → Bool) (cs : List Char) (cells : Buffer) (i : Nat) :
    scan p (cs.map some ++ cells) i =
      if cs.all p then scan p cells (i + cs.length) else .ok (i + (cs.takeWhile p).length) := by
  induction cs generalizing i with
  | nil => simp
  | cons c cs ih =>
    rw [List.map_cons, List.cons_append, scan]
    by_cases hc : p c = true
    · rw [if_pos hc, ih, List.all_cons, hc, Bool.true_and, List.takeWhile_cons_of_pos hc,
        List.length_cons, List.length_cons, Nat.add_right_comm, Nat.add_assoc]
      split
      · rfl
      · congr 1
        omega
    · rw [if_neg hc, List.all_cons, List.takeWhile_cons_of_neg hc]
      simp [hc]

theorem scan_string (hnul : p '\x00' = false) (cs : List Char) (cells : Buffer) (i : Nat) :
    scan p (cs.map some ++ some '\x00' :: cells) i = .ok (i + (cs.takeWhile p).length) := by
  rw [scan_map]
  split
  · rename_i hall
    rw [scan, if_neg (by simp [hnul]), List.takeWhile_eq_self_iff.2 (List.all_eq_true.1 hall)]
    rfl
  · rfl

theorem scan_le (h : scan p buf i = .ok j) : i ≤ j := by
  induction buf generalizing i with
  | nil => cases h
  | cons c buf ih =>
    cases c with
    | none => cases h
    | some c =>
      rw [scan] at h
      split at h
      · exact Nat.le_of_succ_le (ih h)
      · obtain rfl := Except.ok.inj h
        exact Nat.le_refl _

theorem scan_over (hnul : p '\x00' = true) (hall : cs.all p = true)
    (h : scan p (cs.map some ++ some '\x00' :: cells) i = .ok j) : i + cs.length < j := by
  rw [scan_map, if_pos hall, scan, if_pos hnul] at h
  exact scan_le h

theorem cString_string (cs : List Char) (cells : Buffer) :
    cString (cs.map some ++ some '\x00' :: cells) = .ok (cs.takeWhile (· ≠ '\x00')) := by
  induction cs with
  | nil => rfl
  | cons c cs ih =>
    rw [List.map_cons, List.cons_append, cString]
    by_cases hc : c = '\x00'
    · rw [if_pos hc, List.takeWhile_cons_of_neg (by simp [hc])]
      rfl
    · rw [if_neg hc, ih, List.takeWhile_cons_of_pos (by simp [hc])]
      rfl

theorem drop_scan (h : buf.drop i = cs.map some ++ cells) (p : Char → Bool) :
    buf.drop (i + (cs.takeWhile p).length) = (cs.dropWhile p).map some ++ cells := by
  have hlength : (cs.takeWhile p).length = ((cs.takeWhile p).map some).length := by
    rw [List.length_map]
  have hsplit : cs.map some = (cs.takeWhile p).map some ++ (cs.dropWhile p).map some := by
    rw [← List.map_append, List.takeWhile_append_dropWhile]
  rw [← List.drop_drop, h, hsplit, List.append_assoc, hlength, List.drop_left]

theorem set_string {c : Option Char} (h : buf.drop i = cs.map some ++ c :: cells)
    (hj : j = i + cs.length) :
    (buf.set j (some '\x00')).drop i = cs.map some ++ some '\x00' :: cells := by
  subst hj
  rw [List.drop_set, if_neg (by omega), h, Nat.add_sub_cancel_left, List.set_append,
    if_neg (by simp), List.length_map, Nat.sub_self]
  rfl

end Scan

/-! ### Lines -/

def isPath (c : Char) : Bool := c ≠ '\x00' && !isspace c

/-- A line without its white space at the front. -/
def logpathOf (line : List Char) : List Char := line.dropWhile isspace

/-- The line is blank or a comment, or it has options. -/
def skipped (line : List Char) : Bool :=
  match logpathOf line with
  | [] => true
  | c :: _ => c = '\x00' || c = '#' || c = '%'

def levelField (line : List Char) : List Char :=
  (((logpathOf line).dropWhile isPath).drop 1).dropWhile isspace

def levelOf (line : List Char) : List Char :=
  ((levelField line).takeWhile fun c => !isspace c).takeWhile (· ≠ '\x00')

def HasLevel (line : List Char) : Prop :=
  skipped line = false ∧ str2level (levelOf line) ≠ .invalid

/-- The line is skipped, or white space follows its level. -/
def Terminated (line : List Char) : Prop :=
  skipped line = true ∨ (levelField line).any isspace = true

instance (line : List Char) : Decidable (Terminated line) := inferInstanceAs (Decidable (_ ∨ _))

def ruleOf (build : Build) (line : List Char) : Option Rule :=
  if str2level (levelOf line) = .invalid ∨ build.ndebug = true ∧ str2level (levelOf line) = .debug
  then none
  else some ⟨(logpathOf line).takeWhile isPath, str2level (levelOf line)⟩

/-- The line is read and written only up to its terminator, and where it has no valid level it
    adds no rule and is reported. -/
structure InLine (debug_path line : List Char) (linenum : Nat) (p : Parsed) : Prop where
  last : p.last ≤ line.length
  rule : ¬ HasLevel line → p.rule = none
  reported : skipped line = false → ¬ HasLevel line → p.message = parseErr debug_path linenum

theorem level_of_not_hasLevel {line : List Char} (hskipped : skipped line = false)
    (h : ¬ HasLevel line) : str2level (levelOf line) = .invalid := by
  by_contra hvalid
  exact h ⟨hskipped, hvalid⟩

section Lines

variable {build : Build} {debug_path line : List Char} {linenum : Nat} {output_flags_ : UInt32}
  {buf : Buffer} {p : Parsed}

/-- What `parse_debug_file` does with a line that is not skipped, from the end of its path on. -/
def parseLevel (build : Build) (debug_path : List Char) (linenum : Nat) (output_flags_ : UInt32)
    (buf : Buffer) (logpath level : Nat) : Except Fault Parsed := do
  let buf := buf.set level (some '\x00')
  let level := level + 1
  let level ← scan isspace (buf.drop level) level
  let rest ← scan (fun c => !isspace c) (buf.drop level) level
  let buf := buf.set rest (some '\x00')
  let threshold := str2level (← cString (buf.drop level))
  let path ← cString (buf.drop logpath)
  let parsed : Parsed := { buf, output_flags_, rule := none, message := [], last := rest }
  if threshold = .invalid then pure { parsed with message := parseErr debug_path linenum }
  else if build.ndebug && threshold = .debug then
    pure { parsed with message := ignoredRule path }
  else pure { parsed with rule := some ⟨path, threshold⟩ }

theorem scan_logpath (line : List Char) (buf : Buffer) :
    scan (fun c => c ≠ '\x00' && isspace c) (buf.fill line) 0 =
      .ok (line.takeWhile isspace).length := by
  have hsame : (fun c => decide (c ≠ '\x00') && isspace c) = isspace := by
    funext c
    by_cases hc : c = '\x00'
    · subst hc
      rfl
    · simp [hc]
  rw [hsame, Buffer.fill, scan_string rfl, Nat.zero_add]

theorem drop_logpath (line : List Char) (buf : Buffer) :
    (buf.fill line).drop (line.takeWhile isspace).length =
      (logpathOf line).map some ++ some '\x00' :: buf.drop (line.length + 1) := by
  have hdrop : (buf.fill line).drop (0 + (line.takeWhile isspace).length) =
      (line.dropWhile isspace).map some ++ some '\x00' :: buf.drop (line.length + 1) :=
    drop_scan List.drop_zero isspace
  rwa [Nat.zero_add] at hdrop

theorem length_logpath (line : List Char) :
    (line.takeWhile isspace).length + (logpathOf line).length = line.length := by
  rw [logpathOf, ← List.length_append, List.takeWhile_append_dropWhile]

theorem parseBuffer_of_skipped (h : skipped line = true) :
    ∃ p, parseBuffer build debug_path linenum output_flags_ (buf.fill line) = .ok p ∧
      p.last ≤ line.length ∧ p.rule = none := by
  have hlength := length_logpath line
  have hstring : ((logpathOf line).takeWhile (· ≠ '\x00')).length ≤ (logpathOf line).length :=
    (List.takeWhile_prefix _).length_le
  have hfront : (line.takeWhile isspace).length ≤ line.length := by omega
  have hall : (line.takeWhile isspace).length +
      ((logpathOf line).takeWhile (· ≠ '\x00')).length ≤ line.length := by omega
  rw [parseBuffer, scan_logpath, ok_bind, drop_logpath, cString_string, ok_bind]
  rw [skipped] at h
  cases hpath : logpathOf line with
  | nil => exact ⟨_, rfl, hfront, rfl⟩
  | cons c path =>
    rw [hpath] at h hall
    simp only [Bool.or_eq_true, decide_eq_true_eq] at h
    rcases h with (rfl | rfl) | rfl
    · exact ⟨_, rfl, hfront, rfl⟩
    · exact ⟨_, rfl, hfront, rfl⟩
    · exact ⟨_, rfl, hall, rfl⟩

theorem logpathOf_of_not_skipped (h : skipped line = false) :
    ∃ c path, logpathOf line = c :: path ∧ c ≠ '\x00' ∧ c ≠ '#' ∧ c ≠ '%' := by
  rw [skipped] at h
  cases hpath : logpathOf line with
  | nil =>
    rw [hpath] at h
    cases h
  | cons c path =>
    rw [hpath] at h
    simp only [Bool.or_eq_false_iff, decide_eq_false_iff_not] at h
    exact ⟨c, path, rfl, h.1.1, h.1.2, h.2⟩

theorem parseBuffer_of_not_skipped (h : skipped line = false) :
    parseBuffer build debug_path linenum output_flags_ (buf.fill line) =
      parseLevel build debug_path linenum output_flags_ (buf.fill line)
        (line.takeWhile isspace).length
        ((line.takeWhile isspace).length + ((logpathOf line).takeWhile isPath).length) := by
  obtain ⟨c, path, hpath, hnul, hcomment, hoption⟩ := logpathOf_of_not_skipped h
  have hscan : scan (fun c => c ≠ '\x00' && !isspace c)
      ((buf.fill line).drop (line.takeWhile isspace).length) (line.takeWhile isspace).length =
        .ok ((line.takeWhile isspace).length + ((logpathOf line).takeWhile isPath).length) := by
    rw [drop_logpath]
    exact scan_string rfl _ _ _
  have hstring : cString ((buf.fill line).drop (line.takeWhile isspace).length) =
      .ok (c :: path.takeWhile (· ≠ '\x00')) := by
    rw [drop_logpath, cString_string, hpath, List.takeWhile_cons_of_pos (by simp [hnul])]
  rw [parseBuffer, scan_logpath, ok_bind, hstring, ok_bind]
  dsimp only
  split
  · rename_i heq
    cases heq
  · rename_i heq
    exact absurd (List.cons.inj heq).1 hcomment
  · rename_i heq
    exact absurd (List.cons.inj heq).1 hoption
  · rw [hscan, ok_bind]
    rfl

theorem drop_path (line : List Char) (buf : Buffer) (level : Nat)
    (hlevel : level =
      (line.takeWhile isspace).length + ((logpathOf line).takeWhile isPath).length) :
    (buf.fill line).drop level =
      ((logpathOf line).dropWhile isPath).map some ++
        some '\x00' :: buf.drop (line.length + 1) := by
  subst hlevel
  exact drop_scan (drop_logpath line buf) isPath

theorem drop_level {level : Nat} {c : Char} {after : List Char}
    (hlevel : level = (line.takeWhile isspace).length + ((logpathOf line).takeWhile isPath).length)
    (hafter : (logpathOf line).dropWhile isPath = c :: after) :
    ((buf.fill line).set level (some '\x00')).drop (level + 1) =
      after.map some ++ some '\x00' :: buf.drop (line.length + 1) := by
  have hdrop := drop_path line buf level hlevel
  rw [hafter] at hdrop
  rw [List.drop_set, if_pos (Nat.lt_succ_self level), ← List.drop_drop, hdrop]
  rfl

theorem level_spec {level level' : Nat} {c : Char} {after : List Char}
    (hlevel : level = (line.takeWhile isspace).length + ((logpathOf line).takeWhile isPath).length)
    (hafter : (logpathOf line).dropWhile isPath = c :: after)
    (hskip : scan isspace (((buf.fill line).set level (some '\x00')).drop (level + 1)) (level + 1) =
      .ok level') :
    level < level' ∧
      ((buf.fill line).set level (some '\x00')).drop level' =
        (levelField line).map some ++ some '\x00' :: buf.drop (line.length + 1) ∧
      level' + (levelField line).length = line.length := by
  have hlength := length_logpath line
  have hpath : ((logpathOf line).takeWhile isPath).length +
      ((logpathOf line).dropWhile isPath).length = (logpathOf line).length := by
    rw [← List.length_append, List.takeWhile_append_dropWhile]
  have hsplit : (after.takeWhile isspace).length + (after.dropWhile isspace).length =
      after.length := by
    rw [← List.length_append, List.takeWhile_append_dropWhile]
  have hfield : levelField line = after.dropWhile isspace := by rw [levelField, hafter]; rfl
  have hmem : ((buf.fill line).set level (some '\x00')).drop (level + 1) =
      after.map some ++ some '\x00' :: buf.drop (line.length + 1) := drop_level hlevel hafter
  rw [hmem, scan_string rfl] at hskip
  obtain rfl := Except.ok.inj hskip
  rw [hafter, List.length_cons] at hpath
  rw [hfield]
  exact ⟨by omega, drop_scan hmem isspace, by omega⟩

/-- Where no white space follows the level, the loops go on behind the line. -/
theorem parseLevel_over (hspace : (levelField line).any isspace = false) {level : Nat}
    (hlevel : level = (line.takeWhile isspace).length + ((logpathOf line).takeWhile isPath).length)
    (hok : parseLevel build debug_path linenum output_flags_ (buf.fill line)
      (line.takeWhile isspace).length level = .ok p) : line.length < p.last := by
  have hlength := length_logpath line
  have hpath : ((logpathOf line).takeWhile isPath).length +
      ((logpathOf line).dropWhile isPath).length = (logpathOf line).length := by
    rw [← List.length_append, List.takeWhile_append_dropWhile]
  have hdrop := drop_path line buf level hlevel
  obtain ⟨level', hskip, hok⟩ := bind_eq_ok.1 hok
  obtain ⟨rest, hrest, hok⟩ := bind_eq_ok.1 hok
  have hlast : p.last = rest := by
    obtain ⟨word, -, hok⟩ := bind_eq_ok.1 hok
    obtain ⟨path, -, hok⟩ := bind_eq_ok.1 hok
    split at hok
    · obtain rfl := Except.ok.inj hok
      rfl
    · split at hok
      · obtain rfl := Except.ok.inj hok
        rfl
      · obtain rfl := Except.ok.inj hok
        rfl
  rw [hlast]
  cases hafter : (logpathOf line).dropWhile isPath with
  | nil =>
    -- the path ends at the end of the line
    rw [hafter] at hpath
    have hle := scan_le hskip
    have hle' := scan_le hrest
    simp only [List.length_nil] at hpath
    omega
  | cons c after =>
    obtain ⟨hlevel', hfield, hend⟩ := level_spec hlevel hafter hskip
    rw [hfield] at hrest
    have hall : (levelField line).all (fun c => !isspace c) = true := by
      rw [List.all_eq_not_any_not]
      simpa using hspace
    have hover := scan_over rfl hall hrest
    omega

theorem parseLevel_ok (hspace : (levelField line).any isspace = true) {level : Nat}
    (hlevel : level =
      (line.takeWhile isspace).length + ((logpathOf line).takeWhile isPath).length) :
    ∃ p, parseLevel build debug_path linenum output_flags_ (buf.fill line)
        (line.takeWhile isspace).length level = .ok p ∧
      p.last ≤ line.length ∧ p.rule = ruleOf build line ∧
      (str2level (levelOf line) = .invalid → p.message = parseErr debug_path linenum) := by
  have hdrop := drop_path line buf level hlevel
  cases hafter : (logpathOf line).dropWhile isPath with
  | nil =>
    rw [levelField, hafter] at hspace
    cases hspace
  | cons c after =>
    have hskip : scan isspace (((buf.fill line).set level (some '\x00')).drop (level + 1))
        (level + 1) = .ok (level + 1 + (after.takeWhile isspace).length) := by
      rw [drop_level hlevel hafter]
      exact scan_string rfl _ _ _
    obtain ⟨hlevel', hfield, hend⟩ := level_spec hlevel hafter hskip
    generalize level + 1 + (after.takeWhile isspace).length = level' at *
    -- the level, and the character that its terminator is written over
    obtain ⟨d, field, hsplit⟩ : ∃ d field, levelField line =
        (levelField line).takeWhile (fun c => !isspace c) ++ d :: field := by
      cases hdropped : (levelField line).dropWhile fun c => !isspace c with
      | nil =>
        rw [List.dropWhile_eq_nil_iff] at hdropped
        obtain ⟨d, hd, hspaced⟩ := List.any_eq_true.1 hspace
        have hnot := hdropped d hd
        rw [hspaced] at hnot
        cases hnot
      | cons d field =>
        exact ⟨d, field, by rw [← hdropped, List.takeWhile_append_dropWhile]⟩
    have hword : (levelField line).map some ++ some '\x00' :: buf.drop (line.length + 1) =
        ((levelField line).takeWhile fun c => !isspace c).map some ++
          some d :: (field.map some ++ some '\x00' :: buf.drop (line.length + 1)) := by
      conv => lhs; rw [hsplit]
      rw [List.map_append, List.map_cons, List.append_assoc]
      rfl
    have hlength := congrArg List.length hsplit
    rw [List.length_append, List.length_cons] at hlength
    have hrest : scan (fun c => !isspace c)
        (((buf.fill line).set level (some '\x00')).drop level') level' =
          .ok (level' + ((levelField line).takeWhile fun c => !isspace c).length) := by
      rw [hfield, scan_map, if_neg]
      rw [List.all_eq_not_any_not]
      simpa using hspace
    have hlevelOf : levelOf line =
      ((levelField line).takeWhile fun c => !isspace c).takeWhile (· ≠ '\x00') := rfl
    rw [hword] at hfield
    generalize (levelField line).takeWhile (fun c => !isspace c) = word at *
    have hstring := set_string hfield rfl
    -- the path is in front of that
    have hfront : ((buf.fill line).set level (some '\x00')).drop (line.takeWhile isspace).length =
        ((logpathOf line).takeWhile isPath).map some ++
          some '\x00' :: (after.map some ++ some '\x00' :: buf.drop (line.length + 1)) := by
      apply set_string (c := some c) _ hlevel
      rw [drop_logpath]
      conv => lhs; rw [← List.takeWhile_append_dropWhile (p := isPath) (l := logpathOf line)]
      rw [hafter, List.map_append, List.map_cons, List.append_assoc]
      rfl
    have hpath : cString ((((buf.fill line).set level (some '\x00')).set (level' + word.length)
        (some '\x00')).drop (line.takeWhile isspace).length) =
          .ok ((logpathOf line).takeWhile isPath) := by
      rw [List.drop_set, if_neg (by omega), hfront, List.set_append, if_neg (by simp; omega)]
      obtain ⟨n, hn⟩ : ∃ n, level' + word.length - (line.takeWhile isspace).length -
          (((logpathOf line).takeWhile isPath).map some).length = n + 1 := by
        rw [List.length_map]
        exact ⟨level' + word.length - level - 1, by omega⟩
      rw [hn, List.set_cons_succ, cString_string, List.takeWhile_eq_self_iff.2]
      intro x hx
      have hpath := List.mem_takeWhile_imp hx
      rw [isPath, Bool.and_eq_true] at hpath
      exact hpath.1
    rw [parseLevel]
    dsimp only
    rw [hskip, ok_bind, hrest, ok_bind, hstring, cString_string, ok_bind, hpath, ok_bind, ruleOf,
      hlevelOf]
    by_cases hinvalid : str2level (word.takeWhile (· ≠ '\x00')) = .invalid
    · rw [if_pos hinvalid, if_pos (.inl hinvalid)]
      exact ⟨_, rfl, by show level' + word.length ≤ line.length; omega, rfl, fun _ => rfl⟩
    · rw [if_neg hinvalid]
      by_cases hdebug : build.ndebug = true ∧ str2level (word.takeWhile (· ≠ '\x00')) = .debug
      · rw [if_pos (by simpa using hdebug), if_pos (.inr hdebug)]
        exact ⟨_, rfl, by show level' + word.length ≤ line.length; omega, rfl,
          fun h => absurd h hinvalid⟩
      · rw [if_neg (by simpa using hdebug), if_neg (not_or.2 ⟨hinvalid, hdebug⟩)]
        exact ⟨_, rfl, by show level' + word.length ≤ line.length; omega, rfl,
          fun h => absurd h hinvalid⟩
/-- A line is parsed without leaving it, and without a rule or a report that it should not give or
    lack, exactly where white space follows its level. -/
theorem parseBuffer_inLine_iff :
    (∃ p, parseBuffer build debug_path linenum output_flags_ (buf.fill line) = .ok p ∧
      InLine debug_path line linenum p) ↔ Terminated line := by
  rw [Terminated]
  cases hskipped : skipped line with
  | true =>
    refine iff_of_true ?_ (.inl rfl)
    obtain ⟨p, hok, hlast, hrule⟩ : ∃ p, parseBuffer build debug_path linenum output_flags_
        (buf.fill line) = .ok p ∧ p.last ≤ line.length ∧ p.rule = none :=
      parseBuffer_of_skipped hskipped
    refine ⟨p, hok, hlast, fun _ => hrule, ?_⟩
    rw [hskipped]
    exact nofun
  | false =>
    rw [parseBuffer_of_not_skipped hskipped]
    cases hspace : (levelField line).any isspace with
    | false =>
      refine iff_of_false ?_ (by simp)
      rintro ⟨p, hok, hinline⟩
      have hover := parseLevel_over hspace rfl hok
      have hlast := hinline.last
      omega
    | true =>
      obtain ⟨p, hok, hlast, hrule, hmessage⟩ := parseLevel_ok hspace rfl
      refine iff_of_true ⟨p, hok, hlast, fun hlevel => ?_, fun _ hlevel => ?_⟩ (.inr rfl)
      · rw [hrule, ruleOf, if_pos (.inl (level_of_not_hasLevel hskipped hlevel))]
      · exact hmessage (level_of_not_hasLevel hskipped hlevel)

theorem parseLine_eq (build : Build) (line : List Char) :
    parseLine build line =
      if skipped line = true then .ok none
      else if (levelField line).any isspace = true then .ok (ruleOf build line)
      else .error .outOfBounds := by
  have hlogpath : logpathOf line = line.dropWhile isspace := rfl
  have hisPath : (fun c => decide (c ≠ '\x00') && !isspace c) = isPath := rfl
  rw [parseLine]
  simp only [← hlogpath, hisPath]
  cases hpath : logpathOf line with
  | nil => rw [skipped, hpath]; rfl
  | cons c path =>
    have hskip : skipped line = (decide (c = '\x00') || decide (c = '#') || decide (c = '%')) := by
      rw [skipped, hpath]
    rw [hskip]
    dsimp only
    split
    · rfl
    · rw [levelField, hpath]
      cases hafter : (c :: path).dropWhile isPath with
      | nil => rfl
      | cons d after =>
        have hfield : levelField line = after.dropWhile isspace := by
          rw [levelField, hpath, hafter]
          rfl
        simp only [ruleOf, levelOf, hfield, hpath, List.drop_succ_cons, List.drop_zero]
        split
        · simp only [Bool.or_eq_true, decide_eq_true_eq, Bool.and_eq_true]
          split <;> rfl
        · rfl

theorem parseBuffer_rule (h : Terminated line) :
    ∃ p, parseBuffer build debug_path linenum output_flags_ (buf.fill line) = .ok p ∧
      parseLine build line = .ok p.rule := by
  rw [parseLine_eq]
  cases hskipped : skipped line with
  | true =>
    obtain ⟨p, hok, -, hrule⟩ : ∃ p, parseBuffer build debug_path linenum output_flags_
        (buf.fill line) = .ok p ∧ p.last ≤ line.length ∧ p.rule = none :=
      parseBuffer_of_skipped hskipped
    exact ⟨p, hok, by rw [if_pos rfl, hrule]⟩
  | false =>
    have hspace := h.resolve_left (by simp [hskipped])
    rw [parseBuffer_of_not_skipped hskipped, if_neg (by decide), if_pos hspace]
    obtain ⟨p, hok, -, hrule, -⟩ := parseLevel_ok hspace rfl
    exact ⟨p, hok, by rw [hrule]⟩

end Lines

/-! ### Files -/

/-- What `fgets` reads of a file, one call after another. -/
def pieces : Nat → List Char → List (List Char)
  | 0, _ => []
  | _, [] => []
  | fuel + 1, c :: fp =>
    (fgets BUFSIZE (c :: fp)).1 :: pieces fuel (fgets BUFSIZE (c :: fp)).2

/-- `parse_debug_file` stays in its lines, in all of the file. -/
def StaysInLine (build : Build) (debug_path : List Char) (output_flags_ : UInt32) (buf : Buffer)
    (fp : List Char) : Prop :=
  ∃ ps, parseFile build debug_path fp.length fp 0 output_flags_ buf = .ok ps ∧
    ∀ x ∈ ps, InLine debug_path x.1 x.2.1 x.2.2

section Files

variable {build : Build} {debug_path fp : List Char} {fuel linenum : Nat} {output_flags_ : UInt32}
  {buf : Buffer} {ps : List (List Char × Nat × Parsed)}

theorem fgets_lt (c : Char) (fp : List Char) :
    (fgets BUFSIZE (c :: fp)).2.length < (c :: fp).length := by
  have hne : 0 < ((((c :: fp).takeWhile (· ≠ '\n')) ++
      (((c :: fp).dropWhile (· ≠ '\n')).take 1)).take (BUFSIZE - 1)).length := by
    rw [List.length_take, Nat.lt_min]
    refine ⟨by decide, ?_⟩
    by_cases hc : c = '\n'
    · simp [hc]
    · simp [hc]
  simp only [fgets, List.length_drop, List.length_cons] at hne ⊢
  omega

theorem parseFile_cons (c : Char) (fp : List Char) :
    parseFile build debug_path (fuel + 1) (c :: fp) linenum output_flags_ buf = (do
      let p ← parseBuffer build debug_path (linenum + 1) output_flags_
        (buf.fill (fgets BUFSIZE (c :: fp)).1)
      let ps ← parseFile build debug_path fuel (fgets BUFSIZE (c :: fp)).2 (linenum + 1)
        p.output_flags_ p.buf
      pure (((fgets BUFSIZE (c :: fp)).1, linenum + 1, p) :: ps)) := rfl

theorem parseFile_inLine_iff (hfuel : fp.length ≤ fuel) :
    (∃ ps, parseFile build debug_path fuel fp linenum output_flags_ buf = .ok ps ∧
      ∀ x ∈ ps, InLine debug_path x.1 x.2.1 x.2.2) ↔ ∀ line ∈ pieces fuel fp, Terminated line := by
  -- the induction is on the rest of the file, with whatever the lines before have left
  induction fuel generalizing fp linenum output_flags_ buf with
  | zero =>
    rw [List.eq_nil_of_length_eq_zero (Nat.le_zero.1 hfuel)]
    exact iff_of_true ⟨[], rfl, nofun⟩ nofun
  | succ fuel ih =>
    cases fp with
    | nil => exact iff_of_true ⟨[], rfl, nofun⟩ nofun
    | cons c fp =>
      have hlt := fgets_lt c fp
      rw [pieces, List.forall_mem_cons, parseFile_cons]
      generalize fgets BUFSIZE (c :: fp) = read at *
      have hrest : read.2.length ≤ fuel := by
        simp only [List.length_cons] at hlt hfuel
        omega
      constructor
      · rintro ⟨ps, hok, hinline⟩
        obtain ⟨p, hp, hok⟩ := bind_eq_ok.1 hok
        obtain ⟨ps', hps, hok⟩ := bind_eq_ok.1 hok
        obtain rfl := Except.ok.inj hok
        obtain ⟨hfirst, hothers⟩ := List.forall_mem_cons.1 hinline
        exact ⟨parseBuffer_inLine_iff.1 ⟨p, hp, hfirst⟩, (ih hrest).1 ⟨ps', hps, hothers⟩⟩
      · rintro ⟨hline, hothers⟩
        obtain ⟨p, hp, hfirst⟩ := parseBuffer_inLine_iff.2 hline
        obtain ⟨ps', hps, hinline⟩ := (ih hrest).2 hothers
        exact ⟨_, bind_eq_ok.2 ⟨p, hp, bind_eq_ok.2 ⟨ps', hps, rfl⟩⟩,
          List.forall_mem_cons.2 ⟨hfirst, hinline⟩⟩

theorem parseLines_of_terminated (hfuel : fp.length ≤ fuel)
    (h : ∀ line ∈ pieces fuel fp, Terminated line) (rule_list : List Rule) :
    ∃ ps, parseFile build debug_path fuel fp linenum output_flags_ buf = .ok ps ∧
      parseLines build fuel fp rule_list = .ok (rule_list ++ ps.filterMap fun x => x.2.2.rule) := by
  induction fuel generalizing fp linenum output_flags_ buf rule_list with
  | zero =>
    rw [List.eq_nil_of_length_eq_zero (Nat.le_zero.1 hfuel)]
    exact ⟨[], rfl, by simp [parseLines]⟩
  | succ fuel ih =>
    cases fp with
    | nil => exact ⟨[], rfl, by simp [parseLines]⟩
    | cons c fp =>
      have hlt := fgets_lt c fp
      rw [pieces, List.forall_mem_cons] at h
      simp only [parseFile_cons, parseLines, show (1024 : Nat) = BUFSIZE from rfl]
      generalize fgets BUFSIZE (c :: fp) = read at *
      have hrest : read.2.length ≤ fuel := by
        simp only [List.length_cons] at hlt hfuel
        omega
      obtain ⟨p, hp, hline⟩ : ∃ p, parseBuffer build debug_path (linenum + 1) output_flags_
          (buf.fill read.1) = .ok p ∧ parseLine build read.1 = .ok p.rule := parseBuffer_rule h.1
      simp only [hp, hline, ok_bind]
      cases hrule : p.rule with
      | none =>
        obtain ⟨ps, hps, hrules⟩ := ih hrest h.2 rule_list
        exact ⟨_, bind_eq_ok.2 ⟨ps, hps, rfl⟩, by simp [hrules, hrule]⟩
      | some rule =>
        obtain ⟨ps, hps, hrules⟩ := ih hrest h.2 (rule_list ++ [rule])
        exact ⟨_, bind_eq_ok.2 ⟨ps, hps, rfl⟩, by simp [hrules, hrule]⟩

/-- A file of one line. -/
theorem parseLines_of_terminated_line :
    ∃ ps, parseFile ⟨false, false⟩ "/root/.debug".toList 12 "/dtn debug \n".toList 0 OUTPUT_PATH
        (List.replicate BUFSIZE none) = .ok ps ∧
      parseLines ⟨false, false⟩ 12 "/dtn debug \n".toList [] =
        .ok ([] ++ ps.filterMap fun x => x.2.2.rule) :=
  parseLines_of_terminated (by decide) (by decide +kernel) []

/-- `parse_debug_file` stays in its lines, whatever the buffer holds at first, exactly where
    every line that it reads is skipped or has white space behind its level. -/
theorem staysInLine_iff_terminated :
    StaysInLine build debug_path output_flags_ buf fp ↔
      ∀ line ∈ pieces fp.length fp, Terminated line :=
  parseFile_inLine_iff (Nat.le_refl _)

/-- The level of the first line becomes that of the second one, which has none. -/
theorem not_staysInLine_leftover :
    ¬ StaysInLine ⟨false, false⟩ "/root/.debug".toList OUTPUT_PATH (List.replicate BUFSIZE none)
      "/dtn debug \n/cla".toList := by
  rintro ⟨ps, hok, hinline⟩
  have hrun : (parseFile ⟨false, false⟩ "/root/.debug".toList 16 "/dtn debug \n/cla".toList 0
      OUTPUT_PATH (List.replicate BUFSIZE none)).toOption.map
        (fun ps => ps.map fun x => (x.1, x.2.2.rule)) =
      some [("/dtn debug \n".toList, some ⟨"/dtn".toList, .debug⟩),
        ("/cla".toList, some ⟨"/cla".toList, .debug⟩)] := by
    decide +kernel
  have hlength : "/dtn debug \n/cla".toList.length = 16 := by decide
  rw [hlength] at hok
  rw [hok] at hrun
  have hps := Option.some.inj hrun
  obtain ⟨x, hx, hline⟩ := List.mem_map.1 (hps ▸ List.mem_cons_of_mem _ List.mem_cons_self)
  have hlevel : ¬ HasLevel x.1 := by
    rw [(Prod.mk.inj hline).1]
    exact fun h => h.2 (by decide)
  have hnone := (hinline x hx).rule hlevel
  rw [(Prod.mk.inj hline).2] at hnone
  cases hnone

end Files

end Oasys.Log
