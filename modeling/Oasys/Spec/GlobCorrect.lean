import Oasys.Util.Glob
import Mathlib.Data.List.Chain

/-!
# Glob correctness

`fixed_glob` ends on every pattern and every string that is not empty, within them, and
accepts nothing that the pattern does not match. It may give up on a match, where its stack
is full or where two `*` follow each other.

## Key results

- `fixedGlob_ok`: `fixed_glob` returns, and is sound
-/

namespace Oasys.Glob

/-- What a pattern stands for: `*` for any string, every other character for itself. -/
inductive Matches : List Char → List Char → Prop
  | nil : Matches [] []
  | char {c : Char} {pat str : List Char} (h : Matches pat str) : Matches (c :: pat) (c :: str)
  | skip {pat str : List Char} (h : Matches pat str) : Matches ('*' :: pat) str
  | more {c : Char} {pat str : List Char} (h : Matches ('*' :: pat) str) :
      Matches ('*' :: pat) (c :: str)

def size (s : State) : Nat := s.pat_.length + s.to_match_.length

variable {pat str : List Char} {n : Nat} {s : State}

/-- A match of what a state has before it is a match of the whole. -/
def Leads (pat str : List Char) (s : State) : Prop := Matches s.pat_ s.to_match_ → Matches pat str

/-- A state at the start of a round. -/
structure Ready (pat str : List Char) (n : Nat) (s : State) : Prop where
  nonempty : s.to_match_ ≠ []
  size_le : size s ≤ n
  leads : Leads pat str s

/-- A state at the end of one: closer to the end, or about to be given up. -/
structure Advanced (pat str : List Char) (n : Nat) (s : State) : Prop where
  size_lt : alive s = true → size s < n
  leads : Leads pat str s

theorem leads_noMatch : Leads pat str noMatch := by
  intro h
  simp only [noMatch] at h
  cases h

theorem advanced_noMatch : Advanced pat str n noMatch :=
  ⟨fun h => by simp [alive, noMatch] at h, leads_noMatch⟩

theorem advance_ok (h : Ready pat str n s) :
    ∃ s' new, advance s = .ok (s', new) ∧ Advanced pat str n s' ∧
      ∀ s'', new = some s'' → Advanced pat str n s'' := by
  obtain ⟨p, t⟩ := s
  obtain ⟨hne, hsize, hleads⟩ := h
  cases t with
  | nil => simp at hne
  | cons c t =>
    cases p with
    | nil => exact ⟨noMatch, none, rfl, advanced_noMatch, by simp⟩
    | cons q p =>
      simp only [size, List.length_cons] at hsize
      by_cases hq : q = '*'
      · subst hq
        refine ⟨⟨'*' :: p, t⟩, _, rfl, ⟨fun _ => ?_, fun h => hleads (.more h)⟩, ?_⟩
        · simp only [size, List.length_cons]
          omega
        · intro s'' hs''
          split at hs''
          · obtain rfl := Option.some.inj hs''
            refine ⟨fun _ => ?_, fun h => hleads (.skip h)⟩
            simp only [size, List.length_cons]
            omega
          · simp at hs''
      · have hadvance : advance ⟨q :: p, c :: t⟩ =
            .ok (if q = c then ⟨p, t⟩ else noMatch, none) := by
          simp [advance]
        refine ⟨_, none, hadvance, ?_, by simp⟩
        split
        · rename_i hqc
          subst hqc
          refine ⟨fun _ => ?_, fun h => hleads (.char h)⟩
          simp only [size]
          omega
        · exact advanced_noMatch

theorem round_ok (stk : List State) : ∀ done pushed, (∀ s ∈ stk, Ready pat str n s) →
    (∀ s ∈ done, Advanced pat str n s) → (∀ s ∈ pushed, Advanced pat str n s) →
    ∃ r, round stk done pushed = .ok r ∧
      ∀ stk', r = some stk' → ∀ s ∈ stk', Advanced pat str n s := by
  induction stk with
  | nil =>
    intro done pushed _ hdone hpushed
    refine ⟨some (done ++ pushed), rfl, ?_⟩
    intro stk' hstk' s hs
    obtain rfl := Option.some.inj hstk'
    rcases List.mem_append.1 hs with hs | hs
    · exact hdone s hs
    · exact hpushed s hs
  | cons s stk ih =>
    intro done pushed hstk hdone hpushed
    obtain ⟨s', new, hadvance, hs', hnew⟩ := advance_ok (hstk s (by simp))
    have hstk' : ∀ s ∈ stk, Ready pat str n s := fun s hs => hstk s (by simp [hs])
    have hdone' : ∀ s ∈ done ++ [s'], Advanced pat str n s := by
      intro s hs
      rcases List.mem_append.1 hs with hs | hs
      · exact hdone s hs
      · rwa [List.mem_singleton.1 hs]
    cases new with
    | none =>
      obtain ⟨r, hround, hr⟩ := ih (done ++ [s']) pushed hstk' hdone' hpushed
      exact ⟨r, by simp [round, hadvance, hround], hr⟩
    | some s'' =>
      by_cases hfull : done.length + 1 + stk.length + pushed.length = STACK_SIZE
      · exact ⟨none, by simp [round, hadvance, hfull], by simp⟩
      · obtain ⟨r, hround, hr⟩ := ih (done ++ [s']) (pushed ++ [s'']) hstk' hdone' (by
          intro s hs
          rcases List.mem_append.1 hs with hs | hs
          · exact hpushed s hs
          · rw [List.mem_singleton.1 hs]
            exact hnew s'' rfl)
        exact ⟨r, by simp [round, hadvance, hfull, hround], hr⟩

theorem matches_of_accepts (h : accepts s = true) : Matches s.pat_ s.to_match_ := by
  simp only [accepts, Bool.and_eq_true, Bool.or_eq_true, decide_eq_true_eq] at h
  obtain ⟨hpat | hpat, hstr⟩ := h
  · rw [hpat, hstr]
    exact .nil
  · rw [hpat, hstr]
    exact .skip .nil

theorem rounds_ok (fuel : Nat) : ∀ stk, (∀ s ∈ stk, Ready pat str fuel s) →
    ∃ b, rounds fuel stk = .ok b ∧ (b = true → Matches pat str) := by
  induction fuel with
  | zero =>
    intro stk hstk
    cases stk with
    | nil => exact ⟨false, rfl, by simp⟩
    | cons s stk =>
      have hs := hstk s (by simp)
      have hpos := List.length_pos_iff.2 hs.nonempty
      have hsize := hs.size_le
      simp only [size] at hsize
      omega
  | succ fuel ih =>
    intro stk hstk
    cases stk with
    | nil => exact ⟨false, rfl, by simp⟩
    | cons s stk =>
      obtain ⟨r, hround, hr⟩ := round_ok (s :: stk) [] [] hstk (by simp) (by simp)
      cases r with
      | none => exact ⟨false, by simp [rounds, hround], by simp⟩
      | some stk' =>
        have hstk' := hr stk' rfl
        by_cases haccept : stk'.any accepts = true
        · refine ⟨true, by
            simp only [rounds, hround, pure_eq_ok, ok_bind, haccept, if_true], fun _ => ?_⟩
          obtain ⟨s, hs, haccepts⟩ := List.any_eq_true.1 haccept
          exact (hstk' s hs).leads (matches_of_accepts haccepts)
        · obtain ⟨b, hrounds, hb⟩ := ih (stk'.filter alive) (by
            intro s hs
            obtain ⟨hs, halive⟩ := List.mem_filter.1 hs
            have hlt := (hstk' s hs).size_lt halive
            refine ⟨?_, by omega, (hstk' s hs).leads⟩
            simp only [alive, Bool.and_eq_true, decide_eq_true_eq] at halive
            exact halive.2)
          refine ⟨b, ?_, hb⟩
          simp only [rounds, hround, ok_bind, haccept, Bool.false_eq_true, if_false, hrounds]

theorem fixedGlob_ok (pat : List Char) (hstr : str ≠ []) :
    ∃ b, fixedGlob pat str = .ok b ∧ (b = true → Matches pat str) := by
  obtain ⟨b, hrounds, hb⟩ := rounds_ok (pat.length + str.length + 1)
    [⟨pat, str⟩] (by
      simp only [List.mem_singleton, forall_eq]
      exact ⟨hstr, by simp [size], id⟩)
  exact ⟨b, by simp [fixedGlob, hstr, hrounds], hb⟩

end Oasys.Glob

/-!
### Glob: what it finds

`fixed_glob` ends a `*` only where the next character of the pattern is the next one of the
string. That is right for every character but another `*`: of two of them in a row the first
one ends before a `*` of the string. As long as the stack has room the states of a round are
all that can lead to such a match, so that `fixed_glob` finds exactly the matches of this
kind (`rounds_finds`).
-/

namespace Oasys.Glob

/-! ### The matches that are found -/

/-- A match in which every `*` that is not the last of the pattern ends before the character
    that comes next in the pattern, be this a `*` too. -/
inductive Spread : List Char → List Char → Prop
  | nil : Spread [] []
  | char {c : Char} {pat str : List Char} (hc : c ≠ '*') (h : Spread pat str) :
      Spread (c :: pat) (c :: str)
  | last {str : List Char} : Spread ['*'] str
  | skip {c : Char} {pat str : List Char} (h : Spread (c :: pat) (c :: str)) :
      Spread ('*' :: c :: pat) (c :: str)
  | more {c : Char} {pat str : List Char} (h : Spread ('*' :: pat) str) :
      Spread ('*' :: pat) (c :: str)

def Single (pat : List Char) : Prop := pat.IsChain fun c d => ¬ (c = '*' ∧ d = '*')

variable {pat str : List Char}

theorem matches_star (str : List Char) : Matches ['*'] str := by
  induction str with
  | nil => exact .skip .nil
  | cons c str ih => exact .more ih

theorem Spread.matches (h : Spread pat str) : Matches pat str := by
  induction h with
  | nil => exact .nil
  | char _ _ ih => exact .char ih
  | last => exact matches_star _
  | skip _ ih => exact .skip ih
  | more _ ih => exact .more ih

theorem Spread.star (hpat : Single ('*' :: pat)) (h : Spread pat str) :
    Spread ('*' :: pat) str := by
  cases pat with
  | nil => exact .last
  | cons c pat =>
    have hc : c ≠ '*' := fun hc => (List.isChain_cons_cons.1 hpat).1 ⟨rfl, hc⟩
    cases h with
    | char _ h => exact .skip (.char hc h)
    | last => exact absurd rfl hc
    | skip h => exact absurd rfl hc
    | more h => exact absurd rfl hc

theorem spread_of_single (hpat : Single pat) (h : Matches pat str) : Spread pat str := by
  induction h with
  | nil => exact .nil
  | @char c pat str _ ih =>
    have hspread := ih hpat.tail
    by_cases hc : c = '*'
    · -- a `*` that stands for one
      subst hc
      exact .more (hspread.star hpat)
    · exact .char hc hspread
  | skip _ ih => exact (ih hpat.tail).star hpat
  | more _ ih => exact .more (ih hpat)

/-! ### Rounds of a stack without a limit -/

/-- What a state becomes in a round. -/
def moved (s : State) : State :=
  match s.pat_, s.to_match_ with
  | '*' :: pat, _ :: to_match => ⟨'*' :: pat, to_match⟩
  | p :: pat, c :: to_match => if p = c then ⟨pat, to_match⟩ else noMatch
  | _, _ => noMatch

def forked (s : State) : Option State :=
  match s.pat_, s.to_match_ with
  | '*' :: pat, c :: to_match => if pat.head? = some c then some ⟨pat, c :: to_match⟩ else none
  | _, _ => none

/-- The states after the first loop of a round. -/
def expand (stk : List State) : List State := stk.map moved ++ stk.filterMap forked

/-- The most states that there are at once. -/
def peak : Nat → List State → Nat
  | 0, _ => 0
  | fuel + 1, stk =>
    if (expand stk).any accepts then (expand stk).length
    else max (expand stk).length (peak fuel ((expand stk).filter alive))

/-- How many states a pattern and a string need. -/
def states (pat str : List Char) : Nat := peak (pat.length + str.length + 1) [⟨pat, str⟩]

def Finds (s : State) : Prop := Spread s.pat_ s.to_match_

variable {s : State}

theorem not_finds_noMatch : ¬ Finds noMatch := by
  intro h
  have hspread : Spread [] ('N' :: "O_MATCH".toList) := h
  cases hspread

theorem advance_eq (h : s.to_match_ ≠ []) : advance s = .ok (moved s, forked s) := by
  obtain ⟨pat, to_match⟩ := s
  cases to_match with
  | nil => exact absurd rfl h
  | cons c to_match =>
    cases pat with
    | nil => rfl
    | cons q pat =>
      by_cases hq : q = '*'
      · subst hq
        rfl
      · simp [advance, moved, forked, hq]

theorem finds_iff (h : s.to_match_ ≠ []) :
    Finds s ↔ Finds (moved s) ∨ ∃ s', forked s = some s' ∧ Finds s' := by
  obtain ⟨pat, to_match⟩ := s
  unfold Finds
  cases to_match with
  | nil => exact absurd rfl h
  | cons c to_match =>
    cases pat with
    | nil =>
      constructor
      · intro h
        cases h
      · rintro (h | ⟨s', hs', -⟩)
        · exact absurd h not_finds_noMatch
        · cases hs'
    | cons q pat =>
      by_cases hq : q = '*'
      · subst hq
        constructor
        · intro h
          cases h with
          | char hc => exact absurd rfl hc
          | last => exact .inl .last
          | @skip _ pat _ h => exact .inr ⟨⟨c :: pat, c :: to_match⟩, by simp [forked], h⟩
          | more h => exact .inl h
        · rintro (h | ⟨s', hs', h⟩)
          · exact .more h
          · simp only [forked, Option.ite_none_right_eq_some, Option.some.injEq] at hs'
            obtain ⟨hhead, rfl⟩ := hs'
            cases pat with
            | nil => cases hhead
            | cons q pat =>
              obtain rfl : q = c := Option.some.inj hhead
              exact .skip h
      · have hforked : forked ⟨q :: pat, c :: to_match⟩ = none := by simp [forked, hq]
        have hmoved : moved ⟨q :: pat, c :: to_match⟩ =
            if q = c then ⟨pat, to_match⟩ else noMatch := by simp [moved]
        rw [hforked, hmoved]
        constructor
        · intro h
          cases h with
          | char _ h => exact .inl (by simpa using h)
          | last => exact absurd rfl hq
          | skip h => exact absurd rfl hq
          | more h => exact absurd rfl hq
        · rintro (h | ⟨s', hs', -⟩)
          · by_cases hqc : q = c
            · subst hqc
              exact .char hq (by simpa using h)
            · rw [if_neg hqc] at h
              exact absurd h not_finds_noMatch
          · cases hs'

theorem finds_of_accepts (h : accepts s = true) : Finds s := by
  obtain ⟨pat, to_match⟩ := s
  simp only [accepts, Bool.and_eq_true, Bool.or_eq_true, decide_eq_true_eq] at h
  obtain ⟨rfl | rfl, rfl⟩ := h
  · exact .nil
  · exact .last

theorem accepts_of_finds (hdead : alive s = false) (h : Finds s) : accepts s = true := by
  obtain ⟨pat, to_match⟩ := s
  have hspread : Spread pat to_match := h
  cases hspread with
  | nil => rfl
  | char => simp [alive] at hdead
  | last =>
    have hnil : to_match = [] := by simpa [alive] using hdead
    simp [accepts, hnil]
  | skip => simp [alive] at hdead
  | more => simp [alive] at hdead

theorem round_eq (stk : List State) : ∀ done pushed, (∀ s ∈ stk, s.to_match_ ≠ []) →
    done.length + stk.length + pushed.length + (stk.filterMap forked).length ≤ STACK_SIZE →
    round stk done pushed =
      .ok (some (done ++ stk.map moved ++ (pushed ++ stk.filterMap forked))) := by
  induction stk with
  | nil =>
    intro done pushed _ _
    simp [round]
  | cons s stk ih =>
    intro done pushed hne hroom
    have hadvance := advance_eq (hne s List.mem_cons_self)
    have hne' : ∀ s ∈ stk, s.to_match_ ≠ [] := fun s hs => hne s (List.mem_cons_of_mem _ hs)
    cases hforked : forked s with
    | none =>
      have hrest := ih (done ++ [moved s]) pushed hne' (by
        simp [hforked] at hroom ⊢
        omega)
      simp [round, hadvance, hforked, hrest]
    | some s' =>
      have hrest := ih (done ++ [moved s]) (pushed ++ [s']) hne' (by
        simp [hforked] at hroom ⊢
        omega)
      have hnot : ¬ done.length + 1 + stk.length + pushed.length = STACK_SIZE := by
        simp [hforked] at hroom
        omega
      simp [round, hadvance, hforked, hnot, hrest]

theorem finds_expand {stk : List State} (hne : ∀ s ∈ stk, s.to_match_ ≠ []) :
    (∃ s ∈ expand stk, Finds s) ↔ ∃ s ∈ stk, Finds s := by
  unfold expand
  constructor
  · rintro ⟨s', hs', hfinds⟩
    rcases List.mem_append.1 hs' with hs' | hs'
    · obtain ⟨s, hs, rfl⟩ := List.mem_map.1 hs'
      exact ⟨s, hs, (finds_iff (hne s hs)).2 (.inl hfinds)⟩
    · obtain ⟨s, hs, hforked⟩ := List.mem_filterMap.1 hs'
      exact ⟨s, hs, (finds_iff (hne s hs)).2 (.inr ⟨s', hforked, hfinds⟩)⟩
  · rintro ⟨s, hs, hfinds⟩
    rcases (finds_iff (hne s hs)).1 hfinds with hmoved | ⟨s', hforked, hs'⟩
    · exact ⟨moved s, List.mem_append_left _ (List.mem_map_of_mem hs), hmoved⟩
    · exact ⟨s', List.mem_append_right _ (List.mem_filterMap.2 ⟨s, hs, hforked⟩), hs'⟩

theorem rounds_finds (fuel : Nat) : ∀ stk, (∀ s ∈ stk, Ready pat str fuel s) →
    peak fuel stk ≤ STACK_SIZE →
    ∃ b, rounds fuel stk = .ok b ∧ (b = true ↔ ∃ s ∈ stk, Finds s) := by
  induction fuel with
  | zero =>
    intro stk hready _
    cases stk with
    | nil => exact ⟨false, rfl, by simp⟩
    | cons s stk =>
      -- a state that is ready has a character before it
      have hs := hready s List.mem_cons_self
      have hpos := List.length_pos_iff.2 hs.nonempty
      have hsize := hs.size_le
      simp only [size] at hsize
      omega
  | succ fuel ih =>
    intro stk hready hpeak
    have hne : ∀ s ∈ stk, s.to_match_ ≠ [] := fun s hs => (hready s hs).nonempty
    have hexpand := finds_expand hne
    by_cases hstk : stk = []
    · subst hstk
      exact ⟨false, rfl, by simp⟩
    · have hlen : (expand stk).length ≤ STACK_SIZE := by
        unfold peak at hpeak
        split at hpeak <;> omega
      have hround : round stk [] [] = .ok (some (expand stk)) := by
        have hroom := round_eq stk [] [] hne (by simpa [expand] using hlen)
        simpa [expand] using hroom
      have hrounds : rounds (fuel + 1) stk = if (expand stk).any accepts then .ok true
          else rounds fuel ((expand stk).filter alive) := by
        cases stk with
        | nil => exact absurd rfl hstk
        | cons s stk => simp only [rounds, hround, ok_bind, pure_eq_ok]
      rw [hrounds, ← hexpand]
      by_cases haccept : (expand stk).any accepts = true
      · obtain ⟨s, hs, haccepts⟩ := List.any_eq_true.1 haccept
        exact ⟨true, if_pos haccept, fun _ => ⟨s, hs, finds_of_accepts haccepts⟩, fun _ => rfl⟩
      · -- what goes on is shorter, and what does not has no match
        obtain ⟨r, hround', hr⟩ := round_ok stk [] [] hready (by simp) (by simp)
        obtain rfl := Except.ok.inj (hround.symm.trans hround')
        have hready' : ∀ s ∈ (expand stk).filter alive, Ready pat str fuel s := by
          intro s hs
          obtain ⟨hs, halive⟩ := List.mem_filter.1 hs
          have hadvanced := hr _ rfl s hs
          have hlt := hadvanced.size_lt halive
          refine ⟨?_, by omega, hadvanced.leads⟩
          simp only [alive, Bool.and_eq_true, decide_eq_true_eq] at halive
          exact halive.2
        have hpeak' : peak fuel ((expand stk).filter alive) ≤ STACK_SIZE := by
          rw [peak, if_neg haccept] at hpeak
          omega
        obtain ⟨b, hb, hiff⟩ := ih _ hready' hpeak'
        refine ⟨b, by rw [if_neg haccept, hb], hiff.trans ?_⟩
        constructor
        · intro ⟨s, hs, hfinds⟩
          exact ⟨s, (List.mem_filter.1 hs).1, hfinds⟩
        · intro ⟨s, hs, hfinds⟩
          refine ⟨s, List.mem_filter.2 ⟨hs, ?_⟩, hfinds⟩
          by_contra hdead
          rw [Bool.not_eq_true] at hdead
          exact haccept (List.any_eq_true.2 ⟨s, hs, accepts_of_finds hdead hfinds⟩)

/-! ### fixed_glob -/

/-- `fixed_glob` returns without reading over the end of a string, and returns whether the
    pattern matches. -/
def Decides (pat str : List Char) : Prop :=
  ∃ b, fixedGlob pat str = .ok b ∧ (b = true ↔ Matches pat str)

theorem fixedGlob_finds (hstr : str ≠ []) (hstates : states pat str ≤ STACK_SIZE) :
    ∃ b, fixedGlob pat str = .ok b ∧ (b = true ↔ Spread pat str) := by
  obtain ⟨b, hrounds, hb⟩ := rounds_finds (pat.length + str.length + 1) [⟨pat, str⟩] (by
    simp only [List.mem_singleton, forall_eq]
    exact ⟨hstr, by simp [size], id⟩) hstates
  refine ⟨b, by simp [fixedGlob, hstr, hrounds], hb.trans ?_⟩
  simp [Finds]

theorem fixedGlob_nil (pat : List Char) :
    fixedGlob pat [] = if pat.head? = some '*' then .error .outOfBounds else .ok (pat = []) := by
  cases pat with
  | nil => rfl
  | cons q pat =>
    by_cases hq : q = '*'
    · subst hq
      simp [fixedGlob, rounds, round, advance]
    · have hadvance : advance ⟨q :: pat, []⟩ = .ok (noMatch, none) := by simp [advance]
      have hnot : accepts noMatch = false ∧ alive noMatch = false := ⟨rfl, rfl⟩
      cases hlen : (q :: pat).length with
      | zero => simp at hlen
      | succ n => simp [fixedGlob, hlen, rounds, round, hadvance, hq, hnot]

/-- With no more states than the stack has room for, `fixed_glob` decides whether the pattern
    matches exactly if it does not start with a `*` before an empty string and, where there is
    a match, there is one in which a `*` before another `*` ends before a `*` of the string. -/
theorem decides_iff_spread (hstates : states pat str ≤ STACK_SIZE) :
    Decides pat str ↔
      (str = [] → pat.head? ≠ some '*') ∧ (Matches pat str → Spread pat str) := by
  by_cases hstr : str = []
  · subst hstr
    unfold Decides
    rw [fixedGlob_nil]
    by_cases hhead : pat.head? = some '*'
    · simp [hhead]
    · -- only the empty pattern matches
      have hmatches : Matches pat [] → pat = [] := by
        intro h
        cases h with
        | nil => rfl
        | skip => exact absurd rfl hhead
      rw [if_neg hhead]
      constructor
      · intro _
        refine ⟨fun _ => hhead, fun h => ?_⟩
        rw [hmatches h]
        exact .nil
      · intro _
        refine ⟨_, rfl, fun h => ?_, fun h => decide_eq_true (hmatches h)⟩
        rw [of_decide_eq_true h]
        exact .nil
  · obtain ⟨b, hb, hiff⟩ := fixedGlob_finds hstr hstates
    constructor
    · intro ⟨b', hb', hiff'⟩
      obtain rfl := Except.ok.inj (hb.symm.trans hb')
      exact ⟨fun h => absurd h hstr, fun h => hiff.1 (hiff'.2 h)⟩
    · intro ⟨_, hspread⟩
      exact ⟨b, hb, hiff.trans ⟨Spread.matches, hspread⟩⟩

theorem decides_of_single (hpat : Single pat) (hstr : str ≠ [])
    (hstates : states pat str ≤ STACK_SIZE) : Decides pat str := by
  obtain ⟨b, hb, hiff⟩ := fixedGlob_finds hstr hstates
  exact ⟨b, hb, hiff.trans ⟨Spread.matches, spread_of_single hpat⟩⟩

theorem decides_of_single_star : Decides "a*b".toList "ab".toList :=
  decides_of_single (by unfold Single; decide) (by decide) (by decide +kernel)

/-- A pattern with two `*`, which are not in a row. -/
theorem decides_iff_spread_hello :
    Decides "hel*lo*".toList "hello there".toList ↔
      ("hello there".toList = [] → "hel*lo*".toList.head? ≠ some '*') ∧
        (Matches "hel*lo*".toList "hello there".toList →
          Spread "hel*lo*".toList "hello there".toList) :=
  decides_iff_spread (by decide +kernel)

/-- Two `*` in a row match every string, but `fixed_glob` does not find this. -/
theorem not_decides_stars : ¬ Decides ['a', '*', '*'] ['a'] := by
  intro ⟨b, hb, hiff⟩
  have hfalse : fixedGlob ['a', '*', '*'] ['a'] = .ok false := by decide +kernel
  obtain rfl := Except.ok.inj (hfalse.symm.trans hb)
  have hmatches : Matches ['a', '*', '*'] ['a'] := .char (.skip (.skip .nil))
  exact Bool.false_ne_true (hiff.2 hmatches)

end Oasys.Glob
