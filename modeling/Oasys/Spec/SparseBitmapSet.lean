import Oasys.ForStd.RangeList
import Oasys.Util.SparseBitmap

/-!
# SparseBitmap: `set`

`set` adds its interval to the bitmap exactly when the `± 1` of its adjacency tests
stays inside the type. The search leaves the iterator at an entry `c` such that the
vector still covers the old bits and the new ones (`Found`), the two compactions
then absorb the entries the new one touches (`compactRight_spec`,
`compactLeft_spec`), and what is left is canonical.
-/

namespace Oasys.SparseBitmap

open RangeList (points canonical_nil canonical_cons canonical_append canonical_zipper
  mem_points_cons mem_points_append mem_points_reverse Before)

/-- Ranges non-empty, sorted, pairwise disjoint and non-adjacent. -/
abbrev Canonical : List Range → Prop := RangeList.Canonical Range.start_ Range.end_

/-- The bits that are set. -/
abbrev members : List Range → Set Int := RangeList.points Range.start_ Range.end_

/-- The entries hold values of the integer type. -/
def Typed (T : IntType) (v : List Range) : Prop :=
  ∀ r ∈ v, T.InRange r.start_ ∧ T.InRange r.end_

/-- A canonical vector over the integer type. -/
structure Bitmap (T : IntType) where
  ranges : List Range
  canonical : Canonical ranges
  typed : Typed T ranges

variable {B : Build} {T : IntType} {start end_ : Int}

/-! ### The tests of the search -/

private theorem extendsRight_cases (start : Int) {r : Range} (hr : T.InRange r.end_) :
    extendsRight B T start r = .ok (decide (r.start_ ≤ start ∧ start ≤ r.end_ + 1)) ∨
    (r.start_ ≤ start ∧ r.end_ = T.max ∧
      ((T.Undefined B ∧ extendsRight B T start r = .error .overflow) ∨
        extendsRight B T start r = .ok (decide (start ≤ T.min)))) := by
  by_cases h : r.start_ ≤ start
  · rcases T.arith_add_one B hr with hok | ⟨hmax, hu, herr⟩ | ⟨hmax, _, _, hok⟩
    · left; simp [extendsRight, h, hok]
    · right; exact ⟨h, hmax, .inl ⟨hu, by simp [extendsRight, h, herr]⟩⟩
    · right
      exact ⟨h, hmax, .inr (by simp [extendsRight, h, hok])⟩
  · left; simp [extendsRight, h]

private theorem extendsLeft_cases (end_ : Int) {r : Range} (hr : T.InRange r.start_) :
    extendsLeft B T end_ r = .ok (decide (r.start_ - 1 ≤ end_ ∧ end_ ≤ r.end_)) ∨
    (r.start_ = T.min ∧
      ((T.Undefined B ∧ extendsLeft B T end_ r = .error .overflow) ∨
        extendsLeft B T end_ r = .ok (decide (T.max ≤ end_ ∧ end_ ≤ r.end_)))) := by
  rcases T.arith_sub_one B hr with hok | ⟨hmin, hu, herr⟩ | ⟨hmin, _, _, hok⟩
  · left; simp only [extendsLeft, hok, bind, Except.bind, pure, Except.pure]
  · right; exact ⟨hmin, .inl ⟨hu, by simp only [extendsLeft, herr, bind, Except.bind]⟩⟩
  · right
    exact ⟨hmin, .inr (by simp only [extendsLeft, hok, bind, Except.bind, pure, Except.pure])⟩

/-- What the loop of `set` knows of an entry it has passed. -/
def Passed (T : IntType) (start end_ : Int) (l : Range) : Prop :=
  l.start_ ≤ end_ ∧ (start = T.min → T.min < l.start_ ∧ l.end_ < end_)

/-- The outcomes of one round of the search, at the entry `r`, each with what it says
    of the entry. -/
inductive SearchStep (B : Build) (T : IntType) (start end_ : Int) (left : List Range) (r : Range)
    (right : List Range) : Except Fault (Option Cursor) → Prop
  | overflow (hu : T.Undefined B)
      (h : (r.end_ = T.max ∧ r.start_ ≤ start) ∨ (r.start_ = T.min ∧ r.end_ + 1 < start)) :
      SearchStep B T start end_ left r right (.error .overflow)
  | covered (hlo : r.start_ ≤ start) (hhi : end_ ≤ r.end_) :
      SearchStep B T start end_ left r right (.ok none)
  | extendRight (hlo : r.start_ ≤ start) (hadj : start ≤ r.end_ + 1) (hhi : r.end_ < end_) :
      SearchStep B T start end_ left r right (.ok (some ⟨left, { r with end_ := end_ }, right⟩))
  | extendLeft (hlo : start < r.start_) (hadj : r.start_ - 1 ≤ end_) (hhi : end_ ≤ r.end_) :
      SearchStep B T start end_ left r right
        (.ok (some ⟨left, { r with start_ := start }, right⟩))
  | insert (hlt : end_ < r.start_) :
      SearchStep B T start end_ left r right (.ok (some ⟨left, ⟨start, end_⟩, r :: right⟩))
  | pass (hpass : Passed T start end_ r) :
      SearchStep B T start end_ left r right (search B T start end_ (r :: left) right)

/-- The round once case 2 has failed, which at an entry that ends at the largest value
    it may do for an interval inside the entry. -/
private theorem search_step_of_not_extendsRight (left right : List Range) {r : Range}
    (hstart : T.InRange r.start_) (hr : r.start_ ≤ r.end_) (hs : T.InRange start)
    (he : T.InRange end_) (_hse : start ≤ end_)
    (hcase2 : extendsRight B T start r = .ok false)
    (hnot : r.start_ ≤ start → r.end_ + 1 < start ∨ (r.end_ = T.max ∧ T.min < start)) :
    SearchStep B T start end_ left r right (search B T start end_ left (r :: right)) := by
  obtain ⟨hsmin, hsmax⟩ := hs
  obtain ⟨hemin, hemax⟩ := he
  simp only [search, hcase2, bind, Except.bind, pure, Except.pure]
  rcases extendsLeft_cases (B := B) end_ hstart with hl | ⟨hmin, ⟨hu, hl⟩ | hl⟩
  · rw [hl]
    by_cases hc3 : r.start_ - 1 ≤ end_ ∧ end_ ≤ r.end_
    · by_cases hcov : r.start_ ≤ start
      · simp only [hc3, hcov, and_self, decide_true, if_true]
        exact .covered hcov hc3.2
      · simp only [hc3, hcov, and_self, decide_true, if_true, if_false]
        exact .extendLeft (by omega) hc3.1 hc3.2
    · simp only [hc3, decide_false]
      by_cases hc4 : end_ < r.start_
      · simp only [hc4, if_true]
        exact .insert hc4
      · simp only [hc4, if_false]
        refine .pass ⟨by omega, fun heq => ?_⟩
        have hlt : start < r.start_ := by
          by_contra hle
          have := hnot (by omega)
          have := hstart.1
          omega
        omega
  · rw [hl]
    rcases hnot (by omega) with hlt | ⟨hmax, _⟩
    · exact .overflow hu (.inr ⟨hmin, hlt⟩)
    · exact .overflow hu (.inl ⟨hmax, by omega⟩)
  · -- the test has wrapped: it holds only for an interval that ends at the largest value
    rw [hl]
    by_cases hc3 : T.max ≤ end_ ∧ end_ ≤ r.end_
    · simp only [hc3, and_self, decide_true, if_true, show r.start_ ≤ start by omega]
      exact .covered (by omega) hc3.2
    · simp only [hc3, decide_false, show ¬ end_ < r.start_ by omega]
      exact .pass ⟨by omega, by omega⟩

theorem search_step (left right : List Range) {r : Range}
    (hstart : T.InRange r.start_) (hend : T.InRange r.end_) (hr : r.start_ ≤ r.end_)
    (hs : T.InRange start) (he : T.InRange end_) (hse : start ≤ end_) :
    SearchStep B T start end_ left r right (search B T start end_ left (r :: right)) := by
  have hnext := search_step_of_not_extendsRight (B := B) left right
    hstart hr hs he hse
  rcases extendsRight_cases (B := B) start hend with hok | ⟨hlo, hmax, ⟨hu, herr⟩ | hok⟩
  · by_cases hc2 : r.start_ ≤ start ∧ start ≤ r.end_ + 1
    · simp only [search, hok, hc2, and_self, decide_true, if_true, bind, Except.bind, pure,
        Except.pure]
      by_cases hcov : end_ ≤ r.end_
      · simp only [hcov, if_true]
        exact .covered hc2.1 hcov
      · simp only [hcov, if_false]
        exact .extendRight hc2.1 hc2.2 (by omega)
    · exact hnext (by simpa [hc2] using hok) (by omega)
  · simp only [search, herr, bind, Except.bind]
    exact .overflow hu (.inl ⟨hmax, hlo⟩)
  · -- `i->end_ + 1` has wrapped to the smallest value
    have hsmin := hs.1
    by_cases hc2 : start ≤ T.min
    · simp only [search, hok, hc2, decide_true, if_true, bind, Except.bind, pure, Except.pure,
        show end_ ≤ r.end_ by rw [hmax]; exact he.2]
      exact .covered hlo (hmax ▸ he.2)
    · exact hnext (by simpa [hc2] using hok) (fun _ => .inr ⟨hmax, by omega⟩)

/-! ### The search -/

/-- What the search leaves when it has placed the interval at the iterator `c`: the
    vector covers the old bits and the new ones, and is canonical but for the entries
    that the one at the iterator touches. -/
structure Found (T : IntType) (start end_ : Int) (v : List Range) (c : Cursor) : Prop where
  left : Canonical c.left.reverse
  entry : c.entry.start_ ≤ c.entry.end_
  right : Canonical c.right
  typed : Typed T c.vector
  leftRight : ∀ l ∈ c.left, ∀ q ∈ c.right, l.end_ + 1 < q.start_
  leftEntry : ∀ l ∈ c.left, l.start_ ≤ c.entry.end_
  entryRight : ∀ q ∈ c.right, c.entry.start_ < q.start_
  smallest : c.entry.start_ = T.min → c.left ≠ [] → start = T.min
  walked : c.left.reverse <+: v
  passed : ∀ l ∈ c.left, Passed T start end_ l
  mem : ∀ x, x ∈ members c.vector ↔ x ∈ members v ∨ (start ≤ x ∧ x ≤ end_)

variable {left right v : List Range}

private theorem Found.extend {r e : Range}
    (hv : Canonical (left.reverse ++ r :: right)) (ht : Typed T (left.reverse ++ r :: right))
    (hpassed : ∀ l ∈ left, Passed T start end_ l) (hstart : e.start_ ≤ r.start_)
    (hend : end_ ≤ e.end_) (hne : e.start_ ≤ e.end_)
    (he : T.InRange e.start_ ∧ T.InRange e.end_)
    (hsmallest : e.start_ = T.min → left ≠ [] → start = T.min)
    (hmem : ∀ x, (e.start_ ≤ x ∧ x ≤ e.end_) ↔
      (r.start_ ≤ x ∧ x ≤ r.end_) ∨ (start ≤ x ∧ x ≤ end_)) :
    Found T start end_ (left.reverse ++ r :: right) ⟨left, e, right⟩ := by
  obtain ⟨hl, hr, hright, hlr, hrq, hlq⟩ := canonical_zipper.mp hv
  exact {
    left := hl, entry := hne, right := hright, leftRight := hlq
    typed := by
      intro q hq
      simp only [Cursor.vector, List.mem_append, List.mem_cons] at hq
      rcases hq with hq | rfl | hq
      · exact ht q (by simp [List.mem_reverse.mp hq])
      · exact he
      · exact ht q (by simp [hq])
    leftEntry := fun l hl => by
      have := (hpassed l hl).1
      dsimp only; omega
    entryRight := fun q hq => by
      have := hrq q hq
      simp only [Before] at this
      dsimp only; omega
    smallest := hsmallest
    walked := ⟨_, rfl⟩
    passed := hpassed
    mem := fun x => by
      simp only [Cursor.vector, mem_points_append, mem_points_cons, mem_points_reverse, hmem]
      tauto }

/-- The search places the interval, or finds every bit of it set. -/
theorem search_spec (hv : Canonical v) (ht : Typed T v)
    (hs : T.InRange start) (he : T.InRange end_) (hse : start ≤ end_)
    (rest left : List Range) (hsplit : left.reverse ++ rest = v)
    (hleft : ∀ l ∈ left, Passed T start end_ l) {found : Option Cursor}
    (h : search B T start end_ left rest = .ok found) :
    (found = none ∧ ∀ x, start ≤ x → x ≤ end_ → x ∈ members v) ∨
    ∃ c, found = some c ∧ Found T start end_ v c := by
  induction rest generalizing left with
  | nil =>
    simp only [search, pure, Except.pure, Except.ok.injEq] at h
    subst h hsplit
    rw [List.append_nil] at hv ht
    refine .inr ⟨_, rfl, ?_⟩
    exact {
      left := hv, entry := hse, right := canonical_nil
      typed := by
        intro r hr
        simp only [Cursor.vector, List.mem_append, List.mem_singleton] at hr
        rcases hr with hr | rfl
        · exact ht r hr
        · exact ⟨hs, he⟩
      leftRight := by simp
      leftEntry := fun l hl => (hleft l hl).1
      entryRight := by simp
      smallest := fun h _ => h
      walked := ⟨[], rfl⟩
      passed := hleft
      mem := fun x => by simp [Cursor.vector] }
  | cons r right ih =>
    subst hsplit
    obtain ⟨hl, hr, hright, hlr, hrq, hlq⟩ := canonical_zipper.mp hv
    obtain ⟨hrs, hre⟩ := ht r (by simp)
    have hstep := search_step (B := B) left right hrs hre hr hs he hse
    generalize hres : search B T start end_ left (r :: right) = res at h hstep
    cases hstep with
    | overflow => cases h
    | covered hlo hhi =>
      cases h
      refine .inl ⟨rfl, fun x hx hx' => ?_⟩
      simp only [mem_points_append, mem_points_cons]
      exact .inr (.inl ⟨by omega, by omega⟩)
    | extendRight hlo hadj hhi =>
      cases h
      refine .inr ⟨_, rfl, Found.extend hv ht hleft (Int.le_refl _) (Int.le_refl _)
        (by dsimp only; omega) ⟨hrs, he⟩ (fun hmin hne => ?_) (fun x => by dsimp only; omega)⟩
      -- an entry with another on its left does not start at the smallest value
      obtain ⟨l, hmem⟩ := List.exists_mem_of_ne_nil left hne
      have hbefore := hlr l hmem
      have := hl.nonempty l (by simp [hmem])
      have := (ht l (by simp [hmem])).1.1
      simp only [Before] at hbefore
      dsimp only at hmin
      omega
    | extendLeft hlo hadj hhi =>
      cases h
      exact .inr ⟨_, rfl, Found.extend hv ht hleft (by dsimp only; omega) hhi (by dsimp only; omega)
        ⟨hs, hre⟩ (fun hmin _ => hmin) (fun x => by dsimp only; omega)⟩
    | insert hlt =>
      cases h
      refine .inr ⟨_, rfl, ?_⟩
      exact {
        left := hl, entry := hse, right := canonical_cons.mpr ⟨hr, hrq, hright⟩
        typed := by
          intro q hq
          simp only [Cursor.vector, List.mem_append, List.mem_cons] at hq
          rcases hq with hq | rfl | hq
          · exact ht q (by simp [List.mem_reverse.mp hq])
          · exact ⟨hs, he⟩
          · exact ht q (by simp [hq])
        leftRight := by
          rintro l hl q hq
          rcases List.mem_cons.mp hq with rfl | hq
          · exact hlr l hl
          · exact hlq l hl q hq
        leftEntry := fun l hl => (hleft l hl).1
        entryRight := by
          rintro q hq
          rcases List.mem_cons.mp hq with rfl | hq
          · dsimp only; omega
          · have := hrq q hq
            simp only [Before] at this
            dsimp only; omega
        smallest := fun h _ => h
        walked := ⟨_, rfl⟩
        passed := hleft
        mem := fun x => by
          simp only [Cursor.vector, mem_points_append, mem_points_cons, mem_points_reverse]
          tauto }
    | pass hpass =>
      refine ih (r :: left) (by simp) (fun l hl => ?_) h
      rcases List.mem_cons.mp hl with rfl | hl
      · exact hpass
      · exact hleft l hl

/-- The entries at which the tests of the search leave a type whose overflow is
    undefined. -/
def Limit (T : IntType) (start : Int) (r : Range) : Prop :=
  (r.end_ = T.max ∧ r.start_ ≤ start) ∨ (r.start_ = T.min ∧ r.end_ + 1 < start)

instance (T : IntType) (start : Int) (r : Range) : Decidable (Limit T start r) :=
  inferInstanceAs (Decidable (_ ∨ _))

theorem search_error {rest : List Range} (hv : Canonical rest) (ht : Typed T rest)
    (hs : T.InRange start) (he : T.InRange end_) (hse : start ≤ end_) {f : Fault}
    (h : search B T start end_ left rest = .error f) :
    T.Undefined B ∧ ∃ r ∈ rest, Limit T start r := by
  induction rest generalizing left with
  | nil => cases h
  | cons r right ih =>
    obtain ⟨hr, _, hright⟩ := canonical_cons.mp hv
    obtain ⟨hrs, hre⟩ := ht r (by simp)
    have hstep := search_step (B := B) left right hrs hre hr hs he hse
    generalize search B T start end_ left (r :: right) = res at h hstep
    cases hstep with
    | overflow hu hlim => exact ⟨hu, r, by simp, hlim⟩
    | pass _ =>
      obtain ⟨hu, q, hq, hlim⟩ := ih hright (fun q hq => ht q (by simp [hq])) h
      exact ⟨hu, q, by simp [hq], hlim⟩
    | _ => cases h

theorem search_of_limit (hu : T.Undefined B) {rest : List Range} (left : List Range)
    (hv : Canonical rest) (ht : Typed T rest) (hs : T.InRange start) (he : T.InRange end_)
    (hse : start ≤ end_) {q : Range} (hq : q ∈ rest) (hlim : Limit T start q) :
    search B T start end_ left rest = .error .overflow := by
  induction rest generalizing left with
  | nil => simp at hq
  | cons r right ih =>
    obtain ⟨hr, hrq, hright⟩ := canonical_cons.mp hv
    obtain ⟨hrs, hre⟩ := ht r (by simp)
    rcases List.mem_cons.mp hq with rfl | hq
    · have hbelow : ¬ T.InRange (T.min - 1) := by simp [IntType.InRange]
      have habove : ¬ T.InRange (T.max + 1) := by simp [IntType.InRange]
      rcases hlim with ⟨hmax, hlo⟩ | ⟨hmin, hlt⟩
      · simp [search, extendsRight, hlo, hmax, T.arith_of_undefined hu habove]
      · have hnext : T.arith B (q.end_ + 1) = .ok (q.end_ + 1) :=
          T.arith_of_inRange B ⟨by have := hre.1; omega, by have := hs.2; omega⟩
        simp [search, extendsRight, extendsLeft, hnext, show ¬ start ≤ q.end_ + 1 by omega, hmin,
          T.arith_of_undefined hu hbelow]
    · -- every entry before `q` ends below `start`, so the search passes it or overflows there
      have hbefore := hrq q hq
      have hqmin := (ht q (by simp [hq])).1.1
      have hrmin := hrs.1
      simp only [Before] at hbefore
      have hfar : r.end_ + 1 < start := by rcases hlim with h | h <;> omega
      have hstep := search_step (B := B) left right hrs hre hr hs he hse
      generalize search B T start end_ left (r :: right) = res at hstep ⊢
      cases hstep with
      | overflow => rfl
      | pass _ => exact ih _ hright (fun q hq => ht q (by simp [hq])) hq
      | _ => omega

/-- From behind an entry, a search for an interval below every later entry leaves its
    iterator at an entry that starts where the interval does. -/
theorem search_of_lt {rest : List Range} (hv : Canonical rest) (ht : Typed T rest)
    (hs : T.InRange start) (he : T.InRange end_) (hse : start ≤ end_) (hne : left ≠ [])
    (hlt : ∀ r ∈ rest, start < r.start_) {found : Option Cursor}
    (h : search B T start end_ left rest = .ok found) :
    ∃ c, found = some c ∧ c.left ≠ [] ∧ c.entry.start_ = start := by
  induction rest generalizing left with
  | nil =>
    simp only [search, pure, Except.pure, Except.ok.injEq] at h
    exact ⟨_, h.symm, hne, rfl⟩
  | cons r right ih =>
    obtain ⟨hr, _, hright⟩ := canonical_cons.mp hv
    obtain ⟨hrs, hre⟩ := ht r (by simp)
    have hr₀ := hlt r (by simp)
    have hstep := search_step (B := B) left right hrs hre hr hs he hse
    generalize search B T start end_ left (r :: right) = res at h hstep
    cases hstep with
    | overflow => cases h
    | covered | extendRight => omega
    | extendLeft | insert =>
      cases h
      exact ⟨_, rfl, hne, rfl⟩
    | pass _ =>
      exact ih hright (fun q hq => ht q (by simp [hq])) (by simp)
        (fun q hq => hlt q (by simp [hq])) h

/-! ### The compactions -/

/-- The first compaction absorbs the entries that the one at the iterator reaches. -/
theorem compactRight_spec (hright : Canonical right)
    (ht : Typed T right) {i : Range} (hi : T.InRange i.start_ ∧ T.InRange i.end_)
    (hne : i.start_ ≤ i.end_) (hlt : ∀ q ∈ right, i.start_ < q.start_) :
    ∃ i' right', compactRight B T i right = .ok (i', right') ∧
      i'.start_ = i.start_ ∧ i.end_ ≤ i'.end_ ∧ T.InRange i'.end_ ∧
      right' ⊆ right ∧ Canonical (i' :: right') ∧
      ∀ x, x ∈ members (i' :: right') ↔ x ∈ members (i :: right) := by
  -- the induction is on the entries to the right; each round absorbs the next one or stops
  induction right generalizing i with
  | nil =>
    exact ⟨i, [], rfl, rfl, Int.le_refl _, hi.2, by simp,
      canonical_cons.mpr ⟨hne, by simp, canonical_nil⟩, by simp⟩
  | cons j right ih =>
    obtain ⟨hj, hjq, htail⟩ := canonical_cons.mp hright
    obtain ⟨hjs, hje⟩ := ht j (by simp)
    have hij := hlt j (by simp)
    have hstart := hi.1.1
    have hprev : T.arith B (j.start_ - 1) = .ok (j.start_ - 1) :=
      T.arith_of_inRange B ⟨by omega, by have := hjs.2; omega⟩
    simp only [compactRight, hprev, bind, Except.bind]
    by_cases hmerge : j.start_ - 1 ≤ i.end_
    · simp only [hmerge, if_true]
      generalize hi₁ : (if i.end_ < j.end_ then { i with end_ := j.end_ } else i) = i₁
      have hs₁ : i₁.start_ = i.start_ := by subst hi₁; split <;> rfl
      have he₁ : i₁.end_ = max i.end_ j.end_ := by subst hi₁; split <;> simp <;> omega
      have hin₁ : T.InRange i₁.start_ ∧ T.InRange i₁.end_ := by
        rw [hs₁, he₁]
        exact ⟨hi.1, by rcases max_choice i.end_ j.end_ with h | h <;> rw [h]; exacts [hi.2, hje]⟩
      obtain ⟨i', right', hok, hs', he', hin', hsub, hcan, hmem⟩ :=
        ih htail (fun q hq => ht q (by simp [hq])) hin₁ (by omega)
          (fun q hq => by have := hlt q (by simp [hq]); omega)
      refine ⟨i', right', hok, by omega, by omega, hin',
        fun q hq => List.mem_cons_of_mem _ (hsub hq), hcan, fun x => ?_⟩
      rw [hmem x]
      simp only [mem_points_cons]
      rw [← or_assoc]
      refine or_congr_left ?_
      omega
    · simp only [hmerge, if_false]
      refine ⟨i, j :: right, rfl, rfl, Int.le_refl _, hi.2, List.Subset.refl _, ?_, by simp⟩
      refine canonical_cons.mpr ⟨hne, fun q hq => ?_, hright⟩
      simp only [Before]
      rcases List.mem_cons.mp hq with rfl | hq
      · omega
      · have := hjq q hq
        simp only [Before] at this
        omega

/-- The second compaction absorbs the entries on the left, when its `i->start_ - 1`
    stays inside the type. -/
theorem compactLeft_spec (hleft : Canonical left.reverse)
    {i : Range} (hi : Canonical (i :: right)) (ht : Typed T (left.reverse ++ i :: right))
    (hlr : ∀ l ∈ left, ∀ q ∈ right, l.end_ + 1 < q.start_)
    (hle : ∀ l ∈ left, l.start_ ≤ i.end_)
    (hexact : T.width < IntType.intWidth ∨ (left ≠ [] → T.min < i.start_)) :
    ∃ left' i', compactLeft B T i left = .ok (left', i') ∧
      Canonical (left'.reverse ++ i' :: right) ∧ Typed T (left'.reverse ++ i' :: right) ∧
      ∀ x, x ∈ members (left'.reverse ++ i' :: right) ↔
        x ∈ members (left.reverse ++ i :: right) := by
  -- the induction is on the entries to the left, the nearest first
  induction left generalizing i with
  | nil => exact ⟨[], i, rfl, by simpa using hi, ht, by simp⟩
  | cons j left ih =>
    obtain ⟨hine, hiq, hright⟩ := canonical_cons.mp hi
    obtain ⟨his, hie⟩ := ht i (by simp)
    obtain ⟨hjs, hje⟩ := ht j (by simp)
    have hji := hle j (by simp)
    have hjne := hleft.nonempty j (by simp)
    have hcan : Canonical (left.reverse ++ [j]) := by simpa using hleft
    obtain ⟨hleft', hjone, hbefore⟩ := canonical_append.mp hcan
    have hprev : T.arith B (i.start_ - 1) = .ok (i.start_ - 1) := by
      rcases hexact with hnarrow | hmin
      · exact T.arith_of_narrow B hnarrow _
      · exact T.arith_of_inRange B ⟨by have := hmin (by simp); omega, by have := his.2; omega⟩
    simp only [compactLeft, hprev, bind, Except.bind]
    by_cases hmerge : i.start_ - 1 ≤ j.end_
    · -- the union of `i` and `j` takes the place of `i`
      simp only [hmerge, if_true]
      generalize hi₁ : (if j.start_ < i.start_ then { i with start_ := j.start_ } else i) = i₁
      generalize hi₂ : (if i₁.end_ < j.end_ then { i₁ with end_ := j.end_ } else i₁) = i₂
      have hs₁ : i₁.start_ = min i.start_ j.start_ ∧ i₁.end_ = i.end_ := by
        subst hi₁; split <;> simp <;> omega
      have hs₂ : i₂.start_ = min i.start_ j.start_ ∧ i₂.end_ = max i.end_ j.end_ := by
        subst hi₂; split <;> simp [hs₁] <;> omega
      obtain ⟨left', i', hok, hcan', ht', hmem⟩ := ih hleft' (i := i₂) (by
          refine canonical_cons.mpr ⟨by omega, fun q hq => ?_, hright⟩
          have hjq := hlr j (by simp) q hq
          have := hiq q hq
          simp only [Before] at this ⊢
          omega)
        (by
          intro q hq
          simp only [List.mem_append, List.mem_reverse, List.mem_cons] at hq
          rcases hq with hq | rfl | hq
          · exact ht q (by simp [hq])
          · simp only [IntType.InRange] at *; omega
          · exact ht q (by simp [hq]))
        (fun l hl => hlr l (by simp [hl]))
        (fun l hl => by have := hle l (by simp [hl]); omega)
        (hexact.imp_right fun hmin hne => by
          have := hmin (by simp)
          obtain ⟨l, hl⟩ := List.exists_mem_of_ne_nil left hne
          have hlj := hbefore l (by simp [hl]) j (by simp)
          have := hleft'.nonempty l (by simp [hl])
          have := (ht l (by simp [hl])).1.1
          simp only [Before] at hlj
          omega)
      refine ⟨left', i', hok, hcan', ht', fun x => ?_⟩
      rw [hmem x]
      simp only [List.reverse_cons, List.append_assoc, List.singleton_append, mem_points_append,
        mem_points_cons]
      refine or_congr_right ?_
      rw [← or_assoc]
      refine or_congr_left ?_
      omega
    · simp only [hmerge, if_false]
      refine ⟨j :: left, i, rfl, canonical_zipper.mpr
        ⟨hleft, hine, hright, fun l hl => ?_, hiq, hlr⟩, ht, fun x => Iff.rfl⟩
      simp only [Before]
      rcases List.mem_cons.mp hl with rfl | hl
      · omega
      · have := hbefore l (by simp [hl]) j (by simp)
        simp only [Before] at this
        omega

theorem validate_of_canonical (hv : Canonical v) (hne : v ≠ []) : validate B v = .ok () := by
  have hfrom : ∀ (right : List Range) (i : Range), Canonical (i :: right) →
      validateFrom i right = .ok () := by
    intro right
    induction right with
    | nil => intros; rfl
    | cons j right ih =>
      intro i hi
      obtain ⟨_, hij, hj⟩ := canonical_cons.mp hi
      have hlt := hij j (by simp)
      simp only [Before] at hlt
      have hle := (canonical_cons.mp hj).1
      simp [validateFrom, hle, show i.end_ < j.start_ by omega, ih j hj]
  simp only [validate]
  split
  · rfl
  · cases v with
    | nil => exact absurd rfl hne
    | cons i right =>
      simp [(canonical_cons.mp hv).1, hfrom right i hv]

/-! ### `set` -/

/-- The condition under which `set(start, len)` works: its `± 1` stay inside the type.
    Types narrower than `int` always meet it. -/
structure SetFits (B : Build) (T : IntType) (v : List Range) (start len : Int) : Prop where
  /-- The interval does not start at the smallest value, with that value unset, and
      reach past the end of an entry. -/
  smallest : IntType.intWidth ≤ T.width → start = T.min → (∀ r ∈ v, T.min < r.start_) →
    ∀ r ∈ v, start + len - 1 ≤ r.end_
  /-- Where overflow is undefined, nor does the interval end at the largest value, or
      the search reach an entry at a limit of the type. -/
  undefined : T.Undefined B → start + len ≤ T.max ∧ ∀ r ∈ v, ¬ Limit T start r

variable {len : Int}

theorem lastBit_eq (hs : T.InRange start) (hlen : 1 ≤ len) (hend : start + len - 1 ≤ T.max) :
    (T.Undefined B ∧ T.max < start + len ∧ lastBit B T start len = .error .overflow) ∨
    ((T.Undefined B → start + len ≤ T.max) ∧
      lastBit B T start len = .ok (start + len - 1)) := by
  have hmin := hs.1
  have hlast : T.InRange (start + len - 1) := ⟨by omega, hend⟩
  by_cases hsum : start + len ≤ T.max
  · right
    have hin : T.InRange (start + len) := ⟨by omega, hsum⟩
    exact ⟨fun _ => hsum, by simp [lastBit, hin, hlast, T.conv_of_inRange hlast]⟩
  · have hmax : start + len - 1 = T.max := by omega
    rw [hmax] at hlast ⊢
    have hsum' : start + len = T.max + 1 := by omega
    simp only [lastBit, hsum']
    rcases T.arith_add_one B hlast with hok | ⟨_, hu, herr⟩ | ⟨_, hw, hu, hok⟩
    · right
      refine ⟨fun hu => ?_, by simp [hok, hlast, T.conv_of_inRange hlast]⟩
      have hout : ¬ T.InRange (T.max + 1) := by simp [IntType.InRange]
      rw [T.arith_of_undefined hu hout] at hok
      cases hok
    · left
      exact ⟨hu, by omega, by simp [herr]⟩
    · right
      exact ⟨fun h => absurd h hu, by simp [hok, T.arith_of_wraps hw hu, T.conv_min_sub_one,
        T.conv_of_inRange hlast]⟩

/-- What `set` must leave: a canonical vector whose bits are the old ones and the
    interval. -/
def SetsInterval (B : Build) (T : IntType) (b : Bitmap T) (start len : Int) : Prop :=
  ∃ b' : Bitmap T, set B T b.ranges start len = .ok b'.ranges ∧
    ∀ x, x ∈ members b'.ranges ↔
      x ∈ members b.ranges ∨ (start ≤ x ∧ x ≤ start + len - 1)

/-- An iterator with an entry on its left starts above the smallest value, unless
    `set` does not fit. -/
private theorem Found.start_gt_min {b : Bitmap T} {c : Cursor}
    (hfit : SetFits B T b.ranges start len) (hw : IntType.intWidth ≤ T.width)
    (hc : Found T start (start + len - 1) b.ranges c) (hne : c.left ≠ []) :
    T.min < c.entry.start_ := by
  have hin := (hc.typed c.entry (by simp [Cursor.vector])).1.1
  by_contra hle
  have hstart := hc.smallest (by omega) hne
  obtain ⟨l, hl⟩ := List.exists_mem_of_ne_nil c.left hne
  obtain ⟨rest, hv⟩ := hc.walked
  have hcan := canonical_append.mp (hv ▸ b.canonical)
  obtain ⟨hlo, hhi⟩ := (hc.passed l hl).2 hstart
  have hall : ∀ r ∈ b.ranges, T.min < r.start_ := by
    intro r hr
    rw [← hv, List.mem_append, List.mem_reverse] at hr
    rcases hr with hr | hr
    · exact ((hc.passed r hr).2 hstart).1
    · have hbefore := hcan.2.2 l (by simpa using hl) r hr
      have := hcan.1.nonempty l (by simpa using hl)
      simp only [Before] at hbefore
      omega
  have := hfit.smallest hw hstart hall l (by rw [← hv]; simp [hl])
  omega

private theorem set_eq_validate {last : Int} {c : Cursor}
    {i i' : Range} (hlen : 1 ≤ len) (hlast : lastBit B T start len = .ok last)
    (hsearch : search B T start last [] v = .ok (some c))
    (hright : compactRight B T c.entry c.right = .ok (i, right))
    (hleft : compactLeft B T i c.left = .ok (left, i')) :
    set B T v start len = (do
      validate B (left.reverse ++ i' :: right)
      return left.reverse ++ i' :: right) := by
  simp [set, hlast, hsearch, hright, hleft, show len ≠ 0 by omega]

theorem set_of_fits (b : Bitmap T) {len : Int} (hs : T.InRange start) (hlen : 1 ≤ len)
    (hend : start + len - 1 ≤ T.max) (hfit : SetFits B T b.ranges start len) :
    SetsInterval B T b start len := by
  have hmin := hs.1
  have he : T.InRange (start + len - 1) := ⟨by omega, hend⟩
  have hlast : lastBit B T start len = .ok (start + len - 1) := by
    rcases lastBit_eq (B := B) hs hlen hend with ⟨hu, hgt, _⟩ | ⟨_, hok⟩
    · have := (hfit.undefined hu).1
      omega
    · exact hok
  cases hsearch : search B T start (start + len - 1) [] b.ranges with
  | error f =>
    obtain ⟨hu, r, hr, hlim⟩ := search_error b.canonical b.typed hs he (by omega) hsearch
    exact absurd hlim ((hfit.undefined hu).2 r hr)
  | ok found =>
    rcases search_spec b.canonical b.typed hs he (by omega) b.ranges [] (by simp) (by simp)
      hsearch with ⟨rfl, hall⟩ | ⟨c, rfl, hc⟩
    · -- one entry covers the interval
      refine ⟨b, ?_, fun x => ?_⟩
      · simp [set, hlast, hsearch, show len ≠ 0 by omega]
      · have := hall x
        tauto
    · obtain ⟨i, right, hright, hstart, hge, hin, hsub, hcan, hmem⟩ :=
        compactRight_spec (B := B) hc.right (fun q hq => hc.typed q (by simp [Cursor.vector, hq]))
          (hc.typed c.entry (by simp [Cursor.vector])) hc.entry hc.entryRight
      have htyped : Typed T (c.left.reverse ++ i :: right) := by
        intro q hq
        simp only [List.mem_append, List.mem_cons] at hq
        rcases hq with hq | rfl | hq
        · exact hc.typed q (by simp [Cursor.vector, List.mem_reverse.mp hq])
        · exact ⟨hstart ▸ (hc.typed c.entry (by simp [Cursor.vector])).1, hin⟩
        · exact hc.typed q (by simp [Cursor.vector, hsub hq])
      have hexact : T.width < IntType.intWidth ∨ (c.left ≠ [] → T.min < i.start_) := by
        by_cases hw : T.width < IntType.intWidth
        · exact .inl hw
        · exact .inr fun hne => hstart ▸ hc.start_gt_min hfit (by omega) hne
      obtain ⟨left, i', hleft, hcan', htyped', hmem'⟩ :=
        compactLeft_spec (B := B) hc.left hcan htyped
          (fun l hl q hq => hc.leftRight l hl q (hsub hq))
          (fun l hl => Int.le_trans (hc.leftEntry l hl) hge) hexact
      refine ⟨⟨_, hcan', htyped'⟩, ?_, fun x => ?_⟩
      · rw [set_eq_validate hlen hlast hsearch hright hleft,
          validate_of_canonical hcan' (by simp)]
        rfl
      · rw [hmem' x, ← hc.mem x, Cursor.vector]
        simp only [mem_points_append]
        exact or_congr_right (hmem x)

/-- From the smallest value, the second compaction leaves the left side as it is: its
    `i->start_ - 1` wraps to the largest value, or has no value at all. -/
private theorem compactLeft_of_start_min (hw : IntType.intWidth ≤ T.width) {i j : Range}
    (left : List Range) (hi : i.start_ = T.min) (hj : j.end_ < T.max) :
    compactLeft B T i (j :: left) = .error .overflow ∨
      compactLeft B T i (j :: left) = .ok (j :: left, i) := by
  by_cases hu : T.Undefined B
  · left
    have hbelow : ¬ T.InRange (T.min - 1) := by simp [IntType.InRange]
    simp [compactLeft, hi, T.arith_of_undefined hu hbelow]
  · right
    simp [compactLeft, hi, T.arith_of_wraps hw hu, T.conv_min_sub_one, hj]

/-- A search that starts at the smallest value, unset, and reaches past the first
    entry walks over that entry. -/
private theorem search_of_start_min {b : Bitmap T} (hs : T.InRange start) (he : T.InRange end_)
    (hse : start ≤ end_) (hstart : start = T.min) (hall : ∀ r ∈ b.ranges, T.min < r.start_)
    (hpast : ∃ r ∈ b.ranges, r.end_ < end_) {found : Option Cursor}
    (h : search B T start end_ [] b.ranges = .ok found) :
    ∃ c, found = some c ∧ c.left ≠ [] ∧ c.entry.start_ = start := by
  obtain ⟨q, hq, hlt⟩ := hpast
  obtain ⟨v, hv, ht⟩ := b
  dsimp only at *
  cases v with
  | nil => simp at hq
  | cons r right =>
    obtain ⟨hr, hrq, hright⟩ := canonical_cons.mp hv
    obtain ⟨hrs, hre⟩ := ht r (by simp)
    have hrmin := hall r (by simp)
    have hrend : r.end_ < end_ := by
      rcases List.mem_cons.mp hq with rfl | hq
      · exact hlt
      · have hbefore := hrq q hq
        have := hright.nonempty q hq
        simp only [Before] at hbefore
        omega
    have hstep := search_step (B := B) [] right hrs hre hr hs he hse
    generalize search B T start end_ [] (r :: right) = res at h hstep
    cases hstep with
    | overflow => cases h
    | pass _ =>
      exact search_of_lt hright (fun q hq => ht q (by simp [hq])) hs he hse (by simp)
        (fun q hq => hstart ▸ hall q (by simp [hq])) h
    | _ => omega

theorem not_set_of_not_fits (b : Bitmap T) {len : Int} (hs : T.InRange start) (hlen : 1 ≤ len)
    (hend : start + len - 1 ≤ T.max) (hset : SetsInterval B T b start len) :
    SetFits B T b.ranges start len := by
  obtain ⟨b', hok, -⟩ := hset
  have hmin := hs.1
  have he : T.InRange (start + len - 1) := ⟨by omega, hend⟩
  rcases lastBit_eq (B := B) hs hlen hend with ⟨_, _, herr⟩ | ⟨hsum, hlast⟩
  · simp [set, herr, show len ≠ 0 by omega] at hok
  refine ⟨fun hw hstart hall r hr => ?_, fun hu => ⟨hsum hu, fun r hr hlim => ?_⟩⟩
  · -- the interval covers the first entry, and the compaction to the left misses it
    by_contra hlt
    cases hsearch : search B T start (start + len - 1) [] b.ranges with
    | error f => simp [set, hlast, hsearch, show len ≠ 0 by omega] at hok
    | ok found =>
      obtain ⟨c, rfl, hne, hcstart⟩ := search_of_start_min hs he (by omega) hstart hall
        ⟨r, hr, by omega⟩ hsearch
      rcases search_spec b.canonical b.typed hs he (by omega) b.ranges [] (by simp) (by simp)
        hsearch with ⟨hnone, -⟩ | ⟨_, hsome, hc⟩
      · cases hnone
      cases hsome
      obtain ⟨i, right, hright, histart, -⟩ :=
        compactRight_spec (B := B) hc.right (fun q hq => hc.typed q (by simp [Cursor.vector, hq]))
          (hc.typed c.entry (by simp [Cursor.vector])) hc.entry hc.entryRight
      obtain ⟨j, left, hleft⟩ := List.exists_cons_of_ne_nil hne
      have hj := (hc.passed j (by simp [hleft])).2 hstart
      rcases compactLeft_of_start_min (B := B) hw (i := i) (j := j) left (by omega)
        (by have := he.2; omega) with herr | hstop
      · simp [set, hlast, hsearch, hright, hleft, herr, show len ≠ 0 by omega] at hok
      · have hranges : (j :: left).reverse ++ i :: right = b'.ranges := by
          rw [← hleft] at hstop ⊢
          rw [set_eq_validate hlen hlast hsearch hright hstop, bind_eq_ok] at hok
          obtain ⟨_, -, hok⟩ := hok
          exact Except.ok.inj hok
        obtain ⟨-, -, -, hbefore, -⟩ := canonical_zipper.mp (hranges ▸ b'.canonical)
        have := hbefore j (by simp)
        have := hc.left.nonempty j (by simp [hleft])
        simp only [Before] at *
        omega
  · have herr := search_of_limit hu [] b.canonical b.typed hs he (by omega) hr hlim
    simp [set, hlast, herr, show len ≠ 0 by omega] at hok

/-- `SparseBitmap::set` adds its interval to a canonical vector exactly when it fits. -/
theorem set_iff_fits (B : Build) (T : IntType) (b : Bitmap T) (start len : Int)
    (hs : T.InRange start) (hlen : 1 ≤ len) (hend : start + len - 1 ≤ T.max) :
    SetsInterval B T b start len ↔ SetFits B T b.ranges start len :=
  ⟨not_set_of_not_fits b hs hlen hend, set_of_fits b hs hlen hend⟩

/-- In a type narrower than `int` nothing wraps: bits 0 to 9 of an 8-bit bitmap with
    bit 5 set. -/
theorem set_iff_fits_u8 :
    SetsInterval ⟨false, false⟩ .u8 ⟨[⟨5, 5⟩], ⟨by decide, by simp⟩, by unfold Typed; decide⟩
      0 10 :=
  (set_iff_fits ⟨false, false⟩ .u8 ⟨[⟨5, 5⟩], ⟨by decide, by simp⟩, by unfold Typed; decide⟩ 0 10
    (by decide) (by decide) (by decide)).mpr ⟨by decide, by decide⟩

/-- Bits 0 to 9 of a 32-bit bitmap with bit 5 set: `0 - 1` wraps, the entry for bit 5
    stays in front of the new one, and `validate` dies unless it is compiled out. -/
theorem set_u32_zero :
    ¬ SetsInterval ⟨false, true⟩ .u32
      ⟨[⟨5, 5⟩], ⟨by decide, by simp⟩, by unfold Typed; decide⟩ 0 10 ∧
    set ⟨false, true⟩ .u32 [⟨5, 5⟩] 0 10 = .ok [⟨5, 5⟩, ⟨0, 9⟩] ∧
    set ⟨false, false⟩ .u32 [⟨5, 5⟩] 0 10 = .error .assertFailed := by
  have hset : set ⟨false, true⟩ .u32 [⟨5, 5⟩] 0 10 = .ok [⟨5, 5⟩, ⟨0, 9⟩] := by decide
  refine ⟨?_, hset, by decide⟩
  rintro ⟨b', hok, -⟩
  have hcan := b'.canonical
  rw [← Except.ok.inj (hset.symm.trans hok)] at hcan
  have hbefore := (canonical_cons.mp hcan).2.1 ⟨0, 9⟩ (by simp)
  simp [Before] at hbefore

/-! ### `is_set` -/

end Oasys.SparseBitmap

/-!
### SparseBitmap: `clear`

`clear` removes its interval from the bitmap exactly when no entry reaches past the
interval on both sides. Such an entry has to be split, and case 4 of the loop writes
`start` and `end` into the two halves where `start - 1` and `end + 1` belong: the
right half is repaired when the loop visits it next, the left half keeps the bit
`start`.
-/

namespace Oasys.SparseBitmap

open RangeList (canonical_cons canonical_append canonical_zipper mem_points_cons
  mem_points_append mem_points_reverse Before)

variable {B : Build} {T : IntType} {start end_ : Int} (capacity : Nat)

/-- The entry reaches past the interval on both sides. -/
def Split (start end_ : Int) (r : Range) : Prop := r.start_ < start ∧ end_ < r.end_

instance (start end_ : Int) (r : Range) : Decidable (Split start end_ r) :=
  inferInstanceAs (Decidable (_ ∧ _))

/-- Without a split, the loop of `clear` takes the interval out of the entries it has
    yet to visit. -/
theorem clearFrom_spec (hs : T.InRange start) (he : T.InRange end_) (hse : start ≤ end_)
    (rest left : List Range) (hv : Canonical (left.reverse ++ rest))
    (ht : Typed T (left.reverse ++ rest)) (hsplit : ∀ r ∈ rest, ¬ Split start end_ r)
    {fuel : Nat} (hfuel : rest.length < fuel) :
    ∃ v', clearFrom B T capacity start end_ fuel left rest = .ok v' ∧ Canonical v' ∧
      Typed T v' ∧ ∀ x, x ∈ members v' ↔
        x ∈ members left ∨ (x ∈ members rest ∧ ¬ (start ≤ x ∧ x ≤ end_)) := by
  induction rest generalizing left fuel with
  | nil =>
    obtain ⟨fuel, rfl⟩ : ∃ n, fuel = n + 1 := ⟨fuel - 1, by simp at hfuel; omega⟩
    exact ⟨left.reverse, rfl, by simpa using hv, by simpa using ht, by simp⟩
  | cons r right ih =>
    obtain ⟨fuel, rfl⟩ : ∃ n, fuel = n + 1 := ⟨fuel - 1, by simp at hfuel; omega⟩
    have hfuel' : right.length < fuel := by simpa using hfuel
    have hright : ∀ q ∈ right, ¬ Split start end_ q := fun q hq => hsplit q (by simp [hq])
    have hr := (canonical_zipper.mp hv).2.1
    obtain ⟨hrs, hre⟩ := ht r (by simp)
    have hnsplit := hsplit r (by simp)
    simp only [Split] at hnsplit
    have hsmin := hs.1
    have hemax := he.2
    -- The loop goes on with the entry `s`, which is what it leaves of `r`.
    have hkeep : ∀ s : Range, r.start_ ≤ s.start_ → s.end_ ≤ r.end_ → s.start_ ≤ s.end_ →
        (∀ x, (s.start_ ≤ x ∧ x ≤ s.end_) ↔
          (r.start_ ≤ x ∧ x ≤ r.end_) ∧ ¬ (start ≤ x ∧ x ≤ end_)) →
        ∃ v', clearFrom B T capacity start end_ fuel (s :: left) right = .ok v' ∧
          Canonical v' ∧ Typed T v' ∧ ∀ x, x ∈ members v' ↔
            x ∈ members left ∨ (x ∈ members (r :: right) ∧ ¬ (start ≤ x ∧ x ≤ end_)) := by
      intro s hlo hhi hne hmem
      obtain ⟨v', hok, hcan, htyped, hmem'⟩ := ih (s :: left)
        (by simpa using hv.shrink hlo hhi hne)
        (by
          intro q hq
          simp only [List.reverse_cons, List.append_assoc, List.singleton_append, List.mem_append,
            List.mem_reverse, List.mem_cons] at hq
          rcases hq with hq | rfl | hq
          · exact ht q (by simp [hq])
          · simp only [IntType.InRange] at *; omega
          · exact ht q (by simp [hq])) hright hfuel'
      refine ⟨v', hok, hcan, htyped, fun x => ?_⟩
      rw [hmem' x, mem_points_cons, mem_points_cons, hmem x]
      tauto
    simp only [clearFrom]
    by_cases hc1 : start ≤ r.start_ ∧ r.end_ ≤ end_
    · rw [if_pos hc1]
      obtain ⟨v', hok, hcan, htyped, hmem⟩ := ih left hv.erase
        (fun q hq => ht q (by
          rcases List.mem_append.mp hq with hq | hq
          · exact List.mem_append.mpr (.inl hq)
          · simp [hq])) hright hfuel'
      refine ⟨v', hok, hcan, htyped, fun x => ?_⟩
      rw [hmem x, mem_points_cons]
      refine or_congr_right ?_
      constructor
      · exact And.imp_left .inr
      · rintro ⟨hx | hx, hout⟩
        · omega
        · exact ⟨hx, hout⟩
    rw [if_neg hc1]
    by_cases hc2 : start ≤ r.start_ ∧ end_ < r.end_ ∧ r.start_ ≤ end_
    · rw [if_pos hc2]
      have hin : T.InRange (end_ + 1) := ⟨by have := he.1; omega, by have := hre.2; omega⟩
      rw [T.arith_of_inRange B hin]
      simp only [bind, Except.bind, T.conv_of_inRange hin]
      exact hkeep _ (by dsimp only; omega) (Int.le_refl _) (by dsimp only; omega)
        (fun x => by dsimp only; omega)
    rw [if_neg hc2]
    by_cases hc3 : r.start_ < start ∧ start ≤ r.end_
    · rw [if_pos hc3, if_pos (show r.end_ ≤ end_ by omega)]
      have hin : T.InRange (start - 1) := ⟨by have := hrs.1; omega, by have := hs.2; omega⟩
      rw [T.arith_of_inRange B hin]
      simp only [bind, Except.bind, T.conv_of_inRange hin]
      exact hkeep _ (Int.le_refl _) (by dsimp only; omega) (by dsimp only; omega)
        (fun x => by dsimp only; omega)
    · rw [if_neg hc3]
      exact hkeep r (Int.le_refl _) (Int.le_refl _) hr (fun x => by omega)

theorem clearFrom_left_mem {fuel : Nat} {left rest v' : List Range}
    (h : clearFrom B T capacity start end_ fuel left rest = .ok v') :
    ∀ l ∈ left, l ∈ v' := by
  induction fuel generalizing left rest with
  | zero => cases h
  | succ fuel ih =>
    cases rest with
    | nil =>
      cases h
      exact fun l hl => List.mem_reverse.mpr hl
    | cons r right =>
      intro l hl
      simp only [clearFrom] at h
      split at h
      · exact ih h l hl
      split at h
      · obtain ⟨_, -, h⟩ := bind_eq_ok.mp h
        exact ih h l (List.mem_cons_of_mem _ hl)
      split at h
      · split at h
        · obtain ⟨_, -, h⟩ := bind_eq_ok.mp h
          exact ih h l (List.mem_cons_of_mem _ hl)
        split at h
        · exact ih h l (List.mem_cons_of_mem _ hl)
        · cases h
      · exact ih h l (List.mem_cons_of_mem _ hl)

theorem start_mem_of_split {fuel : Nat} {left rest v' : List Range} (hv : Canonical rest)
    (hse : start ≤ end_) {q : Range} (hq : q ∈ rest) (hsplit : Split start end_ q)
    (h : clearFrom B T capacity start end_ fuel left rest = .ok v') : start ∈ members v' := by
  induction rest generalizing left fuel with
  | nil => simp at hq
  | cons r right ih =>
    cases fuel with
    | zero => cases h
    | succ fuel =>
      obtain ⟨hr, hrq, hright⟩ := canonical_cons.mp hv
      simp only [clearFrom] at h
      rcases List.mem_cons.mp hq with rfl | hq
      · obtain ⟨hlo, hhi⟩ := hsplit
        rw [if_neg (by omega), if_neg (by omega), if_pos (by omega), if_neg (by omega)] at h
        split at h
        · exact ⟨_, clearFrom_left_mem capacity h _ (List.mem_cons_self ..), by dsimp only; omega,
            by dsimp only; omega⟩
        · cases h
      · have hbefore := hrq q hq
        simp only [Before] at hbefore
        rw [if_neg (by have := hsplit.1; omega), if_neg (by have := hsplit.1; omega),
          if_neg (by have := hsplit.1; omega)] at h
        exact ih hright hq h

/-- What `clear` must leave: a canonical vector whose bits are the old ones outside the
    interval. `capacity` is the room the vector has, `fuel` the iterations it gets. -/
def ClearsInterval (B : Build) (T : IntType) (capacity fuel : Nat) (b : Bitmap T)
    (start len : Int) : Prop :=
  ∃ b' : Bitmap T, clear B T capacity fuel b.ranges start len = .ok b'.ranges ∧
    ∀ x, x ∈ members b'.ranges ↔
      x ∈ members b.ranges ∧ ¬ (start ≤ x ∧ x ≤ start + len - 1)

/-- The condition under which `clear(start, len)` works: no entry reaches past the
    interval on both sides, and `start + len - 1` is computed inside the type. -/
structure ClearFits (B : Build) (T : IntType) (v : List Range) (start len : Int) : Prop where
  noSplit : ∀ r ∈ v, ¬ Split start (start + len - 1) r
  undefined : T.Undefined B → start + len ≤ T.max

/-- `SparseBitmap::clear` removes its interval from a canonical vector exactly when it
    fits. -/
theorem clear_iff_fits (B : Build) (T : IntType) (b : Bitmap T) (start len : Int)
    (capacity fuel : Nat) (hs : T.InRange start) (hlen : 1 ≤ len)
    (hend : start + len - 1 ≤ T.max) (hfuel : b.ranges.length + 2 ≤ fuel) :
    ClearsInterval B T capacity fuel b start len ↔ ClearFits B T b.ranges start len := by
  have he : T.InRange (start + len - 1) := ⟨by have := hs.1; omega, hend⟩
  constructor
  · rintro ⟨b', hok, hmem⟩
    obtain ⟨last, hlast, hok⟩ := bind_eq_ok.mp hok
    rcases lastBit_eq (B := B) hs hlen hend with ⟨_, _, herr⟩ | ⟨hsum, hlast'⟩
    · rw [herr] at hlast
      cases hlast
    · cases hlast'.symm.trans hlast
      refine ⟨fun r hr hsplit => ?_, hsum⟩
      have hstart := start_mem_of_split capacity b.canonical (by omega) hr hsplit hok
      exact ((hmem start).mp hstart).2 ⟨Int.le_refl _, by omega⟩
  · intro hfit
    rcases lastBit_eq (B := B) hs hlen hend with ⟨hu, hgt, _⟩ | ⟨_, hlast⟩
    · have := hfit.undefined hu
      omega
    · obtain ⟨v', hok, hcan, htyped, hmem⟩ := clearFrom_spec (B := B) capacity hs he
        (by omega) b.ranges [] (by simpa using b.canonical) (by simpa using b.typed) hfit.noSplit
        (show b.ranges.length < fuel by omega)
      refine ⟨⟨v', hcan, htyped⟩, ?_, fun x => ?_⟩
      · exact bind_eq_ok.mpr ⟨_, hlast, hok⟩
      · rw [hmem x]
        simp

/-- Bits 0 to 9 without their first five. -/
theorem clear_iff_fits_left :
    ClearsInterval ⟨false, false⟩ .u32 1 3
      ⟨[⟨0, 9⟩], ⟨by decide, by simp⟩, by unfold Typed; decide⟩ 0 5 :=
  (clear_iff_fits ⟨false, false⟩ .u32 ⟨[⟨0, 9⟩], ⟨by decide, by simp⟩, by unfold Typed; decide⟩
    0 5 1 3 (by decide) (by decide) (by decide) (by decide)).mpr ⟨by decide, by decide⟩

/-- Bits 0 to 9 without bits 3 and 4: bit 3 stays set, or, when the vector has to grow,
    `i` is used after the insertion invalidated it. -/
theorem clear_split :
    ¬ ClearsInterval ⟨false, false⟩ .u32 2 8
      ⟨[⟨0, 9⟩], ⟨by decide, by simp⟩, by unfold Typed; decide⟩ 3 2 ∧
    clear ⟨false, false⟩ .u32 2 8 [⟨0, 9⟩] 3 2 = .ok [⟨0, 3⟩, ⟨5, 9⟩] ∧
    clear ⟨false, false⟩ .u32 1 8 [⟨0, 9⟩] 3 2 = .error .invalidIterator := by
  have hclear : clear ⟨false, false⟩ .u32 2 8 [⟨0, 9⟩] 3 2 = .ok [⟨0, 3⟩, ⟨5, 9⟩] := by decide
  refine ⟨?_, hclear, by decide⟩
  rintro ⟨b', hok, hmem⟩
  have h3 := (hmem 3).mp (by rw [← Except.ok.inj (hclear.symm.trans hok)]; simp)
  exact h3.2 ⟨by decide, by decide⟩

end Oasys.SparseBitmap
