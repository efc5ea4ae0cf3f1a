import Mathlib.Data.List.Induction
import Mathlib.Order.WithBot
import Mathlib.Tactic.ByContra
import Mathlib.Data.List.Perm.Basic

/-!
# The first best of a list

A scan that keeps the first element of highest rank among those it accepts. There is one
such position at most, and `FirstBest.congr_iff` says when two ways of accepting have the same:
what one of them accepts and the other does not must not count.
-/

universe u v

variable {α : Type u} {ρ : Type v} [LinearOrder ρ]

/-- `r` is the position of the first element of highest rank among those with a property, if
    there are such. -/
def FirstBest (P : α → Prop) (rank : α → ρ) (xs : List α) : Option Nat → Prop
  | none => ∀ x ∈ xs, ¬ P x
  | some i => ∃ x, xs[i]? = some x ∧ P x ∧
      ∀ j y, xs[j]? = some y → P y → rank y < rank x ∨ rank y = rank x ∧ i ≤ j

namespace FirstBest

variable {P Q : α → Prop} {rank : α → ρ} {xs : List α} {r r' : Option Nat}

/-- There is only one. -/
theorem unique (h : FirstBest P rank xs r) (h' : FirstBest P rank xs r') : r = r' := by
  cases r with
  | none =>
    cases r' with
    | none => rfl
    | some j =>
      obtain ⟨y, hy, hP, -⟩ := h'
      exact absurd hP (h y (List.mem_of_getElem? hy))
  | some i =>
    obtain ⟨x, hx, hP, hbest⟩ := h
    cases r' with
    | none => exact absurd hP (h' x (List.mem_of_getElem? hx))
    | some j =>
      obtain ⟨y, hy, hP', hbest'⟩ := h'
      -- neither comes before the other
      rcases hbest j y hy hP' with hlt | ⟨heq, hle⟩
      · rcases hbest' i x hx hP with hlt' | ⟨heq', -⟩
        · exact absurd (lt_trans hlt hlt') (lt_irrefl _)
        · exact absurd hlt (by rw [heq']; exact lt_irrefl _)
      · rcases hbest' i x hx hP with hlt' | ⟨-, hle'⟩
        · exact absurd hlt' (by rw [heq]; exact lt_irrefl _)
        · exact congrArg some (Nat.le_antisymm hle hle')

/-- What a scan has after some elements: the position it keeps, and the rank of the element
    there, or the rank that the first one has to exceed. -/
structure Scanned (P : α → Prop) (rank : α → ρ) (floor : ρ) (xs : List α) (r : Option Nat)
    (cur : ρ) : Prop where
  best : FirstBest (fun x => P x ∧ floor < rank x) rank xs r
  cur_eq : ∀ i x, r = some i → xs[i]? = some x → cur = rank x
  cur_none : r = none → cur = floor

variable {floor cur : ρ} {x : α}

theorem Scanned.nil : Scanned P rank floor [] none floor :=
  ⟨by simp [FirstBest], by simp, fun _ => rfl⟩

/-- What is kept is at least as good as what was accepted. -/
theorem Scanned.le_cur (h : Scanned P rank floor xs r cur) (hx : x ∈ xs) (hP : P x) :
    rank x ≤ cur := by
  obtain ⟨j, hj⟩ := List.getElem?_of_mem hx
  have hbest := h.best
  cases hr : r with
  | none =>
    rw [hr] at hbest
    rw [h.cur_none hr]
    by_contra hlt
    exact hbest x hx ⟨hP, lt_of_not_ge hlt⟩
  | some i =>
    rw [hr] at hbest
    obtain ⟨y, hy, ⟨-, hfloor⟩, hle⟩ := hbest
    rw [h.cur_eq i y hr hy]
    by_cases hx' : floor < rank x
    · rcases hle j x hj ⟨hP, hx'⟩ with hlt | ⟨heq, -⟩
      · exact le_of_lt hlt
      · exact le_of_eq heq
    · exact le_of_lt (lt_of_le_of_lt (le_of_not_gt hx') hfloor)

theorem Scanned.floor_le (h : Scanned P rank floor xs r cur) : floor ≤ cur := by
  have hbest := h.best
  cases hr : r with
  | none => exact le_of_eq (h.cur_none hr).symm
  | some i =>
    rw [hr] at hbest
    obtain ⟨y, hy, ⟨-, hfloor⟩, -⟩ := hbest
    rw [h.cur_eq i y hr hy]
    exact le_of_lt hfloor

/-- An element that is accepted and better. -/
theorem Scanned.take (h : Scanned P rank floor xs r cur) (hP : P x) (hlt : cur < rank x) :
    Scanned P rank floor (xs ++ [x]) (some xs.length) (rank x) where
  best := by
    refine ⟨x, by simp, ⟨hP, lt_of_le_of_lt h.floor_le hlt⟩, ?_⟩
    intro j y hy ⟨hPy, _⟩
    by_cases hj : j < xs.length
    · rw [List.getElem?_append_left hj] at hy
      exact .inl (lt_of_le_of_lt (h.le_cur (List.mem_of_getElem? hy) hPy) hlt)
    · rw [List.getElem?_append_right (Nat.le_of_not_lt hj), List.getElem?_singleton] at hy
      split at hy
      · obtain rfl := Option.some.inj hy
        exact .inr ⟨rfl, Nat.le_of_not_lt hj⟩
      · cases hy
  cur_eq i y hi hy := by
    obtain rfl := Option.some.inj hi
    simp at hy
    rw [hy]
  cur_none hr := by cases hr

/-- An element that is not. -/
theorem Scanned.skip (h : Scanned P rank floor xs r cur) (hnot : ¬ (P x ∧ cur < rank x)) :
    Scanned P rank floor (xs ++ [x]) r cur where
  best := by
    have hbest := h.best
    have hx : P x → floor < rank x → r ≠ none := by
      intro hP hfloor hr
      rw [← h.cur_none hr] at hfloor
      exact hnot ⟨hP, hfloor⟩
    cases r with
    | none =>
      intro y hy ⟨hPy, hfloor⟩
      rcases List.mem_append.1 hy with hy | hy
      · exact hbest y hy ⟨hPy, hfloor⟩
      · obtain rfl := List.mem_singleton.1 hy
        exact hx hPy hfloor rfl
    | some i =>
      obtain ⟨z, hz, hPz, hle⟩ := hbest
      have hi : i < xs.length := (List.getElem?_eq_some_iff.1 hz).1
      refine ⟨z, by rw [List.getElem?_append_left hi]; exact hz, hPz, ?_⟩
      intro j y hy hPy
      by_cases hj : j < xs.length
      · rw [List.getElem?_append_left hj] at hy
        exact hle j y hy hPy
      · rw [List.getElem?_append_right (Nat.le_of_not_lt hj), List.getElem?_singleton] at hy
        split at hy
        · obtain rfl := Option.some.inj hy
          have hcur := h.cur_eq i z rfl hz
          have hge : rank x ≤ rank z := by
            rw [← hcur]
            by_contra hlt
            exact hnot ⟨hPy.1, lt_of_not_ge hlt⟩
          rcases lt_or_eq_of_le hge with hlt | heq
          · exact .inl hlt
          · exact .inr ⟨heq, by omega⟩
        · cases hy
  cur_eq i y hi hy := by
    have hbest := h.best
    rw [hi] at hbest
    obtain ⟨z, hz, -⟩ := hbest
    have hlt : i < xs.length := (List.getElem?_eq_some_iff.1 hz).1
    rw [List.getElem?_append_left hlt] at hy
    exact h.cur_eq i y hi hy
  cur_none := h.cur_none

theorem exists_scanned (P : α → Prop) (rank : α → ρ) (floor : ρ) (xs : List α) :
    ∃ r cur, Scanned P rank floor xs r cur := by
  induction xs using List.reverseRecOn with
  | nil => exact ⟨none, floor, .nil⟩
  | append_singleton xs x ih =>
    obtain ⟨r, cur, h⟩ := ih
    by_cases hx : P x ∧ cur < rank x
    · exact ⟨_, _, h.take hx.1 hx.2⟩
    · exact ⟨r, cur, h.skip hx⟩

theorem exists_firstBest (P : α → Prop) (rank : α → ρ) (xs : List α) :
    ∃ r, FirstBest P rank xs r := by
  -- below every rank there is room for one more
  obtain ⟨r, cur, h⟩ := exists_scanned P (fun x => (rank x : WithBot ρ)) ⊥ xs
  refine ⟨r, ?_⟩
  have hbest := h.best
  cases r with
  | none => simpa [FirstBest] using hbest
  | some i => simpa [FirstBest] using hbest

/-- Two ways of accepting elements have the same first best exactly if the best that one of
    them accepts is accepted by the other, too, and what only the other accepts is not better
    than it. -/
theorem congr_iff (hQ : FirstBest Q rank xs r) :
    FirstBest P rank xs r ↔
      (∀ i x, FirstBest P rank xs (some i) → xs[i]? = some x → Q x) ∧
      ∀ j y, xs[j]? = some y → Q y → ¬ P y → ∃ i x, FirstBest P rank xs (some i) ∧
        xs[i]? = some x ∧ (rank y < rank x ∨ rank y = rank x ∧ i ≤ j) := by
  constructor
  · intro h
    constructor
    · intro i x hi hx
      obtain rfl := h.unique hi
      obtain ⟨x', hx', hQx, -⟩ := hQ
      obtain rfl := Option.some.inj (hx.symm.trans hx')
      exact hQx
    · intro j y hy hQy _
      cases r with
      | none => exact absurd hQy (hQ y (List.mem_of_getElem? hy))
      | some i =>
        obtain ⟨x, hx, -, hle⟩ := hQ
        exact ⟨i, x, h, hx, hle j y hy hQy⟩
  · intro ⟨hsees, hothers⟩
    obtain ⟨r', hr'⟩ := exists_firstBest P rank xs
    have hbest : FirstBest Q rank xs r' := by
      cases r' with
      | none =>
        intro y hy hQy
        obtain ⟨j, hj⟩ := List.getElem?_of_mem hy
        obtain ⟨i, x, hi, -⟩ := hothers j y hj hQy (hr' y hy)
        cases hr'.unique hi
      | some i =>
        have hsome := hr'
        obtain ⟨x, hx, hPx, hle⟩ := hr'
        refine ⟨x, hx, hsees i x hsome hx, ?_⟩
        intro j y hy hQy
        by_cases hPy : P y
        · exact hle j y hy hPy
        · obtain ⟨i', x', hi', hx', hle'⟩ := hothers j y hy hQy hPy
          obtain rfl := Option.some.inj (hsome.unique hi')
          obtain rfl := Option.some.inj (hx.symm.trans hx')
          exact hle'
    obtain rfl := hQ.unique hbest
    exact hr'

end FirstBest

/-!
### First match

A scan that stops at the first element of a list that it accepts. What it finds in every
order of the list is what it may find at all; in a list that is sorted it finds an element
that comes before all others that it accepts.
-/

namespace List

variable {α : Type u} {β : Type v}

/-- What holds of the result in every order of the list holds of each element that is
    accepted, since it may come first, and only that. -/
theorem forall_perm_find?_iff {p : α → Bool} {l : List α} {P : Option α → Prop} :
    (∀ l' : List α, l'.Perm l → P (l'.find? p)) ↔
      (∀ a ∈ l, p a = true → P (some a)) ∧ ((∀ a ∈ l, p a = false) → P none) := by
  constructor
  · intro h
    constructor
    · intro a ha hp
      obtain ⟨l₁, l₂, rfl⟩ := List.append_of_mem ha
      have := h (a :: (l₁ ++ l₂)) List.perm_middle.symm
      rwa [List.find?_cons_of_pos hp] at this
    · intro hnone
      have hfind : l.find? p = none := List.find?_eq_none.2 fun a ha => by simp [hnone a ha]
      have := h l (.refl l)
      rwa [hfind] at this
  · rintro ⟨hsome, hnone⟩ l' hperm
    cases hfind : l'.find? p with
    | none =>
      apply hnone
      intro a ha
      simpa using List.find?_eq_none.1 hfind a (hperm.mem_iff.2 ha)
    | some a =>
      exact hsome a (hperm.mem_iff.1 (List.mem_of_find?_eq_some hfind)) (List.find?_some hfind)

/-- The same where the scan goes through what the elements of the list give. -/
theorem forall_perm_find?_filterMap_iff {f : α → Option β} {p : β → Bool} {l : List α}
    {P : Option β → Prop} :
    (∀ l' : List α, l'.Perm l → P ((l'.filterMap f).find? p)) ↔
      (∀ b ∈ l.filterMap f, p b = true → P (some b)) ∧
        ((∀ b ∈ l.filterMap f, p b = false) → P none) := by
  have hscan : (∀ l' : List α, l'.Perm l → P ((l'.filterMap f).find? p)) ↔
      ∀ l' : List α, l'.Perm l → P ((l'.find? fun a => (f a).any p).bind f) := by
    simp only [List.find?_filterMap]
  rw [hscan, forall_perm_find?_iff (P := fun r => P (r.bind f))]
  simp only [List.mem_filterMap]
  constructor
  · rintro ⟨hsome, hnone⟩
    constructor
    · rintro b ⟨a, ha, hb⟩ hp
      simpa [hb] using hsome a ha (by simp [hb, hp])
    · intro h
      apply hnone
      intro a ha
      cases hb : f a with
      | none => rfl
      | some b => simpa using h b ⟨a, ha, hb⟩
  · rintro ⟨hsome, hnone⟩
    constructor
    · intro a ha hp
      obtain ⟨b, hb, hp⟩ := (Option.any_eq_true p (f a)).1 hp
      simpa [hb] using hsome b ⟨a, ha, hb⟩ hp
    · intro h
      apply hnone
      rintro b ⟨a, ha, hb⟩
      simpa [hb] using h a ha

/-- In a sorted list the first match comes before the others. -/
theorem find?_of_pairwise {R : α → α → Prop} {p : α → Bool} {l : List α} {a : α}
    (hl : l.Pairwise R) (h : l.find? p = some a) : ∀ b ∈ l, p b = true → b = a ∨ R a b := by
  induction l with
  | nil => simp at h
  | cons c l ih =>
    obtain ⟨hc, hl⟩ := List.pairwise_cons.1 hl
    intro b hb hpb
    by_cases hp : p c = true
    · obtain rfl : c = a := by simpa [hp] using h
      rcases List.mem_cons.1 hb with rfl | hb
      · exact .inl rfl
      · exact .inr (hc b hb)
    · rcases List.mem_cons.1 hb with rfl | hb
      · exact absurd hpb hp
      · exact ih hl (by simpa [hp] using h) b hb hpb

end List
