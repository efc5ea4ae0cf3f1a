import Mathlib.Algebra.Order.Ring.Int
import Mathlib.Data.Finset.Card
import Mathlib.Data.Finset.Filter
import Mathlib.Logic.Relation

/-!
# Depth-first search

A graph is given by the successors of its elements. `mark` finds what can be reached, with
a stack of its own; `visit` recurses, and lists every element when it is done with it, so
that in a graph without cycles every element comes after its successors.

## Key results

- `exists_rank`: a finite relation without cycles goes down along a bounded rank
- `mark_ok`: `mark` ends, and marks what can be reached
- `visit_closed`: where `visit` ends its list is closed under successors, each of them earlier in
  the list
- `visit_some`: it ends where no cycle can be reached
-/

namespace Dfs

open Relation

variable {α : Type u}

/-! ### Ranks -/

/-- Where a relation that leads into finitely many elements has no cycle, the elements above
    each are fewer than those above any below it. -/
theorem exists_rank {r : α → α → Prop} (elems : Finset α) (hr : ∀ x y, r x y → y ∈ elems)
    (hacyclic : ∀ x, ¬ TransGen r x x) :
    ∃ rank : α → Nat, (∀ x, rank x ≤ elems.card) ∧ ∀ x y, r x y → rank y < rank x := by
  classical
  refine ⟨fun x => (elems.filter (TransGen r x)).card, fun x => Finset.card_filter_le _ _, ?_⟩
  intro x y hxy
  apply Finset.card_lt_card
  rw [Finset.ssubset_iff_of_subset]
  · -- `y` itself is the element that makes the difference
    exact ⟨y, by simp [hr x y hxy, TransGen.single hxy], by simp [hacyclic y]⟩
  · intro z hz
    simp only [Finset.mem_filter] at hz ⊢
    exact ⟨hz.1, TransGen.head hxy hz.2⟩

variable [DecidableEq α] (succ : α → List α)

/-! ### Marking with a stack -/

/-- Marks what can be reached from the elements of the stack. An element may be on the stack
    more than once, and its successors are looked at each time. -/
def mark : Nat → List α → List α → Option (List α)
  | _, marked, [] => some marked
  | 0, _, _ :: _ => none
  | fuel + 1, marked, x :: stack =>
    let marked := marked.insert x
    mark fuel marked (((succ x).filter (· ∉ marked)).reverse ++ stack)

/-- The successors that the elements not marked yet have, all counted. -/
def work (elems marked : List α) : Nat :=
  (elems.map fun x => if x ∈ marked then 0 else (succ x).length).sum

variable {succ}

variable (succ) in
theorem work_insert_le (elems marked : List α) (x : α) :
    work succ elems (marked.insert x) ≤ work succ elems marked := by
  induction elems with
  | nil => simp [work]
  | cons y elems ih =>
    simp only [work, List.map_cons, List.sum_cons, List.mem_insert_iff] at ih ⊢
    by_cases hyx : y = x
    · simp [hyx]
      omega
    · simp [hyx]
      omega

variable (succ) in
/-- What marking an element takes off. -/
theorem work_insert {elems marked : List α} {x : α} (hx : x ∈ elems) (hnew : x ∉ marked) :
    work succ elems (marked.insert x) + (succ x).length ≤ work succ elems marked := by
  induction elems with
  | nil => simp at hx
  | cons y elems ih =>
    have hle := work_insert_le succ elems marked x
    simp only [work, List.map_cons, List.sum_cons, List.mem_insert_iff] at ih hle ⊢
    by_cases hyx : y = x
    · subst hyx
      simp [hnew]
      omega
    · have := ih ((List.mem_cons.1 hx).resolve_left (Ne.symm hyx))
      simp [hyx]
      omega

/-- What holds of the marked elements and the stack between two rounds. -/
structure Pending (succ : α → List α) (marked stack : List α) : Prop where
  /-- The successors of a marked element are marked or wait on the stack. -/
  waiting : ∀ x ∈ marked, ∀ y ∈ succ x, y ∈ marked ∨ y ∈ stack
  /-- Where a marked element is on the stack once more, they wait above it. -/
  above : ∀ l x r, stack = l ++ x :: r → x ∈ marked → ∀ y ∈ succ x, y ∈ marked ∨ y ∈ l

/-- One round. -/
theorem Pending.next {marked stack : List α} {x : α} (h : Pending succ marked (x :: stack)) :
    Pending succ (marked.insert x)
      (((succ x).filter (· ∉ marked.insert x)).reverse ++ stack) := by
  have hpushed : ∀ y ∈ succ x, y ∈ marked.insert x ∨
      y ∈ ((succ x).filter (· ∉ marked.insert x)).reverse := by
    intro y hy
    by_cases hmarked : y ∈ marked.insert x
    · exact .inl hmarked
    · right
      simp only [List.mem_reverse, List.mem_filter]
      exact ⟨hy, by simpa using hmarked⟩
  constructor
  · intro y hy z hz
    rcases List.mem_insert_iff.1 hy with rfl | hy
    · exact (hpushed z hz).imp_right fun hz => List.mem_append_left _ hz
    · rcases h.waiting y hy z hz with hz | hz
      · simp [hz]
      · rcases List.mem_cons.1 hz with rfl | hz
        · simp
        · exact .inr (List.mem_append_right _ hz)
  · intro l y r hstack hy z hz
    -- what has just been pushed is not marked, so `y` is below it
    have hl : ∃ l', l = ((succ x).filter (· ∉ marked.insert x)).reverse ++ l' ∧
        stack = l' ++ y :: r := by
      rcases List.append_eq_append_iff.1 hstack with ⟨l', hl, hr⟩ | ⟨l', hl, hr⟩
      · exact ⟨l', hl, hr⟩
      · cases l' with
        | nil => exact ⟨[], by simpa using hl.symm, by simpa using hr.symm⟩
        | cons c l' =>
          obtain ⟨rfl, -⟩ := List.cons_eq_cons.1 hr
          have hmem : y ∈ ((succ x).filter (· ∉ marked.insert x)).reverse := by
            rw [hl]
            simp
          simp only [List.mem_reverse, List.mem_filter, decide_eq_true_eq] at hmem
          exact absurd hy hmem.2
    obtain ⟨l', rfl, hstack'⟩ := hl
    rcases List.mem_insert_iff.1 hy with rfl | hy
    · exact (hpushed z hz).imp_right fun hz => List.mem_append_left _ hz
    · rcases h.above (x :: l') y r (by simp [hstack']) hy z hz with hz | hz
      · simp [hz]
      · rcases List.mem_cons.1 hz with rfl | hz
        · simp
        · exact .inr (List.mem_append_right _ hz)

/-- `mark` ends where its fuel covers the stack and the successors still to be looked at, of
    those elements that it can come to. -/
theorem mark_ok (elems : List α) {R : α → Prop}
    (hR : ∀ x, R x → x ∈ elems ∧ ∀ y ∈ succ x, R y) (fuel : Nat) :
    ∀ marked stack : List α, (∀ x ∈ stack, R x) → Pending succ marked stack →
      stack.length + work succ elems marked ≤ fuel →
      ∃ marked', mark succ fuel marked stack = some marked' ∧
        (∀ x ∈ marked, x ∈ marked') ∧ (∀ x ∈ stack, x ∈ marked') ∧
        (∀ x ∈ marked', ∀ y ∈ succ x, y ∈ marked') ∧
        ∀ y ∈ marked', y ∈ marked ∨ ∃ x ∈ stack, ReflTransGen (fun a b => b ∈ succ a) x y := by
  induction fuel with
  | zero =>
    intro marked stack _ hpending hfuel
    obtain rfl : stack = [] := List.eq_nil_of_length_eq_zero (by omega)
    exact ⟨marked, by simp [mark], fun _ h => h, by simp,
      fun x hx y hy => by simpa using hpending.waiting x hx y hy, fun _ h => .inl h⟩
  | succ fuel ih =>
    intro marked stack hstack hpending hfuel
    cases stack with
    | nil =>
      exact ⟨marked, by simp [mark], fun _ h => h, by simp,
        fun x hx y hy => by simpa using hpending.waiting x hx y hy, fun _ h => .inl h⟩
    | cons x stack =>
      have hx := hstack x (by simp)
      have hpush : ∀ y ∈ ((succ x).filter (· ∉ marked.insert x)).reverse, y ∈ succ x := by
        intro y hy
        simp only [List.mem_reverse, List.mem_filter] at hy
        exact hy.1
      have hlength : (((succ x).filter (· ∉ marked.insert x)).reverse ++ stack).length +
          work succ elems (marked.insert x) ≤ fuel := by
        simp only [List.length_append, List.length_reverse, List.length_cons] at hfuel ⊢
        by_cases hmarked : x ∈ marked
        · -- all of its successors have been marked since
          have hnone : (succ x).filter (· ∉ marked.insert x) = [] := by
            rw [List.filter_eq_nil_iff]
            intro y hy
            have := hpending.above [] x stack rfl hmarked y hy
            simp_all
          rw [hnone, List.insert_of_mem hmarked]
          simp only [List.length_nil]
          omega
        · have hwork := work_insert succ (hR x hx).1 hmarked
          have hfilter := List.length_filter_le (· ∉ marked.insert x) (succ x)
          omega
      obtain ⟨marked', hmark, hkept, hall, hclosed, hreach⟩ :=
        ih (marked.insert x) (((succ x).filter (· ∉ marked.insert x)).reverse ++ stack)
          (fun y hy => by
            rcases List.mem_append.1 hy with hy | hy
            · exact (hR x hx).2 y (hpush y hy)
            · exact hstack y (by simp [hy]))
          hpending.next hlength
      refine ⟨marked', hmark, fun y hy => hkept y (by simp [hy]), ?_, hclosed, ?_⟩
      · intro y hy
        rcases List.mem_cons.1 hy with rfl | hy
        · exact hkept y (by simp)
        · exact hall y (by simp [hy])
      · intro y hy
        rcases hreach y hy with hy | ⟨z, hz, hzy⟩
        · rcases List.mem_insert_iff.1 hy with rfl | hy
          · exact .inr ⟨y, by simp, .refl⟩
          · exact .inl hy
        · rcases List.mem_append.1 hz with hz | hz
          · exact .inr ⟨x, by simp, .head (hpush z hz) hzy⟩
          · exact .inr ⟨z, by simp [hz], hzy⟩

/-- From one element, what is marked is what can be reached. -/
theorem mark_iff {elems : List α} {x : α}
    (hx : ∀ y, ReflTransGen (fun a b => b ∈ succ a) x y → y ∈ elems) {fuel : Nat}
    (hfuel : 1 + work succ elems [] ≤ fuel) :
    ∃ marked, mark succ fuel [] [x] = some marked ∧
      ∀ y, y ∈ marked ↔ ReflTransGen (fun a b => b ∈ succ a) x y := by
  obtain ⟨marked, hmark, -, hstack, hclosed, hreach⟩ :=
    mark_ok elems (R := ReflTransGen (fun a b => b ∈ succ a) x)
      (fun y hy => ⟨hx y hy, fun z hz => hy.tail hz⟩) fuel [] [x]
      (by simp [ReflTransGen.refl]) ⟨by simp, by simp⟩ (by simpa using hfuel)
  refine ⟨marked, hmark, fun y => ⟨fun hy => by simpa using hreach y hy, fun hxy => ?_⟩⟩
  induction hxy with
  | refl => exact hstack x (by simp)
  | tail _ hstep ih => exact hclosed _ ih _ hstep

/-! ### Finishing order -/

/-- Every element is listed once, behind its successors. -/
structure Closed (succ : α → List α) (order : List α) : Prop where
  nodup : order.Nodup
  before : ∀ l x r, order = l ++ x :: r → ∀ y ∈ succ x, y ∈ l

omit [DecidableEq α] in
theorem Closed.nil : Closed succ [] := ⟨List.nodup_nil, by simp⟩

omit [DecidableEq α] in
/-- An element goes to the end once its successors are listed. -/
theorem Closed.snoc {order : List α} {x : α} (h : Closed succ order) (hx : x ∉ order)
    (hsucc : ∀ y ∈ succ x, y ∈ order) : Closed succ (order ++ [x]) := by
  constructor
  · simp only [List.nodup_append, List.nodup_singleton, List.mem_singleton]
    exact ⟨h.nodup, trivial, fun a ha b hb => by
      rintro rfl
      exact hx (hb ▸ ha)⟩
  · intro l y r horder z hz
    rcases List.eq_nil_or_concat r with rfl | ⟨r, c, rfl⟩
    · -- the last one is `x`
      obtain ⟨rfl, hy⟩ := List.append_inj' horder rfl
      obtain rfl : x = y := by simpa using hy
      exact hsucc z hz
    · have horder' : order ++ [x] = (l ++ y :: r) ++ [c] := by simpa using horder
      obtain ⟨rfl, -⟩ := List.append_inj' horder' rfl
      exact h.before l y r rfl z hz

omit [DecidableEq α] in
theorem Closed.mem_of_reach {order : List α} {x y : α} (h : Closed succ order) (hx : x ∈ order)
    (hxy : ReflTransGen (fun a b => b ∈ succ a) x y) : y ∈ order := by
  induction hxy with
  | refl => exact hx
  | tail _ hstep ih =>
    obtain ⟨l, r, rfl⟩ := List.append_of_mem ih
    exact List.mem_append_left _ (h.before l _ r rfl _ hstep)

theorem Closed.idxOf_lt {order : List α} {x y : α} (h : Closed succ order) (hx : x ∈ order)
    (hxy : y ∈ succ x) : order.idxOf y < order.idxOf x := by
  obtain ⟨l, r, rfl⟩ := List.append_of_mem hx
  have hy := h.before l x r rfl y hxy
  have hxl : x ∉ l := fun hc => by
    have := List.disjoint_of_nodup_append h.nodup hc
    simp at this
  rw [List.idxOf_append_of_mem hy, List.idxOf_append_of_notMem hxl, List.idxOf_cons_self]
  have := List.idxOf_lt_length_of_mem hy
  omega

variable (succ) in
/-- Lists what can be reached from an element that `order` does not have yet, as far as
    `order` does not have it either, each element behind its successors. -/
def visit : Nat → List α → α → Option (List α)
  | 0, _, _ => none
  | fuel + 1, order, x => do
    let order ← (succ x).foldlM (fun order y =>
      if y ∈ order then some order else visit fuel order y) order
    return order ++ [x]

omit [DecidableEq α] in
/-- An order only grows at its end. -/
theorem foldlM_extends {f : List α → α → Option (List α)}
    (hf : ∀ order y order', f order y = some order' → order <+: order') (ys : List α) :
    ∀ order order', ys.foldlM f order = some order' → order <+: order' := by
  induction ys with
  | nil =>
    intro order order' h
    obtain rfl : order = order' := by simpa using h
    exact List.prefix_refl _
  | cons y ys ih =>
    intro order order' h
    rw [List.foldlM_cons] at h
    obtain ⟨order₁, hy, hys⟩ := Option.bind_eq_some_iff.1 h
    exact (hf _ _ _ hy).trans (ih _ _ hys)

theorem visit_extends (fuel : Nat) :
    ∀ order x order', visit succ fuel order x = some order' → order <+: order' := by
  induction fuel with
  | zero => simp [visit]
  | succ fuel ih =>
    intro order x order' h
    rw [visit] at h
    obtain ⟨order₁, hfold, hlast⟩ := Option.bind_eq_some_iff.1 h
    obtain rfl := Option.some.inj hlast
    have hle := foldlM_extends (fun order y order' hy => by
      split at hy
      · obtain rfl := Option.some.inj hy
        exact List.prefix_refl _
      · exact ih _ _ _ hy) (succ x) order order₁ hfold
    exact hle.trans ⟨[x], rfl⟩

theorem Closed.not_cycle {order : List α} {x : α} (h : Closed succ order) (hx : x ∈ order) :
    ¬ TransGen (fun a b => b ∈ succ a) x x := by
  intro hcycle
  have hlt : ∀ y, TransGen (fun a b => b ∈ succ a) x y → order.idxOf y < order.idxOf x := by
    intro y hxy
    induction hxy with
    | single hstep => exact h.idxOf_lt hx hstep
    | tail hreach hstep ih =>
      exact (h.idxOf_lt (h.mem_of_reach hx hreach.to_reflTransGen) hstep).trans ih
  exact absurd (hlt x hcycle) (Nat.lt_irrefl _)

/-- What the visits of successors have listed, given what one of them does. -/
private theorem foldlM_closed {fuel : Nat} {x : α}
    (ih : ∀ order y order', visit succ fuel order y = some order' → Closed succ order →
      y ∉ order → Closed succ order' ∧ y ∈ order' ∧
        ∀ w ∈ order', w ∈ order ∨ ReflTransGen (fun a b => b ∈ succ a) y w) (ys : List α) :
    ∀ order order', (∀ y ∈ ys, y ∈ succ x) → Closed succ order →
      ys.foldlM (fun order y => if y ∈ order then some order else visit succ fuel order y) order =
        some order' →
      Closed succ order' ∧ (∀ y ∈ ys, y ∈ order') ∧ (∀ w ∈ order, w ∈ order') ∧
        ∀ w ∈ order', w ∈ order ∨ TransGen (fun a b => b ∈ succ a) x w := by
  induction ys with
  | nil =>
    intro order order' _ hclosed h
    obtain rfl := Option.some.inj h
    exact ⟨hclosed, by simp, fun _ h => h, fun _ h => .inl h⟩
  | cons y ys ihys =>
    intro order order' hys hclosed h
    rw [List.foldlM_cons] at h
    obtain ⟨order₁, hvisit, hrest⟩ := Option.bind_eq_some_iff.1 h
    obtain ⟨hclosed₁, hy₁, hkept₁, hnew₁⟩ : Closed succ order₁ ∧ y ∈ order₁ ∧
        (∀ w ∈ order, w ∈ order₁) ∧
        ∀ w ∈ order₁, w ∈ order ∨ ReflTransGen (fun a b => b ∈ succ a) y w := by
      split at hvisit
      · rename_i hmem
        obtain rfl := Option.some.inj hvisit
        exact ⟨hclosed, hmem, fun _ h => h, fun _ h => .inl h⟩
      · rename_i hmem
        obtain ⟨hclosed₁, hy₁, hnew₁⟩ := ih order y order₁ hvisit hclosed hmem
        exact ⟨hclosed₁, hy₁, fun w hw => (visit_extends fuel _ _ _ hvisit).mem hw, hnew₁⟩
    obtain ⟨hclosed', hall, hkept, hnew⟩ :=
      ihys order₁ order' (fun w hw => hys w (List.mem_cons_of_mem _ hw)) hclosed₁ hrest
    refine ⟨hclosed', ?_, fun w hw => hkept w (hkept₁ w hw), ?_⟩
    · intro w hw
      rcases List.mem_cons.1 hw with rfl | hw
      · exact hkept w hy₁
      · exact hall w hw
    · intro w hw
      rcases hnew w hw with hw | hw
      · exact (hnew₁ w hw).imp_right fun hyw => .head' (hys y List.mem_cons_self) hyw
      · exact .inr hw

/-- A visit that ends has listed its element behind its successors, and nothing that cannot be
    reached from it. -/
theorem visit_closed (fuel : Nat) :
    ∀ order x order', visit succ fuel order x = some order' → Closed succ order → x ∉ order →
      Closed succ order' ∧ x ∈ order' ∧
        ∀ y ∈ order', y ∈ order ∨ ReflTransGen (fun a b => b ∈ succ a) x y := by
  induction fuel with
  | zero => simp [visit]
  | succ fuel ih =>
    intro order x order' h hclosed hx
    rw [visit] at h
    obtain ⟨order₁, hfold, hlast⟩ := Option.bind_eq_some_iff.1 h
    obtain rfl := Option.some.inj hlast
    obtain ⟨hclosed₁, hall, -, hnew⟩ := foldlM_closed ih (succ x) order order₁ (fun _ h => h)
      hclosed hfold
    have hx₁ : x ∉ order₁ := fun hc => hclosed₁.not_cycle hc ((hnew x hc).resolve_left hx)
    refine ⟨hclosed₁.snoc hx₁ hall, by simp, ?_⟩
    intro y hy
    rcases List.mem_append.1 hy with hy | hy
    · exact (hnew y hy).imp_right TransGen.to_reflTransGen
    · obtain rfl : y = x := by simpa using hy
      exact .inr .refl

theorem notMem_of_foldlM {fuel : Nat} {x : α} {order order' : List α}
    (h : (succ x).foldlM (fun order y =>
      if y ∈ order then some order else visit succ fuel order y) order = some order')
    (hclosed : Closed succ order) (hx : x ∉ order) : x ∉ order' := by
  obtain ⟨hclosed', -, -, hnew⟩ := foldlM_closed (visit_closed fuel) (succ x) order order'
    (fun _ h => h) hclosed h
  exact fun hc => hclosed'.not_cycle hc ((hnew x hc).resolve_left hx)

omit [DecidableEq α] in
theorem foldlM_some {f : List α → α → Option (List α)} (xs : List α)
    (hf : ∀ x ∈ xs, ∀ order, ∃ order', f order x = some order') :
    ∀ order, ∃ order', xs.foldlM f order = some order' := by
  induction xs with
  | nil => exact fun order => ⟨order, rfl⟩
  | cons x xs ih =>
    intro order
    obtain ⟨order₁, hx⟩ := hf x List.mem_cons_self order
    obtain ⟨order', hxs⟩ := ih (fun y hy => hf y (List.mem_cons_of_mem _ hy)) order₁
    exact ⟨order', by simp [List.foldlM_cons, hx, hxs]⟩

/-- Where every step from the elements that a visit can come to goes down in rank, the fuel only
    has to cover the rank. -/
theorem visit_some {R : α → Prop} {rank : α → Nat}
    (hrank : ∀ x, R x → ∀ y ∈ succ x, R y ∧ rank y < rank x) (fuel : Nat) :
    ∀ x order, R x → rank x < fuel → ∃ order', visit succ fuel order x = some order' := by
  induction fuel with
  | zero => intro x order _ hfuel; omega
  | succ fuel ih =>
    intro x order hx hfuel
    obtain ⟨order₁, hfold⟩ := foldlM_some
      (f := fun order y => if y ∈ order then some order else visit succ fuel order y) (succ x)
      (fun y hy order => by
        obtain ⟨hR, hlt⟩ := hrank x hx y hy
        split
        · exact ⟨order, rfl⟩
        · exact ih y order hR (by omega)) order
    exact ⟨order₁ ++ [x], by simp [visit, hfold]⟩

/-- What holds between visits from several elements that are successors of none. -/
structure Unvisited (succ : α → List α) (xs order : List α) : Prop where
  closed : Closed succ order
  nodup : xs.Nodup
  fresh : ∀ x ∈ xs, x ∉ order
  sources : ∀ x ∈ xs, ∀ z, x ∉ succ z

/-- One of the visits. -/
theorem Unvisited.next {fuel : Nat} {x : α} {xs order order' : List α}
    (h : Unvisited succ (x :: xs) order) (hvisit : visit succ fuel order x = some order') :
    Unvisited succ xs order' := by
  obtain ⟨hx, hnodup⟩ := List.nodup_cons.1 h.nodup
  obtain ⟨hclosed, -, hnew⟩ := visit_closed fuel order x order' hvisit h.closed
    (h.fresh x List.mem_cons_self)
  refine ⟨hclosed, hnodup, ?_, fun y hy => h.sources y (List.mem_cons_of_mem _ hy)⟩
  intro y hy hc
  rcases hnew y hc with hc | hxy
  · exact h.fresh y (List.mem_cons_of_mem _ hy) hc
  · rcases ReflTransGen.cases_tail hxy with rfl | ⟨z, -, hz⟩
    · exact hx hy
    · exact h.sources y (List.mem_cons_of_mem _ hy) z hz

/-- All of them. -/
theorem Unvisited.foldlM {fuel : Nat} (xs : List α) :
    ∀ order order', Unvisited succ xs order → xs.foldlM (visit succ fuel) order = some order' →
      Closed succ order' ∧ (∀ x ∈ xs, x ∈ order') ∧
        ∀ y ∈ order', y ∈ order ∨ ∃ x ∈ xs, ReflTransGen (fun a b => b ∈ succ a) x y := by
  induction xs with
  | nil =>
    intro order order' hstart h
    obtain rfl := Option.some.inj h
    exact ⟨hstart.closed, by simp, fun _ h => .inl h⟩
  | cons x xs ih =>
    intro order order' hstart h
    rw [List.foldlM_cons] at h
    obtain ⟨order₁, hvisit, hrest⟩ := Option.bind_eq_some_iff.1 h
    obtain ⟨-, hx₁, hnew₁⟩ := visit_closed fuel order x order₁ hvisit hstart.closed
      (hstart.fresh x List.mem_cons_self)
    obtain ⟨hclosed, hall, hnew⟩ := ih order₁ order' (hstart.next hvisit) hrest
    refine ⟨hclosed, ?_, ?_⟩
    · intro y hy
      rcases List.mem_cons.1 hy with rfl | hy
      · exact (foldlM_extends (visit_extends fuel) xs order₁ order' hrest).mem hx₁
      · exact hall y hy
    · intro y hy
      rcases hnew y hy with hy | ⟨z, hz, hzy⟩
      · exact (hnew₁ y hy).imp_right fun hxy => ⟨x, List.mem_cons_self, hxy⟩
      · exact .inr ⟨z, List.mem_cons_of_mem _ hz, hzy⟩

end Dfs
