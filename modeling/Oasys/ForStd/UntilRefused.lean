import Mathlib.Data.List.Basic

/-!
# Until one is refused

A reader takes the elements of a list one after another and stops at the first one that it
refuses. Two readers leave the same exactly if they agree on every element that comes behind
accepted ones only (`same_iff`).
-/

universe u v w

variable {α : Type u} {β : Type v} {σ : Type w}

/-- What is made of the elements that are accepted, and the one that is refused. -/
def untilRefused (f : α → Option β) : List α → List β × Option α
  | [] => ([], none)
  | x :: xs =>
    match f x with
    | none => ([], some x)
    | some b => (b :: (untilRefused f xs).1, (untilRefused f xs).2)

namespace UntilRefused

variable {f g : α → Option β} {x : α} {b : β} {xs : List α}

@[simp] theorem nil : untilRefused f [] = ([], none) := rfl

theorem cons_of_none (h : f x = none) (xs : List α) : untilRefused f (x :: xs) = ([], some x) := by
  rw [untilRefused, h]

theorem cons_of_some (h : f x = some b) (xs : List α) :
    untilRefused f (x :: xs) = (b :: (untilRefused f xs).1, (untilRefused f xs).2) := by
  rw [untilRefused, h]

theorem snd_eq_none_iff : (untilRefused f xs).2 = none ↔ ∀ x ∈ xs, (f x).isSome := by
  induction xs with
  | nil => simp
  | cons x xs ih =>
    cases hx : f x with
    | none => simp [cons_of_none hx, hx]
    | some b => simp [cons_of_some hx, hx, ih]

theorem mem_of_snd (h : (untilRefused f xs).2 = some x) : x ∈ xs := by
  induction xs with
  | nil => cases h
  | cons y xs ih =>
    cases hy : f y with
    | none =>
      rw [cons_of_none hy] at h
      exact Option.some.inj h ▸ List.mem_cons_self
    | some b =>
      rw [cons_of_some hy] at h
      exact List.mem_cons_of_mem _ (ih h)

theorem eq_nil_iff : untilRefused f xs = ([], none) ↔ xs = [] := by
  cases xs with
  | nil => simp
  | cons x xs =>
    cases hx : f x with
    | none => simp [cons_of_none hx]
    | some b => simp [cons_of_some hx]

/-- Two readers agree as far as the second one accepts. -/
def Alike (f g : α → Option β) (xs : List α) : Prop :=
  ∀ front x back, xs = front ++ x :: back → (∀ y ∈ front, (g y).isSome) → f x = g x

theorem alike_nil : Alike f g [] := fun front x back h => by simp at h

theorem alike_cons : Alike f g (x :: xs) ↔ f x = g x ∧ ((g x).isSome → Alike f g xs) := by
  constructor
  · intro h
    refine ⟨h [] x xs rfl (by simp), fun hx front y back hxs hfront => ?_⟩
    exact h (x :: front) y back (by rw [hxs]; rfl) (by simpa [hx] using hfront)
  · intro ⟨hx, hrest⟩ front y back hxs hfront
    cases front with
    | nil =>
      obtain ⟨rfl, -⟩ := List.cons.inj hxs
      exact hx
    | cons z front =>
      obtain ⟨rfl, htail⟩ := List.cons.inj hxs
      rw [List.forall_mem_cons] at hfront
      exact hrest hfront.1 front y back htail hfront.2

/-- The same is accepted, and one is refused in one case if it is in the other. -/
theorem same_iff : (untilRefused f xs).1 = (untilRefused g xs).1 ∧
    ((untilRefused f xs).2.isSome = (untilRefused g xs).2.isSome) ↔ Alike f g xs := by
  induction xs with
  | nil => simp [alike_nil]
  | cons x xs ih =>
    rw [alike_cons]
    cases hf : f x with
    | none =>
      cases hg : g x with
      | none => simp [cons_of_none hf, cons_of_none hg]
      | some b => simp [cons_of_none hf, cons_of_some hg]
    | some a =>
      cases hg : g x with
      | none => simp [cons_of_some hf, cons_of_none hg]
      | some b =>
        rw [cons_of_some hf, cons_of_some hg]
        simp only [List.cons.injEq, Option.some.injEq, Option.isSome_some, forall_const, and_assoc,
          ih]

theorem eq_of_alike (h : Alike f g xs) : untilRefused f xs = untilRefused g xs := by
  induction xs with
  | nil => rfl
  | cons x xs ih =>
    obtain ⟨hx, hrest⟩ := alike_cons.1 h
    cases hg : g x with
    | none => rw [cons_of_none hg, cons_of_none (hx.trans hg)]
    | some b => rw [cons_of_some hg, cons_of_some (hx.trans hg), ih (hrest (by simp [hg]))]

end UntilRefused
