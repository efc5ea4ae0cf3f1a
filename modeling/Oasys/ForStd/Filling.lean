import Mathlib.Data.List.Basic

/-!
# Filling a bounded output

Slices that are appended to an output of bounded capacity until one does not fit. From
then on nothing is appended, not even a slice that would fit.
-/

/-- What has been appended, and whether a slice did not fit. -/
structure Filling (α : Type u) where
  out : List α
  full : Bool

namespace Filling

variable {α : Type u} {cap : Nat} {f : Filling α}

/-- Nothing has been appended yet. -/
def empty : Filling α := ⟨[], false⟩

/-- Append a slice. -/
def put (cap : Nat) (f : Filling α) (bs : List α) : Filling α :=
  if f.full = false ∧ f.out.length + bs.length ≤ cap then { f with out := f.out ++ bs }
  else { f with full := true }

/-- Append one slice after another. -/
def putAll (cap : Nat) (f : Filling α) (ss : List (List α)) : Filling α := ss.foldl (put cap) f

@[simp] theorem putAll_nil : putAll cap f [] = f := rfl

@[simp] theorem putAll_cons (bs : List α) (ss : List (List α)) :
    putAll cap f (bs :: ss) = putAll cap (put cap f bs) ss := rfl

theorem putAll_append (ss ss' : List (List α)) :
    putAll cap f (ss ++ ss') = putAll cap (putAll cap f ss) ss' := List.foldl_append ..

theorem put_of_le {bs : List α} (hfull : f.full = false) (h : f.out.length + bs.length ≤ cap) :
    put cap f bs = ⟨f.out ++ bs, false⟩ := by
  rw [put, if_pos ⟨hfull, h⟩, hfull]

theorem put_of_gt {bs : List α} (h : cap < f.out.length + bs.length) :
    put cap f bs = { f with full := true } := by
  rw [put, if_neg fun hle => Nat.not_le_of_lt h hle.2]

theorem putAll_of_full (ss : List (List α)) (hfull : f.full = true) : putAll cap f ss = f := by
  induction ss with
  | nil => rfl
  | cons bs ss ih =>
    have hput : put cap f bs = f := by
      rw [put, if_neg (by simp [hfull])]
      cases f
      cases hfull
      rfl
    rw [putAll_cons, hput, ih]

/-- If everything fits, everything is appended. -/
theorem putAll_of_le (ss : List (List α)) (hfull : f.full = false)
    (h : f.out.length + ss.flatten.length ≤ cap) :
    putAll cap f ss = ⟨f.out ++ ss.flatten, false⟩ := by
  induction ss generalizing f with
  | nil =>
    cases f
    cases hfull
    simp
  | cons bs ss ih =>
    rw [List.flatten_cons, List.length_append] at h
    rw [putAll_cons, put_of_le hfull (by omega), ih rfl (by simp only [List.length_append]; omega)]
    simp

/-- Otherwise it ends at the first slice that does not fit. -/
theorem putAll_of_gt (ss : List (List α)) (hfull : f.full = false)
    (hle : f.out.length ≤ cap) (h : cap < f.out.length + ss.flatten.length) :
    ∃ done next rest, ss = done ++ next :: rest ∧
      putAll cap f ss = ⟨f.out ++ done.flatten, true⟩ ∧
      f.out.length + done.flatten.length ≤ cap ∧
      cap < f.out.length + done.flatten.length + next.length := by
  induction ss generalizing f with
  | nil =>
    rw [List.flatten_nil, List.length_nil] at h
    omega
  | cons bs ss ih =>
    rw [List.flatten_cons, List.length_append] at h
    by_cases hbs : f.out.length + bs.length ≤ cap
    · -- this slice fits, and a later one does not
      have hput := put_of_le hfull hbs
      obtain ⟨done, next, rest, rfl, hall, hdone, hnext⟩ := ih (f := ⟨f.out ++ bs, false⟩) rfl
        (by simpa using hbs) (by simp only [List.length_append]; omega)
      refine ⟨bs :: done, next, rest, rfl, ?_, ?_, ?_⟩
      · rw [putAll_cons, hput, hall]
        simp
      · simp only [List.length_append, List.flatten_cons] at hdone ⊢
        omega
      · simp only [List.length_append, List.flatten_cons] at hnext ⊢
        omega
    · have hput := put_of_gt (f := f) (Nat.lt_of_not_le hbs)
      refine ⟨[], bs, ss, rfl, ?_, by simpa using hle, by simpa using Nat.lt_of_not_le hbs⟩
      rw [putAll_cons, hput, putAll_of_full ss rfl]
      simp

end Filling
