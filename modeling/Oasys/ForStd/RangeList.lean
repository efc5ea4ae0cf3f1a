import Mathlib.Data.Set.Basic
import Mathlib.Data.List.Pairwise

/-!
# Sets of integers as lists of ranges

A list of closed integer ranges stands for the union of its ranges. The list is
*canonical* when every range has a point and each range ends more than one before
the next starts, so that no two ranges could be written as one.

The ranges may be values of any type `ρ`, with `lo` and `hi` their ends.
-/

namespace RangeList

variable {ρ : Type*} (lo hi : ρ → Int)

/-- The integers of the ranges of a list. -/
def points (v : List ρ) : Set Int := {x | ∃ r ∈ v, lo r ≤ x ∧ x ≤ hi r}

/-- `a` ends before `b` starts, with at least one integer between them. -/
def Before (a b : ρ) : Prop := hi a + 1 < lo b

/-- Every range has a point, and consecutive ranges are neither adjacent nor overlap. -/
structure Canonical (v : List ρ) : Prop where
  nonempty : ∀ r ∈ v, lo r ≤ hi r
  separated : v.Pairwise (Before lo hi)

variable {lo hi}

variable {v left right : List ρ} {x : Int}

theorem mem_points : x ∈ points lo hi v ↔ ∃ r ∈ v, lo r ≤ x ∧ x ≤ hi r := Iff.rfl

@[simp] theorem points_nil : points lo hi [] = ∅ := by
  ext x; simp [mem_points]

variable {r : ρ}

@[simp] theorem mem_points_cons :
    x ∈ points lo hi (r :: v) ↔ (lo r ≤ x ∧ x ≤ hi r) ∨ x ∈ points lo hi v := by
  simp [mem_points]

@[simp] theorem mem_points_append {w : List ρ} :
    x ∈ points lo hi (v ++ w) ↔ x ∈ points lo hi v ∨ x ∈ points lo hi w := by
  simp [mem_points, or_and_right, exists_or]

@[simp] theorem mem_points_reverse : x ∈ points lo hi v.reverse ↔ x ∈ points lo hi v := by
  simp [mem_points]

theorem canonical_nil : Canonical lo hi ([] : List ρ) :=
  ⟨by simp, List.Pairwise.nil⟩

theorem canonical_cons : Canonical lo hi (r :: v) ↔
      lo r ≤ hi r ∧ (∀ q ∈ v, Before lo hi r q) ∧ Canonical lo hi v := by
  constructor
  · intro h
    have hsep := List.pairwise_cons.mp h.separated
    exact ⟨h.nonempty r (by simp), hsep.1,
      ⟨fun q hq => h.nonempty q (by simp [hq]), hsep.2⟩⟩
  · intro ⟨hr, hbefore, hv⟩
    refine ⟨?_, List.pairwise_cons.mpr ⟨hbefore, hv.separated⟩⟩
    intro q hq
    rcases List.mem_cons.mp hq with rfl | hq
    · exact hr
    · exact hv.nonempty q hq

theorem canonical_append {w : List ρ} : Canonical lo hi (v ++ w) ↔
      Canonical lo hi v ∧ Canonical lo hi w ∧ ∀ a ∈ v, ∀ b ∈ w, Before lo hi a b := by
  constructor
  · intro h
    have hsep := List.pairwise_append.mp h.separated
    exact ⟨⟨fun r hr => h.nonempty r (by simp [hr]), hsep.1⟩,
      ⟨fun r hr => h.nonempty r (by simp [hr]), hsep.2.1⟩, hsep.2.2⟩
  · intro ⟨hv, hw, hvw⟩
    refine ⟨?_, List.pairwise_append.mpr ⟨hv.separated, hw.separated, hvw⟩⟩
    intro r hr
    rcases List.mem_append.mp hr with hr | hr
    · exact hv.nonempty r hr
    · exact hw.nonempty r hr

/-- A list seen from one of its entries: the entries on its left are kept nearest
    first, as an iterator that walks right leaves them behind. -/
theorem canonical_zipper : Canonical lo hi (left.reverse ++ r :: right) ↔
      Canonical lo hi left.reverse ∧ lo r ≤ hi r ∧ Canonical lo hi right ∧
      (∀ l ∈ left, Before lo hi l r) ∧ (∀ q ∈ right, Before lo hi r q) ∧
      (∀ l ∈ left, ∀ q ∈ right, Before lo hi l q) := by
  simp only [canonical_append, canonical_cons, List.mem_reverse, List.mem_cons]
  constructor
  · intro ⟨hl, ⟨hr, hrq, hq⟩, hall⟩
    exact ⟨hl, hr, hq, fun l hl' => hall l hl' r (.inl rfl), hrq,
      fun l hl' q hq' => hall l hl' q (.inr hq')⟩
  · intro ⟨hl, hr, hq, hlr, hrq, hlq⟩
    refine ⟨hl, ⟨hr, hrq, hq⟩, ?_⟩
    rintro l hl' b (rfl | hb)
    · exact hlr l hl'
    · exact hlq l hl' b hb

/-! ### The points in ascending order -/

/-- The number of points of a range. -/
def card (lo hi : ρ → Int) (r : ρ) : Nat := (hi r + 1 - lo r).toNat

/-- The points of a range, one after the other. -/
def run (lo hi : ρ → Int) (r : ρ) : List Int :=
  (List.range (card lo hi r)).map fun j : Nat => lo r + j

/-- The points of a list of ranges. -/
def enumerate (lo hi : ρ → Int) (v : List ρ) : List Int := v.flatMap (run lo hi)

@[simp] theorem length_run (r : ρ) : (run lo hi r).length = card lo hi r := by simp [run]

theorem getElem?_run {j : Nat} (hj : j < card lo hi r) : (run lo hi r)[j]? = some (lo r + j) := by
  simp [run, List.getElem?_range hj]

@[simp] theorem mem_run : x ∈ run lo hi r ↔ lo r ≤ x ∧ x ≤ hi r := by
  simp only [run, card, List.mem_map, List.mem_range]
  constructor
  · rintro ⟨j, hj, rfl⟩
    omega
  · intro ⟨hlo, hhi⟩
    exact ⟨(x - lo r).toNat, by omega, by omega⟩

@[simp] theorem enumerate_nil : enumerate lo hi ([] : List ρ) = [] := rfl

@[simp] theorem enumerate_cons (r : ρ) (v : List ρ) :
    enumerate lo hi (r :: v) = run lo hi r ++ enumerate lo hi v := rfl

@[simp] theorem enumerate_append (v w : List ρ) :
    enumerate lo hi (v ++ w) = enumerate lo hi v ++ enumerate lo hi w :=
  List.flatMap_append

theorem mem_enumerate : x ∈ enumerate lo hi v ↔ x ∈ points lo hi v := by
  simp [enumerate, mem_points]

theorem pairwise_run (r : ρ) : (run lo hi r).Pairwise (· < ·) := by
  rw [run, List.pairwise_map]
  refine List.pairwise_lt_range.imp fun hlt => ?_
  omega

/-- The points of a canonical list come in ascending order, each of them once. -/
theorem Canonical.pairwise_enumerate (h : Canonical lo hi v) :
    (enumerate lo hi v).Pairwise (· < ·) := by
  induction v with
  | nil => exact .nil
  | cons r v ih =>
    obtain ⟨-, hbefore, hv⟩ := canonical_cons.mp h
    rw [enumerate_cons]
    refine List.pairwise_append.mpr ⟨pairwise_run r, ih hv, fun x hx y hy => ?_⟩
    obtain ⟨q, hq, hlo, -⟩ := mem_points.mp (mem_enumerate.mp hy)
    have hx := (mem_run.mp hx).2
    have := hbefore q hq
    simp only [Before] at this
    omega

/-- The integer behind the end of one of its ranges is no point of a canonical list. -/
theorem Canonical.succ_not_mem (h : Canonical lo hi v) {r : ρ} (hr : r ∈ v) :
    hi r + 1 ∉ points lo hi v := by
  rintro ⟨q, hq, hlo, hhi⟩
  have hpair := h.separated
  obtain ⟨left, right, rfl⟩ := List.append_of_mem hr
  have hne := h.nonempty r (by simp)
  obtain ⟨-, hright, hleft⟩ := List.pairwise_append.mp hpair
  rcases List.mem_append.mp hq with hq | hq
  · have := hleft q hq r (by simp)
    simp only [Before] at this
    omega
  · rcases List.mem_cons.mp hq with rfl | hq
    · omega
    · have := (List.pairwise_cons.mp hright).1 q hq
      simp only [Before] at this
      omega

theorem Canonical.erase (h : Canonical lo hi (left.reverse ++ r :: right)) :
    Canonical lo hi (left.reverse ++ right) := by
  obtain ⟨hl, -, hright, -, -, hlq⟩ := canonical_zipper.mp h
  exact canonical_append.mpr ⟨hl, hright, fun a ha b hb => hlq a (List.mem_reverse.mp ha) b hb⟩

/-- Shrinking an entry to part of it keeps a list canonical. -/
theorem Canonical.shrink {s : ρ}
    (h : Canonical lo hi (left.reverse ++ r :: right)) (hlo : lo r ≤ lo s) (hhi : hi s ≤ hi r)
    (hne : lo s ≤ hi s) : Canonical lo hi (left.reverse ++ s :: right) := by
  obtain ⟨hl, -, hright, hlr, hrq, hlq⟩ := canonical_zipper.mp h
  refine canonical_zipper.mpr ⟨hl, hne, hright, fun l hl => ?_, fun q hq => ?_, hlq⟩
  · have := hlr l hl
    simp only [Before] at *
    omega
  · have := hrq q hq
    simp only [Before] at *
    omega

end RangeList
