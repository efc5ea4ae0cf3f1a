import Mathlib.Algebra.Order.Ring.Int
import Mathlib.Data.List.AList

/-!
# Association lists with a sum

`AList.sumBy` adds up a measure of the values of an association list. Lemmas say what an
insertion, a replacement and an erasure do to the sum.
-/

namespace AList

variable {α : Type u} {β : Type v} [DecidableEq α]

variable {a : α} {s : AList fun _ : α => β}

theorem lookup_erase_eq_none (h : s.lookup a = none) (a' : α) : (s.erase a').lookup a = none := by
  by_cases ha : a = a'
  · rw [ha, AList.lookup_erase]
  · rwa [AList.lookup_erase_ne ha]

/-- The sum of `f` over the values. -/
def sumBy (f : β → Nat) (s : AList fun _ : α => β) : Nat :=
  (s.entries.map fun e => f e.2).sum

omit [DecidableEq α] in
@[simp] theorem sumBy_empty (f : β → Nat) : sumBy f (∅ : AList fun _ : α => β) = 0 := rfl

variable {b : β} {f : β → Nat}

/-- Erasing a key takes its value out of the sum. -/
theorem sumBy_erase (h : s.lookup a = some b) : sumBy f (s.erase a) + f b = sumBy f s := by
  have hmem : a ∈ s.entries.keys := AList.lookup_isSome.1 (by rw [h]; rfl)
  obtain ⟨b', l₁, l₂, hnot, hs, herase⟩ := List.exists_of_kerase hmem
  have hb : b = b' := by
    have hlookup : s.entries.dlookup a = some b' := by
      rw [hs]
      exact List.mem_dlookup (hs ▸ s.nodupKeys) (by simp)
    have h' : s.entries.dlookup a = some b := h
    rw [hlookup] at h'
    exact (Option.some.inj h').symm
  have herase' : (s.erase a).entries = l₁ ++ l₂ := herase
  rw [sumBy, sumBy, herase', hs, hb]
  simp only [List.map_append, List.map_cons, List.sum_append, List.sum_cons]
  omega

theorem le_sumBy (h : s.lookup a = some b) : f b ≤ sumBy f s :=
  sumBy_erase (f := f) h ▸ Nat.le_add_left _ _

theorem exists_lookup_of_sumBy_pos (h : 0 < sumBy f s) : ∃ a b, s.lookup a = some b ∧ 0 < f b := by
  obtain ⟨n, hn, hpos⟩ := List.sum_pos_iff_exists_pos_nat.1 h
  obtain ⟨⟨a, b⟩, he, rfl⟩ := List.mem_map.1 hn
  exact ⟨a, b, AList.mem_lookup_iff.2 he, hpos⟩

theorem sumBy_insert_of_notMem (b : β)
    (h : s.lookup a = none) : sumBy f (s.insert a b) = sumBy f s + f b := by
  rw [sumBy, AList.entries_insert_of_notMem (AList.lookup_eq_none.1 h)]
  simp only [List.map_cons, List.sum_cons, sumBy]
  omega

theorem sumBy_insert (b' : β)
    (h : s.lookup a = some b) : sumBy f (s.insert a b') + f b = sumBy f s + f b' := by
  have herase := sumBy_erase (f := f) h
  have hinsert : sumBy f (s.insert a b') = f b' + sumBy f (s.erase a) := by
    have herase : (s.erase a).entries = s.entries.kerase a := rfl
    simp [sumBy, AList.entries_insert, herase]
  omega

end AList
