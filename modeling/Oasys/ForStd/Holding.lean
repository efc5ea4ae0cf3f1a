import Mathlib.Data.Finset.Card
import Mathlib.Tactic.SplitIfs

/-!
# Holdings

Who holds what, as the finite set of holders of each thing. `move` gives a holder a thing in
place of the one it had; lemmas say who holds a thing then, and how many.
-/

namespace Holding

variable {β : Type u} {ω : Type v} [DecidableEq β] [DecidableEq ω]

/-- The holdings after `v` has come to hold `x`, and nothing else. -/
def move (h : ω → Finset β) (v : β) (x : Option ω) : ω → Finset β :=
  fun o => if x = some o then insert v (h o) else (h o).erase v

variable {h : ω → Finset β} {v w : β} {x old : Option ω} {o : ω}

theorem mem_move : w ∈ move h v x o ↔ if w = v then x = some o else w ∈ h o := by
  rw [move]
  by_cases hx : x = some o
  · by_cases hw : w = v
    · simp [hx, hw]
    · simp [hx, hw]
  · by_cases hw : w = v
    · simp [hx, hw]
    · simp [hx, hw]

/-- One holder more of what it gets, one less of what it had. -/
theorem card_move (hv : v ∈ h o ↔ old = some o) :
    (move h v x o).card + (if old = some o then 1 else 0) =
      (h o).card + (if x = some o then 1 else 0) := by
  rw [move]
  by_cases hold : v ∈ h o
  · have hpos : 0 < (h o).card := Finset.card_pos.2 ⟨v, hold⟩
    rw [if_pos (hv.1 hold)]
    by_cases hx : x = some o
    · simp [hx, hold]
    · simp [hx, Finset.card_erase_of_mem hold]
      omega
  · rw [if_neg fun hc => hold (hv.2 hc)]
    by_cases hx : x = some o
    · simp [hx, hold]
    · simp [hx, hold]

end Holding
