import Oasys.Thread.SXLock

/-!
# SXLock correctness

`exclusive_lock` waits while `xcount_ > 0 && scount_ > 0`, so it goes on when only one of
the two counters is positive: next to the readers that are inside, or as a second writer,
which leaves the process. `shared_lock` has the test right.

In runs where each `exclusive_lock` finds both counters positive or both zero, and where
`scount_` stays in the range of `int`, the lock excludes. The invariant is that the
counters count the holders.
-/

namespace Oasys.SXLock

variable {Tid : Type}

/-! ### What the lock promises -/

/-- A thread that holds the lock exclusively is the only one to hold it at all, and the
    process has not left for having two of them. -/
structure Excludes (s : State Tid) : Prop where
  apart : ∀ t ∈ s.exclusive, ∀ u ∈ s.shared, u = t
  exclusive : ∀ t ∈ s.exclusive, ∀ u ∈ s.exclusive, u = t
  running : s.exited = false

/-- A step that keeps clear of the test of `exclusive_lock` going wrong, and of the
    overflow of `scount_`. -/
def Careful (s : State Tid) (l : Tid × Call) : Prop :=
  (l.2 = .exclusiveLock → (s.xcount_ > 0 ↔ s.scount_ > 0)) ∧
    (l.2 = .sharedLock → s.scount_ < IntType.int.max)

/-! ### The invariant -/

/-- What holds of the lock and its threads between any two steps of a careful run. -/
structure Inv (s : State Tid) : Prop where
  scount : s.scount_ = s.shared.length
  xcount : s.xcount_ = s.exclusive.length
  le_one : s.exclusive.length ≤ 1
  alone : s.exclusive ≠ [] → s.shared = []
  inRange : s.scount_ ≤ IntType.int.max
  running : s.exited = false
  noFault : s.fault = none

theorem inv_new : Inv (.new Tid) where
  scount := rfl
  xcount := rfl
  le_one := by simp [State.new]
  alone h := absurd rfl h
  inRange := by
    show (0 : Int) ≤ IntType.int.max
    decide
  running := rfl
  noFault := rfl

theorem Inv.excludes {s : State Tid} (h : Inv s) : Excludes s where
  apart t ht u hu := by
    rw [h.alone (List.ne_nil_of_mem ht)] at hu
    cases hu
  exclusive t ht u hu := by
    obtain ⟨v, hv⟩ := List.length_eq_one_iff.mp
      (Nat.le_antisymm h.le_one (List.length_pos_of_mem ht))
    rw [hv, List.mem_singleton] at ht hu
    rw [ht, hu]
  running := h.running

/-! ### Steps -/

section Steps

variable [DecidableEq Tid] {B : Build} {s : State Tid} {t : Tid}

private theorem Inv.goto (h : Inv s) (p : PC) : Inv (s.goto t p) :=
  ⟨h.scount, h.xcount, h.le_one, h.alone, h.inRange, h.running, h.noFault⟩

private theorem arith_int (B : Build) {z : Int} (hz : 0 ≤ z) (hmax : z ≤ IntType.int.max) :
    IntType.int.arith B z = .ok z := by
  have hmin : IntType.int.min ≤ 0 := by decide
  exact IntType.arith_of_inRange B ⟨by omega, hmax⟩

private theorem Inv.sharedLock (h : Inv s) (hlt : s.scount_ < IntType.int.max) :
    Inv (sharedLock B s t) := by
  unfold SXLock.sharedLock
  split
  · exact h.goto _
  · rename_i hx
    have hscount := h.scount
    have hxcount := h.xcount
    -- the loop has been left, so no writer is inside
    have hnil : s.exclusive = [] := List.length_eq_zero_iff.mp (by omega)
    rw [arith_int B (by omega) (by omega)]
    constructor
    · show s.scount_ + 1 = ((t :: s.shared).length : Int)
      rw [List.length_cons, hscount]
      rfl
    · exact hxcount
    · exact h.le_one
    · exact fun hne => absurd hnil hne
    · show s.scount_ + 1 ≤ _
      omega
    · exact h.running
    · exact h.noFault

private theorem Inv.sharedUnlock (h : Inv s) (ht : t ∈ s.shared) : Inv (sharedUnlock B s t) := by
  have hscount := h.scount
  have hpos := List.length_pos_of_mem ht
  have hmax := h.inRange
  unfold SXLock.sharedUnlock
  rw [arith_int B (by omega) (by omega)]
  constructor
  · show s.scount_ - 1 = ((s.shared.erase t).length : Int)
    rw [List.length_erase_of_mem ht]
    omega
  · exact h.xcount
  · exact h.le_one
  · intro hne
    -- a reader is inside, so no writer is
    rw [h.alone hne] at ht
    cases ht
  · show s.scount_ - 1 ≤ _
    omega
  · exact h.running
  · exact h.noFault

private theorem Inv.exclusiveLock (h : Inv s) (hboth : s.xcount_ > 0 ↔ s.scount_ > 0) :
    Inv (exclusiveLock B s t) := by
  have hscount := h.scount
  have hxcount := h.xcount
  unfold SXLock.exclusiveLock
  split
  · exact h.goto _
  · rename_i hwait
    -- neither counter is positive, so the lock is free
    have hx : s.exclusive.length = 0 := by omega
    have hs : s.shared.length = 0 := by omega
    have hzero : s.xcount_ + 1 = 1 := by omega
    have hone : (1 : Int) ≤ IntType.int.max := by decide
    rw [hzero, arith_int B (by omega) hone]
    have hexcl : s.exclusive = [] := List.length_eq_zero_iff.mp hx
    constructor
    · exact hscount
    · show (1 : Int) = ((t :: s.exclusive).length : Int)
      rw [hexcl]
      rfl
    · show (t :: s.exclusive).length ≤ 1
      rw [hexcl]
      exact Nat.le_refl 1
    · exact fun _ => List.length_eq_zero_iff.mp hs
    · exact h.inRange
    · exact h.running
    · exact h.noFault

private theorem Inv.exclusiveUnlock (h : Inv s) (ht : t ∈ s.exclusive) :
    Inv (exclusiveUnlock B s t) := by
  have hxcount := h.xcount
  have hpos := List.length_pos_of_mem ht
  have hle := h.le_one
  have hzero : s.xcount_ - 1 = 0 := by omega
  have hmax : (0 : Int) ≤ IntType.int.max := by decide
  have hlen := List.length_erase_of_mem ht
  -- the writer was the only one
  have hnil : s.exclusive.erase t = [] := List.length_eq_zero_iff.mp (by omega)
  unfold SXLock.exclusiveUnlock
  rw [hzero, arith_int B (Int.le_refl 0) hmax]
  constructor
  · exact h.scount
  · show (0 : Int) = ((s.exclusive.erase t).length : Int)
    rw [hnil]
    rfl
  · show (s.exclusive.erase t).length ≤ 1
    rw [hnil]
    exact Nat.zero_le 1
  · exact fun hne => absurd hnil hne
  · exact h.inRange
  · exact h.running
  · exact h.noFault

theorem Inv.next {s' : State Tid} {c : Call} (h : Inv s) (hcare : Careful s (t, c))
    (hstep : next B s t c = some s') : Inv s' := by
  unfold SXLock.next at hstep
  split at hstep
  · cases hstep
  · rename_i hon
    -- the thread calls only what it can, and unlocks only what it holds
    have henabled : enabled s t c = true := by
      by_contra hne
      exact hon (.inr (.inr (Bool.eq_false_iff.mpr hne)))
    cases c with
    | sharedLock =>
      obtain rfl := Option.some.inj hstep
      exact h.sharedLock (hcare.2 rfl)
    | sharedUnlock =>
      obtain rfl := Option.some.inj hstep
      simp only [enabled, decide_eq_true_eq] at henabled
      exact h.sharedUnlock henabled.2
    | exclusiveLock =>
      obtain rfl := Option.some.inj hstep
      exact h.exclusiveLock (hcare.1 rfl)
    | exclusiveUnlock =>
      obtain rfl := Option.some.inj hstep
      simp only [enabled, decide_eq_true_eq] at henabled
      exact h.exclusiveUnlock henabled.2

end Steps

/-! ### Exclusion -/

variable [DecidableEq Tid]

/-- In every interleaving whose steps are careful, a writer is alone. -/
theorem writers_alone_of_careful {B : Build} {s : State Tid}
    (hs : (system Tid B).ReachableWith Careful s) : Excludes s := by
  have hinv : Inv s := by
    apply hs.invariant
    · intro s hs
      rw [show s = .new Tid from hs]
      exact inv_new
    · intro s l s' h hcare hstep
      exact h.next hcare hstep
  exact hinv.excludes

/-- A reader has come and gone, and a writer finds the lock free. -/
theorem writers_alone_of_careful_writer : ∃ s : State Bool, s.exclusive = [false] ∧
    Excludes s := by
  have hread : (system Bool ⟨false, false⟩).ReachableWith Careful _ :=
    .step (a := (true, .sharedLock)) (.init rfl) ⟨nofun, fun _ => by decide⟩ rfl
  have hfree : (system Bool ⟨false, false⟩).ReachableWith Careful _ :=
    .step (a := (true, .sharedUnlock)) hread ⟨nofun, nofun⟩ rfl
  have hwrite : (system Bool ⟨false, false⟩).ReachableWith Careful _ :=
    .step (a := (false, .exclusiveLock)) hfree ⟨fun _ => by decide, nofun⟩ rfl
  exact ⟨_, rfl, writers_alone_of_careful hwrite⟩

/-- Without the condition it is not: a writer goes in next to a reader. -/
theorem reader_beside_writer : ¬ ∀ (Tid : Type) (_ : DecidableEq Tid) (B : Build)
    (s : State Tid), (system Tid B).Reachable s → Excludes s := by
  intro h
  have hread : (system Bool ⟨false, false⟩).Reachable _ :=
    .step (a := (true, .sharedLock)) (.init rfl) trivial rfl
  have hwrite : (system Bool ⟨false, false⟩).Reachable _ :=
    .step (a := (false, .exclusiveLock)) hread trivial rfl
  have hsame := (h Bool inferInstance _ _ hwrite).apart false (by decide) true (by decide)
  cases hsame

/-- The condition on `exclusive_lock` is as weak as can be: where it fails, the lock no
    longer excludes after the step, unless the readers are the thread itself. -/
theorem not_excludes_of_careless {B : Build} {s s' : State Tid} {t : Tid} (h : Inv s)
    (hno : ¬ (s.xcount_ > 0 ↔ s.scount_ > 0)) (hother : ∀ u ∈ s.shared, u ≠ t)
    (hstep : next B s t .exclusiveLock = some s') : ¬ Excludes s' := by
  have hscount := h.scount
  have hxcount := h.xcount
  have hle := h.le_one
  have hmax : (2 : Int) ≤ IntType.int.max := by decide
  unfold SXLock.next at hstep
  split at hstep
  · cases hstep
  obtain rfl := Option.some.inj hstep
  have hgo : ¬ (s.xcount_ > 0 ∧ s.scount_ > 0) := fun hboth =>
    hno ⟨fun _ => hboth.2, fun _ => hboth.1⟩
  unfold exclusiveLock
  rw [if_neg hgo, arith_int B (by omega) (by omega)]
  intro hexcl
  by_cases hx : s.xcount_ > 0
  · -- a second writer leaves the process
    have hne : s.xcount_ + 1 ≠ 1 := by omega
    have hrun := hexcl.running
    simp [hne, State.orFault] at hrun
  · -- readers are inside
    have hone : s.xcount_ + 1 = 1 := by omega
    have hpos : 0 < s.shared.length := by
      by_contra hzero
      exact hno ⟨fun hx' => absurd hx' hx, fun hs => by omega⟩
    obtain ⟨u, hu⟩ := List.exists_mem_of_length_pos hpos
    have hut := hexcl.apart t (by
      simp [hone, State.orFault, State.goto]) u (by
      simpa [hone, bind, Except.bind, pure, Except.pure, State.orFault, State.goto] using hu)
    exact hother u hu hut

end Oasys.SXLock
