import Oasys.Thread.LockDebugger
import Mathlib.Data.List.Perm.Subperm

/-!
# LockDebugger correctness

Every path of `lock` and `unlock`, and of `Mutex::try_lock`, tells the debugger of an
acquisition or a release exactly once. `SpinLock::try_lock` does so too when it takes a
lock, but not when it takes one the thread already holds: the count is then one short of
the recursion depth, and the last `unlock` looks for an entry that is gone.

In runs without such a `try_lock` the debugger is exact. `Inv` carries the proof; next to
the debugger it follows the lock fields that `is_locked_by_me` reads.
-/

namespace Oasys.LockDebugger

variable {Tid Lid : Type} [DecidableEq Lid]

/-! ### What the debugger promises -/

/-- The debugger holds each lock once, with its recursion depth, and no other lock. -/
structure Exact (locks_held_ : LockVector Lid) (depth : Lid → Nat) : Prop where
  nodup : (locks_held_.map Ent.lock_).Nodup
  count : ∀ e ∈ locks_held_, e.count_ = depth e.lock_
  held : ∀ l, l ∈ locks_held_.map Ent.lock_ ↔ 0 < depth l

/-- The bookkeeping of a thread: the debugger is exact, no assertion of `remove_lock` or
    `unlock` fails on a lock the thread holds, and `check` answers whether the locks it is
    given are all the locks held. -/
structure Bookkeeping [DecidableEq Tid] (kind : Lid → LockKind) (me : Tid)
    (s : State Tid Lid) : Prop extends Exact s.locks_held_ s.depth where
  remove : ∀ l, 0 < s.depth l → ∃ d, removeLock s.locks_held_ l = .ok d
  unlock : ∀ l, 0 < s.depth l →
    ∃ r, Lock.unlock (kind l) me l (s.locks l) s.locks_held_ = .ok r
  check : ∀ ls : List Lid, ls.Nodup → ∃ b, checkN me s.locks s.locks_held_ ls = .ok b ∧
    (b = true ↔ ∀ l, l ∈ ls ↔ 0 < s.depth l)

/-- A step that keeps clear of the two ways to lose count: the thread does not call
    `try_lock` on a spin lock it already holds, and it takes no lock so deep that the count,
    an `int`, has no next value. -/
def Careful (kind : Lid → LockKind) (s : State Tid Lid) : Action Tid Lid → Prop
  | .lock l => s.depth l < intMax
  | .tryLock l => s.depth l < intMax ∧ (kind l = .spinLock → s.depth l = 0)
  | .unlock _ | .others _ _ => True

instance (kind : Lid → LockKind) (s : State Tid Lid) (a : Action Tid Lid) :
    Decidable (Careful kind s a) :=
  match a with
  | .lock _ => inferInstanceAs (Decidable (_ < _))
  | .tryLock _ => inferInstanceAs (Decidable (_ ∧ (_ → _)))
  | .unlock _ | .others _ _ => inferInstanceAs (Decidable True)

/-! ### The list of held locks -/

section List

variable {e : Ent Lid} {locks_held_ : LockVector Lid} {depth : Lid → Nat} {l : Lid}

omit [DecidableEq Lid] in
theorem exact_nil : Exact [] depth ↔ ∀ l, depth l = 0 := by
  constructor
  · intro h l
    have := h.held l
    simp at this
    omega
  · intro h
    exact ⟨by simp, by simp, by simp [h]⟩

/-- The first entry is right, and the others are right about the other locks. -/
theorem exact_cons : Exact (e :: locks_held_) depth ↔
    0 < depth e.lock_ ∧ e.count_ = depth e.lock_ ∧
      Exact locks_held_ (Function.update depth e.lock_ 0) := by
  constructor
  · intro ⟨hnodup, hcount, hheld⟩
    obtain ⟨hnot, hnodup⟩ := List.nodup_cons.1 hnodup
    refine ⟨(hheld _).1 (by simp), hcount e (by simp), hnodup, ?_, ?_⟩
    · intro i hi
      have hne : i.lock_ ≠ e.lock_ := fun h => hnot (h ▸ List.mem_map_of_mem hi)
      rw [Function.update_of_ne hne]
      exact hcount i (by simp [hi])
    · intro l
      by_cases hl : l = e.lock_
      · subst hl
        simpa using hnot
      · rw [Function.update_of_ne hl, ← hheld l]
        simp [hl]
  · intro ⟨hpos, hc, hnodup, hcount, hheld⟩
    have hnot : e.lock_ ∉ locks_held_.map Ent.lock_ := by simp [hheld]
    refine ⟨List.nodup_cons.2 ⟨hnot, hnodup⟩, ?_, ?_⟩
    · intro i hi
      rcases List.mem_cons.1 hi with rfl | hi
      · exact hc
      · have hne : i.lock_ ≠ e.lock_ := fun h => hnot (h ▸ List.mem_map_of_mem hi)
        rw [hcount i hi, Function.update_of_ne hne]
    · intro l
      by_cases hl : l = e.lock_
      · subst hl
        simpa using hpos
      · rw [List.map_cons, List.mem_cons, hheld l, Function.update_of_ne hl]
        simp [hl]

theorem addLock_exact (h : Exact locks_held_ depth) (hd : depth l < intMax) :
    ∃ d, addLock locks_held_ l = .ok d ∧
      Exact d (Function.update depth l (depth l + 1)) := by
  induction locks_held_ generalizing depth with
  | nil =>
    have hzero := exact_nil.1 h
    refine ⟨[⟨l, 1⟩], rfl, exact_cons.2 ⟨by simp, by simp [hzero], exact_nil.2 ?_⟩⟩
    intro k
    simp [Function.update_apply, hzero]
  | cons i rest ih =>
    obtain ⟨hpos, hc, hrest⟩ := exact_cons.1 h
    by_cases hi : i.lock_ = l
    · subst hi
      have hmax : i.count_ ≠ intMax := by omega
      refine ⟨{ i with count_ := i.count_ + 1 } :: rest, by simp [addLock, hmax], ?_⟩
      exact exact_cons.2 ⟨by simp, by simp [hc], by simpa using hrest⟩
    · have hl : Function.update depth i.lock_ 0 l = depth l :=
        Function.update_of_ne (Ne.symm hi) ..
      obtain ⟨d, hd', hex⟩ := ih hrest (by rwa [hl])
      refine ⟨i :: d, by simp [addLock, hi, hd'], exact_cons.2 ⟨?_, ?_, ?_⟩⟩
      · simpa [hi] using hpos
      · simpa [hi] using hc
      · rwa [hl, Function.update_comm hi] at hex

theorem removeLock_exact (h : Exact locks_held_ depth) (hl : 0 < depth l) :
    ∃ d, removeLock locks_held_ l = .ok d ∧
      Exact d (Function.update depth l (depth l - 1)) := by
  induction locks_held_ generalizing depth with
  | nil =>
    have := exact_nil.1 h l
    omega
  | cons i rest ih =>
    obtain ⟨hpos, hc, hrest⟩ := exact_cons.1 h
    by_cases hi : i.lock_ = l
    · subst hi
      have hge : 1 ≤ i.count_ := by omega
      by_cases hone : depth i.lock_ = 1
      · refine ⟨rest, by simp [removeLock, hc, hone], ?_⟩
        simpa [hone] using hrest
      · have hne : i.count_ - 1 ≠ 0 := by omega
        refine ⟨{ i with count_ := i.count_ - 1 } :: rest, by simp [removeLock, hge, hne], ?_⟩
        refine exact_cons.2 ⟨?_, ?_, by simpa using hrest⟩
        · simp
          omega
        · simp
          omega
    · have hl' : Function.update depth i.lock_ 0 l = depth l :=
        Function.update_of_ne (Ne.symm hi) ..
      obtain ⟨d, hd', hex⟩ := ih hrest (by rwa [hl'])
      refine ⟨i :: d, by simp [removeLock, hi, hd'], exact_cons.2 ⟨?_, ?_, ?_⟩⟩
      · simpa [hi] using hpos
      · simpa [hi] using hc
      · rwa [hl', Function.update_comm hi] at hex

theorem Exact.find? (h : Exact locks_held_ depth) (hl : 0 < depth l) :
    ∃ i, locks_held_.find? (·.lock_ = l) = some i ∧ 0 < i.count_ := by
  obtain ⟨i, hi, rfl⟩ := List.mem_map.1 ((h.held l).2 hl)
  obtain ⟨j, hj⟩ := Option.isSome_iff_exists.1
    (List.find?_isSome.2 ⟨i, hi, by simp⟩ :
      (locks_held_.find? (·.lock_ = i.lock_)).isSome)
  have hlock : j.lock_ = i.lock_ := by simpa using List.find?_some hj
  refine ⟨j, hj, ?_⟩
  rw [h.count j (List.mem_of_find?_eq_some hj), hlock]
  omega

variable [DecidableEq Tid] {me : Tid} {locks : Lid → Lock Tid}

theorem checkEach_eq (h : Exact locks_held_ depth)
    (hlocks : ∀ l, (locks l).isLockedByMe me = true ↔ 0 < depth l) (ls : List Lid) :
    checkEach me locks locks_held_ ls = .ok (decide (∀ l ∈ ls, 0 < depth l)) := by
  induction ls with
  | nil => simp [checkEach]
  | cons l ls ih =>
    by_cases hl : 0 < depth l
    · obtain ⟨i, hi, hpos⟩ := h.find? hl
      have hme := (hlocks l).2 hl
      simp [checkEach, hme, hi, hpos, ih, hl]
    · have hme : (locks l).isLockedByMe me = false := by
        rw [← Bool.not_eq_true, hlocks]
        exact hl
      simp [checkEach, hme, hl]

theorem checkN_iff (h : Exact locks_held_ depth)
    (hlocks : ∀ l, (locks l).isLockedByMe me = true ↔ 0 < depth l) {ls : List Lid}
    (hls : ls.Nodup) :
    ∃ b, checkN me locks locks_held_ ls = .ok b ∧
      (b = true ↔ ∀ l, l ∈ ls ↔ 0 < depth l) := by
  by_cases hall : ∀ l ∈ ls, 0 < depth l
  · have heach : checkEach me locks locks_held_ ls = .ok true := by
      rw [checkEach_eq h hlocks, decide_eq_true hall]
    refine ⟨decide (locks_held_.length = ls.length), by simp [checkN, heach], ?_⟩
    have hsub : ls ⊆ locks_held_.map Ent.lock_ := fun l hl => (h.held l).2 (hall l hl)
    have hsubperm := List.subperm_of_subset hls hsub
    rw [decide_eq_true_iff]
    constructor
    · intro hlen l
      -- no shorter than the held locks, the arguments are a permutation of them
      have hperm := hsubperm.perm_of_length_le (by simp [hlen])
      rw [hperm.mem_iff, h.held l]
    · intro hiff
      have hperm : ls.Perm (locks_held_.map Ent.lock_) :=
        (List.perm_ext_iff_of_nodup hls h.nodup).2 fun l => (hiff l).trans (h.held l).symm
      simpa using hperm.length_eq.symm
  · have heach : checkEach me locks locks_held_ ls = .ok false := by
      rw [checkEach_eq h hlocks, decide_eq_false hall]
    refine ⟨false, by simp [checkN, heach], ?_⟩
    have : ¬ ∀ l, l ∈ ls ↔ 0 < depth l := fun hiff => hall fun l hl => (hiff l).1 hl
    simpa using this

end List

/-! ### The locks -/

section Locks

variable [DecidableEq Tid] {kind : LockKind} {me : Tid} {l : Lock Tid} {n : Nat}

/-- What the fields say of a lock that the thread has acquired `n` times. -/
structure Owned (kind : LockKind) (me : Tid) (n : Nat) (l : Lock Tid) : Prop where
  count : l.lock_count_ = n
  holder : l.lock_holder_ = some me
  mutex : kind = .mutex → l.mutex_ = ⟨some me, n⟩

/-- The lock follows the recursion depth of the thread. -/
structure Follows (kind : LockKind) (me : Tid) (n : Nat) (l : Lock Tid) : Prop where
  foreign : n = 0 → Foreign kind me l
  owned : 0 < n → Owned kind me n l

theorem Owned.follows (h : Owned kind me n l) (hn : 0 < n) : Follows kind me n l :=
  ⟨fun h0 => by omega, fun _ => h⟩

omit [DecidableEq Tid] in
theorem Foreign.follows (h : Foreign kind me l) : Follows kind me 0 l :=
  ⟨fun _ => h, fun h0 => by omega⟩

theorem Foreign.isLockedByMe (h : Foreign kind me l) : l.isLockedByMe me = false := by
  simp [Lock.isLockedByMe, h.1]

theorem Owned.isLockedByMe (h : Owned kind me n l) (hn : 0 < n) : l.isLockedByMe me = true := by
  simp [Lock.isLockedByMe, Lock.isLocked, h.count, h.holder]
  omega

theorem Follows.isLockedByMe_iff (h : Follows kind me n l) :
    l.isLockedByMe me = true ↔ 0 < n := by
  by_cases hn : n = 0
  · simp [hn, (h.foreign hn).isLockedByMe]
  · have hpos : 0 < n := by omega
    simp [hpos, (h.owned hpos).isLockedByMe hpos]

theorem succ_mod_countSize (hn : (n : Int) < intMax) : (n + 1) % SpinLock.countSize = n + 1 := by
  apply Nat.mod_eq_of_lt
  simp only [intMax, SpinLock.countSize] at *
  omega

theorem Follows.mutexAcquired (h : Follows .mutex me n l) (hn : (n : Int) < intMax)
    (howner : l.mutex_.owner = none ∨ l.mutex_.owner = some me) :
    Follows .mutex me (n + 1) ⟨(l.lock_count_ + 1) % SpinLock.countSize, some me,
      pthreadMutexLock me l.mutex_⟩ := by
  by_cases h0 : n = 0
  · obtain ⟨-, hne, hfree⟩ := h.foreign h0
    have hnone : l.mutex_.owner = none := howner.resolve_right hne
    apply Owned.follows _ (by omega)
    constructor <;> simp [h0, hfree hnone, hnone, pthreadMutexLock, SpinLock.countSize]
  · have hown := h.owned (by omega)
    apply Owned.follows _ (by omega)
    constructor <;>
      simp [hown.count, hown.mutex rfl, pthreadMutexLock, succ_mod_countSize hn]

theorem Follows.spinLockAgain (h : Follows .spinLock me n l) (hn : (n : Int) < intMax)
    (hpos : 0 < n) :
    Follows .spinLock me (n + 1)
      { l with lock_count_ := (l.lock_count_ + 1) % SpinLock.countSize } := by
  have hown := h.owned hpos
  apply Owned.follows _ (by omega)
  exact ⟨by simp [hown.count, succ_mod_countSize hn], hown.holder, nofun⟩

theorem lock_spec (self : Lid) (h : Follows kind me n l) (hn : (n : Int) < intMax)
    (hw : Lock.waits kind me l = false) :
    ∃ l', Follows kind me (n + 1) l' ∧ ∀ held : LockVector Lid,
      Lock.lock kind me self l held = (fun d => (0, l', d)) <$> addLock held self := by
  cases kind with
  | spinLock =>
    by_cases hpos : 0 < n
    · refine ⟨_, h.spinLockAgain hn hpos, fun held => ?_⟩
      simp [Lock.lock, SpinLock.lock, h.isLockedByMe_iff.2 hpos]
      rfl
    · have h0 : n = 0 := by omega
      have hme := (h.foreign h0).isLockedByMe
      have hc : l.lock_count_ = 0 := by simpa [Lock.waits, hme] using hw
      refine ⟨{ l with lock_count_ := 1, lock_holder_ := some me },
        Owned.follows ⟨by simp [h0], rfl, nofun⟩ (by omega), fun held => ?_⟩
      simp [Lock.lock, SpinLock.lock, hme, hc]
      rfl
  | mutex =>
    have howner : l.mutex_.owner = none ∨ l.mutex_.owner = some me := by
      simpa [Lock.waits, or_iff_not_imp_left] using hw
    refine ⟨_, h.mutexAcquired hn howner, fun held => ?_⟩
    simp [Lock.lock, Mutex.lock]
    rfl

/-- `try_lock`, other than on a spin lock the thread holds, returns 0 with one more
    acquisition of which it tells the debugger, or returns 1 with none. It fails its
    assertion where the swap is taken for a success on a lock with a holder. -/
theorem tryLock_spec (self : Lid) (h : Follows kind me n l) (hn : (n : Int) < intMax)
    (hfirst : kind = .spinLock → n = 0) (cmpxchg : Nat → Nat) :
    (∃ l', Follows kind me (n + 1) l' ∧ ∀ held : LockVector Lid,
      Lock.tryLock cmpxchg kind me self l held =
        (fun d => (0, l', d)) <$> addLock held self) ∨
    (∃ l', Follows kind me n l' ∧ ∀ held : LockVector Lid,
      Lock.tryLock cmpxchg kind me self l held = .ok (1, l', held)) ∨
    ∀ held : LockVector Lid,
      Lock.tryLock cmpxchg kind me self l held = .error .assertFailed := by
  cases kind with
  | spinLock =>
    have h0 : n = 0 := hfirst rfl
    have hfor := h.foreign h0
    have hme := hfor.isLockedByMe
    by_cases hgot : cmpxchg l.lock_count_ = 0
    · -- the swap is taken for a failure
      refine .inr (.inl ⟨{ l with lock_count_ := if l.lock_count_ = 0 then 1 else l.lock_count_ },
        ?_, fun held => by simp [Lock.tryLock, SpinLock.tryLock, hme, hgot]⟩)
      rw [h0]
      refine Foreign.follows ⟨hfor.1, fun hnone => ?_⟩
      have := hfor.2 hnone
      dsimp only
      split <;> omega
    · by_cases hnone : l.lock_holder_ = none
      · have hle := hfor.2 hnone
        refine .inl ⟨{ l with lock_count_ := 1, lock_holder_ := some me },
          Owned.follows ⟨by simp [h0], rfl, nofun⟩ (by omega), fun held => ?_⟩
        have hone : (if l.lock_count_ = 0 then 1 else l.lock_count_) = 1 := by
          split <;> omega
        simp [Lock.tryLock, SpinLock.tryLock, hme, hgot, hnone, hone]
        rfl
      · refine .inr (.inr fun held => ?_)
        simp [Lock.tryLock, SpinLock.tryLock, hme, hgot, hnone]
  | mutex =>
    by_cases howner : l.mutex_.owner = none ∨ l.mutex_.owner = some me
    · refine .inl ⟨_, h.mutexAcquired hn howner, fun held => ?_⟩
      simp [Lock.tryLock, Mutex.tryLock, pthreadMutexTrylock, howner]
      rfl
    · refine .inr (.inl ⟨l, h, fun held => ?_⟩)
      simp [Lock.tryLock, Mutex.tryLock, pthreadMutexTrylock, howner]

/-- `unlock` of a lock that the thread holds returns 0 with one acquisition less, and tells
    the debugger of the release. -/
theorem unlock_spec (self : Lid) (h : Follows kind me n l) (hpos : 0 < n) :
    ∃ l', Follows kind me (n - 1) l' ∧ ∀ held : LockVector Lid,
      Lock.unlock kind me self l held = (fun d => (0, l', d)) <$> removeLock held self := by
  have hown := h.owned hpos
  have hme := hown.isLockedByMe hpos
  by_cases hone : n = 1
  · subst hone
    cases kind with
    | spinLock =>
      refine ⟨{ l with lock_holder_ := none, lock_count_ := 0 },
        Foreign.follows ⟨by simp, by simp⟩, fun held => ?_⟩
      simp [Lock.unlock, SpinLock.unlock, hme, hown.count]
      rfl
    | mutex =>
      refine ⟨⟨0, none, ⟨none, 0⟩⟩, Foreign.follows ⟨by simp, by simp⟩, fun held => ?_⟩
      simp [Lock.unlock, Mutex.unlock, hme, hown.count, hown.mutex rfl, pthreadMutexUnlock]
      rfl
  · have hgt : 1 < n := by omega
    have hne : n - 1 ≠ 0 := by omega
    cases kind with
    | spinLock =>
      refine ⟨{ l with lock_count_ := l.lock_count_ - 1 },
        Owned.follows ⟨by simp [hown.count], hown.holder, nofun⟩ (by omega), fun held => ?_⟩
      simp [Lock.unlock, SpinLock.unlock, hme, hown.count, hgt]
      rfl
    | mutex =>
      refine ⟨⟨n - 1, some me, ⟨some me, n - 1⟩⟩,
        Owned.follows ⟨rfl, rfl, fun _ => rfl⟩ (by omega), fun held => ?_⟩
      simp [Lock.unlock, Mutex.unlock, hme, hown.count, hown.holder, hown.mutex rfl, hne, hgt,
        pthreadMutexUnlock]
      rfl

end Locks

/-! ### Runs -/

variable [DecidableEq Tid] {cmpxchg : Nat → Nat} {kind : Lid → LockKind} {me : Tid}
  {s s' : State Tid Lid} {a : Action Tid Lid}

/-- What holds between any two steps of a careful run. -/
structure Inv (kind : Lid → LockKind) (me : Tid) (s : State Tid Lid) : Prop where
  exact : Exact s.locks_held_ s.depth
  follows : ∀ l, Follows (kind l) me (s.depth l) (s.locks l)

omit [DecidableEq Lid] [DecidableEq Tid] in
theorem inv_new : Inv kind me (.new : State Tid Lid) where
  exact := exact_nil.2 fun _ => rfl
  follows l := by
    apply Foreign.follows
    cases kind l <;> simp [Foreign, State.new, Lock.new]

theorem Inv.bookkeeping (h : Inv kind me s) : Bookkeeping kind me s where
  toExact := h.exact
  remove l hl := by
    obtain ⟨d, hd, -⟩ := removeLock_exact h.exact hl
    exact ⟨d, hd⟩
  unlock l hl := by
    obtain ⟨d, hd, -⟩ := removeLock_exact h.exact hl
    obtain ⟨l', -, hunlock⟩ := unlock_spec l (h.follows l) hl
    exact ⟨(0, l', d), by rw [hunlock, hd]; rfl⟩
  check ls hls := checkN_iff h.exact (fun l => (h.follows l).isLockedByMe_iff) hls

omit [DecidableEq Tid] in
theorem Inv.set {l : Lid} {r : Returned Tid Lid} {n : Nat} (h : Inv kind me s)
    (hfollows : Follows (kind l) me n r.2.1)
    (hexact : Exact r.2.2 (Function.update s.depth l n)) : Inv kind me (s.set l r n) where
  exact := hexact
  follows k := by
    by_cases hk : k = l
    · subst hk
      simpa [State.set] using hfollows
    · simpa [State.set, hk] using h.follows k

theorem Inv.step (h : Inv kind me s) (hcareful : Careful kind s a)
    (hstep : next cmpxchg kind me s a = some s') : Inv kind me s' := by
  cases a with
  | lock l =>
    simp only [next] at hstep
    split at hstep
    · cases hstep
    · rename_i hw
      obtain ⟨l', hfollows, hlock⟩ :=
        lock_spec l (h.follows l) hcareful (by simpa using hw)
      obtain ⟨d, hd, hexact⟩ := addLock_exact h.exact hcareful
      obtain rfl : s.set l (0, l', d) (s.depth l + 1) = s' := by
        simpa [hlock, hd, Functor.map, Except.map, Except.toOption] using hstep
      exact h.set hfollows hexact
  | tryLock l =>
    simp only [next] at hstep
    obtain ⟨l', hfollows, htry⟩ | ⟨l', hfollows, htry⟩ | htry :=
      tryLock_spec l (h.follows l) hcareful.1 hcareful.2 cmpxchg
    · obtain ⟨d, hd, hexact⟩ := addLock_exact h.exact hcareful.1
      obtain rfl : s.set l (0, l', d) (s.depth l + 1) = s' := by
        simpa [htry, hd, Functor.map, Except.map, Except.toOption] using hstep
      exact h.set hfollows hexact
    · obtain rfl : s.set l (1, l', s.locks_held_) (s.depth l) = s' := by
        simpa [htry, Except.toOption] using hstep
      exact h.set hfollows (by simpa using h.exact)
    · simp [htry, Except.toOption] at hstep
  | unlock l =>
    simp only [next] at hstep
    split at hstep
    · rename_i hpos
      obtain ⟨l', hfollows, hunlock⟩ := unlock_spec l (h.follows l) hpos
      obtain ⟨d, hd, hexact⟩ := removeLock_exact h.exact hpos
      obtain rfl : s.set l (0, l', d) (s.depth l - 1) = s' := by
        simpa [hunlock, hd, Functor.map, Except.map, Except.toOption] using hstep
      exact h.set hfollows hexact
    · cases hstep
  | others l l' =>
    simp only [next] at hstep
    split at hstep
    · rename_i hl'
      obtain rfl := Option.some.inj hstep
      refine ⟨h.exact, fun k => ?_⟩
      by_cases hk : k = l
      · subst hk
        simpa [hl'.1] using hl'.2.follows
      · simpa [hk] using h.follows k
    · cases hstep

/-- In every run in which the thread calls `try_lock` on no spin lock that it holds, and
    takes no lock beyond what an `int` counts, the bookkeeping is right in every state
    reached. -/
theorem bookkeeping_of_careful (cmpxchg : Nat → Nat) (kind : Lid → LockKind) (me : Tid)
    {s : State Tid Lid} (h : (system cmpxchg kind me).ReachableWith (Careful kind) s) :
    Bookkeeping kind me s := by
  apply Inv.bookkeeping
  refine h.invariant ?_ ?_
  · rintro _ rfl
    exact inv_new
  · intro s a s' hinv hcareful hstep
    exact hinv.step hcareful hstep

/-- A spin lock taken twice and a mutex taken by `try_lock` are counted. -/
theorem bookkeeping_of_careful_three :
    ∃ s : State Nat Nat, s.depth 0 = 2 ∧ s.depth 1 = 1 ∧
      Bookkeeping (fun l => if l = 0 then .spinLock else .mutex) 7 s := by
  refine ⟨_, ?_, ?_, bookkeeping_of_careful atomicCmpxchg32 _ 7
    (.step (a := .tryLock 1) (.step (a := .lock 0) (.step (a := .lock 0) (.init rfl) ?_ rfl)
      ?_ rfl) ?_ rfl)⟩ <;> decide

/-- `try_lock` on a spin lock the thread holds is not counted: after one of its two
    releases the lock is still held, and the debugger has no entry left to remove. -/
theorem not_bookkeeping :
    ¬ ∀ s : State Nat Nat, (system atomicCmpxchg32 (fun _ => .spinLock) 7).Reachable s →
      Bookkeeping (fun _ => .spinLock) 7 s := by
  intro h
  have hs := h _ (.step (a := .unlock 0) (.step (a := .tryLock 0)
    (.step (a := .lock 0) (.init rfl) trivial rfl) trivial rfl) trivial rfl)
  obtain ⟨d, hd⟩ := hs.remove 0 (by decide)
  exact nomatch hd

end Oasys.LockDebugger
