import Oasys.Thread.SpinLock

/-!
# SpinLock correctness

`try_lock` takes the value `atomic_cmpxchg32` returns for a success flag, while `lock`
compares it with 0. On a free lock it therefore sets `lock_count_` and reports failure,
and on a lock another thread holds it goes on as if it had it.

In runs that keep away from that branch (a thread calls `try_lock` only on a lock it
already holds) and from the wrap-around of `lock_count_`, the lock excludes. `Inv` is the
invariant that carries the proof: `lock_count_` and `lock_holder_` follow the depth of
the one thread that holds the lock, and the program counter of each thread says how much
of its acquisition or release it has already written.
-/

namespace Oasys.SpinLock

variable {Tid : Type}

/-! ### What the lock promises -/

/-- At most one thread has acquired the lock, and `lock_count_` is how deep it is. -/
structure Excludes (s : State Tid) : Prop where
  exclusive : ∀ t u, 0 < s.depth t → 0 < s.depth u → t = u
  count : ∀ t, 0 < s.depth t → s.lock_count_ = s.depth t
  free : (∀ t, s.depth t = 0) → s.lock_count_ = 0

/-- Where thread `t` arrives at the return of `try_lock`, the result is 0 exactly when
    it holds the lock, and 1 exactly when another thread does. -/
def TryLockAnswers (t : Tid) (s : State Tid) : Prop :=
  ∀ result, s.pc t = .ret .tryLock result →
    (result = 0 ↔ 0 < s.depth t) ∧ (result = 1 ↔ ∃ u, u ≠ t ∧ 0 < s.depth u)

/-- A step that keeps clear of the two places where the lock goes wrong: `try_lock` is
    called by a thread that holds the lock, and `lock_count_` does not wrap around. -/
def Careful (s : State Tid) (l : Tid × Action) : Prop :=
  (l.2 = .call .tryLock → 0 < s.depth l.1) ∧
    ∀ c v, s.pc l.1 = .incWrite c v → s.lock_count_ + 1 < countSize

/-! ### The invariant -/

/-- At `p` a thread that holds the lock is the one `lock_holder_` names: it has written
    the field after its acquisition and not yet cleared it before its release. -/
def PC.named : PC → Bool
  | .decWaiters | .assertCount | .setHolder _ | .clearCount => false
  | _ => true

/-- What a thread that stands at a program counter knows of its own depth `d`. -/
def PC.Ok (d : Nat) : PC → Prop
  | .idle | .testWaiters => True
  | .readCount c | .readHolder c => c ≠ .lock → 0 < d
  | .incRead _ | .testCount => 0 < d
  | .incWrite _ v => v = d ∧ 0 < d
  | .incWaiters | .cmpxchg => d = 0
  | .decWaiters | .assertCount | .clearHolder | .clearCount => d = 1
  | .setHolder c => c = .lock ∧ d = 1
  | .tryCmpxchg | .assertHolder => False
  | .decRead => 1 < d
  | .decWrite v => v = d ∧ 1 < d
  | .ret c result => c = .tryLock → result = 0 ∧ 0 < d

/-- What holds of the lock and its threads between any two steps of a careful run. -/
structure Inv (s : State Tid) : Prop extends Excludes s where
  running : s.fault = none
  holder : ∀ t, s.lock_holder_ = some t ↔ 0 < s.depth t ∧ (s.pc t).named
  pcOk : ∀ t, (s.pc t).Ok (s.depth t)

theorem inv_new : Inv (.new Tid) where
  exclusive t u h := absurd h (Nat.lt_irrefl 0)
  count t h := absurd h (Nat.lt_irrefl 0)
  free _ := rfl
  running := rfl
  holder t := by simp [State.new]
  pcOk t := trivial

/-- In a state of a careful run every thread at the return of `try_lock` returns 0 and
    holds the lock. -/
theorem Inv.tryLockAnswers {s : State Tid} (h : Inv s) (t : Tid) : TryLockAnswers t s := by
  intro result hpc
  have hok := h.pcOk t
  rw [hpc] at hok
  obtain ⟨rfl, hd⟩ := hok rfl
  refine ⟨by simpa using hd, ?_⟩
  have : ¬ ∃ u, u ≠ t ∧ 0 < s.depth u := by
    rintro ⟨u, hu, hdu⟩
    exact hu (h.exclusive u t hdu hd)
  simpa using this

/-! ### Steps -/

section Steps

variable {s : State Tid} {t : Tid}

private theorem Excludes.depth_other (h : Excludes s) (ht : 0 < s.depth t) {u : Tid}
    (hu : u ≠ t) : s.depth u = 0 := by
  by_contra hne
  exact hu (h.exclusive u t (by omega) ht)

private theorem Excludes.depth_eq_zero (h : Excludes s) (hc : s.lock_count_ = 0) (u : Tid) :
    s.depth u = 0 := by
  by_contra hne
  have := h.count u (by omega)
  omega

variable [DecidableEq Tid]

private theorem pcOk_goto {p : PC} (ht : p.Ok (s.depth t))
    (hothers : ∀ u, u ≠ t → (s.pc u).Ok (s.depth u)) (u : Tid) :
    ((s.goto t p).pc u).Ok ((s.goto t p).depth u) := by
  by_cases hu : u = t
  · subst hu
    simpa using ht
  · simpa [hu] using hothers u hu

private theorem Inv.goto {p : PC} (h : Inv s)
    (hn : 0 < s.depth t → p.named = (s.pc t).named) (hp : p.Ok (s.depth t)) :
    Inv (s.goto t p) where
  exclusive := h.exclusive
  count := h.count
  free := h.free
  running := h.running
  holder u := by
    rw [s.goto_lock_holder_, s.goto_depth, h.holder u]
    by_cases hu : u = t
    · subst hu
      rw [s.goto_pc_self]
      exact and_congr_right fun hd => by rw [hn hd]
    · rw [s.goto_pc_of_ne _ _ hu]
  pcOk := pcOk_goto hp fun u _ => h.pcOk u

private theorem Excludes.setDepth {d : Nat} {p : PC} (hother : ∀ u, u ≠ t → s.depth u = 0) :
    Excludes (({ s with lock_count_ := d }.setDepth t d).goto t p) where
  exclusive := by
    have honly : ∀ w, 0 < (State.setDepth { s with lock_count_ := d } t d).depth w → w = t :=
      fun w hw => by
        by_contra hne
        simp [hne, hother w hne] at hw
    intro u v hu hv
    rw [honly u hu, honly v hv]
  count u hu := by
    by_cases hut : u = t
    · simp [hut]
    · simp [hut, hother u hut] at hu
  free hall := by simpa using hall t

private theorem Inv.setDepth {d : Nat} {p : PC} (h : Inv s) (ht : 0 < s.depth t) (hd : 0 < d)
    (hn : p.named = (s.pc t).named) (hp : p.Ok d) :
    Inv (({ s with lock_count_ := d }.setDepth t d).goto t p) where
  toExcludes := Excludes.setDepth fun u hu => h.depth_other ht hu
  running := h.running
  holder u := by
    simp only [State.goto_lock_holder_, State.setDepth_lock_holder_, h.holder u]
    by_cases hu : u = t
    · subst hu
      simp [hn, ht, hd]
    · simp [hu]
  pcOk := pcOk_goto (by simpa using hp) fun u hu => by simpa [hu] using h.pcOk u

private theorem Inv.acquire (h : Inv s) (hc : s.lock_count_ = 0) :
    Inv (({ s with lock_count_ := 1 }.setDepth t (s.depth t + 1)).goto t .decWaiters) := by
  have hfree := h.depth_eq_zero hc
  rw [hfree t]
  exact
  { toExcludes := Excludes.setDepth fun u _ => hfree u
    running := h.running
    holder := fun u => by
      simp only [State.goto_lock_holder_, State.setDepth_lock_holder_, h.holder u]
      by_cases hu : u = t
      · subst hu
        simp [hfree u, PC.named]
      · simp [hu]
    pcOk := pcOk_goto (by simp [PC.Ok]) fun u hu => by simpa [hu] using h.pcOk u }

private theorem Inv.clearCount (h : Inv s) (hpc : s.pc t = .clearCount) :
    Inv (({ s with lock_count_ := 0 }.setDepth t (s.depth t - 1)).goto t .testWaiters) := by
  have hd : s.depth t = 1 := by
    have := h.pcOk t
    rwa [hpc] at this
  have hother : ∀ u, u ≠ t → s.depth u = 0 := fun u hu => h.depth_other (by omega) hu
  -- nobody else holds the lock, and `t` has already cleared its name
  have hnone : ∀ u, s.lock_holder_ ≠ some u := fun u hu => by
    obtain ⟨hdu, hnu⟩ := (h.holder u).1 hu
    rw [h.exclusive u t hdu (by omega), hpc] at hnu
    exact absurd hnu (by decide)
  rw [hd]
  exact
  { toExcludes := Excludes.setDepth hother
    running := h.running
    holder := fun u => by
      by_cases hu : u = t
      · subst hu
        simp [hnone]
      · simp [hu, hnone, hother u hu]
    pcOk := pcOk_goto (by simp [PC.Ok]) fun u hu => by simpa [hu] using h.pcOk u }

private theorem Inv.setHolder (h : Inv s) (hpc : s.pc t = .setHolder .lock) :
    Inv ({ s with lock_holder_ := some t }.goto t (.ret .lock 0)) := by
  have hd : s.depth t = 1 := by
    have := h.pcOk t
    rw [hpc] at this
    exact this.2
  exact
  { exclusive := h.exclusive
    count := h.count
    free := h.free
    running := h.running
    holder := fun u => by
      by_cases hu : u = t
      · subst hu
        simp [PC.named, hd]
      · simp [hu, Ne.symm hu, h.depth_other (t := t) (by omega) hu]
    pcOk := pcOk_goto (by simp [PC.Ok]) fun u hu => by simpa [hu] using h.pcOk u }

private theorem Inv.clearHolder (h : Inv s) (hpc : s.pc t = .clearHolder) :
    Inv ({ s with lock_holder_ := none }.goto t .clearCount) := by
  have hd : s.depth t = 1 := by
    have := h.pcOk t
    rwa [hpc] at this
  exact
  { exclusive := h.exclusive
    count := h.count
    free := h.free
    running := h.running
    holder := fun u => by
      by_cases hu : u = t
      · subst hu
        simp [PC.named]
      · simp [hu, h.depth_other (t := t) (by omega) hu]
    pcOk := pcOk_goto hd fun u _ => h.pcOk u }

private theorem Inv.afterIsLockedByMe {c : Call} {answer : Bool} (h : Inv s)
    (hpc : s.pc t = .readCount c ∨ s.pc t = .readHolder c)
    (hanswer : answer = true ↔ 0 < s.depth t) : Inv (afterIsLockedByMe s t c answer) := by
  have hok : c ≠ .lock → 0 < s.depth t := by
    have := h.pcOk t
    rcases hpc with hpc | hpc <;> rwa [hpc] at this
  have hnamed : (s.pc t).named = true := by rcases hpc with hpc | hpc <;> rw [hpc] <;> rfl
  cases answer with
  | true =>
    have hd := hanswer.1 rfl
    cases c <;> exact h.goto (fun _ => hnamed.symm) hd
  | false =>
    have hd : s.depth t = 0 := by
      by_contra hne
      exact absurd (hanswer.2 (by omega)) (by decide)
    have hlock : c = .lock := by
      by_contra hne
      have := hok hne
      omega
    subst hlock
    exact h.goto (fun _ => hnamed.symm) hd

private theorem Inv.exec {s' : State Tid} (h : Inv s)
    (hcare : ∀ c v, s.pc t = .incWrite c v → s.lock_count_ + 1 < countSize)
    (hstep : exec s t (s.pc t) = some s') : Inv s' := by
  have hok := h.pcOk t
  generalize hp : s.pc t = p at hok hstep
  -- most steps write the program counter only, and what `t` knows of its depth says where it goes
  cases p with
  | idle => exact absurd hstep (by simp [SpinLock.exec])
  | readCount c =>
    obtain rfl := Option.some.inj hstep
    split
    · exact h.goto (fun _ => by rw [hp]; rfl) hok
    · rename_i hc
      have hd := h.depth_eq_zero (by omega) t
      exact h.afterIsLockedByMe (.inl hp) (by simp [hd])
  | readHolder c =>
    obtain rfl := Option.some.inj hstep
    refine h.afterIsLockedByMe (.inr hp) ?_
    rw [decide_eq_true_iff, h.holder t, hp]
    simp [PC.named]
  | incRead c =>
    obtain rfl := Option.some.inj hstep
    exact h.goto (fun _ => by rw [hp]; rfl) ⟨h.count t hok, hok⟩
  | incWrite c v =>
    obtain rfl := Option.some.inj hstep
    have hcount := h.count t hok.2
    have hv : v = s.depth t := hok.1
    have hwrap : (v + 1) % countSize = s.depth t + 1 := by
      rw [hv, ← hcount]
      exact Nat.mod_eq_of_lt (hcare c v hp)
    rw [hwrap]
    exact h.setDepth hok.2 (by omega) (by rw [hp]; rfl) (fun _ => ⟨rfl, by omega⟩)
  | incWaiters =>
    obtain rfl := Option.some.inj hstep
    exact Inv.goto (s := { s with lock_waiters_ := s.lock_waiters_ + 1 })
      ⟨⟨h.exclusive, h.count, h.free⟩, h.running, h.holder, h.pcOk⟩
      (fun _ => by rw [hp]; rfl) hok
  | cmpxchg =>
    obtain rfl := Option.some.inj hstep
    split
    · exact h.acquire ‹_›
    · exact h.goto (fun _ => by rw [hp]) hok
  | decWaiters =>
    obtain rfl := Option.some.inj hstep
    exact Inv.goto (s := { s with lock_waiters_ := s.lock_waiters_ - 1 })
      ⟨⟨h.exclusive, h.count, h.free⟩, h.running, h.holder, h.pcOk⟩
      (fun _ => by rw [hp]; rfl) hok
  | assertCount =>
    have hd : s.depth t = 1 := hok
    have hcount := h.count t (by omega)
    simp only [SpinLock.exec, hcount, hd, if_true, Option.some.injEq] at hstep
    subst hstep
    exact h.goto (fun _ => by rw [hp]; rfl) ⟨rfl, hd⟩
  | tryCmpxchg => exact hok.elim
  | assertHolder => exact hok.elim
  | setHolder c =>
    obtain rfl := Option.some.inj hstep
    obtain rfl : c = .lock := hok.1
    exact h.setHolder hp
  | testCount =>
    obtain rfl := Option.some.inj hstep
    have hcount := h.count t hok
    have hd : 0 < s.depth t := hok
    split
    · exact h.goto (fun _ => by rw [hp]; rfl) (show 1 < s.depth t by omega)
    · exact h.goto (fun _ => by rw [hp]; rfl) (show s.depth t = 1 by omega)
  | decRead =>
    obtain rfl := Option.some.inj hstep
    have hd : 1 < s.depth t := hok
    exact h.goto (fun _ => by rw [hp]; rfl) ⟨h.count t (by omega), hd⟩
  | decWrite v =>
    obtain rfl := Option.some.inj hstep
    have hd : 1 < s.depth t := hok.2
    obtain rfl : v = s.depth t := hok.1
    exact h.setDepth (by omega) (by omega) (by rw [hp]; rfl) (fun hc => nomatch hc)
  | clearHolder =>
    obtain rfl := Option.some.inj hstep
    exact h.clearHolder hp
  | clearCount =>
    obtain rfl := Option.some.inj hstep
    exact h.clearCount hp
  | testWaiters =>
    obtain rfl := Option.some.inj hstep
    exact h.goto (fun _ => by rw [hp]; rfl) (fun hc => nomatch hc)
  | ret c result =>
    obtain rfl := Option.some.inj hstep
    exact h.goto (fun _ => by rw [hp]; rfl) trivial

theorem Inv.next {s' : State Tid} {a : Action} (h : Inv s) (hcare : Careful s (t, a))
    (hstep : next s t a = some s') : Inv s' := by
  unfold SpinLock.next at hstep
  rw [if_neg (by simp [h.running])] at hstep
  cases a with
  | call c =>
    simp only [Option.ite_none_right_eq_some, Option.some.injEq] at hstep
    obtain ⟨⟨hidle, hunlock⟩, rfl⟩ := hstep
    refine h.goto (fun _ => by rw [hidle]; rfl) fun hc => ?_
    cases c with
    | lock => exact absurd rfl hc
    | tryLock => exact hcare.1 rfl
    | unlock => exact hunlock rfl
  | run => exact h.exec hcare.2 hstep

end Steps

/-! ### Mutual exclusion -/

/-- In every interleaving whose steps are careful, at most one thread is between an
    acquisition and its release, `lock_count_` is its depth, and `try_lock` answers right. -/
theorem excludes_of_careful [DecidableEq Tid] {s : State Tid}
    (hs : (system Tid).ReachableWith Careful s) :
    Excludes s ∧ ∀ t a s', Careful s (t, a) → next s t a = some s' → TryLockAnswers t s' := by
  have hinv : Inv s := by
    apply hs.invariant
    · intro s hs
      rw [show s = .new Tid from hs]
      exact inv_new
    · intro s l s' h hcare hstep
      exact h.next hcare hstep
  exact ⟨hinv.toExcludes, fun t a s' hcare hstep => (hinv.next hcare hstep).tryLockAnswers t⟩

/-- One of two threads has the lock: its swap has just succeeded. -/
theorem excludes_of_careful_lock : ∃ s : State Bool, s.depth true = 1 ∧ Excludes s ∧
    ∀ t a s', Careful s (t, a) → next s t a = some s' → TryLockAnswers t s' := by
  have hcalled : (system Bool).ReachableWith Careful _ :=
    .step (a := (true, .call .lock)) (.init rfl) ⟨nofun, fun _ _ h => nomatch h⟩ rfl
  have hread : (system Bool).ReachableWith Careful _ :=
    .step (a := (true, .run)) hcalled ⟨nofun, fun _ _ h => nomatch h⟩ rfl
  have hwaiting : (system Bool).ReachableWith Careful _ :=
    .step (a := (true, .run)) hread ⟨nofun, fun _ _ h => nomatch h⟩ rfl
  have hswapped : (system Bool).ReachableWith Careful _ :=
    .step (a := (true, .run)) hwaiting ⟨nofun, fun _ _ h => nomatch h⟩ rfl
  exact ⟨_, rfl, excludes_of_careful hswapped⟩

/-- Without the condition it does not: a thread that calls `try_lock` on a lock nobody
    holds is told that another thread holds it. -/
theorem tryLock_free : ¬ ∀ (Tid : Type) (_ : DecidableEq Tid) (s : State Tid),
    (system Tid).Reachable s →
      Excludes s ∧ ∀ t a s', next s t a = some s' → TryLockAnswers t s' := by
  intro h
  -- the thread has read `lock_count_` and is about to swap
  let s := ((State.new Unit).goto () (.readCount .tryLock)).goto () .tryCmpxchg
  have hs : (system Unit).Reachable s :=
    .step (a := ((), .run)) (.step (a := ((), .call .tryLock)) (.init rfl) trivial rfl)
      trivial rfl
  have hanswer := (h Unit inferInstance s hs).2 () .run _ rfl 1 rfl
  obtain ⟨u, hu, -⟩ := hanswer.2.1 rfl
  exact hu rfl

end Oasys.SpinLock
