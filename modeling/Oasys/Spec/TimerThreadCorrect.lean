import Oasys.Thread.TimerThread
import Oasys.Spec.OnOffNotifierCorrect

/-!
# TimerThread correctness

Nothing in `TimerThread::run` calls `clear`, so the notifier stays active from the first
`signal` on. No signal is missed that way, but every later `wait` returns at once, whether
there was another signal or not, and the loop spins.

In runs where, once `wait` has returned true, another `signal` comes before each further
call of it, `wait` returns true for new signals only and otherwise blocks.
-/

namespace Oasys.TimerThread

open OnOffNotifier (WaitPC WaitInput)

variable {Id : Type}

/-! ### What the loop is to do -/

/-- A signal made since `run_expired_timers` looked at the heap is not missed by the next
    `wait`: if `wait` has yet to be called it is at its return with the result true at once,
    and where it polls, `::poll` cannot time out and returns with something to read. -/
structure NotMissed [DecidableEq Id] (s : State Id) : Prop where
  enter : s.signalled = true → ∀ timeout, s.pc = .wait timeout → ∀ now s',
    next s (.run now) = some s' → s'.fault = none ∧ s'.pc = .waiting (.ret ⟨false, timeout⟩ true)
  noTimeout : s.signalled = true → ∀ args timeout start,
    s.pc = .waiting (.poll args timeout start) → ∀ p s',
      next s (.wait (.poll p)) = some s' → p.cc ≠ 0
  ready : s.signalled = true → ∀ args timeout start,
    s.pc = .waiting (.poll args timeout start) → s.fault = none →
      ∃ p s', next s (.wait (.poll p)) = some s' ∧ s'.pc = .waiting (.relock args 1)

/-- Where `wait` is about to return true, a signal was made since it last did; with no such
    signal a call of it goes on to poll, and there `::poll` finds nothing to read. -/
structure Caused [DecidableEq Id] (s : State Id) : Prop where
  returns : ∀ args, s.pc = .waiting (.ret args true) → s.fresh = true
  blocks : s.fresh = false → ∀ args timeout start, s.pc = .waiting (.poll args timeout start) →
    ∀ p s', next s (.wait (.poll p)) = some s' → p.cc ≤ 0

/-- The call of `wait` comes before the first that returned true, or there was a signal since
    the last that did. -/
def Careful (s : State Id) (a : Action Id) : Prop :=
  ∀ now timeout, a = .run now → s.pc = .wait timeout → s.notified = true → s.fresh = true

/-! ### The invariants -/

/-- What holds in every state of every run. -/
structure Inv (s : State Id) : Prop where
  mirrors : s.notifier.Mirrors
  /-- The flag is never cleared. -/
  signalled : s.signalled = true → s.notifier.active_ = true
  fresh : s.fresh = true → s.notifier.active_ = true
  notified : s.notified = true → s.notifier.active_ = true
  /-- It is the timer thread that waits. -/
  waiter : s.notifier.waiter_ = true → ∃ pc, s.pc = .waiting pc ∧ pc.waiting = true
  pcOk : ∀ pc, s.pc = .waiting pc → pc.Ok s.notifier.active_

/-- What holds besides where the steps are careful. -/
structure InvCareful (s : State Id) : Prop extends Inv s where
  active : s.notifier.active_ = true → s.fresh = true ∨ s.notified = true
  waiting : ∀ pc, s.pc = .waiting pc → s.notifier.active_ = true → s.fresh = true

theorem invCareful_new (timer : Id → Timer) {capacity : Nat} (h : 0 < capacity) (read_fd : Int) :
    InvCareful (.new timer capacity read_fd) where
  mirrors := OnOffNotifier.mirrors_new h read_fd
  signalled := nofun
  fresh := nofun
  notified := nofun
  waiter := nofun
  pcOk := nofun
  active := nofun
  waiting := nofun

variable {s s' : State Id}

theorem Inv.waiter_eq_false (h : Inv s) {timeout : Int}
    (hpc : s.pc = .wait timeout) : s.notifier.waiter_ = false := by
  rw [Bool.eq_false_iff]
  intro hw
  obtain ⟨pc, hwaiting, -⟩ := h.waiter hw
  simp [hpc] at hwaiting

/-! ### Steps -/

/-- What a step does to the notifier and to the place of the timer thread in `wait`. -/
inductive Effect (s : State Id) (a : Action Id) : State Id → Prop
  | fail (e : Fault) : Effect s a (s.fail e)
  /-- A step outside `wait` that makes no call of `signal`. -/
  | quiet {s' : State Id} (notifier : s'.notifier = s.notifier) (fresh : s'.fresh = s.fresh)
      (notified : s'.notified = s.notified) (signalled : s'.signalled = true → s.signalled = true)
      (pc : s'.pc = s.pc ∨ (∀ pc, s.pc ≠ .waiting pc) ∧ ∀ pc, s'.pc ≠ .waiting pc) : Effect s a s'
  | signal {s' : State Id}
      (notifier : s'.notifier = { s.notifier with active_ := true, bytes := 1 })
      (fresh : s'.fresh = true) (notified : s'.notified = s.notified) (pc : s'.pc = s.pc) :
      Effect s a s'
  | enter {now : Timeval} {timeout : Int} {n : OnOffNotifier} {pc : WaitPC} (ha : a = .run now)
      (hpc : s.pc = .wait timeout) (h : s.notifier.waitEnter ⟨false, timeout⟩ = .ok (n, pc)) :
      Effect s a (s.waiting (.ok (n, pc)))
  | step {input : WaitInput} {pc pc' : WaitPC} {n : OnOffNotifier} (hpc : s.pc = .waiting pc)
      (h : s.notifier.waitStep pc input = some (.ok (n, pc'))) :
      Effect s a (s.waiting (.ok (n, pc')))
  | ret {args : OnOffNotifier.WaitArgs} {result : Bool} (hpc : s.pc = .waiting (.ret args result)) :
      Effect s a (s.waited result)

variable {a : Action Id}

private theorem Effect.ofSignal {s₁ : State Id} (h : s.notifier.Mirrors)
    (hnotifier : s₁.notifier = s.notifier) (hnotified : s₁.notified = s.notified)
    (hpc : s₁.pc = s.pc) : Effect s a s₁.signal := by
  rw [State.signal, hnotifier, h.signal]
  exact .signal rfl rfl hnotified hpc

theorem waitEnter_cases {n n' : OnOffNotifier} {args : OnOffNotifier.WaitArgs} {pc : WaitPC}
    (h : n.waitEnter args = .ok (n', pc)) :
    (n.active_ = true ∧ n' = n ∧ pc = .ret args true) ∨
      (n.active_ = false ∧ n' = { n with waiter_ := true } ∧ pc = .unlock args) := by
  simp only [OnOffNotifier.waitEnter] at h
  split at h
  · cases h
  · split at h
    · obtain ⟨rfl, rfl⟩ := Prod.mk.inj (Except.ok.inj h)
      exact .inl ⟨‹_›, rfl, rfl⟩
    · rename_i hactive
      obtain ⟨rfl, rfl⟩ := Prod.mk.inj (Except.ok.inj h)
      exact .inr ⟨by simpa using hactive, rfl, rfl⟩

private theorem InvCareful.effect (h : InvCareful s)
    (hcare : Careful s a) (heffect : Effect s a s') :
    (s'.notifier.active_ = true → s'.fresh = true ∨ s'.notified = true) ∧
      ∀ pc, s'.pc = .waiting pc → s'.notifier.active_ = true → s'.fresh = true := by
  cases heffect with
  | fail e => exact ⟨h.active, h.waiting⟩
  | quiet notifier fresh notified signalled pc =>
    rw [notifier, fresh, notified]
    refine ⟨h.active, fun wpc hwpc => ?_⟩
    rcases pc with pc | ⟨-, hno⟩
    · exact h.waiting wpc (pc.symm.trans hwpc)
    · exact absurd hwpc (hno wpc)
  | signal notifier fresh notified pc => exact ⟨fun _ => .inl fresh, fun _ _ _ => fresh⟩
  | enter ha hpc henter =>
    -- the one step that has to be careful
    have hfresh : s.notifier.active_ = true → s.fresh = true := fun hactive =>
      (h.active hactive).elim id (hcare _ _ ha hpc)
    rcases waitEnter_cases henter with ⟨-, rfl, rfl⟩ | ⟨-, rfl, rfl⟩
    · exact ⟨h.active, fun _ _ => hfresh⟩
    · exact ⟨h.active, fun _ _ => hfresh⟩
  | step hpc hwait =>
    obtain ⟨hn, -⟩ := OnOffNotifier.waitStep_ok h.mirrors (h.pcOk _ hpc) hwait
    have hfresh := h.waiting _ hpc
    rcases hn with ⟨rfl, -⟩ | rfl
    · exact ⟨h.active, fun _ _ => hfresh⟩
    · exact ⟨h.active, fun _ _ => hfresh⟩
  | @ret args result hpc =>
    refine ⟨fun hactive => ?_, nofun⟩
    have hfresh := h.waiting _ hpc hactive
    cases result <;> simp [State.waited, hfresh]

variable [DecidableEq Id]

private theorem Effect.ofRunStep {now : Timeval}
    (h : runStep s now = some s') : Effect s (.run now) s' := by
  cases hpc : s.pc with
  | start =>
    simp only [runStep, hpc] at h
    split at h <;>
    · obtain rfl := Option.some.inj h
      exact .quiet rfl rfl rfl id (.inr ⟨by simp [hpc], nofun⟩)
  | signals i =>
    simp only [runStep, hpc] at h
    split at h
    · split at h <;>
      · obtain rfl := Option.some.inj h
        exact .quiet rfl rfl rfl id (.inr ⟨by simp [hpc], nofun⟩)
    · obtain rfl := Option.some.inj h
      exact .quiet rfl rfl rfl id (.inr ⟨by simp [hpc], nofun⟩)
  | handler i =>
    simp only [runStep, hpc] at h
    obtain rfl := Option.some.inj h
    exact .quiet rfl rfl rfl id (.inr ⟨by simp [hpc], nofun⟩)
  | rounds =>
    simp only [runStep, hpc, round] at h
    obtain rfl := Option.some.inj h
    split
    · exact .quiet rfl rfl rfl nofun (.inl hpc.symm)
    all_goals exact .quiet rfl rfl rfl nofun (.inr ⟨by simp [hpc], nofun⟩)
  | timeout t =>
    simp only [runStep, hpc] at h
    obtain rfl := Option.some.inj h
    exact .quiet rfl rfl rfl id (.inr ⟨by simp [hpc], nofun⟩)
  | wait timeout =>
    simp only [runStep, hpc] at h
    obtain rfl := Option.some.inj h
    cases henter : s.notifier.waitEnter ⟨false, timeout⟩ with
    | error e => exact .fail e
    | ok r => exact .enter rfl hpc henter
  | waiting pc =>
    cases pc with
    | ret args result =>
      simp only [runStep, hpc] at h
      obtain rfl := Option.some.inj h
      exact .ret hpc
    | _ =>
      simp only [runStep, hpc] at h
      exact nomatch h

theorem Effect.ofNext (hs : s.notifier.Mirrors) (h : next s a = some s') : Effect s a s' := by
  simp only [next] at h
  split at h
  · exact nomatch h
  · cases a with
    | run now => exact .ofRunStep h
    | wait input =>
      simp only at h
      split at h
      · rename_i pc hpc
        obtain ⟨r, hr, rfl⟩ := Option.map_eq_some_iff.1 h
        cases r with
        | error e => exact .fail e
        | ok r => exact .step hpc hr
      · exact nomatch h
    | scheduleAt when_ t =>
      simp only [Option.ite_none_right_eq_some] at h
      obtain ⟨-, h⟩ := h
      split at h
      · obtain rfl := Option.some.inj h
        exact .ofSignal hs rfl rfl rfl
      · obtain rfl := Option.some.inj h
        exact .fail _
    | cancel t =>
      simp only [Option.ite_none_right_eq_some, Option.some.injEq] at h
      obtain ⟨-, rfl⟩ := h
      exact .quiet rfl rfl rfl id (.inl rfl)
    | postSignal sig =>
      obtain rfl := Option.some.inj h
      exact .quiet rfl rfl rfl id (.inl rfl)
    | posting i =>
      simp only [postStep] at h
      split at h
      · exact nomatch h
      · obtain rfl := Option.some.inj h
        exact .quiet rfl rfl rfl id (.inl rfl)
      · obtain rfl := Option.some.inj h
        exact .ofSignal hs rfl rfl rfl

theorem Inv.next (h : Inv s) (hstep : TimerThread.next s a = some s') : Inv s' := by
  cases Effect.ofNext h.mirrors hstep with
  | fail e => exact ⟨h.mirrors, h.signalled, h.fresh, h.notified, h.waiter, h.pcOk⟩
  | quiet notifier fresh notified signalled pc =>
    refine ⟨notifier ▸ h.mirrors, fun hs => ?_, fun hf => ?_, fun hn => ?_, fun hw => ?_,
      fun wpc hwpc => ?_⟩
    · rw [notifier]
      exact h.signalled (signalled hs)
    · rw [notifier]
      exact h.fresh (fresh ▸ hf)
    · rw [notifier]
      exact h.notified (notified ▸ hn)
    · rw [notifier] at hw
      obtain ⟨wpc, hwpc, hwaiting⟩ := h.waiter hw
      rcases pc with pc | ⟨hno, -⟩
      · exact ⟨wpc, pc.trans hwpc, hwaiting⟩
      · exact absurd hwpc (hno wpc)
    · rw [notifier]
      rcases pc with pc | ⟨-, hno⟩
      · exact h.pcOk wpc (pc.symm.trans hwpc)
      · exact absurd hwpc (hno wpc)
  | signal notifier fresh notified pc =>
    have hactive : s'.notifier.active_ = true := by rw [notifier]
    refine ⟨⟨?_, ?_⟩, fun _ => hactive, fun _ => hactive, fun _ => hactive, fun hw => ?_,
      fun wpc hwpc => ?_⟩
    · simp [notifier]
    · rw [notifier]
      exact h.mirrors.room
    · rw [notifier] at hw
      obtain ⟨wpc, hwpc, hwaiting⟩ := h.waiter hw
      exact ⟨wpc, pc.trans hwpc, hwaiting⟩
    · exact (h.pcOk wpc (pc.symm.trans hwpc)).mono fun _ => hactive
  | enter ha hpc henter =>
    have hwaiter := h.waiter_eq_false hpc
    rcases waitEnter_cases henter with ⟨hactive, rfl, rfl⟩ | ⟨-, rfl, rfl⟩
    · refine ⟨h.mirrors, h.signalled, h.fresh, h.notified,
        fun hw => absurd (hwaiter.symm.trans hw) (by simp), fun wpc hwpc => ?_⟩
      obtain rfl := PC.waiting.inj hwpc
      exact ⟨fun _ => rfl, fun _ => hactive⟩
    · refine ⟨h.mirrors.setWaiter true, h.signalled, h.fresh, h.notified,
        fun _ => ⟨_, rfl, rfl⟩, fun wpc hwpc => ?_⟩
      obtain rfl := PC.waiting.inj hwpc
      exact trivial
  | step hpc hwait =>
    obtain ⟨hn, -, hok⟩ := OnOffNotifier.waitStep_ok h.mirrors (h.pcOk _ hpc) hwait
    rw [Bool.or_self] at hok
    have hpcOk : ∀ {pc' wpc : WaitPC}, pc'.Ok s.notifier.active_ →
        (PC.waiting pc' : PC Id) = .waiting wpc → wpc.Ok s.notifier.active_ := by
      intro pc' wpc hok hwpc
      obtain rfl := PC.waiting.inj hwpc
      exact hok
    rcases hn with ⟨rfl, hwaiting⟩ | rfl
    · refine ⟨h.mirrors, h.signalled, h.fresh, h.notified, fun hw => ⟨_, rfl, ?_⟩,
        fun wpc => hpcOk hok⟩
      obtain ⟨wpc, hwpc, hwait⟩ := h.waiter hw
      obtain rfl := PC.waiting.inj (hpc.symm.trans hwpc)
      exact hwaiting.trans hwait
    · exact ⟨h.mirrors.setWaiter false, h.signalled, h.fresh, h.notified, nofun,
        fun wpc => hpcOk hok⟩
  | @ret args result hpc =>
    refine ⟨h.mirrors, h.signalled, fun hf => ?_, fun hn => ?_, fun hw => ?_, nofun⟩
    · simp only [State.waited, Bool.and_eq_true] at hf
      exact h.fresh hf.1
    · cases result with
      | false => exact h.notified (by simpa [State.waited] using hn)
      | true => exact (h.pcOk _ hpc).2 rfl
    · obtain ⟨wpc, hwpc, hwaiting⟩ := h.waiter hw
      obtain rfl := PC.waiting.inj (hpc.symm.trans hwpc)
      exact nomatch hwaiting

theorem InvCareful.next (h : InvCareful s) (hcare : Careful s a)
    (hstep : TimerThread.next s a = some s') : InvCareful s' := by
  obtain ⟨hactive, hwaiting⟩ := h.effect hcare (Effect.ofNext h.mirrors hstep)
  exact ⟨h.toInv.next hstep, hactive, hwaiting⟩

/-! ### Waiting -/

theorem Inv.notMissed (h : Inv s) : NotMissed s where
  enter hsignalled timeout hpc now s' hstep := by
    have hactive := h.signalled hsignalled
    have hwaiter := h.waiter_eq_false hpc
    simp only [TimerThread.next, runStep, hpc] at hstep
    split at hstep
    · cases hstep
    · rename_i hfault
      obtain rfl := Option.some.inj hstep
      simpa [OnOffNotifier.waitEnter, hwaiter, hactive, State.waiting] using hfault
  noTimeout hsignalled args timeout start hpc p s' hstep hcc := by
    have hbytes := h.mirrors.active_iff.1 (h.signalled hsignalled)
    simp only [TimerThread.next, hpc, OnOffNotifier.waitStep] at hstep
    split at hstep
    · cases hstep
    · split at hstep
      · rename_i hmay
        have := ((OnOffNotifier.pollSingle_of_mayReturn hmay).2.1 hcc).2
        omega
      · cases hstep
  ready hsignalled args timeout start hpc hfault := by
    have hbytes := h.mirrors.active_iff.1 (h.signalled hsignalled)
    let p : Io.Poll := { cc := 1, errno := .other, now := 0, revents := [Io.POLLIN] }
    have hmay : s.notifier.mayReturn timeout p = true := by
      simp [OnOffNotifier.mayReturn, p, hbytes]
    refine ⟨p, { s with pc := .waiting (.relock args 1) }, ?_, rfl⟩
    have hpoll := (OnOffNotifier.pollSingle_of_mayReturn hmay).1
    simp [TimerThread.next, hpc, hfault, OnOffNotifier.waitStep, hmay, hpoll, State.waiting,
      Io.Poll.interrupted, p]

theorem InvCareful.caused (h : InvCareful s) : Caused s where
  returns args hpc := h.waiting _ hpc ((h.pcOk _ hpc).2 rfl)
  blocks hfresh args timeout start hpc p s' hstep := by
    have hactive : s.notifier.active_ ≠ true := fun hactive => by
      simp [h.waiting _ hpc hactive] at hfresh
    have hbytes : ¬ 0 < s.notifier.bytes := fun hbytes => hactive (h.mirrors.active_iff.2 hbytes)
    simp only [TimerThread.next, hpc, OnOffNotifier.waitStep] at hstep
    split at hstep
    · cases hstep
    · split at hstep
      · rename_i hmay
        have := (OnOffNotifier.pollSingle_of_mayReturn hmay).2.2
        omega
      · cases hstep

/-- The condition is no more than what is needed: the first call of `wait` that does not meet
    it is at its return with the result true at once, for no new signal. -/
theorem InvCareful.not_caused_of_not_careful (h : InvCareful s)
    (hcare : ¬ Careful s a) (hstep : TimerThread.next s a = some s') : ¬ Caused s' := by
  simp only [Careful, not_forall, Bool.not_eq_true] at hcare
  obtain ⟨now, timeout, rfl, hpc, hn, hfresh⟩ := hcare
  have hactive := h.notified hn
  have hwaiter := h.waiter_eq_false hpc
  intro hcaused
  simp only [TimerThread.next, runStep, hpc] at hstep
  split at hstep
  · exact nomatch hstep
  · obtain rfl := Option.some.inj hstep
    have := hcaused.returns ⟨false, timeout⟩ (by
      simp [OnOffNotifier.waitEnter, hwaiter, hactive, State.waiting])
    simp [OnOffNotifier.waitEnter, hwaiter, hactive, State.waiting, hfresh] at this

/-! ### Runs -/

/-- In every interleaving whose steps are careful no signal is missed, and each return of
    `wait` with the result true is for a signal made since the last. -/
theorem caused_of_careful (timer : Id → Timer) {capacity : Nat} (hcapacity : 0 < capacity)
    (read_fd : Int) {s : State Id}
    (hs : (system timer capacity read_fd).ReachableWith Careful s) : NotMissed s ∧ Caused s := by
  have hinv : InvCareful s := by
    apply hs.invariant
    · intro s hs
      rw [show s = .new timer capacity read_fd from hs]
      exact invCareful_new timer hcapacity read_fd
    · intro s a s' h hcare hstep
      exact h.next hcare hstep
  exact ⟨hinv.notMissed, hinv.caused⟩

private def timer : Unit → Timer := fun _ => ⟨⟨0, 0⟩, false, false, .NO_DELETE, 0⟩

/-- Another thread schedules a timer after `run_expired_timers` has looked at the heap, and
    `wait` returns true for it. -/
theorem caused_of_careful_scheduled : ∃ s : State Unit, s.signalled = true ∧
    s.pc = .waiting (.ret ⟨false, -1⟩ true) ∧ NotMissed s ∧ Caused s := by
  have hlooked : (system timer 4096 3).ReachableWith Careful _ :=
    .step (a := .run ⟨0, 0⟩) (.step (a := .run ⟨0, 0⟩) (.init rfl) nofun rfl) nofun rfl
  have hscheduled : (system timer 4096 3).ReachableWith Careful _ :=
    .step (a := .scheduleAt ⟨100, 0⟩ ()) hlooked nofun rfl
  have hwaited : (system timer 4096 3).ReachableWith Careful _ :=
    .step (a := .run ⟨0, 0⟩) hscheduled nofun rfl
  exact ⟨_, rfl, rfl, caused_of_careful timer (by decide) 3 hwaited⟩

/-- Without the condition `wait` returns true for one signal twice: the timer is not due for
    another 100 seconds, and the thread does not block. -/
theorem not_caused : ¬ ∀ (Id : Type) (_ : DecidableEq Id) (timer : Id → Timer) (capacity : Nat)
    (read_fd : Int) (s : State Id), 0 < capacity → (system timer capacity read_fd).Reachable s →
      NotMissed s ∧ Caused s := by
  intro h
  have hlooked : (system timer 4096 3).Reachable _ :=
    .step (a := .run ⟨0, 0⟩) (.step (a := .run ⟨0, 0⟩) (.init rfl) trivial rfl) trivial rfl
  have hscheduled : (system timer 4096 3).Reachable _ :=
    .step (a := .scheduleAt ⟨100, 0⟩ ()) hlooked trivial rfl
  have hwaited : (system timer 4096 3).Reachable _ :=
    .step (a := .run ⟨0, 0⟩) (.step (a := .run ⟨0, 0⟩) hscheduled trivial rfl) trivial rfl
  have hlookedAgain : (system timer 4096 3).Reachable _ :=
    .step (a := .run ⟨0, 0⟩) (.step (a := .run ⟨0, 0⟩) hwaited trivial rfl) trivial rfl
  have hreturns : (system timer 4096 3).Reachable _ :=
    .step (a := .run ⟨0, 0⟩) hlookedAgain trivial rfl
  have hfresh := (h Unit inferInstance timer 4096 3 _ (by decide) hreturns).2.returns
    ⟨false, 100000⟩ rfl
  exact absurd hfresh (by decide)

end Oasys.TimerThread
