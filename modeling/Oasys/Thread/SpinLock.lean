import Oasys.Debug.DebugUtils
import Oasys.ForStd.Transition
import Mathlib.Logic.Function.Basic

/-!
# SpinLock

`lock`, `try_lock` and `unlock` of `thread/SpinLock.cc` as the steps of any number of
threads. One step is one atomic operation, or one read or one write of `lock_count_` or
`lock_holder_`; a thread between two such operations stands at the program counter of
the one it makes next. `lock_holder_name_` and the spin statistics, which only messages
read, are left out.

`atomic_cmpxchg32` returns the value held before the swap.
-/

namespace Oasys.SpinLock

/-- The functions of the lock. -/
inductive Call where
  | lock | tryLock | unlock
  deriving DecidableEq, Repr

/-- Where a thread is in the code of the lock. -/
inductive PC where
  /-- Outside. -/
  | idle
  /-- `is_locked_by_me`, called by `c`: the read of `lock_count_`. -/
  | readCount (c : Call)
  /-- `is_locked_by_me`, called by `c`: the read of `lock_holder_`. -/
  | readHolder (c : Call)
  /-- `lock_count_.value++`: the read. -/
  | incRead (c : Call)
  /-- `lock_count_.value++`: the write, of one more than `v`. -/
  | incWrite (c : Call) (v : Nat)
  /-- `lock`: `atomic_incr(&lock_waiters_)`. -/
  | incWaiters
  /-- `lock`: the `atomic_cmpxchg32` of the spin loop. -/
  | cmpxchg
  /-- `lock`: `atomic_decr(&lock_waiters_)`. -/
  | decWaiters
  /-- `lock`: `ASSERT(lock_count_.value == 1)`. -/
  | assertCount
  /-- `try_lock`: its `atomic_cmpxchg32`. -/
  | tryCmpxchg
  /-- `try_lock`: `ASSERT(lock_holder_ == 0)`. -/
  | assertHolder
  /-- `lock_holder_ = Thread::current()`. -/
  | setHolder (c : Call)
  /-- `unlock`: the test `lock_count_.value > 1`. -/
  | testCount
  /-- `lock_count_.value--`: the read. -/
  | decRead
  /-- `lock_count_.value--`: the write, of one less than `v`. -/
  | decWrite (v : Nat)
  /-- `unlock`: `lock_holder_ = 0`. -/
  | clearHolder
  /-- `unlock`: `lock_count_.value = 0`. -/
  | clearCount
  /-- `unlock`: the test `lock_waiters_.value != 0`. -/
  | testWaiters
  /-- At the return of `c`, with this result. -/
  | ret (c : Call) (result : Nat)
  deriving DecidableEq, Repr

/-- What a thread does next: it calls a function of the lock, or goes on in the one it
    is in. -/
inductive Action where
  | call (c : Call)
  | run
  deriving DecidableEq, Repr

variable (Tid : Type) [DecidableEq Tid]

/-- The lock and its threads. -/
structure State where
  lock_count_ : Nat
  /-- The thread id of the holder, `none` standing for 0. -/
  lock_holder_ : Option Tid
  lock_waiters_ : Nat
  pc : Tid → PC
  /-- How often each thread has acquired the lock and not yet released it. An
      acquisition counts from the step that decides that the call returns 0, a release
      from the step that writes it to `lock_count_`. -/
  depth : Tid → Nat
  /-- Set when an assertion has failed, which ends the process. -/
  fault : Option Fault

/-- The lock as constructed, with every thread outside. -/
def State.new : State Tid where
  lock_count_ := 0
  lock_holder_ := none
  lock_waiters_ := 0
  pc := fun _ => .idle
  depth := fun _ => 0
  fault := none

variable {Tid}

/-- Thread `t` goes on at `p`. -/
def State.goto (s : State Tid) (t : Tid) (p : PC) : State Tid :=
  { s with pc := Function.update s.pc t p }

/-- Thread `t` is now `n` acquisitions deep. -/
def State.setDepth (s : State Tid) (t : Tid) (n : Nat) : State Tid :=
  { s with depth := Function.update s.depth t n }

section Fields

variable (s : State Tid) (t : Tid) (p : PC) (n : Nat)

@[simp] theorem State.goto_lock_count_ : (s.goto t p).lock_count_ = s.lock_count_ := rfl

@[simp] theorem State.goto_lock_holder_ : (s.goto t p).lock_holder_ = s.lock_holder_ := rfl

@[simp] theorem State.goto_depth : (s.goto t p).depth = s.depth := rfl

@[simp] theorem State.goto_fault : (s.goto t p).fault = s.fault := rfl

@[simp] theorem State.goto_pc_self : (s.goto t p).pc t = p := Function.update_self ..

@[simp] theorem State.goto_pc_of_ne {u : Tid} (hu : u ≠ t) : (s.goto t p).pc u = s.pc u :=
  Function.update_of_ne hu ..

@[simp] theorem State.setDepth_lock_count_ :
    (s.setDepth t n).lock_count_ = s.lock_count_ := rfl

@[simp] theorem State.setDepth_lock_holder_ :
    (s.setDepth t n).lock_holder_ = s.lock_holder_ := rfl

@[simp] theorem State.setDepth_pc : (s.setDepth t n).pc = s.pc := rfl

@[simp] theorem State.setDepth_fault : (s.setDepth t n).fault = s.fault := rfl

@[simp] theorem State.setDepth_depth_self : (s.setDepth t n).depth t = n :=
  Function.update_self ..

@[simp] theorem State.setDepth_depth_of_ne {u : Tid} (hu : u ≠ t) :
    (s.setDepth t n).depth u = s.depth u :=
  Function.update_of_ne hu ..

end Fields

/-- `lock_count_` is a `u_int32_t`. -/
def countSize : Nat := 2 ^ 32

/-- Where a call goes once `is_locked_by_me` has answered. -/
def afterIsLockedByMe (s : State Tid) (t : Tid) : Call → Bool → State Tid
  | .lock, true => s.goto t (.incRead .lock)
  | .lock, false => s.goto t .incWaiters
  | .tryLock, true => s.goto t (.incRead .tryLock)
  | .tryLock, false => s.goto t .tryCmpxchg
  | .unlock, true => s.goto t .testCount
  | .unlock, false => { s with fault := some .assertFailed }

/-- One step of thread `t` inside the code of the lock. -/
def exec (s : State Tid) (t : Tid) : PC → Option (State Tid)
  | .idle => none
  | .readCount c =>
    some (if s.lock_count_ ≠ 0 then s.goto t (.readHolder c) else afterIsLockedByMe s t c false)
  | .readHolder c => some (afterIsLockedByMe s t c (s.lock_holder_ = some t))
  | .incRead c => some (s.goto t (.incWrite c s.lock_count_))
  | .incWrite c v =>
    some (({ s with lock_count_ := (v + 1) % countSize }.setDepth t (s.depth t + 1)).goto t
      (.ret c 0))
  | .incWaiters => some ({ s with lock_waiters_ := s.lock_waiters_ + 1 }.goto t .cmpxchg)
  | .cmpxchg =>
    some (if s.lock_count_ = 0 then
        ({ s with lock_count_ := 1 }.setDepth t (s.depth t + 1)).goto t .decWaiters
      else s.goto t .cmpxchg)
  | .decWaiters => some ({ s with lock_waiters_ := s.lock_waiters_ - 1 }.goto t .assertCount)
  | .assertCount =>
    some (if s.lock_count_ = 1 then s.goto t (.setHolder .lock)
      else { s with fault := some .assertFailed })
  | .tryCmpxchg =>
    -- `got_lock` is the value before the swap, and non-zero counts as success
    some (if s.lock_count_ = 0 then { s with lock_count_ := 1 }.goto t (.ret .tryLock 1)
      else (s.setDepth t (s.depth t + 1)).goto t .assertHolder)
  | .assertHolder =>
    some (if s.lock_holder_ = none then s.goto t (.setHolder .tryLock)
      else { s with fault := some .assertFailed })
  | .setHolder c => some ({ s with lock_holder_ := some t }.goto t (.ret c 0))
  | .testCount => some (s.goto t (if 1 < s.lock_count_ then .decRead else .clearHolder))
  | .decRead => some (s.goto t (.decWrite s.lock_count_))
  | .decWrite v =>
    some (({ s with lock_count_ := v - 1 }.setDepth t (s.depth t - 1)).goto t (.ret .unlock 0))
  | .clearHolder => some ({ s with lock_holder_ := none }.goto t .clearCount)
  | .clearCount =>
    some (({ s with lock_count_ := 0 }.setDepth t (s.depth t - 1)).goto t .testWaiters)
  | .testWaiters => some (s.goto t (.ret .unlock 0))
  | .ret _ _ => some (s.goto t .idle)

/-- One step of thread `t`. A thread unlocks only as often as it has acquired the lock;
    after a failed assertion no thread takes a step. -/
def next (s : State Tid) (t : Tid) (a : Action) : Option (State Tid) :=
  if s.fault ≠ none then none
  else
    match a with
    | .call c =>
      if s.pc t = .idle ∧ (c = .unlock → 0 < s.depth t) then some (s.goto t (.readCount c))
      else none
    | .run => exec s t (s.pc t)

variable (Tid) in
/-- The lock with its threads, in every interleaving of their steps. -/
def system : TransitionSystem (State Tid) (Tid × Action) where
  init s := s = .new Tid
  step s a s' := next s a.1 a.2 = some s'

end Oasys.SpinLock
