import Oasys.Thread.SpinLock

/-!
# LockDebugger

The list of held locks of `thread/LockDebugger.cc`, and the calls of `thread/SpinLock.cc`
and `thread/Mutex.cc` that keep it. A call is one step of the thread the list belongs to;
between its calls other threads do what they like with the locks it does not hold.

`lock_holder_name_`, the log messages and `lock_waiters_`, which only decides whether
`unlock` yields, are left out.
-/

namespace Oasys

/-- A recursive `pthread_mutex_t`: the thread that holds it, and how often. -/
structure PthreadMutex (Tid : Type) where
  owner : Option Tid
  count : Nat
  deriving DecidableEq, Repr

/-- The classes of lock that the debugger knows. -/
inductive LockKind where
  | spinLock | mutex
  deriving DecidableEq, Repr

/-- `Lock`, with the field that `Mutex` adds. -/
structure Lock (Tid : Type) where
  lock_count_ : Nat
  /-- The thread id of the holder, `none` standing for 0. -/
  lock_holder_ : Option Tid
  mutex_ : PthreadMutex Tid
  deriving DecidableEq, Repr

namespace Lock

variable {Tid : Type}

/-- A lock as constructed. -/
def new : Lock Tid := ⟨0, none, ⟨none, 0⟩⟩

variable [DecidableEq Tid]

def isLocked (l : Lock Tid) : Bool := l.lock_count_ ≠ 0

/-- `is_locked_by_me`, called by thread `me`. -/
def isLockedByMe (me : Tid) (l : Lock Tid) : Bool := l.isLocked && l.lock_holder_ = some me

end Lock

namespace LockDebugger

/-! ### The held locks -/

structure Ent (Lid : Type) where
  lock_ : Lid
  count_ : Int
  deriving DecidableEq, Repr

/-- `locks_held_`. -/
abbrev LockVector (Lid : Type) := List (Ent Lid)

/-- The largest `int`. -/
def intMax : Int := 2 ^ 31 - 1

section Held

variable {Lid : Type} [DecidableEq Lid]

def addLock (locks_held_ : LockVector Lid) (lock : Lid) : Except Fault (LockVector Lid) :=
  match locks_held_ with
  | [] => pure [⟨lock, 1⟩]
  | i :: rest =>
    if i.lock_ = lock then
      if i.count_ = intMax then throw .overflow
      else pure ({ i with count_ := i.count_ + 1 } :: rest)
    else (i :: ·) <$> addLock rest lock

def removeLock (locks_held_ : LockVector Lid) (lock : Lid) :
    Except Fault (LockVector Lid) :=
  match locks_held_ with
  | [] => throw .assertFailed
  | i :: rest =>
    if i.lock_ = lock then do
      assert (0 ≤ i.count_ - 1)
      pure (if i.count_ - 1 = 0 then rest else { i with count_ := i.count_ - 1 } :: rest)
    else (i :: ·) <$> removeLock rest lock

variable {Tid : Type} [DecidableEq Tid]

/-- The loop of `check_n` over its arguments. -/
def checkEach (me : Tid) (locks : Lid → Lock Tid) (locks_held_ : LockVector Lid) :
    List Lid → Except Fault Bool
  | [] => pure true
  | l :: ls =>
    if !(locks l).isLockedByMe me then pure false
    else
      match locks_held_.find? (·.lock_ = l) with
      | none => pure false
      | some itr => do
        assert (0 < itr.count_)
        checkEach me locks locks_held_ ls

/-- `check_n`, and with it `check` of any number of locks. -/
def checkN (me : Tid) (locks : Lid → Lock Tid) (locks_held_ : LockVector Lid)
    (ls : List Lid) : Except Fault Bool := do
  if !(← checkEach me locks locks_held_ ls) then return false
  return locks_held_.length = ls.length

/-- `check_class`, where `lock_class` is the class each lock was constructed with. -/
def checkClass (lock_class : Lid → String) (locks_held_ : LockVector Lid) (c : String) : Bool :=
  locks_held_.any fun i => lock_class i.lock_ = c

/-! ### SpinLock -/

/-- What a call leaves: its result, the lock and the held locks. -/
abbrev Returned (Tid Lid : Type) := Nat × Lock Tid × LockVector Lid

/-- `SpinLock::lock`, from where its loop ends: the lock is free, or held by `me`. -/
def SpinLock.lock (me : Tid) (self : Lid) (l : Lock Tid) (locks_held_ : LockVector Lid) :
    Except Fault (Returned Tid Lid) := do
  if l.isLockedByMe me then
    let locks_held_ ← addLock locks_held_ self
    return (0, { l with lock_count_ := (l.lock_count_ + 1) % SpinLock.countSize }, locks_held_)
  let l := { l with lock_count_ := if l.lock_count_ = 0 then 1 else l.lock_count_ }
  assert (l.lock_count_ = 1)
  let locks_held_ ← addLock locks_held_ self
  return (0, { l with lock_holder_ := some me }, locks_held_)

def SpinLock.unlock (me : Tid) (self : Lid) (l : Lock Tid) (locks_held_ : LockVector Lid) :
    Except Fault (Returned Tid Lid) := do
  assert (l.isLockedByMe me)
  if 1 < l.lock_count_ then
    let locks_held_ ← removeLock locks_held_ self
    return (0, { l with lock_count_ := l.lock_count_ - 1 }, locks_held_)
  let locks_held_ ← removeLock locks_held_ self
  return (0, { l with lock_holder_ := none, lock_count_ := 0 }, locks_held_)

/-- `SpinLock::try_lock`. `cmpxchg v` is what `atomic_cmpxchg32` returns where it finds
    `v` in `lock_count_`. -/
def SpinLock.tryLock (cmpxchg : Nat → Nat) (me : Tid) (self : Lid) (l : Lock Tid)
    (locks_held_ : LockVector Lid) : Except Fault (Returned Tid Lid) := do
  if l.isLockedByMe me then
    -- unlike `lock`, this path does not tell the debugger
    return (0, { l with lock_count_ := (l.lock_count_ + 1) % SpinLock.countSize }, locks_held_)
  let got_lock := cmpxchg l.lock_count_
  let l := { l with lock_count_ := if l.lock_count_ = 0 then 1 else l.lock_count_ }
  if got_lock ≠ 0 then
    assert (l.lock_holder_ = none)
    let locks_held_ ← addLock locks_held_ self
    return (0, { l with lock_holder_ := some me }, locks_held_)
  else return (1, l, locks_held_)

/-- `atomic_cmpxchg32` returns the value it finds, swapped or not. -/
def atomicCmpxchg32 (v : Nat) : Nat := v

/-! ### Mutex -/

/-- `pthread_mutex_lock`, once no other thread holds the mutex. -/
def pthreadMutexLock (me : Tid) (m : PthreadMutex Tid) : PthreadMutex Tid :=
  ⟨some me, if m.owner = some me then m.count + 1 else 1⟩

/-- `pthread_mutex_trylock`: `none` for `EBUSY`. -/
def pthreadMutexTrylock (me : Tid) (m : PthreadMutex Tid) : Option (PthreadMutex Tid) :=
  if m.owner = none ∨ m.owner = some me then some (pthreadMutexLock me m) else none

/-- `pthread_mutex_unlock`: `none` for `EPERM`. -/
def pthreadMutexUnlock (me : Tid) (m : PthreadMutex Tid) : Option (PthreadMutex Tid) :=
  if m.owner = some me then
    some (if 1 < m.count then ⟨some me, m.count - 1⟩ else ⟨none, 0⟩)
  else none

/-- `Mutex::lock`, once no other thread holds the mutex. -/
def Mutex.lock (me : Tid) (self : Lid) (l : Lock Tid) (locks_held_ : LockVector Lid) :
    Except Fault (Returned Tid Lid) := do
  let mutex_ := pthreadMutexLock me l.mutex_
  let locks_held_ ← addLock locks_held_ self
  return (0, ⟨(l.lock_count_ + 1) % SpinLock.countSize, some me, mutex_⟩, locks_held_)

def Mutex.unlock (me : Tid) (self : Lid) (l : Lock Tid) (locks_held_ : LockVector Lid) :
    Except Fault (Returned Tid Lid) := do
  assert (l.isLockedByMe me)
  -- `is_locked_by_me` has found the count not to be 0
  let l := { l with lock_count_ := l.lock_count_ - 1 }
  let l := if l.lock_count_ = 0 then { l with lock_holder_ := none } else l
  let err := pthreadMutexUnlock me l.mutex_
  let locks_held_ ← removeLock locks_held_ self
  match err with
  | none => throw .panic
  | some mutex_ => return (0, { l with mutex_ := mutex_ }, locks_held_)

def Mutex.tryLock (me : Tid) (self : Lid) (l : Lock Tid) (locks_held_ : LockVector Lid) :
    Except Fault (Returned Tid Lid) :=
  match pthreadMutexTrylock me l.mutex_ with
  | none => return (1, l, locks_held_)
  | some mutex_ => do
    let locks_held_ ← addLock locks_held_ self
    return (0, ⟨(l.lock_count_ + 1) % SpinLock.countSize, some me, mutex_⟩, locks_held_)

/-! ### Calls -/

/-- `lock` does not return yet: the spin lock is taken, or the mutex held by another
    thread. -/
def Lock.waits (kind : LockKind) (me : Tid) (l : Lock Tid) : Bool :=
  match kind with
  | .spinLock => !l.isLockedByMe me && l.lock_count_ ≠ 0
  | .mutex => !(l.mutex_.owner = none || l.mutex_.owner = some me)

/-- The virtual `lock`. -/
def Lock.lock (kind : LockKind) : Tid → Lid → Lock Tid → LockVector Lid →
    Except Fault (Returned Tid Lid) :=
  match kind with
  | .spinLock => SpinLock.lock
  | .mutex => Mutex.lock

/-- The virtual `try_lock`. -/
def Lock.tryLock (cmpxchg : Nat → Nat) (kind : LockKind) : Tid → Lid → Lock Tid →
    LockVector Lid → Except Fault (Returned Tid Lid) :=
  match kind with
  | .spinLock => SpinLock.tryLock cmpxchg
  | .mutex => Mutex.tryLock

/-- The virtual `unlock`. -/
def Lock.unlock (kind : LockKind) : Tid → Lid → Lock Tid → LockVector Lid →
    Except Fault (Returned Tid Lid) :=
  match kind with
  | .spinLock => SpinLock.unlock
  | .mutex => Mutex.unlock

end Held

/-! ### The thread -/

/-- The locks, and what belongs to the thread. -/
structure State (Tid Lid : Type) where
  locks : Lid → Lock Tid
  locks_held_ : LockVector Lid
  /-- How often the thread has acquired each lock, by `lock` or by a `try_lock` that
      returned 0, and not yet released it. -/
  depth : Lid → Nat

/-- The thread calls a function of a lock, or other threads change the lock. -/
inductive Action (Tid Lid : Type) where
  | lock (l : Lid)
  | tryLock (l : Lid)
  | unlock (l : Lid)
  | others (l : Lid) (left : Lock Tid)

/-- What other threads leave of a lock that `me` does not hold: they do not write its name
    into it. Only a holder takes a spin lock a second time, and a mutex that is free has
    been counted down. -/
def Foreign (kind : LockKind) (me : Tid) (l : Lock Tid) : Prop :=
  l.lock_holder_ ≠ some me ∧
    match kind with
    | .spinLock => l.lock_holder_ = none → l.lock_count_ ≤ 1
    | .mutex => l.mutex_.owner ≠ some me ∧ (l.mutex_.owner = none → l.lock_count_ = 0)

variable {Tid Lid : Type} [DecidableEq Tid] [DecidableEq Lid]

instance (kind : LockKind) (me : Tid) (l : Lock Tid) : Decidable (Foreign kind me l) :=
  match kind with
  | .spinLock => inferInstanceAs (Decidable (_ ∧ (_ → _)))
  | .mutex => inferInstanceAs (Decidable (_ ∧ _ ∧ (_ → _)))

/-- No call made yet. -/
def State.new : State Tid Lid := ⟨fun _ => .new, [], fun _ => 0⟩

/-- A call on `l` has returned `r`, and the thread is now `n` acquisitions deep. -/
def State.set (s : State Tid Lid) (l : Lid) (r : Returned Tid Lid) (n : Nat) :
    State Tid Lid :=
  ⟨Function.update s.locks l r.2.1, r.2.2, Function.update s.depth l n⟩

/-- One call of thread `me`, or a change by other threads. The thread unlocks only as often
    as it has acquired the lock; a call that waits or fails an assertion does not return. -/
def next (cmpxchg : Nat → Nat) (kind : Lid → LockKind) (me : Tid) (s : State Tid Lid) :
    Action Tid Lid → Option (State Tid Lid)
  | .lock l =>
    if Lock.waits (kind l) me (s.locks l) then none
    else
      (Lock.lock (kind l) me l (s.locks l) s.locks_held_).toOption.map fun r =>
        s.set l r (s.depth l + 1)
  | .tryLock l =>
    (Lock.tryLock cmpxchg (kind l) me l (s.locks l) s.locks_held_).toOption.map fun r =>
      s.set l r (if r.1 = 0 then s.depth l + 1 else s.depth l)
  | .unlock l =>
    if 0 < s.depth l then
      (Lock.unlock (kind l) me l (s.locks l) s.locks_held_).toOption.map fun r =>
        s.set l r (s.depth l - 1)
    else none
  | .others l left =>
    if s.depth l = 0 ∧ Foreign (kind l) me left then
      some { s with locks := Function.update s.locks l left }
    else none

/-- The calls of thread `me` on the locks of the given kinds. -/
def system (cmpxchg : Nat → Nat) (kind : Lid → LockKind) (me : Tid) :
    TransitionSystem (State Tid Lid) (Action Tid Lid) where
  init s := s = .new
  step s a s' := next cmpxchg kind me s a = some s'

end LockDebugger

end Oasys
