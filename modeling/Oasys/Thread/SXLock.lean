import Oasys.Util.IntType
import Oasys.ForStd.Transition
import Mathlib.Logic.Function.Basic

/-!
# SXLock

The shared and exclusive lock of `thread/SXLock.h`. All of its code runs under the inner
lock `lock_`, which the wait loops give up between two of their tests, so a step of the
model is what one thread does from taking `lock_` to giving it up: a test of a wait loop
with what follows it, or the body of an unlock.
-/

namespace Oasys.SXLock

/-- The functions of the lock. -/
inductive Call where
  | sharedLock | sharedUnlock | exclusiveLock | exclusiveUnlock
  deriving DecidableEq, Repr

/-- Where a thread is between two steps: outside, or spinning in a wait loop. -/
inductive PC where
  | idle | inSharedLock | inExclusiveLock
  deriving DecidableEq, Repr

variable (Tid : Type) [DecidableEq Tid]

/-- The lock and its threads. -/
structure State where
  /-- An `int`, as is `xcount_`. -/
  scount_ : Int
  xcount_ : Int
  pc : Tid → PC
  /-- The threads that hold the lock shared, each as often as it has acquired it and not
      yet dropped it. -/
  shared : List Tid
  /-- The threads that hold it exclusively. -/
  exclusive : List Tid
  /-- Set when the process has left through one of the `exit(-1)`. -/
  exited : Bool
  /-- Set when a counter has left the range of `int` in a build where that is undefined. -/
  fault : Option Fault

/-- The lock as constructed, with every thread outside. -/
def State.new : State Tid where
  scount_ := 0
  xcount_ := 0
  pc := fun _ => .idle
  shared := []
  exclusive := []
  exited := false
  fault := none

variable {Tid}

/-- Thread `t` goes on at `p`. -/
def State.goto (s : State Tid) (t : Tid) (p : PC) : State Tid :=
  { s with pc := Function.update s.pc t p }

/-- The result of a step that may leave the range of `int`. -/
def State.orFault (s : State Tid) : Except Fault (State Tid) → State Tid
  | .ok s' => s'
  | .error e => { s with fault := some e }

/-- A round of `shared_lock`. -/
def sharedLock (B : Build) (s : State Tid) (t : Tid) : State Tid :=
  if s.xcount_ > 0 then s.goto t .inSharedLock
  else
    s.orFault do
      let scount ← IntType.int.arith B (s.scount_ + 1)
      return { s with scount_ := scount, shared := t :: s.shared }.goto t .idle

def sharedUnlock (B : Build) (s : State Tid) (t : Tid) : State Tid :=
  s.orFault do
    let scount ← IntType.int.arith B (s.scount_ - 1)
    return { s with scount_ := scount, shared := s.shared.erase t }

/-- A round of `exclusive_lock`. -/
def exclusiveLock (B : Build) (s : State Tid) (t : Tid) : State Tid :=
  if s.xcount_ > 0 ∧ s.scount_ > 0 then s.goto t .inExclusiveLock
  else
    s.orFault do
      let xcount ← IntType.int.arith B (s.xcount_ + 1)
      if xcount ≠ 1 then
        return { s with xcount_ := xcount, exited := true }
      return { s with xcount_ := xcount, exclusive := t :: s.exclusive }.goto t .idle

def exclusiveUnlock (B : Build) (s : State Tid) (t : Tid) : State Tid :=
  s.orFault do
    let xcount ← IntType.int.arith B (s.xcount_ - 1)
    if xcount ≠ 0 then
      return { s with xcount_ := xcount, exited := true }
    return { s with xcount_ := xcount, exclusive := s.exclusive.erase t }

/-- Thread `t` may take a step of `c`: a wait loop goes on with its own test, and a thread
    drops only what it holds. -/
def enabled (s : State Tid) (t : Tid) : Call → Bool
  | .sharedLock => s.pc t = .idle ∨ s.pc t = .inSharedLock
  | .exclusiveLock => s.pc t = .idle ∨ s.pc t = .inExclusiveLock
  | .sharedUnlock => s.pc t = .idle ∧ t ∈ s.shared
  | .exclusiveUnlock => s.pc t = .idle ∧ t ∈ s.exclusive

/-- One step of thread `t`, until the process has ended. -/
def next (B : Build) (s : State Tid) (t : Tid) (c : Call) : Option (State Tid) :=
  if s.exited ∨ s.fault ≠ none ∨ enabled s t c = false then none
  else
    match c with
    | .sharedLock => some (sharedLock B s t)
    | .sharedUnlock => some (sharedUnlock B s t)
    | .exclusiveLock => some (exclusiveLock B s t)
    | .exclusiveUnlock => some (exclusiveUnlock B s t)

variable (Tid) in
/-- The lock with its threads, in every interleaving of their steps. -/
def system (B : Build) : TransitionSystem (State Tid) (Tid × Call) where
  init s := s = .new Tid
  step s a s' := next B s a.1 a.2 = some s'

end Oasys.SXLock
