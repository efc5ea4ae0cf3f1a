import Mathlib.Logic.Function.Basic
import Mathlib.Data.List.Basic

/-!
# LockGroup

`thread/LockGroup.h`: locks that are released together. The groups are objects with names, and
a call is on the objects that its names stand for. A lock comes with the number of its
acquisition, which no code reads: a lock that is acquired again is told apart from before.
-/

namespace Oasys

/-- A `Lock*` that has just been acquired, for the `acquisition`-th time that any is. -/
structure AcquiredLock (Lock : Type) where
  lock : Lock
  acquisition : Nat
  deriving DecidableEq, Repr

namespace LockGroup

variable {Gid Lock : Type} [DecidableEq Gid]

abbrev LockVector (Lock : Type) := List (AcquiredLock Lock)

/-- The groups there are with their `locks_`, how many locks have been acquired, and the calls
    of `unlock`, the first one first. -/
structure State (Gid Lock : Type) where
  locks_ : Gid → Option (LockVector Lock)
  acquisitions : Nat
  unlocks : List (AcquiredLock Lock)

/-- No groups yet. -/
def State.initial : State Gid Lock := ⟨fun _ => none, 0, []⟩

/-- The calls, on the group `g`. -/
inductive Call (Gid Lock : Type) where
  | construct (g : Gid)
  /-- The copy constructor. -/
  | copy (g other : Gid)
  /-- `add`, of a lock that has just been acquired. -/
  | add (g : Gid) (lock : Lock)
  | release (g : Gid)
  /-- `operator=`. -/
  | assign (g other : Gid)
  | destroy (g : Gid)
  deriving DecidableEq, Repr

namespace State

/-- `locks_` of a group becomes a vector. -/
def setLocks (s : State Gid Lock) (g : Gid) (locks : Option (LockVector Lock)) :
    State Gid Lock :=
  { s with locks_ := Function.update s.locks_ g locks }

/-- `LockGroup()`, of an object that was none. -/
def construct (s : State Gid Lock) (g : Gid) : Option (State Gid Lock) :=
  match s.locks_ g with
  | some _ => none
  | none => some (s.setLocks g (some []))

/-- What the copy constructor and `operator=` do with the vectors. -/
def take (s : State Gid Lock) (g other : Gid) : Option (State Gid Lock) :=
  match s.locks_ other with
  | none => none
  | some locks => some ((s.setLocks g (some locks)).setLocks other (some []))

/-- `LockGroup(LockGroup& other)`, of an object that was none. -/
def copy (s : State Gid Lock) (g other : Gid) : Option (State Gid Lock) :=
  match s.locks_ g with
  | some _ => none
  | none => s.take g other

def add (s : State Gid Lock) (g : Gid) (lock : Lock) : Option (State Gid Lock) :=
  match s.locks_ g with
  | none => none
  | some locks =>
    let s' := s.setLocks g (some (locks ++ [⟨lock, s.acquisitions⟩]))
    some { s' with acquisitions := s.acquisitions + 1 }

/-- `release`: the vector stays as it is. -/
def release (s : State Gid Lock) (g : Gid) : Option (State Gid Lock) :=
  match s.locks_ g with
  | none => none
  | some locks => some { s with unlocks := s.unlocks ++ locks }

/-- `operator=`. The two groups may be one. -/
def assign (s : State Gid Lock) (g other : Gid) : Option (State Gid Lock) :=
  match s.locks_ g with
  | none => none
  | some _ => s.take g other

/-- `~LockGroup`. -/
def destroy (s : State Gid Lock) (g : Gid) : Option (State Gid Lock) := do
  let s ← s.release g
  pure (s.setLocks g none)

/-- One call. There is none on an object that is not there. -/
def call (s : State Gid Lock) : Call Gid Lock → Option (State Gid Lock)
  | .construct g => s.construct g
  | .copy g other => s.copy g other
  | .add g lock => s.add g lock
  | .release g => s.release g
  | .assign g other => s.assign g other
  | .destroy g => s.destroy g

end State

end LockGroup

end Oasys
