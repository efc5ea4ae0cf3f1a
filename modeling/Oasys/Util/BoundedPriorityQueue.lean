import Oasys.Debug.DebugUtils
import Oasys.ForStd.PriorityQueue

/-!
# BoundedPriorityQueue

`util/BoundedPriorityQueue.h`: a `std::priority_queue` that drops elements of least priority
when their sizes exceed a bound. The comparison and the sizes are the template's parameters,
and so are the heap algorithms here, of which the program knows what they promise.
-/

namespace Oasys

open PriorityQueue

/-- The container with its counter and its bound. -/
structure BoundedPriorityQueue (T : Type) where
  c : List T
  cur_size_ : UInt32
  max_size_ : UInt32
  deriving DecidableEq, Repr

namespace BoundedPriorityQueue

variable {T : Type} {comp : T → T → Bool}

section

/-- The loop of `enforce_bound`. -/
def dropLeast (comp : T → T → Bool) (size : T → Nat) (q : BoundedPriorityQueue T) :
    Except Fault (BoundedPriorityQueue T) :=
  if q.max_size_ < q.cur_size_ then
    let i := minElement comp q.c
    match _h : q.c[i]? with
    | none => throw .outOfBounds
    | some minObj =>
      dropLeast comp size
        { q with cur_size_ := q.cur_size_ - .ofNat (size minObj), c := q.c.eraseIdx i }
  else pure q
termination_by q.c.length
decreasing_by
  have hlt := (List.getElem?_eq_some_iff.1 _h).1
  rw [List.length_eraseIdx_of_lt hlt]
  omega

variable (size : T → Nat) (heaps : HeapAlgorithms comp)

/-- `enforce_bound`: drop, and make a heap again of what was broken. -/
def enforceBound (q : BoundedPriorityQueue T) : Except Fault (BoundedPriorityQueue T) := do
  let q ← dropLeast comp size q
  pure { q with c := heaps.makeHeap q.c }

/-- `init`. The iterator of its loop is not moved on. -/
def init (q : BoundedPriorityQueue T) : Except Fault (BoundedPriorityQueue T) :=
  if q.c.isEmpty then q.enforceBound size heaps else throw .outOfFuel

def new (max_size : UInt32) : Except Fault (BoundedPriorityQueue T) :=
  init size heaps ⟨[], 0, max_size⟩

def push (q : BoundedPriorityQueue T) (obj : T) : Except Fault (BoundedPriorityQueue T) :=
  enforceBound size heaps
    { q with
      c := heaps.pushHeap (q.c ++ [obj])
      cur_size_ := q.cur_size_ + .ofNat (size obj) }

def pop (q : BoundedPriorityQueue T) : Except Fault (BoundedPriorityQueue T) :=
  match q.c.head? with
  | none => throw .outOfBounds
  | some front =>
    pure
      { q with
        cur_size_ := q.cur_size_ - .ofNat (size front)
        c := (heaps.popHeap q.c).dropLast }

def setMax (q : BoundedPriorityQueue T) (max_size : UInt32) :
    Except Fault (BoundedPriorityQueue T) :=
  enforceBound size heaps { q with max_size_ := max_size }

/-- The calls that change the queue. -/
inductive Call (T : Type) where
  | push (obj : T)
  | pop
  | setMax (max_size : UInt32)

def call (q : BoundedPriorityQueue T) : Call T → Except Fault (BoundedPriorityQueue T)
  | .push obj => q.push size heaps obj
  | .pop => q.pop size heaps
  | .setMax max_size => q.setMax size heaps max_size

end

def current (q : BoundedPriorityQueue T) : UInt32 := q.cur_size_

def max (q : BoundedPriorityQueue T) : UInt32 := q.max_size_

/-- `top`, of a queue that is not empty. -/
def top (q : BoundedPriorityQueue T) : Except Fault T :=
  match q.c.head? with
  | none => throw .outOfBounds
  | some front => pure front

end BoundedPriorityQueue

end Oasys
