import Oasys.Util.IntType
import Oasys.ForStd.PriorityQueue
import Mathlib.Logic.Function.Basic

/-!
# Timer

The timer system of `thread/Timer.cc`. A `Timer*` is an element of `Id`; `timers_`, a
`std::priority_queue`, is the list of what it holds. The seconds of a `struct timeval` do
not overflow. Every function runs under `system_lock_`, which is recursive, from its start
to its end, with the callbacks it makes; signals, the notifier and the log are left out.
-/

namespace Oasys

structure Timeval where
  tv_sec : Int
  tv_usec : Int
  deriving DecidableEq, Repr

namespace Timeval

/-- `TIMEVAL_LT`. -/
def lt (t1 t2 : Timeval) : Bool :=
  t1.tv_sec < t2.tv_sec ∨ (t1.tv_sec = t2.tv_sec ∧ t1.tv_usec < t2.tv_usec)

/-- `TIMEVAL_GT`. -/
def gt (t1 t2 : Timeval) : Bool :=
  t1.tv_sec > t2.tv_sec ∨ (t1.tv_sec = t2.tv_sec ∧ t1.tv_usec > t2.tv_usec)

/-- `TIMEVAL_DIFF_MSEC`, an `unsigned long`. -/
def diffMsec (t1 t2 : Timeval) : Int :=
  IntType.conv ⟨false, 64⟩
    ((t1.tv_sec - t2.tv_sec) * 1000 + (t1.tv_usec - t2.tv_usec).tdiv 1000)

/-- The loop of `schedule_in` that carries microseconds over. -/
def carry (tv_sec tv_usec : Int) : Timeval :=
  if tv_usec > 1000000 then carry (tv_sec + 1) (tv_usec - 1000000) else ⟨tv_sec, tv_usec⟩
termination_by tv_usec.toNat

end Timeval

namespace Timer

inductive CancelFlags where
  | NO_DELETE
  | DELETE_ON_CANCEL
  deriving DecidableEq, Repr

end Timer

structure Timer where
  when_ : Timeval
  pending_ : Bool
  cancelled_ : Bool
  cancel_flags_ : Timer.CancelFlags
  seqno_ : UInt32
  deriving DecidableEq, Repr

/-- `TimerCompare`: whether `a` is to fire after `b`. -/
def timerCompare (a b : Timer) : Bool :=
  if a.when_.gt b.when_ then true
  else if a.when_.lt b.when_ then false
  else a.seqno_ > b.seqno_

/-- The `TimerSystem`, with the timers there are. -/
structure TimerSystem (Id : Type) where
  timers_ : List Id
  seqno_ : UInt32
  num_cancelled_ : UInt64
  /-- The timers, each as its memory has it. -/
  timer : Id → Timer
  /-- The timers that `pop_timer` has deleted. -/
  deleted : List Id

namespace TimerSystem

variable {Id : Type} [DecidableEq Id]

/-- The constructor, where there are timers that were never scheduled. -/
def new (timer : Id → Timer) : TimerSystem Id where
  timers_ := []
  seqno_ := 0
  num_cancelled_ := 0
  timer := timer
  deleted := []

/-- An assignment to members of one timer. -/
def update (s : TimerSystem Id) (t : Id) (f : Timer → Timer) : TimerSystem Id :=
  { s with timer := Function.update s.timer t (f (s.timer t)) }

/-- `timers_.top()`, `none` where there is none. -/
def top (s : TimerSystem Id) : Option Id :=
  PriorityQueue.top (fun a b => timerCompare (s.timer a) (s.timer b)) s.timers_

/-- `schedule_at`, where `when_` is what the argument points to or, where it is null, what
    `gettimeofday` returns. -/
def scheduleAt (s : TimerSystem Id) (when_ : Timeval) (t : Id) : Except Fault (TimerSystem Id) :=
  let s := s.update t fun timer => { timer with when_ }
  if (s.timer t).pending_ then throw .panic
  else
    let s := s.update t fun timer =>
      { timer with pending_ := true, cancelled_ := false, seqno_ := s.seqno_ }
    pure { s with seqno_ := s.seqno_ + 1, timers_ := t :: s.timers_ }

/-- `schedule_in`, called at `now`. -/
def scheduleIn (s : TimerSystem Id) (now : Timeval) (milliseconds : Int) (t : Id) :
    Except Fault (TimerSystem Id) :=
  s.scheduleAt (.carry (now.tv_sec + milliseconds.tdiv 1000)
    (now.tv_usec + milliseconds.tmod 1000 * 1000)) t

def cancel (s : TimerSystem Id) (t : Id) : Bool × TimerSystem Id :=
  if (s.timer t).pending_ then
    let s := { s with num_cancelled_ := s.num_cancelled_ + 1 }
    (true, s.update t fun timer => { timer with cancelled_ := true })
  else (false, s)

def numPendingTimers (s : TimerSystem Id) : UInt64 := .ofNat s.timers_.length - s.num_cancelled_

/-- `pop_timer`, up to the call of `timeout` where there is one: of which timer, if of
    any. -/
def popTimer (s : TimerSystem Id) : Except Fault (TimerSystem Id × Option Id) :=
  match s.top with
  | none => throw .outOfBounds
  | some next_timer => do
    let s := { s with timers_ := s.timers_.erase next_timer }
    assert (s.timer next_timer).pending_
    let s := s.update next_timer fun timer => { timer with pending_ := false }
    if !(s.timer next_timer).cancelled_ then
      return (s, some next_timer)
    let s := s.update next_timer fun timer => { timer with cancelled_ := false }
    assert (s.num_cancelled_ > 0)
    let s := { s with num_cancelled_ := s.num_cancelled_ - 1 }
    if (s.timer next_timer).cancel_flags_ = .DELETE_ON_CANCEL then
      -- the destructor of the timer
      assert (!(s.timer next_timer).pending_)
      return ({ s with deleted := next_timer :: s.deleted }, none)
    return (s, none)

/-- What a round of the loop of `run_expired_timers` comes to. -/
inductive Round (Id : Type) where
  /-- The next round. -/
  | again
  /-- The call of `timeout`, and then the next round. -/
  | timeout (t : Id)
  /-- The function returns. -/
  | returned (ms : Int)
  deriving DecidableEq, Repr

/-- A round that pops a timer. -/
def popRound (s : TimerSystem Id) : Except Fault (TimerSystem Id × Round Id) := do
  match ← s.popTimer with
  | (s, some t) => return (s, .timeout t)
  | (s, none) => return (s, .again)

def diffMs (when_ now : Timeval) : Int :=
  if when_.tv_sec - now.tv_sec < IntType.int.max.tdiv 1000 then
    IntType.int.conv (when_.diffMsec now)
  else IntType.int.max

/-- A round of the loop of `run_expired_timers`, at `now`. What `pop_timer` is given as the
    time reaches only the callback. -/
def runExpiredTimers (s : TimerSystem Id) (now : Timeval) :
    Except Fault (TimerSystem Id × Round Id) :=
  match s.top with
  | none => return (s, .returned (-1))
  | some next_timer =>
    if (s.timer next_timer).cancelled_ then s.popRound
    else if now.lt (s.timer next_timer).when_ then do
      let diff_ms := diffMs (s.timer next_timer).when_ now
      assert (diff_ms ≥ 0)
      -- less than a millisecond is as good as there
      if diff_ms = 0 then s.popRound else return (s, .returned diff_ms)
    else s.popRound

end TimerSystem

end Oasys
