import Oasys.Thread.OnOffNotifier

/-!
# TimerThread

The thread of `thread/Timer.cc` that runs the timers, with the other threads that schedule
timers and post signals. `run_expired_timers` holds `system_lock_` to its end, callbacks
included, so a call of `schedule_at` or `cancel` is one step, made by another thread while
the lock is free or by the callback that the timer thread is in. `post_signal` takes no
lock: its assignments and its call of `signal` are steps of their own.
-/

namespace Oasys.TimerThread

/-- The number of signals there are. -/
def NSIG : Nat := 65

/-- Where the timer thread is. -/
inductive PC (Id : Type) where
  /-- At the call of `run_expired_timers`. -/
  | start
  /-- The loop of `handle_signals`. -/
  | signals (i : Nat)
  /-- In the handler of a signal. -/
  | handler (i : Nat)
  /-- The loop of `run_expired_timers`. -/
  | rounds
  /-- In `timeout` of a timer. -/
  | timeout (t : Id)
  /-- At the call of `wait`. -/
  | wait (timeout : Int)
  /-- In `wait`. -/
  | waiting (pc : OnOffNotifier.WaitPC)
  deriving DecidableEq, Repr

/-- Where a call of `post_signal` is after its first assignment. -/
inductive PostSignal where
  /-- `signals_[sig] = true`. -/
  | setSignal (sig : Nat)
  /-- `notifier_.signal()`. -/
  | signal
  deriving DecidableEq, Repr

/-- A step: of the timer thread, of a call of `post_signal`, or of whoever may take
    `system_lock_`. -/
inductive Action (Id : Type) where
  /-- The timer thread goes on, at `now` where it looks at the clock. -/
  | run (now : Timeval)
  /-- The timer thread goes on in `wait`. -/
  | wait (input : OnOffNotifier.WaitInput)
  | scheduleAt (when_ : Timeval) (t : Id)
  | cancel (t : Id)
  /-- A call of `post_signal`: its first assignment. -/
  | postSignal (sig : Nat)
  /-- The next step of one of the calls of `post_signal` under way. -/
  | posting (i : Nat)
  deriving DecidableEq, Repr

/-- The timer system with its thread, and the calls of `post_signal` under way. -/
structure State (Id : Type) where
  sys : TimerSystem Id
  sigfired_ : Bool
  signals_ : Nat → Bool
  notifier : OnOffNotifier
  pc : PC Id
  posting : List PostSignal
  /-- A call of `signal` was made since `run_expired_timers` last looked at the heap. -/
  signalled : Bool
  /-- A call of `signal` was made since `wait` last returned true. -/
  fresh : Bool
  /-- `wait` has returned true. -/
  notified : Bool
  /-- Set when an assertion has failed or a `PANIC` was reached, which ends the process. -/
  fault : Option Fault

variable {Id : Type}

/-- The timer system as constructed. -/
def State.new (timer : Id → Timer) (capacity : Nat) (read_fd : Int) : State Id where
  sys := .new timer
  sigfired_ := false
  signals_ := fun _ => false
  notifier := .new capacity read_fd
  pc := .start
  posting := []
  signalled := false
  fresh := false
  notified := false
  fault := none

/-- The end of the process. -/
def State.fail (s : State Id) (e : Fault) : State Id := { s with fault := some e }

/-- `notifier_.signal()`. -/
def State.signal (s : State Id) : State Id :=
  match s.notifier.signal with
  | .ok notifier => { s with notifier, signalled := true, fresh := true }
  | .error e => s.fail e

/-- `system_lock_` can be taken: it is free, or the timer thread holds it and is in a
    callback. -/
def PC.lockFree : PC Id → Bool
  | .start | .handler _ | .timeout _ | .wait _ | .waiting _ => true
  | .signals _ | .rounds => false

/-- `wait` is at its next step. -/
def State.waiting (s : State Id) :
    Except Fault (OnOffNotifier × OnOffNotifier.WaitPC) → State Id
  | .ok (notifier, pc) => { s with notifier, pc := .waiting pc }
  | .error e => s.fail e

/-- The return of `wait`. -/
def State.waited (s : State Id) (result : Bool) : State Id :=
  { s with
    pc := .start
    fresh := s.fresh && !result
    notified := s.notified || result }

/-- A step of a call of `post_signal` after its first assignment. -/
def postStep (s : State Id) (i : Nat) : Option (State Id) :=
  match s.posting[i]? with
  | none => none
  | some (.setSignal sig) =>
    some
      { s with
        signals_ := Function.update s.signals_ sig true
        posting := s.posting.set i .signal }
  | some .signal => some { s with posting := s.posting.eraseIdx i }.signal

variable [DecidableEq Id]

/-- A round of the loop of `run_expired_timers`. -/
def round (s : State Id) (now : Timeval) : State Id :=
  let s := { s with signalled := false }
  match s.sys.runExpiredTimers now with
  | .error e => s.fail e
  | .ok (sys, .again) => { s with sys, pc := .rounds }
  | .ok (sys, .timeout t) => { s with sys, pc := .timeout t }
  | .ok (sys, .returned ms) => { s with sys, pc := .wait ms }

/-- A step of the timer thread outside `wait`, or its return from there. -/
def runStep (s : State Id) (now : Timeval) : Option (State Id) :=
  match s.pc with
  | .start =>
    if s.sigfired_ then some { s with sigfired_ := false, pc := .signals 0 }
    else some { s with pc := .rounds }
  | .signals i =>
    if i < NSIG then
      if s.signals_ i then some { s with pc := .handler i }
      else some { s with pc := .signals (i + 1) }
    else some { s with pc := .rounds }
  | .handler i =>
    some { s with signals_ := Function.update s.signals_ i false, pc := .signals (i + 1) }
  | .rounds => some (round s now)
  | .timeout _ => some { s with pc := .rounds }
  | .wait timeout => some (s.waiting (s.notifier.waitEnter ⟨false, timeout⟩))
  | .waiting (.ret _ result) => some (s.waited result)
  | .waiting _ => none

/-- One step, until the process has ended. -/
def next (s : State Id) (a : Action Id) : Option (State Id) :=
  if s.fault ≠ none then none
  else
    match a with
    | .run now => runStep s now
    | .wait input =>
      match s.pc with
      | .waiting pc => (s.notifier.waitStep pc input).map s.waiting
      | _ => none
    | .scheduleAt when_ t =>
      if s.pc.lockFree then
        match s.sys.scheduleAt when_ t with
        | .ok sys => some { s with sys }.signal
        | .error e => some (s.fail e)
      else none
    | .cancel t => if s.pc.lockFree then some { s with sys := (s.sys.cancel t).2 } else none
    | .postSignal sig => some { s with sigfired_ := true, posting := .setSignal sig :: s.posting }
    | .posting i => postStep s i

/-- The timer thread with the others, in every interleaving of their steps. -/
def system (timer : Id → Timer) (capacity : Nat) (read_fd : Int) :
    TransitionSystem (State Id) (Action Id) where
  init s := s = .new timer capacity read_fd
  step s a s' := next s a = some s'

end Oasys.TimerThread
