import Oasys.Thread.Notifier
import Oasys.ForStd.Transition
import Mathlib.Logic.Function.Basic

/-!
# MsgQueue

`push`, `pop_blocking` and `try_pop` of `thread/MsgQueue.tcc`, with the `Notifier::wait`
and `Notifier::notify` they call, as the steps of any number of producers and one
consumer. A step ends at every operation on the lock, on the pipe or on `waiter_`; in
between, a thread touches only what the lock protects. The lock excludes and its holder
does not take it again.

The consumer may also call `Notifier::wait` itself, with or without the lock and with
either value of `drain_the_pipe`; only that call has a timeout.
-/

namespace Oasys.MsgQueue

open Notifier (Pipe drainPipe)

/-- A message, with the end of the queue it is pushed at. -/
structure Entry (Elt : Type) where
  msg : Elt
  atBack : Bool
  deriving DecidableEq, Repr

/-- The threads that take the lock. -/
inductive Thread (Pid : Type) where
  | consumer
  | producer (p : Pid)
  deriving DecidableEq, Repr

/-- Where a producer is in `push`, and in `notify`. -/
inductive ProducerPC (Elt : Type) where
  /-- Outside. -/
  | idle
  /-- `push`: taking the lock. -/
  | acquire (e : Entry Elt)
  /-- `push`: the test whether to notify. -/
  | test (e : Entry Elt)
  /-- `notify`: the write to the pipe, after `numRetries`. -/
  | write (e : Entry Elt) (numRetries : Nat)
  /-- `notify`: the lock taken back before the write is tried again. -/
  | relock (e : Entry Elt) (numRetries : Nat)
  /-- `push`: putting the message on the queue. -/
  | insert (e : Entry Elt)
  /-- `push`: giving the lock up. -/
  | release
  deriving DecidableEq, Repr

/-- Who called `Notifier::wait`. -/
inductive Wait where
  /-- `pop_blocking`, with the lock and the other arguments left at their defaults. -/
  | pop
  /-- The consumer itself, with the lock or without. -/
  | direct (locked drainThePipe : Bool)
  deriving DecidableEq, Repr

/-- Whether `wait` was given the lock. -/
def Wait.locked : Wait → Bool
  | .pop => true
  | .direct locked _ => locked

/-- The `drain_the_pipe` of the call. -/
def Wait.drainThePipe : Wait → Bool
  | .pop => true
  | .direct _ drainThePipe => drainThePipe

/-- The functions the consumer takes the lock for. -/
inductive ConsumerCall where
  | popBlocking
  | tryPop
  /-- `Notifier::wait` with the lock. -/
  | wait (drainThePipe : Bool)
  deriving DecidableEq, Repr

/-- Where the consumer is in the functions it calls. -/
inductive ConsumerPC where
  /-- Outside. -/
  | idle
  /-- Taking the lock. -/
  | acquire (c : ConsumerCall)
  /-- `pop_blocking`: the test of `queue_.empty()`. -/
  | testEmpty
  /-- `try_pop`: the test of `queue_.size()`. -/
  | testSize
  /-- `wait`: the test of `waiter_`. -/
  | wait (w : Wait)
  /-- `wait`: giving the lock up. -/
  | unlock (w : Wait)
  /-- `wait`: in `poll_single`. -/
  | poll (w : Wait)
  /-- `wait`: taking the lock back. -/
  | relock (w : Wait) (notified : Bool)
  /-- `wait`: `waiter_ = false`. -/
  | woken (w : Wait) (notified : Bool)
  /-- `wait`: `drain_pipe(1)`. -/
  | waitDrain (w : Wait)
  /-- `pop_blocking`: `ASSERT(lock_->is_locked_by_me())`. -/
  | assertLocked
  /-- Taking the message at the front, after `ASSERT(!queue_.empty())` in `pop_blocking`
      and the test of the size in `try_pop`. -/
  | take (usedWait : Bool)
  /-- `drain_pipe(1)` after a message was taken. -/
  | drain
  /-- Giving the lock up. -/
  | release
  deriving DecidableEq, Repr

/-- Why the process ended. -/
inductive Stop where
  /-- `wait`: a second waiter. -/
  | multipleWaiters
  /-- `drain_pipe`: fewer bytes in the pipe than were to be drained. -/
  | notEnoughNotifyCalls
  /-- `notify`: the pipe stayed full for all its retries. -/
  | slowReader
  /-- `pop_blocking`: the lock not held after `wait`. -/
  | notLockedByMe
  /-- `pop_blocking`: the queue empty after `wait`. -/
  | emptyQueue
  deriving DecidableEq, Repr

/-- The queue and its threads. -/
structure State (Pid Elt : Type) where
  notify_when_empty_ : Bool
  queue_ : List (Entry Elt)
  pipe : Pipe
  waiter_ : Bool
  /-- Who holds the lock. -/
  lock_ : Option (Thread Pid)
  producers : Pid → ProducerPC Elt
  consumer : ConsumerPC
  /-- The messages put on the queue, in the order of the pushes. -/
  pushed : List (Entry Elt)
  /-- The messages taken, in the order of the pops. -/
  popped : List (Entry Elt)
  stop : Option Stop

variable {Pid Elt : Type} [DecidableEq Pid]

/-- A new queue in either mode, with every thread outside. -/
def State.new (notify_when_empty_ : Bool) (capacity : Nat) : State Pid Elt where
  notify_when_empty_ := notify_when_empty_
  queue_ := []
  pipe := .new capacity
  waiter_ := false
  lock_ := none
  producers := fun _ => .idle
  consumer := .idle
  pushed := []
  popped := []
  stop := none

/-- Producer `p` goes on at `pc`. -/
def State.goto (s : State Pid Elt) (p : Pid) (pc : ProducerPC Elt) : State Pid Elt :=
  { s with producers := Function.update s.producers p pc }

section Fields

variable (s : State Pid Elt) (p : Pid) (pc : ProducerPC Elt)

@[simp] theorem State.goto_notify_when_empty_ :
    (s.goto p pc).notify_when_empty_ = s.notify_when_empty_ := rfl

@[simp] theorem State.goto_queue_ : (s.goto p pc).queue_ = s.queue_ := rfl

@[simp] theorem State.goto_pipe : (s.goto p pc).pipe = s.pipe := rfl

@[simp] theorem State.goto_waiter_ : (s.goto p pc).waiter_ = s.waiter_ := rfl

@[simp] theorem State.goto_lock_ : (s.goto p pc).lock_ = s.lock_ := rfl

@[simp] theorem State.goto_consumer : (s.goto p pc).consumer = s.consumer := rfl

@[simp] theorem State.goto_pushed : (s.goto p pc).pushed = s.pushed := rfl

@[simp] theorem State.goto_popped : (s.goto p pc).popped = s.popped := rfl

@[simp] theorem State.goto_stop : (s.goto p pc).stop = s.stop := rfl

@[simp] theorem State.goto_producers_self : (s.goto p pc).producers p = pc :=
  Function.update_self ..

@[simp] theorem State.goto_producers_of_ne {q : Pid} (hq : q ≠ p) :
    (s.goto p pc).producers q = s.producers q :=
  Function.update_of_ne hq ..

end Fields

/-- How often `notify` tries to write. -/
def maxRetries : Nat := 600

/-- One step of producer `p`. -/
def produce (s : State Pid Elt) (p : Pid) : ProducerPC Elt → Option (State Pid Elt)
  | .idle => none
  | .acquire e =>
    if s.lock_ = none then some ({ s with lock_ := some (.producer p) }.goto p (.test e))
    else none
  | .test e =>
    some (s.goto p (if s.notify_when_empty_ = false ∨ s.queue_ = [] then .write e 0
      else .insert e))
  | .write e numRetries =>
    match s.pipe.notify with
    | some pipe => some ({ s with pipe := pipe }.goto p (.insert e))
    | none =>
      if numRetries + 1 = maxRetries then some { s with stop := some .slowReader }
      else some ({ s with lock_ := none }.goto p (.relock e (numRetries + 1)))
  | .relock e numRetries =>
    if s.lock_ = none then
      some ({ s with lock_ := some (.producer p) }.goto p (.write e numRetries))
    else none
  | .insert e =>
    some ({ s with
      queue_ := if e.atBack then s.queue_ ++ [e] else e :: s.queue_
      pushed := s.pushed ++ [e] }.goto p .release)
  | .release => some ({ s with lock_ := none }.goto p .idle)

/-- Where the consumer goes once it has the lock. -/
def ConsumerCall.start : ConsumerCall → ConsumerPC
  | .popBlocking => .testEmpty
  | .tryPop => .testSize
  | .wait drainThePipe => .wait (.direct true drainThePipe)

/-- Where `wait` returns to. -/
def Wait.return : Wait → ConsumerPC
  | .pop => .assertLocked
  | .direct true _ => .release
  | .direct false _ => .idle

/-- Where `wait` goes when `poll_single` returns. -/
def Wait.afterPoll (w : Wait) (notified : Bool) : ConsumerPC :=
  if w.locked then .relock w notified else .woken w notified

/-- `drain_pipe(1)`, and on to `next`. -/
def drainOne (s : State Pid Elt) (next : ConsumerPC) : State Pid Elt :=
  match drainPipe 1 s.pipe with
  | .ok pipe => { s with pipe := pipe, consumer := next }
  | .error _ => { s with stop := some .notEnoughNotifyCalls }

/-- One step of the consumer. -/
def consume (s : State Pid Elt) : ConsumerPC → Option (State Pid Elt)
  | .idle => none
  | .acquire c =>
    if s.lock_ = none then some { s with lock_ := some .consumer, consumer := c.start }
    else none
  | .testEmpty => some { s with consumer := if s.queue_ = [] then .wait .pop else .take false }
  | .testSize => some { s with consumer := if s.queue_.length = 0 then .release else .take false }
  | .wait w =>
    some (if s.waiter_ then { s with stop := some .multipleWaiters }
      else { s with waiter_ := true, consumer := if w.locked then .unlock w else .poll w })
  | .unlock w => some { s with lock_ := none, consumer := .poll w }
  | .poll w => if 0 < s.pipe.bytes then some { s with consumer := w.afterPoll true } else none
  | .relock w notified =>
    if s.lock_ = none then
      some { s with lock_ := some .consumer, consumer := .woken w notified }
    else none
  | .woken w notified =>
    some { s with
      waiter_ := false
      consumer := if notified && w.drainThePipe then .waitDrain w else w.return }
  | .waitDrain w => some (drainOne s w.return)
  | .assertLocked =>
    some (if s.lock_ = some .consumer then { s with consumer := .take true }
      else { s with stop := some .notLockedByMe })
  | .take usedWait =>
    match s.queue_ with
    | [] => some { s with stop := some .emptyQueue }
    | e :: queue_ =>
      some { s with
        queue_ := queue_
        popped := s.popped ++ [e]
        consumer :=
          if usedWait = false ∧ (s.notify_when_empty_ = false ∨ queue_ = []) then .drain
          else .release }
  | .drain => some (drainOne s .release)
  | .release => some { s with lock_ := none, consumer := .idle }

/-- What happens next. -/
inductive Label (Pid Elt : Type) where
  /-- Producer `p` calls `push`. -/
  | push (p : Pid) (e : Entry Elt)
  /-- Producer `p` goes on. -/
  | producer (p : Pid)
  /-- The consumer calls a function that takes the lock. -/
  | call (c : ConsumerCall)
  /-- The consumer calls `Notifier::wait` without the lock. -/
  | wait (drainThePipe : Bool)
  /-- The consumer goes on. -/
  | consumer
  /-- The timeout of the consumer's own `wait` has passed without a byte in the pipe. -/
  | timeout
  deriving DecidableEq, Repr

/-- One step. After an assertion has failed or a panic nothing moves. -/
def next (s : State Pid Elt) (l : Label Pid Elt) : Option (State Pid Elt) :=
  if s.stop ≠ none then none
  else
    match l with
    | .push p e =>
      match s.producers p with
      | .idle => some (s.goto p (.acquire e))
      | _ => none
    | .producer p => produce s p (s.producers p)
    | .call c => if s.consumer = .idle then some { s with consumer := .acquire c } else none
    | .wait drainThePipe =>
      if s.consumer = .idle then
        some { s with consumer := .wait (.direct false drainThePipe) }
      else none
    | .consumer => consume s s.consumer
    | .timeout =>
      match s.consumer with
      | .poll (.direct locked drainThePipe) =>
        if s.pipe.bytes = 0 then
          some { s with consumer := (Wait.direct locked drainThePipe).afterPoll false }
        else none
      | _ => none

variable (Pid Elt) in
/-- The queue with its threads, in either mode, with a pipe that holds at least a byte, in
    every interleaving of their steps. -/
def system : TransitionSystem (State Pid Elt) (Label Pid Elt) where
  init s := ∃ notify_when_empty_ capacity, 0 < capacity ∧ s = .new notify_when_empty_ capacity
  step s l s' := next s l = some s'

end Oasys.MsgQueue
