import Oasys.Io.RwData
import Oasys.ForStd.Transition

/-!
# OnOffNotifier

The notifier of `thread/OnOffNotifier.cc`, with the pipe behind it. `signal` and `clear`
run under `notifier_lock_` from start to end and are one step each. `wait` gives that lock
up before it polls, so it is a sequence of steps, and what other threads do may come in
between any two of them. `::poll` sees the pipe as it is when it returns. The log and its
`quiet_` are left out.
-/

namespace Oasys

/-- An `OnOffNotifier`, and its pipe. -/
structure OnOffNotifier where
  waiter_ : Bool
  active_ : Bool
  /-- The bytes written to the pipe and not yet read. -/
  bytes : Nat
  /-- How many bytes fit. -/
  capacity : Nat
  /-- `pipe_[0]`. -/
  read_fd : Int
  deriving DecidableEq, Repr

namespace OnOffNotifier

/-- The notifier as constructed. -/
def new (capacity : Nat) (read_fd : Int) : OnOffNotifier :=
  { waiter_ := false, active_ := false, bytes := 0, capacity, read_fd }

/-- `write(pipe_[1], "+", 1)`. The pipe is non-blocking. -/
def write (n : OnOffNotifier) : Int × OnOffNotifier :=
  if n.bytes < n.capacity then (1, { n with bytes := n.bytes + 1 }) else (-1, n)

/-- `read(pipe_[0], &buf, 1)`. -/
def read (n : OnOffNotifier) : Int × OnOffNotifier :=
  if 0 < n.bytes then (1, { n with bytes := n.bytes - 1 }) else (-1, n)

def signal (n : OnOffNotifier) : Except Fault OnOffNotifier :=
  if n.active_ then pure n
  else do
    let (cc, n) := n.write
    assert (cc = 1)
    pure { n with active_ := true }

def clear (n : OnOffNotifier) : Except Fault OnOffNotifier :=
  if n.active_ then do
    let (cc, n) := n.read
    assert (cc = 1)
    pure { n with active_ := false }
  else pure n

/-! ### wait -/

/-- The arguments of a call of `wait`: whether there is a lock, and the timeout. -/
structure WaitArgs where
  lock : Bool
  timeout : Int
  deriving DecidableEq, Repr

/-- Where a call of `wait` is between two of its steps. -/
inductive WaitPC where
  /-- `lock->unlock()`, where there is a lock. -/
  | unlock (args : WaitArgs)
  /-- The start of `poll_single`. -/
  | pollSingle (args : WaitArgs)
  /-- In `::poll`, with the timeout that is left. -/
  | poll (args : WaitArgs) (timeout : Int) (start_time : Option Timeval)
  /-- `lock->lock(...)`, where there is a lock, with the result of `poll_single`. -/
  | relock (args : WaitArgs) (ret : Int)
  /-- `waiter_ = false`, under `notifier_lock_`. -/
  | clearWaiter (args : WaitArgs) (ret : Int)
  /-- The tests of the result. -/
  | test (args : WaitArgs) (ret : Int)
  /-- At the return. -/
  | ret (args : WaitArgs) (result : Bool)
  deriving DecidableEq, Repr

/-- The arguments of the call. -/
def WaitPC.args : WaitPC → WaitArgs
  | unlock args | pollSingle args | poll args _ _ | relock args _ | clearWaiter args _
  | test args _ | ret args _ => args

/-- The first part of `wait`, which runs under `notifier_lock_`. -/
def waitEnter (n : OnOffNotifier) (args : WaitArgs) : Except Fault (OnOffNotifier × WaitPC) :=
  if n.waiter_ then throw .panic
  else if n.active_ then pure (n, .ret args true)
  else pure ({ n with waiter_ := true }, .unlock args)

/-- `::poll` may return `p`, when it was given `timeout`: it fails, or the time is up with
    nothing in the pipe, or there is something to read. -/
def mayReturn (n : OnOffNotifier) (timeout : Int) (p : Io.Poll) : Bool :=
  if p.cc < 0 then true
  else if p.cc = 0 then timeout ≥ 0 ∧ n.bytes = 0 ∧ p.revents = [0]
  else p.cc = 1 ∧ 0 < n.bytes ∧ p.revents = [Io.POLLIN]

/-- `poll_single`, from the return of `::poll` that ends its loop. -/
def pollSingle (n : OnOffNotifier) (p : Io.Poll) : Except Fault Int := do
  let (cc, _) ← Io.pollResult none [{ fd := n.read_fd, events := Io.POLLIN, revents := 0 }] p
  assert (cc ≠ 0)
  pure cc

/-- What a step of `wait` takes from outside: the time, or a return of `::poll`. -/
inductive WaitInput where
  | time (now : Int)
  | poll (p : Io.Poll)
  deriving DecidableEq, Repr

/-- A step of `wait` after its first part, `none` where it does not go on with that
    input. -/
def waitStep (n : OnOffNotifier) :
    WaitPC → WaitInput → Option (Except Fault (OnOffNotifier × WaitPC))
  | .unlock args, .time _ => some (pure (n, .pollSingle args))
  | .pollSingle args, .time now => some do
    let start := if args.timeout > 0 then some (Io.gettimeofday now) else none
    -- `poll_with_notifier`
    assert (!(args.timeout > 0 && start.isNone))
    assert (args.timeout ≥ -1)
    pure (n, .poll args args.timeout start)
  | .poll args timeout start, .poll p =>
    if n.mayReturn timeout p then some <|
      if p.interrupted then do
        let timeout ← Io.adjusted timeout start p.now
        pure (n, .poll args timeout start)
      else do
        let ret ← n.pollSingle p
        pure (n, .relock args ret)
    else none
  | .relock args ret, .time _ => some (pure (n, .clearWaiter args ret))
  | .clearWaiter args ret, .time _ => some (pure ({ n with waiter_ := false }, .test args ret))
  | .test args ret, .time _ => some <|
    if ret < 0 ∧ ret ≠ Io.IOTIMEOUT then throw .panic
    else if ret = Io.IOTIMEOUT then pure (n, .ret args false)
    else pure (n, .ret args true)
  | _, _ => none

/-! ### Threads -/

/-- What a thread does next: it calls a function of the notifier, goes on in `wait`, or
    returns from it. -/
inductive Action where
  | signal
  | clear
  | wait (args : WaitArgs)
  | run (input : WaitInput)
  | ret
  deriving DecidableEq, Repr

variable (Tid : Type)

/-- The notifier and its threads. -/
structure State where
  notifier : OnOffNotifier
  /-- Where each thread is in `wait`, `none` outside. -/
  pc : Tid → Option WaitPC
  /-- Whether the notifier has been active since the last call of `wait` by the thread. -/
  sawActive : Tid → Bool
  /-- Set when an assertion has failed or a `PANIC` was reached, which ends the process. -/
  fault : Option Fault

/-- The notifier as constructed, with every thread outside. -/
def State.new (capacity : Nat) (read_fd : Int) : State Tid where
  notifier := .new capacity read_fd
  pc := fun _ => none
  sawActive := fun _ => false
  fault := none

variable {Tid}

/-- The notifier after a step that may end the process. -/
def State.become (s : State Tid) : Except Fault OnOffNotifier → State Tid
  | .ok n => { s with notifier := n, sawActive := fun t => s.sawActive t || n.active_ }
  | .error e => { s with fault := some e }

section Fields

variable (s : State Tid) (n : OnOffNotifier)

@[simp] theorem State.become_notifier : (s.become (.ok n)).notifier = n := rfl

@[simp] theorem State.become_pc : (s.become (.ok n)).pc = s.pc := rfl

@[simp] theorem State.become_sawActive (u : Tid) :
    (s.become (.ok n)).sawActive u = (s.sawActive u || n.active_) := rfl

@[simp] theorem State.become_fault : (s.become (.ok n)).fault = s.fault := rfl

end Fields

variable [DecidableEq Tid]

/-- The same for a step of `wait` by thread `t`. -/
def State.becomeAt (s : State Tid) (t : Tid) : Except Fault (OnOffNotifier × WaitPC) → State Tid
  | .ok (n, pc) => { s.become (.ok n) with pc := Function.update s.pc t (some pc) }
  | .error e => { s with fault := some e }

section Fields

variable (s : State Tid) (n : OnOffNotifier) (t : Tid) (pc : WaitPC)

@[simp] theorem State.becomeAt_notifier : (s.becomeAt t (.ok (n, pc))).notifier = n := rfl

@[simp] theorem State.becomeAt_pc :
    (s.becomeAt t (.ok (n, pc))).pc = Function.update s.pc t (some pc) := rfl

@[simp] theorem State.becomeAt_sawActive (u : Tid) :
    (s.becomeAt t (.ok (n, pc))).sawActive u = (s.sawActive u || n.active_) := rfl

@[simp] theorem State.becomeAt_fault : (s.becomeAt t (.ok (n, pc))).fault = s.fault := rfl

end Fields

/-- One step of thread `t`, until the process has ended. -/
def next (s : State Tid) (t : Tid) (a : Action) : Option (State Tid) :=
  if s.fault ≠ none then none
  else
    match s.pc t, a with
    | none, .signal => some (s.become s.notifier.signal)
    | none, .clear => some (s.become s.notifier.clear)
    | none, .wait args =>
      some ({ s with sawActive := Function.update s.sawActive t false }.becomeAt t
        (s.notifier.waitEnter args))
    | some pc, .run input => (s.notifier.waitStep pc input).map (s.becomeAt t)
    | some (.ret _ _), .ret => some { s with pc := Function.update s.pc t none }
    | _, _ => none

variable (Tid) in
/-- The notifier with its threads, in every interleaving of their steps. -/
def system (capacity : Nat) (read_fd : Int) : TransitionSystem (State Tid) (Tid × Action) where
  init s := s = .new Tid capacity read_fd
  step s a s' := next s a.1 a.2 = some s'

end OnOffNotifier

end Oasys
