import Oasys.ForStd.Transition
import Oasys.Thread.Notifier

/-!
# Thread

`thread/Thread.cc` (the pthreads build) as the steps of three threads: the one that calls
`start` and then `join`, the new thread with its `thread_run`, and one that asks it to stop.
One step is one read or one write of a field of the `Thread` object, or one system call, so
`|=` and `&=` are two steps. What a derived class adds is a parameter. The array of all
threads, which only holds pointers, is left out.
-/

namespace Oasys.Thread

/-- `thread_flags_t`. -/
inductive Flag where
  | createJoinable | deleteOnExit | interruptable | started | shouldStop | stopped
  deriving DecidableEq, Repr

/-- The bit of a flag. -/
def Flag.bit : Flag → Nat
  | createJoinable => 0
  | deleteOnExit => 1
  | interruptable => 2
  | started => 3
  | shouldStop => 4
  | stopped => 5

/-- The value of a flag. -/
def Flag.mask (f : Flag) : BitVec 32 := 1#32 <<< f.bit

/-- `(flags & f) != 0`. -/
def Has (flags : BitVec 32) (f : Flag) : Prop := flags &&& f.mask ≠ 0#32

instance (flags : BitVec 32) (f : Flag) : Decidable (Has flags f) :=
  inferInstanceAs (Decidable (flags &&& f.mask ≠ 0#32))

/-- `flags | f`. -/
def setFlag (flags : BitVec 32) (f : Flag) : BitVec 32 := flags ||| f.mask

/-- `flags & ~f`. -/
def clearFlag (flags : BitVec 32) (f : Flag) : BitVec 32 := flags &&& ~~~f.mask

theorem has_iff {flags : BitVec 32} {f : Flag} : Has flags f ↔ flags.getLsbD f.bit = true := by
  have hmask : f.mask = BitVec.twoPow 32 f.bit := rfl
  have hone : BitVec.twoPow 32 f.bit ≠ 0#32 := by cases f <;> decide
  rw [Has, hmask, BitVec.and_twoPow]
  split
  · simp_all
  · simp_all

@[simp] theorem has_setFlag {flags : BitVec 32} {f g : Flag} :
    Has (setFlag flags f) g ↔ g = f ∨ Has flags g := by
  have hmask : f.mask = BitVec.twoPow 32 f.bit := rfl
  rw [has_iff, has_iff, setFlag, hmask, BitVec.getLsbD_or, BitVec.getLsbD_twoPow]
  cases f <;> cases g <;> simp [Flag.bit]

@[simp] theorem has_clearFlag {flags : BitVec 32} {f g : Flag} :
    Has (clearFlag flags f) g ↔ g ≠ f ∧ Has flags g := by
  have hmask : f.mask = BitVec.twoPow 32 f.bit := rfl
  rw [has_iff, has_iff, clearFlag, hmask, BitVec.getLsbD_and, BitVec.getLsbD_not,
    BitVec.getLsbD_twoPow]
  cases f <;> cases g <;> simp [Flag.bit]

/-! ### The object -/

/-- How a step of `run` ends. -/
inductive Outcome (S L : Type) where
  /-- `run` goes on at `l`. -/
  | goto (shared : S) (l : L)
  /-- `run` returns. -/
  | ret (shared : S)
  /-- An assertion of `run` fails. -/
  | assertFailed
  /-- `run` throws, which `thread_run` turns into a `PANIC`. -/
  | throws
  deriving DecidableEq, Repr

/-- What a class derived from `Thread` adds: its `run`, as the steps of a program each of
    which may look at `should_stop()`, and what its `interrupt_from_io` does to the data that
    `run` shares with other threads. -/
structure Runnable where
  Shared : Type
  Local : Type
  Env : Type
  initial : Shared
  entry : Local
  /-- A step of `run`; it blocks where there is none for what the environment offers. -/
  step : Shared → Local → (should_stop : Bool) → Env → Option (Outcome Shared Local)
  /-- `interrupt_from_io`, without a value where its write has to be tried again. -/
  interrupt : Shared → Option Shared

/-- How a thread is created. -/
structure Config where
  /-- The flags given to the constructor. -/
  flags : BitVec 32
  /-- The thread id that `pthread_create` gives it. -/
  id : Nat
  /-- Whether debug messages on the path "/thread" are ever enabled. -/
  debug : Bool
  deriving DecidableEq, Repr

/-- The updates that `thread_run` makes to `flags_`. -/
inductive Update where
  | setStarted | clearStopped | clearShouldStop | setStopped
  deriving DecidableEq, Repr

/-- What an update writes for what it has read. -/
def Update.apply : Update → BitVec 32 → BitVec 32
  | setStarted, flags => setFlag flags .started
  | clearStopped, flags => clearFlag flags .stopped
  | clearShouldStop, flags => clearFlag flags .shouldStop
  | setStopped, flags => setFlag flags .stopped

/-- Where the creator is. -/
inductive CreatorPC where
  /-- `start`: the test of `start_barrier_enabled_`. -/
  | testBarrier
  /-- `start`: the message about the barrier. -/
  | logDelay
  /-- In `threads_in_barrier_`, until `release_start_barrier`. -/
  | queued
  /-- `start`: its first message. -/
  | logStarting
  /-- `start`: `pthread_create`, after `ntries` failures. -/
  | create (ntries : Nat)
  /-- `pthread_create`: the write of `thread_id_`. -/
  | storeId
  /-- `start`: the test of `CREATE_JOINABLE`. -/
  | testJoinable
  /-- `start`: `pthread_detach(thread_id_)`. -/
  | detach
  /-- `start`: `setup_in_progress_ = false`. -/
  | setupDone
  /-- `start`: the last message, its read of `thread_id_`. -/
  | logId
  /-- `start`: the last message, its read of `name_`. -/
  | logName
  /-- `start` has returned. -/
  | started
  /-- `join`: the test of `CREATE_JOINABLE`. -/
  | testJoin
  /-- `join`: the read of `thread_id_`. -/
  | readId
  /-- `join`: in `pthread_join`. -/
  | join
  /-- `join` has returned. -/
  | joined
  deriving DecidableEq, Repr

/-- `start` has returned. -/
def CreatorPC.Returned : CreatorPC → Prop
  | started | testJoin | readId | join | joined => True
  | _ => False

instance (p : CreatorPC) : Decidable p.Returned := by
  cases p <;> first | exact .isTrue trivial | exact .isFalse id

/-- Where the new thread is, with what `run` keeps there. -/
inductive ThreadPC (L : Type) where
  /-- Not created yet. -/
  | absent
  /-- `thread_run`: the write of `thread_id_`. -/
  | storeId
  /-- `thread_run`: `set_interruptable`. -/
  | setInterruptable
  /-- `thread_run`: the read of an update. -/
  | read (u : Update)
  /-- `thread_run`: the write of an update, for the value it has read. -/
  | write (u : Update) (flags : BitVec 32)
  /-- In `run`. -/
  | run (l : L)
  /-- `thread_run`: the test of `DELETE_ON_EXIT`. -/
  | testDelete
  /-- `thread_run`: the loop on `setup_in_progress_`. -/
  | waitSetup
  /-- `thread_run`: `delete this`. -/
  | delete
  /-- In `pthread_exit`. -/
  | exited
  deriving DecidableEq, Repr

/-- Where the thread is that asks for a stop. -/
inductive StopperPC where
  | idle
  /-- `set_should_stop`, from `stop` or not: the read. -/
  | read (stop : Bool)
  /-- `set_should_stop`, from `stop` or not: the write, for the value it has read. -/
  | write (stop : Bool) (flags : BitVec 32)
  /-- `stop`: the test whether the thread has stopped already. -/
  | isStopped
  /-- `stop`: in `interrupt_from_io`, after this many retries. -/
  | interrupt (retries : Nat)
  /-- `stop`: the loop that waits for the thread. -/
  | wait (i : Nat)
  /-- `stop`: at its end. -/
  | ret (finished : Bool)
  deriving DecidableEq, Repr

/-- A `Thread` object with the threads at work on it. -/
structure State (R : Runnable) where
  flags_ : BitVec 32
  setup_in_progress_ : Bool
  /-- The thread id, `none` standing for 0. -/
  thread_id_ : Option Nat
  start_barrier_enabled_ : Bool
  /-- The data that `run` shares with other threads. -/
  shared : R.Shared
  /-- Set once the object is deleted. -/
  deleted : Bool
  creator : CreatorPC
  thread : ThreadPC R.Local
  stopper : StopperPC
  /-- Set once a call of `set_should_stop` has been completed. -/
  requested : Bool
  /-- Set when the process has ended. -/
  fault : Option Fault

variable {R : Runnable}

/-- The object as constructed, at the call of `start`. The constructor adjusts `flags`, its
    parameter, for a joinable thread; `flags_` has been initialised from it before. -/
def State.new (R : Runnable) (c : Config) (start_barrier_enabled_ : Bool) : State R where
  flags_ := c.flags
  setup_in_progress_ := true
  thread_id_ := none
  start_barrier_enabled_
  shared := R.initial
  deleted := false
  creator := .testBarrier
  thread := .absent
  stopper := .idle
  requested := false
  fault := none

def State.should_stop (s : State R) : Bool := Has s.flags_ .shouldStop

def State.is_stopped (s : State R) : Bool := Has s.flags_ .stopped

/-- The process ends. -/
def State.die (s : State R) (f : Fault) : State R := { s with fault := some f }

/-- The state after an access to the object that makes it `s'`. -/
def State.access (s s' : State R) : State R := if s.deleted then s.die .useAfterFree else s'

/-! ### Steps -/

/-- A step of `start` at `p`, where `created` tells whether `pthread_create` succeeds and
    `logs` whether debug messages are enabled at this moment. -/
def startStep (c : Config) (s : State R) (created logs : Bool) (p : CreatorPC) :
    Option (State R) :=
  match p with
  | .testBarrier =>
    some { s with creator := if s.start_barrier_enabled_ then .logDelay else .logStarting }
  | .logDelay =>
    let s' := { s with creator := .queued }
    some (if logs then s.access s' else s')
  | .queued =>
    -- `release_start_barrier` calls `start` again
    some { s with start_barrier_enabled_ := false, creator := .testBarrier }
  | .logStarting =>
    let s' := { s with creator := .create 0 }
    some (if logs then s.access s' else s')
  | .create ntries =>
    if created then some { s with creator := .storeId, thread := .storeId }
    else if ntries + 1 = 600 then some (s.die .panic)
    else some { s with creator := .create (ntries + 1) }
  | .storeId =>
    some (s.access { s with thread_id_ := some c.id, creator := .testJoinable })
  | .testJoinable =>
    some (s.access { s with
      creator := if Has s.flags_ .createJoinable then .setupDone else .detach })
  | .detach => some (s.access { s with creator := .setupDone })
  | .setupDone =>
    some (s.access { s with setup_in_progress_ := false, creator := .logId })
  | .logId =>
    some (if logs then s.access { s with creator := .logName } else { s with creator := .started })
  | .logName => some (s.access { s with creator := .started })
  | _ => none

/-- A step of `join`. -/
def joinStep (s : State R) (p : CreatorPC) : Option (State R) :=
  match p with
  | .started => some { s with creator := .testJoin }
  | .testJoin =>
    some (s.access
      (if Has s.flags_ .createJoinable then { s with creator := .readId } else s.die .panic))
  | .readId => some (s.access { s with creator := .join })
  | .join => if s.thread matches .exited then some { s with creator := .joined } else none
  | _ => none

/-- Where `thread_run` goes after an update. -/
def Update.next (R : Runnable) : Update → ThreadPC R.Local
  | setStarted => .read .clearStopped
  | clearStopped => .read .clearShouldStop
  | clearShouldStop => .run R.entry
  | setStopped => .testDelete

/-- A step of `thread_run`. -/
def threadStep (c : Config) (s : State R) (env : R.Env) (p : ThreadPC R.Local) :
    Option (State R) :=
  match p with
  | .absent | .exited => none
  | .storeId => some { s with thread_id_ := some c.id, thread := .setInterruptable }
  | .setInterruptable =>
    some (if s.thread_id_ = some c.id then { s with thread := .read .setStarted }
      else s.die .assertFailed)
  | .read u => some { s with thread := .write u s.flags_ }
  | .write u flags => some { s with flags_ := u.apply flags, thread := u.next R }
  | .run l =>
    match R.step s.shared l s.should_stop env with
    | none => none
    | some (.goto shared l) => some { s with shared, thread := .run l }
    | some (.ret shared) => some { s with shared, thread := .read .setStopped }
    | some .assertFailed => some (s.die .assertFailed)
    | some .throws => some (s.die .panic)
  | .testDelete =>
    some { s with thread := if Has s.flags_ .deleteOnExit then .waitSetup else .exited }
  | .waitSetup => some { s with thread := if s.setup_in_progress_ then .waitSetup else .delete }
  | .delete => some { s with deleted := true, thread := .exited }

/-- A step of `set_should_stop` or `stop`. -/
def stopStep (s : State R) (p : StopperPC) : Option (State R) :=
  match p with
  | .idle => none
  | .read stop => some { s with stopper := .write stop s.flags_ }
  | .write stop flags =>
    some { s with
      flags_ := setFlag flags .shouldStop, requested := true,
      stopper := if stop then .isStopped else .idle }
  | .isStopped => some { s with stopper := if s.is_stopped then .ret true else .interrupt 0 }
  | .interrupt retries =>
    match R.interrupt s.shared with
    | some shared => some { s with shared, stopper := .wait 0 }
    | none =>
      if retries + 1 = 600 then some (s.die .panic)
      else some { s with stopper := .interrupt (retries + 1) }
  | .wait i =>
    some { s with
      stopper :=
        if s.is_stopped then .ret true else if i + 1 < 20 then .wait (i + 1) else .ret false }
  | .ret _ => some { s with stopper := .idle }

/-- Who takes the next step, and what the world outside decides for it. -/
inductive Action (R : Runnable) where
  | start (created logs : Bool)
  | join
  | thread (env : R.Env)
  /-- A call of `set_should_stop` or, with `stop`, of `stop`. -/
  | call (stop : Bool)
  | stop

/-- One step. `join` is called on threads created to be joinable, and a stop is asked for
    once `start` has returned, while there is a thread object. -/
def next (c : Config) (s : State R) (a : Action R) : Option (State R) :=
  if s.fault ≠ none then none
  else
    match a with
    | .start created logs =>
      if logs ∧ !c.debug then none else startStep c s created logs s.creator
    | .join => if Has c.flags .createJoinable then joinStep s s.creator else none
    | .thread env => threadStep c s env s.thread
    | .call stop =>
      if s.creator.Returned ∧ s.deleted = false ∧ s.stopper = .idle then
        some { s with stopper := .read stop }
      else none
    | .stop => if s.deleted then none else stopStep s s.stopper

/-- A thread of class `R` created as `c` says, in every interleaving. -/
def system (R : Runnable) (c : Config) : TransitionSystem (State R) (Action R) where
  init s := ∃ start_barrier_enabled_, s = .new R c start_barrier_enabled_
  step s a s' := next c s a = some s'

end Oasys.Thread

/-!
### TCPServerThread

`TCPServerThread::run` of `io/TCPServer.cc`: the loop that polls for connections until it is
told to stop. What `poll` reports about the socket, and what `accept` returns, is for the
environment to choose. Only `stop` makes use of the notifier.
-/

namespace Oasys.TCPServerThread

/-- Where `run` is. -/
inductive PC where
  /-- The test of `should_stop` at the head of the loop. -/
  | testShouldStop
  /-- In `poll_single`. -/
  | poll
  /-- `ASSERT(should_stop())`. -/
  | assertShouldStop
  /-- In `accept`. -/
  | accept
  /-- In `accepted`, of the derived class. -/
  | accepted
  deriving DecidableEq, Repr

/-- What the next system call reports. -/
inductive Event where
  /-- `poll`: only the pipe of the notifier has something to read. -/
  | notified
  /-- `poll`: there is a connection; `accept`: it is open. -/
  | ready
  /-- `accept` fails with `EINTR`. -/
  | eintr
  /-- Any other error. -/
  | error
  deriving DecidableEq, Repr

/-- A step of `run`. -/
def step (pipe : Notifier.Pipe) (p : PC) (should_stop : Bool) (e : Event) :
    Option (Thread.Outcome Notifier.Pipe PC) :=
  match p, e with
  | .testShouldStop, _ => some (if should_stop then .ret pipe else .goto pipe .poll)
  | .poll, .notified =>
    -- there is no event as long as the pipe is empty
    match Notifier.drainPipe 1 pipe with
    | .ok pipe => some (.goto pipe .assertShouldStop)
    | .error _ => none
  | .poll, .ready => some (.goto pipe .accept)
  | .poll, .error => some (.ret pipe)
  | .poll, .eintr => none
  | .assertShouldStop, _ => some (if should_stop then .ret pipe else .assertFailed)
  | .accept, .ready => some (.goto pipe .accepted)
  | .accept, .eintr => some (.goto pipe .testShouldStop)
  | .accept, .error => some (.ret pipe)
  | .accept, .notified => none
  | .accepted, _ => some (.goto pipe .testShouldStop)

/-- A `TCPServerThread`, where the pipe of its notifier holds `capacity` bytes. -/
def runnable (capacity : Nat) : Thread.Runnable where
  Shared := Notifier.Pipe
  Local := PC
  Env := Event
  initial := .new capacity
  entry := .testShouldStop
  step := step
  interrupt := Notifier.Pipe.notify

end Oasys.TCPServerThread
