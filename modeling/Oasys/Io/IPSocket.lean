import Oasys.Debug.DebugUtils
import Oasys.ForStd.Transition

/-!
# IPSocket

The state machine of `io/IPSocket.cc`, with `listen` of `io/TCPServer.cc`. What a system
call returns is an argument of the operation that makes it. Of the socket options only the
result of `setsockopt` is of interest, and `configure` does no more than log it; the log is
left out.
-/

namespace Oasys

/-- `IPSocket::state_t`. -/
inductive SocketState where
  | init | listening | connecting | established | rdclosed | wrclosed | closed | fini
  deriving DecidableEq, Repr

/-- What has happened to the descriptors of a socket. -/
inductive FdEvent where
  /-- `socket` returned this descriptor. -/
  | opened (fd : Nat)
  /-- `close` of this descriptor returned 0. -/
  | closed (fd : Nat)
  deriving DecidableEq, Repr

/-- The descriptor that is open after these events, the last one first. There is no answer
    where a descriptor was opened before the one held was closed, or one was closed that
    was not held. -/
def FdEvent.holding : List FdEvent → Option (Option Nat)
  | [] => some none
  | .opened fd :: l => if holding l = some none then some (some fd) else none
  | .closed fd :: l => if holding l = some (some fd) then some none else none

/-- The fields of an `IPSocket`, a descriptor of -1 being `none`, with the events so far. -/
structure SocketObject where
  fd_ : Option Nat
  state_ : SocketState
  local_addr_ : Nat
  local_port_ : Nat
  remote_addr_ : Nat
  remote_port_ : Nat
  events : List FdEvent
  deriving DecidableEq, Repr

namespace SocketObject

def INADDR_ANY : Nat := 0

def INADDR_NONE : Nat := 0xffffffff

def SHUT_RD : Int := 0

def SHUT_WR : Int := 1

def SHUT_RDWR : Int := 2

/-- `EBADF`, the `errno` of a call on a descriptor of -1. -/
def EBADF : Int := 9

/-- The constructor of a socket without a descriptor. -/
def new : SocketObject :=
  { fd_ := none, state_ := .init, local_addr_ := INADDR_ANY, local_port_ := 0,
    remote_addr_ := INADDR_NONE, remote_port_ := 0, events := [] }

/-- The constructor of a socket for a descriptor that is open already. -/
def ofFd (sock remote_addr remote_port : Nat) : SocketObject :=
  { fd_ := some sock, state_ := .established, local_addr_ := INADDR_NONE, local_port_ := 0,
    remote_addr_ := remote_addr, remote_port_ := remote_port, events := [.opened sock] }

/-- Whether a system call on `fd_` succeeds, where it would on an open descriptor. -/
def onFd (s : SocketObject) (succeeds : Bool) : Bool := s.fd_.isSome && succeeds

/-- `init_socket`, where `socket` is what the system call returns. -/
def initSocket (s : SocketObject) (socket : Option Nat) : Except Fault SocketObject := do
  assert (s.state_ = .init || s.state_ = .fini)
  assert (s.fd_ = none)
  match socket with
  | none => pure { s with state_ := .init, fd_ := none }
  | some fd =>
    pure { s with state_ := .init, fd_ := some fd, events := .opened fd :: s.events }

/-- `if (fd_ == -1) init_socket();` -/
def ensureFd (s : SocketObject) (socket : Option Nat) : Except Fault SocketObject :=
  if s.fd_ = none then s.initSocket socket else pure s

def bind (s : SocketObject) (local_addr local_port : Nat) (socket : Option Nat)
    (bound : Bool) : Except Fault (Int × SocketObject) := do
  let s ← s.ensureFd socket
  pure (if s.onFd bound then 0 else -1,
    { s with local_addr_ := local_addr, local_port_ := local_port })

def connect (s : SocketObject) (socket : Option Nat) (connected : Bool) :
    Except Fault (Int × SocketObject) :=
  if s.state_ = .established then pure (0, s)
  else do
    let s ← s.ensureFd socket
    -- the state is CONNECTING also where `socket` has just failed
    if s.onFd connected then pure (0, { s with state_ := .established })
    else pure (-1, { s with state_ := .connecting })

/-- `connect` with an address. -/
def connectTo (s : SocketObject) (remote_addr remote_port : Nat) (socket : Option Nat)
    (connected : Bool) : Except Fault (Int × SocketObject) :=
  { s with remote_addr_ := remote_addr, remote_port_ := remote_port }.connect socket connected

/-- `async_connect_result`. `getsockopt` fails with an `errno`, or gives the result. -/
def asyncConnectResult (s : SocketObject) (getsockopt : Except Int Int) :
    Except Fault (Int × SocketObject) := do
  assert (s.state_ = .connecting)
  match s.fd_, getsockopt with
  | none, _ => pure (EBADF, s)
  | some _, .error errno => pure (errno, s)
  | some _, .ok result =>
    pure (result, if result = 0 then { s with state_ := .established } else s)

def listen (s : SocketObject) (listening : Bool) : Except Fault (Int × SocketObject) := do
  assert (s.fd_ ≠ none)
  if listening then pure (0, { s with state_ := .listening }) else pure (-1, s)

def close (s : SocketObject) (closed : Bool) : Except Fault (Int × SocketObject) :=
  match s.fd_ with
  | none => do
    assert (s.state_ = .init || s.state_ = .fini)
    pure (0, s)
  | some fd =>
    if closed then
      pure (0, { s with state_ := .fini, fd_ := none, events := .closed fd :: s.events })
    else pure (-1, s)

/-- The modes that `shutdown` takes. -/
def ShutdownMode (how : Int) : Prop := how = SHUT_RD ∨ how = SHUT_WR ∨ how = SHUT_RDWR

instance (how : Int) : Decidable (ShutdownMode how) :=
  inferInstanceAs (Decidable (how = SHUT_RD ∨ how = SHUT_WR ∨ how = SHUT_RDWR))

/-- `shutdown`. What the system call returns is only logged. -/
def shutdown (s : SocketObject) (how : Int) : Except Fault (Int × SocketObject) :=
  if ¬ ShutdownMode how then pure (-1, s)
  else if s.state_ = .init ∨ s.state_ = .fini then do
    assert (s.fd_ = none)
    pure (0, s)
  else if s.state_ = .established then
    if how = SHUT_RD then pure (0, { s with state_ := .rdclosed })
    else if how = SHUT_WR then pure (0, { s with state_ := .wrclosed })
    else pure (0, { s with state_ := .closed })
  else if s.state_ = .rdclosed ∧ how = SHUT_WR then pure (0, { s with state_ := .closed })
  else if s.state_ = .wrclosed ∧ how = SHUT_RD then pure (0, { s with state_ := .closed })
  else pure (-1, s)

/-! ### Runs -/

/-- An operation, with what the system calls it makes return. -/
inductive Call where
  | bind (local_addr local_port : Nat) (socket : Option Nat) (bound : Bool)
  | connect (socket : Option Nat) (connected : Bool)
  | connectTo (remote_addr remote_port : Nat) (socket : Option Nat) (connected : Bool)
  | asyncConnectResult (getsockopt : Except Int Int)
  | listen (listening : Bool)
  | close (closed : Bool)
  | shutdown (how : Int)

/-- An operation on the socket. -/
def call (s : SocketObject) : Call → Except Fault (Int × SocketObject)
  | .bind local_addr local_port socket bound => s.bind local_addr local_port socket bound
  | .connect socket connected => s.connect socket connected
  | .connectTo remote_addr remote_port socket connected =>
    s.connectTo remote_addr remote_port socket connected
  | .asyncConnectResult getsockopt => s.asyncConnectResult getsockopt
  | .listen listening => s.listen listening
  | .close closed => s.close closed
  | .shutdown how => s.shutdown how

/-- Where an operation is called at all: `async_connect_result` only while a connection is
    being made, `listen` only with an open descriptor. -/
def Allowed (s : SocketObject) : Call → Prop
  | .asyncConnectResult _ => s.state_ = .connecting
  | .listen _ => s.fd_ ≠ none
  | _ => True

/-- The runs of a socket: operations in any order where they are allowed. A socket starts
    without a descriptor, with one that is open, or with one that `init_socket` has just
    obtained. -/
def system : TransitionSystem SocketObject Call where
  init s := s = new ∨ (∃ sock remote_addr remote_port, s = ofFd sock remote_addr remote_port) ∨
    ∃ fd, new.initSocket (some fd) = .ok s
  step s a s' := s.Allowed a ∧ ∃ r, s.call a = .ok (r, s')

end SocketObject

end Oasys
