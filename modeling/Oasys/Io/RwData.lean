import Oasys.Io.CowIoVec
import Oasys.Thread.Timer

/-!
# rwdata

The functions of `io/IO.cc` that move data and wait for it: `poll_with_notifier`, `rwdata`
and `rwvall`, with `adjust_timeout`. What the system calls return, and when, is in lists
that the loops take their rounds from. Times are in microseconds; `gettimeofday` makes a
`struct timeval` of one. The logs are left out.
-/

namespace Oasys

namespace Io

/-- `IOTimeoutReturn_t`. -/
def IOEOF : Int := 0

def IOERROR : Int := -1

def IOTIMEOUT : Int := -2

def IOINTR : Int := -3

def IOAGAIN : Int := -4

inductive IO_Op_t where
  | READV
  | RECV
  | RECVFROM
  | RECVMSG
  | WRITEV
  | SEND
  | SENDTO
  | SENDMSG
  | CONNECT
  | ACCEPT
  deriving DecidableEq, Repr

/-- The values of `errno` that the functions look at. -/
inductive Errno where
  | EINTR
  | EAGAIN
  | other
  deriving DecidableEq, Repr

def POLLIN : BitVec 16 := 0x1

def POLLPRI : BitVec 16 := 0x2

def POLLOUT : BitVec 16 := 0x4

def POLLERR : BitVec 16 := 0x8

def POLLHUP : BitVec 16 := 0x10

def POLLNVAL : BitVec 16 := 0x20

structure PollFd where
  fd : Int
  events : BitVec 16
  revents : BitVec 16
  deriving DecidableEq, Repr

/-- A return of `::poll`: its result, when it came, and the `revents` of the entries. -/
structure Poll where
  cc : Int
  errno : Errno
  now : Int
  revents : List (BitVec 16)
  deriving DecidableEq, Repr

/-- What a loop that waits has in hand when it is done: the result, the time, the addresses
    that the system calls have transferred, and each timeout given to `::poll`, with the
    time. -/
structure Done where
  cc : Int
  now : Int
  transferred : List Nat
  waits : List (Int × Int)
  deriving DecidableEq, Repr

def gettimeofday (usec : Int) : Timeval := ⟨usec / 1000000, usec % 1000000⟩

/-- The milliseconds that `adjust_timeout` subtracts. -/
def elapsedMsec (start now : Timeval) : Int :=
  (now.tv_sec - start.tv_sec) * 1000 + (now.tv_usec - start.tv_usec).tdiv 1000

/-- `adjust_timeout`, at `now`. Converting the difference, which is a `long`, to `int` wraps
    around. -/
def adjustTimeout (timeout : Int) (start : Option Timeval) (now : Int) : Except Fault Int :=
  match start with
  | none => throw .nullDeref
  | some start =>
    let timeout := IntType.int.conv (timeout - elapsedMsec start (gettimeofday now))
    if timeout < 0 then pure 0 else pure timeout

/-- `if (timeout > 0) timeout = adjust_timeout(timeout, start)`. -/
def adjusted (timeout : Int) (start : Option Timeval) (now : Int) : Except Fault Int :=
  if timeout > 0 then adjustTimeout timeout start now else pure timeout

/-! ### poll_with_notifier -/

/-- The system call was interrupted. -/
def Poll.interrupted (p : Poll) : Bool := p.cc < 0 ∧ p.errno = .EINTR

/-- The time at which `::poll` returns. When it times out it has taken the timeout. -/
def Poll.returns (p : Poll) (timeout now : Int) : Int :=
  if p.cc = 0 then max p.now (now + 1000 * timeout) else p.now

/-- The loop of `poll_with_notifier`, up to the return of `::poll` that ends it. -/
def pollLoop (start_time : Option Timeval) (timeout now : Int) :
    List Poll → Except Fault (Poll × Int × List (Int × Int))
  | [] => throw .outOfFuel
  | p :: polls =>
    if p.interrupted then do
      let timeout' ← adjusted timeout start_time p.now
      let (p', now', waits) ← pollLoop start_time timeout' p.now polls
      pure (p', now', (timeout, now) :: waits)
    else pure (p, p.returns timeout now, [(timeout, now)])

/-- `poll_with_notifier`: the entries that `::poll` is called with. -/
def pollSet (intr : Option Int) (fds : List PollFd) : List PollFd :=
  match intr with
  | none => fds
  | some read_fd =>
    fds.map (fun f => { f with revents := 0 }) ++
      [{ fd := read_fd, events := POLLIN ||| POLLPRI ||| POLLERR, revents := 0 }]

/-- The entry has an event. -/
def PollFd.gotEvent (f : PollFd) : Bool :=
  f.revents &&& (f.events ||| POLLERR ||| POLLHUP ||| POLLNVAL) ≠ 0

/-- `poll_with_notifier`: the result after the loop, and the entries of the caller. -/
def pollResult (intr : Option Int) (fds : List PollFd) (p : Poll) :
    Except Fault (Int × List PollFd) :=
  if p.cc < 0 then pure (IOERROR, fds)
  else
    let poll_set := List.zipWith (fun f revents => { f with revents }) (pollSet intr fds) p.revents
    match intr with
    | none =>
      -- the entries of the caller are those of the call
      if p.cc = 0 then pure (IOTIMEOUT, poll_set)
      else do
        assert (poll_set.any PollFd.gotEvent)
        pure (p.cc, poll_set)
    | some _ =>
      if p.cc = 0 then pure (IOTIMEOUT, fds)
      else
        let own := poll_set.take fds.length
        let notifier := (poll_set.drop fds.length).head?.elim 0 PollFd.revents
        let fds := List.zipWith
          (fun f g => if g.gotEvent then { f with revents := g.revents } else f) fds own
        if own.any PollFd.gotEvent then
          if notifier &&& (POLLIN ||| POLLPRI ||| POLLERR) ≠ 0 then do
            assert (p.cc > 1)
            pure (p.cc - 1, fds)
          else pure (p.cc, fds)
        else if notifier &&& POLLERR ≠ 0 then pure (IOERROR, fds)
        else if notifier &&& (POLLIN ||| POLLPRI) ≠ 0 then pure (IOINTR, fds)
        else throw .panic

/-- `poll_with_notifier`, called at `now`. -/
def pollWithNotifier (intr : Option Int) (fds : List PollFd) (timeout : Int)
    (start_time : Option Timeval) (now : Int) (polls : List Poll) :
    Except Fault (Done × List PollFd) := do
  assert (!(timeout > 0 && start_time.isNone))
  assert (timeout ≥ -1)
  let (p, now, waits) ← pollLoop start_time timeout now polls
  let (cc, fds) ← pollResult intr fds p
  pure ({ cc, now, transferred := [], waits }, fds)

/-! ### rwdata -/

/-- `RwDataExtraArgs`, with the vectors of a `struct msghdr`. -/
inductive RwDataExtraArgs where
  | recvmsg_hdr (msg_iov : List IoVec)
  | recvfrom
  | sendmsg_hdr (msg_iov : List IoVec)
  | sendto
  deriving DecidableEq, Repr

/-- A round of `rwdata`: the returns of `::poll`, and what the system call returns then, and
    when. -/
structure RwStep where
  polls : List Poll
  cc : Int
  errno : Errno
  now : Int
  deriving DecidableEq, Repr

/-- The system call is made again. -/
def RwStep.retried (ignore_eagain : Bool) (s : RwStep) : Bool :=
  s.cc < 0 && ((s.errno = .EAGAIN && ignore_eagain) || s.errno = .EINTR)

def pollFd (op : IO_Op_t) (fd : Int) : Except Fault PollFd :=
  match op with
  | .READV | .RECV | .RECVFROM | .RECVMSG => pure { fd, events := POLLIN ||| POLLPRI, revents := 0 }
  | .WRITEV | .SEND | .SENDTO | .SENDMSG => pure { fd, events := POLLOUT, revents := 0 }
  | _ => throw .panic

/-- The vectors that the system call transfers to or from. -/
def vectors (op : IO_Op_t) (iov : Option (List IoVec)) (args : Option RwDataExtraArgs) :
    Except Fault (List IoVec) :=
  match op, iov, args with
  | .READV, some iov, _ | .WRITEV, some iov, _ => pure iov
  | .RECV, some (v :: _), _ | .RECVFROM, some (v :: _), _ => pure [v]
  | .SEND, some (v :: _), _ | .SENDTO, some (v :: _), _ => pure [v]
  | .RECVMSG, _, some (.recvmsg_hdr msg_iov) => pure msg_iov
  | .SENDMSG, _, some (.sendmsg_hdr msg_iov) => pure msg_iov
  | _, _, _ => throw .nullDeref

/-- The assertions of `rwdata`. `iovcnt` is the number of vectors. -/
def rwdataAsserts (op : IO_Op_t) (iov : Option (List IoVec)) (flags timeout : Int)
    (args : Option RwDataExtraArgs) (start_time : Option Timeval) : Except Fault Unit := do
  let iovcnt := iov.elim 0 List.length
  assert !((op = .READV || op = .WRITEV) && (iov.isNone || flags ≠ 0 || args.isSome))
  assert !((op = .RECV || op = .SEND) && (iovcnt ≠ 1 || args.isSome))
  assert !((op = .RECVFROM || op = .SENDTO) && (iovcnt ≠ 1 || args.isNone))
  assert !((op = .RECVMSG || op = .SENDMSG) && (iov.isSome && args.isNone))
  assert (timeout ≥ -1)
  assert !(timeout > -1 && start_time.isNone)

/-- `rwdata`: the call of `poll_with_notifier`, if it makes one. -/
def rwdataPoll (poll_fd : PollFd) (start_time : Option Timeval) (intr : Option Int)
    (timeout now : Int) (polls : List Poll) : Except Fault Done :=
  if intr.isSome || timeout > -1 then
    Prod.fst <$> pollWithNotifier intr [poll_fd] timeout start_time now polls
  else pure { cc := 1, now, transferred := [], waits := [] }

/-- The loop of `rwdata`. -/
def rwdataLoop (poll_fd : PollFd) (iov : List IoVec) (start_time : Option Timeval)
    (intr : Option Int) (ignore_eagain : Bool) (timeout now : Int) :
    List RwStep → Except Fault Done
  | [] => throw .outOfFuel
  | s :: steps => do
    let polled ← rwdataPoll poll_fd start_time intr timeout now s.polls
    if polled.cc = IOERROR || polled.cc = IOTIMEOUT || polled.cc = IOINTR then pure polled
    else if s.retried ignore_eagain then do
      let timeout ← adjusted timeout start_time s.now
      let r ← rwdataLoop poll_fd iov start_time intr ignore_eagain timeout s.now steps
      pure { r with waits := polled.waits ++ r.waits }
    else
      let cc := if s.cc < 0 then (if s.errno = .EAGAIN then IOAGAIN else IOERROR) else s.cc
      pure
        { cc, now := s.now, transferred := (addresses iov).take cc.toNat, waits := polled.waits }

/-- `rwdata`, called at `now`. The system calls return no more than an `int` holds. -/
def rwdata (op : IO_Op_t) (fd : Int) (iov : Option (List IoVec)) (flags timeout : Int)
    (args : Option RwDataExtraArgs) (start_time : Option Timeval) (intr : Option Int)
    (ignore_eagain : Bool) (now : Int) (steps : List RwStep) : Except Fault Done := do
  rwdataAsserts op iov flags timeout args start_time
  let poll_fd ← pollFd op fd
  let iov ← vectors op iov args
  rwdataLoop poll_fd iov start_time intr ignore_eagain timeout now steps

/-! ### rwvall -/

/-- The loop of `rwvall`, with the vectors as they are when it returns. -/
def rwvallLoop (op : IO_Op_t) (fd : Int) (start : Option Timeval) (intr : Option Int)
    (total_bytes : Int) (cow_iov : COWIoVec) (timeout now : Int) (rounds : List (List RwStep)) :
    Except Fault (Done × COWIoVec) :=
  if cow_iov.bytes_left_ > 0 then
    match rounds with
    | [] => throw .outOfFuel
    | steps :: rounds => do
      let iov ← cow_iov.entries
      let r ← rwdata op fd (some iov) 0 timeout none start intr true now steps
      if r.cc ≤ 0 then
        -- an error, or `IOEOF`
        pure (r, cow_iov)
      else do
        let cow_iov ← cow_iov.consume r.cc.toNat
        let timeout ← adjusted timeout start r.now
        let (rest, cow_iov) ←
          rwvallLoop op fd start intr total_bytes cow_iov timeout r.now rounds
        pure
          ({ rest with
              transferred := r.transferred ++ rest.transferred
              waits := r.waits ++ rest.waits },
            cow_iov)
  else pure ({ cc := total_bytes, now, transferred := [], waits := [] }, cow_iov)

/-- `rwvall`, called at `now`, with the `COWIoVec` that its end destroys. -/
def rwvall (op : IO_Op_t) (fd : Int) (iov : List IoVec) (timeout : Int) (start : Option Timeval)
    (intr : Option Int) (now : Int) (rounds : List (List RwStep)) :
    Except Fault (Done × COWIoVec) := do
  assert (op = .READV || op = .WRITEV)
  assert !(timeout ≠ -1 && start.isNone)
  let cow_iov := COWIoVec.new iov
  let total_bytes := IntType.int.conv cow_iov.bytes_left_
  rwvallLoop op fd start intr total_bytes cow_iov timeout now rounds

end Io

end Oasys
