import Oasys.Io.RwData

/-!
# The public functions of IO

The functions of `io/IO.cc` that read, write, send, receive and poll. Each fills in the
arguments of `rwdata`, `rwvall` or `poll_with_notifier` and returns what they return. A
function that calls `gettimeofday` does so at the time of its call.
-/

namespace Oasys.Io

namespace IoCalls

/-! ### Reading -/

def read (fd : Int) (bp len : Nat) (intr : Option Int) (now : Int) (steps : List RwStep) :
    Except Fault Done :=
  rwdata .READV fd (some [⟨bp, len⟩]) 0 (-1) none none intr false now steps

def readv (fd : Int) (iov : List IoVec) (intr : Option Int) (now : Int) (steps : List RwStep) :
    Except Fault Done :=
  rwdata .READV fd (some iov) 0 (-1) none none intr false now steps

def readall (fd : Int) (bp len : Nat) (intr : Option Int) (now : Int)
    (rounds : List (List RwStep)) : Except Fault Done :=
  Prod.fst <$> rwvall .READV fd [⟨bp, len⟩] (-1) none intr now rounds

def readvall (fd : Int) (iov : List IoVec) (intr : Option Int) (now : Int)
    (rounds : List (List RwStep)) : Except Fault Done :=
  Prod.fst <$> rwvall .READV fd iov (-1) none intr now rounds

def timeoutRead (fd : Int) (bp len : Nat) (timeout_ms : Int) (intr : Option Int) (now : Int)
    (steps : List RwStep) : Except Fault Done :=
  let start := gettimeofday now
  rwdata .READV fd (some [⟨bp, len⟩]) 0 timeout_ms none (some start) intr false now steps

def timeoutReadv (fd : Int) (iov : List IoVec) (timeout_ms : Int) (intr : Option Int) (now : Int)
    (steps : List RwStep) : Except Fault Done :=
  let start := gettimeofday now
  rwdata .READV fd (some iov) 0 timeout_ms none (some start) intr false now steps

def timeoutReadall (fd : Int) (bp len : Nat) (timeout_ms : Int) (intr : Option Int) (now : Int)
    (rounds : List (List RwStep)) : Except Fault Done :=
  let start := gettimeofday now
  Prod.fst <$> rwvall .READV fd [⟨bp, len⟩] timeout_ms (some start) intr now rounds

def timeoutReadvall (fd : Int) (iov : List IoVec) (timeout_ms : Int) (intr : Option Int)
    (now : Int) (rounds : List (List RwStep)) : Except Fault Done :=
  let start := gettimeofday now
  Prod.fst <$> rwvall .READV fd iov timeout_ms (some start) intr now rounds

def recv (fd : Int) (bp len : Nat) (flags : Int) (intr : Option Int) (now : Int)
    (steps : List RwStep) : Except Fault Done :=
  rwdata .RECV fd (some [⟨bp, len⟩]) flags (-1) none none intr false now steps

def recvfrom (fd : Int) (bp len : Nat) (flags : Int) (intr : Option Int) (now : Int)
    (steps : List RwStep) : Except Fault Done :=
  rwdata .RECVFROM fd (some [⟨bp, len⟩]) flags (-1) (some .recvfrom) none intr false now steps

def recvmsg (fd : Int) (msg_iov : List IoVec) (flags : Int) (intr : Option Int) (now : Int)
    (steps : List RwStep) : Except Fault Done :=
  rwdata .RECVMSG fd none flags (-1) (some (.recvmsg_hdr msg_iov)) none intr false now steps

/-! ### Writing -/

def write (fd : Int) (bp len : Nat) (intr : Option Int) (now : Int) (steps : List RwStep) :
    Except Fault Done :=
  rwdata .WRITEV fd (some [⟨bp, len⟩]) 0 (-1) none none intr false now steps

def writev (fd : Int) (iov : List IoVec) (intr : Option Int) (now : Int) (steps : List RwStep) :
    Except Fault Done :=
  rwdata .WRITEV fd (some iov) 0 (-1) none none intr false now steps

def writeall (fd : Int) (bp len : Nat) (intr : Option Int) (now : Int)
    (rounds : List (List RwStep)) : Except Fault Done :=
  Prod.fst <$> rwvall .WRITEV fd [⟨bp, len⟩] (-1) none intr now rounds

def writevall (fd : Int) (iov : List IoVec) (intr : Option Int) (now : Int)
    (rounds : List (List RwStep)) : Except Fault Done :=
  Prod.fst <$> rwvall .WRITEV fd iov (-1) none intr now rounds

/-- `timeout_write`, which has no start time. -/
def timeoutWrite (fd : Int) (bp len : Nat) (timeout_ms : Int) (intr : Option Int) (now : Int)
    (steps : List RwStep) : Except Fault Done :=
  rwdata .WRITEV fd (some [⟨bp, len⟩]) 0 timeout_ms none none intr false now steps

/-- `timeout_writev`, which has no start time. -/
def timeoutWritev (fd : Int) (iov : List IoVec) (timeout_ms : Int) (intr : Option Int) (now : Int)
    (steps : List RwStep) : Except Fault Done :=
  rwdata .WRITEV fd (some iov) 0 timeout_ms none none intr false now steps

def timeoutWriteall (fd : Int) (bp len : Nat) (timeout_ms : Int) (intr : Option Int) (now : Int)
    (rounds : List (List RwStep)) : Except Fault Done :=
  let start := gettimeofday now
  Prod.fst <$> rwvall .WRITEV fd [⟨bp, len⟩] timeout_ms (some start) intr now rounds

def timeoutWritevall (fd : Int) (iov : List IoVec) (timeout_ms : Int) (intr : Option Int)
    (now : Int) (rounds : List (List RwStep)) : Except Fault Done :=
  let start := gettimeofday now
  Prod.fst <$> rwvall .WRITEV fd iov timeout_ms (some start) intr now rounds

def send (fd : Int) (bp len : Nat) (flags : Int) (intr : Option Int) (now : Int)
    (steps : List RwStep) : Except Fault Done :=
  rwdata .SEND fd (some [⟨bp, len⟩]) flags (-1) none none intr false now steps

def sendto (fd : Int) (bp len : Nat) (flags : Int) (intr : Option Int) (now : Int)
    (steps : List RwStep) : Except Fault Done :=
  rwdata .SENDTO fd (some [⟨bp, len⟩]) flags (-1) (some .sendto) none intr false now steps

def sendmsg (fd : Int) (msg_iov : List IoVec) (flags : Int) (intr : Option Int) (now : Int)
    (steps : List RwStep) : Except Fault Done :=
  rwdata .SENDMSG fd none flags (-1) (some (.sendmsg_hdr msg_iov)) none intr false now steps

/-! ### Polling -/

/-- `poll_multiple`, with the entries of the caller afterwards. -/
def pollMultiple (fds : List PollFd) (timeout_ms : Int) (intr : Option Int) (now : Int)
    (polls : List Poll) : Except Fault (Done × List PollFd) := do
  let start := if timeout_ms > 0 then some (gettimeofday now) else none
  let (r, fds) ← pollWithNotifier intr fds timeout_ms start now polls
  assert (r.cc ≠ 0)
  pure (r, fds)

/-- `poll_single`. Its entry starts with the `revents` that are in its memory. -/
def pollSingle (fd : Int) (events uninitialised : BitVec 16) (timeout_ms : Int)
    (intr : Option Int) (now : Int) (polls : List Poll) : Except Fault (Done × BitVec 16) := do
  let (r, fds) ← pollMultiple [⟨fd, events, uninitialised⟩] timeout_ms intr now polls
  match fds with
  | f :: _ => pure (r, f.revents)
  | [] => throw .outOfBounds

/-! ### All of them -/

/-- What the system calls of a function return: in the rounds of `rwdata`, in the calls of
    `rwdata` that `rwvall` makes, and in `poll_with_notifier`. -/
structure Outcomes where
  steps : List RwStep
  rounds : List (List RwStep)
  polls : List Poll

/-- A public function with its arguments, but for the descriptor and the notifier. -/
inductive Function where
  | read (bp len : Nat)
  | readv (iov : List IoVec)
  | readall (bp len : Nat)
  | readvall (iov : List IoVec)
  | timeoutRead (bp len : Nat) (timeout_ms : Int)
  | timeoutReadv (iov : List IoVec) (timeout_ms : Int)
  | timeoutReadall (bp len : Nat) (timeout_ms : Int)
  | timeoutReadvall (iov : List IoVec) (timeout_ms : Int)
  | recv (bp len : Nat) (flags : Int)
  | recvfrom (bp len : Nat) (flags : Int)
  | recvmsg (msg_iov : List IoVec) (flags : Int)
  | write (bp len : Nat)
  | writev (iov : List IoVec)
  | writeall (bp len : Nat)
  | writevall (iov : List IoVec)
  | timeoutWrite (bp len : Nat) (timeout_ms : Int)
  | timeoutWritev (iov : List IoVec) (timeout_ms : Int)
  | timeoutWriteall (bp len : Nat) (timeout_ms : Int)
  | timeoutWritevall (iov : List IoVec) (timeout_ms : Int)
  | send (bp len : Nat) (flags : Int)
  | sendto (bp len : Nat) (flags : Int)
  | sendmsg (msg_iov : List IoVec) (flags : Int)
  | pollSingle (events uninitialised : BitVec 16) (timeout_ms : Int)
  | pollMultiple (fds : List PollFd) (timeout_ms : Int)

/-- A call of a function. -/
def Function.run (fd : Int) (intr : Option Int) (now : Int) (sys : Outcomes) :
    Function → Except Fault Done
  | .read bp len => IoCalls.read fd bp len intr now sys.steps
  | .readv iov => IoCalls.readv fd iov intr now sys.steps
  | .readall bp len => IoCalls.readall fd bp len intr now sys.rounds
  | .readvall iov => IoCalls.readvall fd iov intr now sys.rounds
  | .timeoutRead bp len t => IoCalls.timeoutRead fd bp len t intr now sys.steps
  | .timeoutReadv iov t => IoCalls.timeoutReadv fd iov t intr now sys.steps
  | .timeoutReadall bp len t => IoCalls.timeoutReadall fd bp len t intr now sys.rounds
  | .timeoutReadvall iov t => IoCalls.timeoutReadvall fd iov t intr now sys.rounds
  | .recv bp len flags => IoCalls.recv fd bp len flags intr now sys.steps
  | .recvfrom bp len flags => IoCalls.recvfrom fd bp len flags intr now sys.steps
  | .recvmsg msg_iov flags => IoCalls.recvmsg fd msg_iov flags intr now sys.steps
  | .write bp len => IoCalls.write fd bp len intr now sys.steps
  | .writev iov => IoCalls.writev fd iov intr now sys.steps
  | .writeall bp len => IoCalls.writeall fd bp len intr now sys.rounds
  | .writevall iov => IoCalls.writevall fd iov intr now sys.rounds
  | .timeoutWrite bp len t => IoCalls.timeoutWrite fd bp len t intr now sys.steps
  | .timeoutWritev iov t => IoCalls.timeoutWritev fd iov t intr now sys.steps
  | .timeoutWriteall bp len t => IoCalls.timeoutWriteall fd bp len t intr now sys.rounds
  | .timeoutWritevall iov t => IoCalls.timeoutWritevall fd iov t intr now sys.rounds
  | .send bp len flags => IoCalls.send fd bp len flags intr now sys.steps
  | .sendto bp len flags => IoCalls.sendto fd bp len flags intr now sys.steps
  | .sendmsg msg_iov flags => IoCalls.sendmsg fd msg_iov flags intr now sys.steps
  | .pollSingle events uninitialised t =>
    Prod.fst <$> IoCalls.pollSingle fd events uninitialised t intr now sys.polls
  | .pollMultiple fds t => Prod.fst <$> IoCalls.pollMultiple fds t intr now sys.polls

/-- The timeout that a function is given; one without an argument for it waits forever. -/
def Function.timeout : Function → Int
  | .timeoutRead _ _ t | .timeoutReadv _ t | .timeoutReadall _ _ t | .timeoutReadvall _ t
  | .timeoutWrite _ _ t | .timeoutWritev _ t | .timeoutWriteall _ _ t | .timeoutWritevall _ t
  | .pollSingle _ _ t | .pollMultiple _ t => t
  | _ => -1

end IoCalls

end Oasys.Io
