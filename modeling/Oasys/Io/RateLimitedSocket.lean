import Oasys.Util.TokenBucket

/-!
# RateLimitedSocket

The socket of `io/RateLimitedSocket.cc`, which hands a packet over to the one it wraps only
where its token bucket has a token for every bit. The wrapped socket is the packets it has
been handed, with the times; what its own calls return is an argument. The log is left out.
-/

namespace Oasys

/-- A packet, as it is handed to a socket: by `sendto` where there is a destination, by
    `send` where there is none. -/
structure Packet where
  time : Time
  len : Nat
  flags : Int
  dest : Option (Nat × Nat)
  deriving DecidableEq, Repr

/-- The `IPSocket` underneath: the packets it has been handed, the last one first. -/
structure IPSocket where
  handed : List Packet
  deriving DecidableEq, Repr

structure RateLimitedSocket where
  bucket_ : TokenBucket
  socket_ : Option IPSocket
  deriving DecidableEq, Repr

namespace RateLimitedSocket

def IORATELIMIT : Int := -5

/-- The constructor. `TokenBucket` takes its depth first. -/
def new (rate : Nat) (socket : Option IPSocket) (now : Time) : RateLimitedSocket :=
  { bucket_ := .new rate (65535 * 8) now, socket_ := socket }

/-- Whether a packet may go out. -/
def canSend (s : RateLimitedSocket) (len : Nat) (now : Time) :
    Except Fault (Bool × RateLimitedSocket) :=
  if s.bucket_.rate_ ≠ 0 then do
    let (can_send, bucket_) ← s.bucket_.tryToDrain (IntType.u64.conv (len * 8)) now
    pure (can_send, { s with bucket_ })
  else pure (true, s)

/-- What `send` and `sendto` have in common, where the socket underneath returns `cc`. -/
def sendPacket (s : RateLimitedSocket) (p : Packet) (cc : Int) :
    Except Fault (Int × RateLimitedSocket) :=
  match s.socket_ with
  | none => throw .assertFailed
  | some socket => do
    let (can_send, s) ← s.canSend p.len p.time
    if !can_send then pure (IORATELIMIT, s)
    else pure (cc, { s with socket_ := some { handed := p :: socket.handed } })

def send (s : RateLimitedSocket) (len : Nat) (flags : Int) (now : Time) (cc : Int) :
    Except Fault (Int × RateLimitedSocket) :=
  s.sendPacket ⟨now, len, flags, none⟩ cc

def sendto (s : RateLimitedSocket) (len : Nat) (flags : Int) (addr port : Nat) (now : Time)
    (cc : Int) : Except Fault (Int × RateLimitedSocket) :=
  s.sendPacket ⟨now, len, flags, some (addr, port)⟩ cc

/-! ### Runs -/

inductive Call where
  | send (len : Nat) (flags : Int)
  | sendto (len : Nat) (flags : Int) (addr port : Nat)
  deriving DecidableEq, Repr

/-- The number of bytes of the packet. -/
def Call.len : Call → Nat
  | send len _ | sendto len _ _ _ => len

/-- A call, at `now`. -/
def call (s : RateLimitedSocket) (c : Call) (now : Time) (cc : Int) :
    Except Fault (Int × RateLimitedSocket) :=
  match c with
  | .send len flags => s.send len flags now cc
  | .sendto len flags addr port => s.sendto len flags addr port now cc

/-- A call of a run, with its time and with what the socket underneath returns. -/
structure Action where
  call : Call
  now : Time
  cc : Int
  deriving DecidableEq, Repr

/-- A socket, with what `get_time` has read last. -/
structure State where
  socket : RateLimitedSocket
  clock : Time
  deriving DecidableEq, Repr

/-- The runs of a socket: calls in any order, with a clock that does not go back. -/
def system (rate : Nat) : TransitionSystem State Action where
  init s := ∃ now : Time, now.Reading ∧ s = ⟨.new rate (some ⟨[]⟩) now, now⟩
  step s a s' := a.now.Reading ∧ s.clock.usecs ≤ a.now.usecs ∧
    ∃ r, s.socket.call a.call a.now a.cc = .ok (r, s'.socket) ∧ s' = ⟨s'.socket, a.now⟩

end RateLimitedSocket

end Oasys
