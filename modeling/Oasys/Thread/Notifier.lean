import Oasys.Debug.DebugUtils

/-!
# Notifier

The pipe of `thread/Notifier.cc` and the two functions that move bytes through it. Both
ends are non-blocking: a write to a full pipe and a read from an empty one return at once
with `EAGAIN`. Errors other than that one are left out, and so is `busy_notifiers_`, which
only the destructor reads. `wait` and the retries of `notify` let go of the lock, so their
steps are part of the queue that runs them.
-/

namespace Oasys.Notifier

/-- The pipe, and the count the notifier keeps of what it holds. -/
structure Pipe where
  /-- The bytes written and not yet read. -/
  bytes : Nat
  /-- How many bytes fit. -/
  capacity : Nat
  count_ : Int
  deriving DecidableEq, Repr

/-- The pipe as created. -/
def Pipe.new (capacity : Nat) : Pipe := { bytes := 0, capacity, count_ := 0 }

/-- `notify`: the write of one byte, and `++count_` once it is written; `none` stands for
    `EAGAIN`. -/
def Pipe.notify (p : Pipe) : Option Pipe :=
  if p.bytes < p.capacity then some { p with bytes := p.bytes + 1, count_ := p.count_ + 1 }
  else none

/-- The size of the buffer `drain_pipe` reads into. -/
def bufSize : Nat := 256

/-- `drain_pipe`, with `bytesDrained` already read. -/
def drainFrom (bytes : Nat) : Nat → Nat → Pipe → Except Fault Pipe
  | 0, _, _ => throw .outOfFuel
  | fuel + 1, bytesDrained, p =>
    let len := if bytes = 0 then bufSize else min bufSize (bytes - bytesDrained)
    let ret := min len p.bytes
    -- a read from an empty pipe returns `IOAGAIN`
    if p.bytes = 0 then throw .panic
    else
      let p := { p with bytes := p.bytes - ret, count_ := p.count_ - ret }
      if bytes = 0 ∨ bytesDrained + ret = bytes then pure p
      else if ret < bufSize then pure p
      else drainFrom bytes fuel (bytesDrained + ret) p

/-- `drain_pipe`. Every read but the last takes `bufSize` bytes. -/
def drainPipe (bytes : Nat) (p : Pipe) : Except Fault Pipe :=
  drainFrom bytes (p.bytes + 1) 0 p

/-- Draining one byte panics exactly when there is none. -/
theorem drainPipe_one (p : Pipe) :
    drainPipe 1 p = if p.bytes = 0 then throw .panic
      else pure { p with bytes := p.bytes - 1, count_ := p.count_ - 1 } := by
  simp only [drainPipe, drainFrom]
  split
  · rfl
  · rename_i hbytes
    have hret : min (min bufSize 1) p.bytes = 1 := by
      simp only [bufSize]
      omega
    simp [hret]

/-- With the fuel it is given, `drainFrom` never runs out of it. -/
theorem drainFrom_ne_outOfFuel (bytes fuel bytesDrained : Nat) (p : Pipe)
    (hfuel : p.bytes < fuel) : drainFrom bytes fuel bytesDrained p ≠ .error .outOfFuel := by
  induction fuel generalizing bytesDrained p with
  | zero => omega
  | succ fuel ih =>
    simp only [drainFrom]
    generalize (if bytes = 0 then bufSize else min bufSize (bytes - bytesDrained)) = len
    split
    · exact nofun
    · split
      · exact nofun
      · split
        · exact nofun
        · -- another round is only made after a read of `bufSize` bytes
          rename_i hret
          apply ih
          simp only [bufSize] at hret ⊢
          omega

end Oasys.Notifier
