import Oasys.ForStd.Transition
import Oasys.Util.Time

/-!
# TokenBucket

The token bucket of `util/TokenBucket.cc`. Every function takes the time that `get_time`
reads in it. `depth_` and `rate_` are `u_int64_t`, `tokens_` is an `int64_t`, and an
expression with both kinds is unsigned. The log is left out.
-/

namespace Oasys

structure TokenBucket where
  depth_ : Int
  rate_ : Int
  tokens_ : Int
  last_update_ : Time
  deriving DecidableEq, Repr

namespace TokenBucket

/-- The constructor. The bucket is full. -/
def new (depth rate : Int) (now : Time) : TokenBucket :=
  { depth_ := depth, rate_ := rate, tokens_ := IntType.i64.conv depth, last_update_ := now }

def update (b : TokenBucket) (now : Time) : Except Fault TokenBucket :=
  if b.tokens_ = IntType.i64.conv b.depth_ then pure { b with last_update_ := now }
  else do
    let elapsed := (← now.sub b.last_update_).inMilliseconds
    let new_tokens := IntType.u64.conv (b.rate_ * elapsed) / 1000
    if new_tokens ≠ 0 then
      let new_tokens :=
        if IntType.u64.conv (b.tokens_ + new_tokens) > b.depth_ then
          IntType.u64.conv (b.depth_ - b.tokens_)
        else new_tokens
      pure { b with tokens_ := IntType.i64.conv (b.tokens_ + new_tokens), last_update_ := now }
    else pure b

def drain (b : TokenBucket) (length : Int) (only_if_enough : Bool) (now : Time) :
    Except Fault (Bool × TokenBucket) := do
  let b ← b.update now
  let enough := if b.tokens_ < 0 then false else decide (length ≤ b.tokens_)
  let b :=
    if enough || !only_if_enough then { b with tokens_ := IntType.i64.conv (b.tokens_ - length) }
    else b
  if only_if_enough then
    assert (b.tokens_ ≥ 0)
  pure (enough, b)

def tryToDrain (b : TokenBucket) (length : Int) (now : Time) : Except Fault (Bool × TokenBucket) :=
  b.drain length true now

/-- An unsigned division. -/
def divU64 (x y : Int) : Except Fault Int :=
  if y = 0 then throw .divByZero else pure (IntType.u64.conv x / y)

def need (B : Build) (b : TokenBucket) (n : Int) : Except Fault Int :=
  if n > b.tokens_ then IntType.i64.arith B (n - b.tokens_) else pure 0

def timeToLevel (B : Build) (b : TokenBucket) (n : Int) (now : Time) :
    Except Fault (Time × TokenBucket) := do
  let b ← b.update now
  let need ← b.need B n
  let sec ← divU64 need b.rate_
  let usec ← divU64 (← IntType.i64.arith B (need * 1000000)) b.rate_
  pure (Time.new (IntType.u32.conv sec) (IntType.u32.conv (usec % 1000000)), b)

def timeToFill (B : Build) (b : TokenBucket) (now : Time) : Except Fault (Time × TokenBucket) :=
  b.timeToLevel B (IntType.i64.conv b.depth_) now

def setDepth (b : TokenBucket) (depth : Int) (now : Time) : Except Fault TokenBucket :=
  { b with depth_ := depth }.update now

def setRate (b : TokenBucket) (rate : Int) (now : Time) : Except Fault TokenBucket :=
  { b with rate_ := rate }.update now

def empty (b : TokenBucket) (now : Time) : TokenBucket :=
  { b with tokens_ := 0, last_update_ := now }

/-! ### Runs -/

inductive Call where
  | drain (length : Nat) (only_if_enough : Bool)
  | tryToDrain (length : Nat)
  | update
  | timeToLevel (n : Int)
  deriving DecidableEq, Repr

/-- A call, with how much it has drained. -/
def call (B : Build) (b : TokenBucket) (c : Call) (now : Time) : Except Fault (TokenBucket × Nat) :=
  match c with
  | .drain length only_if_enough => do
    let (enough, b) ← b.drain length only_if_enough now
    pure (b, if enough || !only_if_enough then length else 0)
  | .tryToDrain length => do
    let (enough, b) ← b.tryToDrain length now
    pure (b, if enough then length else 0)
  | .update => do
    let b ← b.update now
    pure (b, 0)
  | .timeToLevel n => do
    let (_, b) ← b.timeToLevel B n now
    pure (b, 0)

/-- A bucket, with what its run has drained so far. -/
structure State where
  bucket : TokenBucket
  /-- When the bucket was constructed. -/
  start : Time
  /-- What `get_time` has read last. -/
  clock : Time
  drained : Nat
  deriving DecidableEq, Repr

/-- The runs of a bucket: calls in any order, with a clock that does not go back, until one
    of them ends the process. -/
def system (B : Build) (depth rate : Nat) : TransitionSystem State (Call × Time) where
  init s := ∃ now : Time, now.Reading ∧ s = ⟨.new depth rate now, now, now, 0⟩
  step s a s' := a.2.Reading ∧ s.clock.usecs ≤ a.2.usecs ∧
    ∃ drained, s.bucket.call B a.1 a.2 = .ok (s'.bucket, drained) ∧
      s' = ⟨s'.bucket, s.start, a.2, s.drained + drained⟩

/-- All the calls that change a bucket, with the setters and `empty`. -/
inductive Op where
  | call (c : Call)
  | timeToFill
  | setDepth (depth : UInt64)
  | setRate (rate : UInt64)
  | empty
  deriving DecidableEq, Repr

/-- The bucket after one of them. -/
def op (B : Build) (b : TokenBucket) (o : Op) (now : Time) : Except Fault TokenBucket :=
  match o with
  | .call c => Prod.fst <$> b.call B c now
  | .timeToFill => Prod.snd <$> b.timeToFill B now
  | .setDepth depth => b.setDepth depth.toNat now
  | .setRate rate => b.setRate rate.toNat now
  | .empty => pure (b.empty now)

/-- The runs of a bucket with all of its calls, and whatever `get_time` reads in them. -/
def operations (B : Build) (depth rate : UInt64) : TransitionSystem TokenBucket (Op × Time) where
  init b := ∃ now : Time, now.Reading ∧ b = .new depth.toNat rate.toNat now
  step b a b' := a.2.Reading ∧ b.op B a.1 a.2 = .ok b'

end TokenBucket

end Oasys
