import Oasys.Util.IntType

/-!
# Time

The `Time` of `util/Time.h`: seconds and microseconds, each a `u_int32_t`. A time that
`get_time` has read has fewer than a million microseconds; the arithmetic below is about
such times.
-/

namespace Oasys

structure Time where
  sec_ : Int
  usec_ : Int
  deriving DecidableEq, Repr

namespace Time

def cleanup (t : Time) : Time :=
  if t.usec_ > 1000000 then
    { sec_ := IntType.u32.conv (t.sec_ + t.usec_ / 1000000), usec_ := t.usec_ / 1000000 }
  else t

def new (sec usec : Int) : Time := cleanup { sec_ := sec, usec_ := usec }

/-- `operator>=`. -/
def ge (t u : Time) : Bool :=
  (t.sec_ = u.sec_ ∧ t.usec_ = u.usec_) ∨ t.sec_ > u.sec_ ∨ (t.sec_ = u.sec_ ∧ t.usec_ > u.usec_)

/-- `operator-=`. -/
def subAssign (t u : Time) : Except Fault Time := do
  assert (t.ge u)
  let t :=
    if t.usec_ < u.usec_ then
      { sec_ := IntType.u32.conv (t.sec_ - 1), usec_ := IntType.u32.conv (t.usec_ + 1000000) }
    else t
  pure
    { sec_ := IntType.u32.conv (t.sec_ - u.sec_), usec_ := IntType.u32.conv (t.usec_ - u.usec_) }

/-- `operator-`. -/
def sub (t u : Time) : Except Fault Time := do
  assert (t.ge u)
  t.subAssign u

def inMilliseconds (t : Time) : Int := IntType.u32.conv (t.sec_ * 1000 + t.usec_ / 1000)

def inMicroseconds (t : Time) : Int := IntType.u32.conv (t.sec_ * 1000000 + t.usec_)

/-- `operator+`. -/
def add (t u : Time) : Except Fault Time := do
  let ret := new (IntType.u32.conv (u.sec_ + t.sec_)) (IntType.u32.conv (u.usec_ + t.usec_))
  assert (ret.ge u) -- check overflow
  pure ret

/-- `operator+=`. -/
def addAssign (t u : Time) : Except Fault Time := do
  let t := cleanup
    { sec_ := IntType.u32.conv (t.sec_ + u.sec_), usec_ := IntType.u32.conv (t.usec_ + u.usec_) }
  assert (t.ge u) -- check overflow
  pure t

def addSeconds (t : Time) (secs : Int) : Except Fault Time := do
  assert (IntType.u32.conv (t.sec_ + secs) ≥ secs) -- check overflow
  pure { t with sec_ := IntType.u32.conv (t.sec_ + secs) }

def addMilliseconds (t : Time) (msecs : Int) : Except Fault Time := do
  let t := cleanup
    { sec_ := IntType.u32.conv (t.sec_ + msecs / 1000)
      usec_ := IntType.u32.conv (t.usec_ + msecs % 1000 * 1000) }
  assert (t.inMilliseconds ≥ msecs) -- check overflow
  pure t

def addMicroseconds (t : Time) (usecs : Int) : Except Fault Time := do
  let t := cleanup
    { sec_ := IntType.u32.conv (t.sec_ + usecs / 1000000)
      usec_ := IntType.u32.conv (t.usec_ + usecs % 1000000) }
  assert (t.inMicroseconds ≥ usecs) -- check overflow
  pure t

/-- What `get_time` reads from the clock. -/
structure Reading (t : Time) : Prop where
  sec_nonneg : 0 ≤ t.sec_
  sec_lt : t.sec_ < 2 ^ 32
  usec_nonneg : 0 ≤ t.usec_
  usec_lt : t.usec_ < 1000000

instance (t : Time) : Decidable t.Reading :=
  decidable_of_iff (0 ≤ t.sec_ ∧ t.sec_ < 2 ^ 32 ∧ 0 ≤ t.usec_ ∧ t.usec_ < 1000000)
    ⟨fun ⟨h₁, h₂, h₃, h₄⟩ => ⟨h₁, h₂, h₃, h₄⟩,
      fun h => ⟨h.sec_nonneg, h.sec_lt, h.usec_nonneg, h.usec_lt⟩⟩

/-- The time in microseconds. -/
def usecs (t : Time) : Int := t.sec_ * 1000000 + t.usec_

variable {t u : Time}

theorem Reading.ge_iff (ht : t.Reading) (hu : u.Reading) : t.ge u = true ↔ u.usecs ≤ t.usecs := by
  obtain ⟨-, -, ht₀, ht₁⟩ := ht
  obtain ⟨-, -, hu₀, hu₁⟩ := hu
  simp only [ge, usecs, decide_eq_true_eq]
  omega

/-- The difference of two readings, in milliseconds. -/
theorem Reading.sub (ht : t.Reading) (hu : u.Reading) (h : u.usecs ≤ t.usecs) :
    ∃ d, t.sub u = .ok d ∧ d.inMilliseconds = (t.usecs - u.usecs) / 1000 % 2 ^ 32 := by
  have hge := (ht.ge_iff hu).2 h
  obtain ⟨ht₀, ht₁, ht₂, ht₃⟩ := ht
  obtain ⟨hu₀, hu₁, hu₂, hu₃⟩ := hu
  simp only [Time.sub, subAssign, hge, assert_true, ok_bind, pure_eq_ok, Except.ok.injEq,
    exists_eq_left']
  simp only [inMilliseconds, IntType.u32_conv, usecs] at h ⊢
  split
  · simp only
    omega
  · omega

end Time

end Oasys
