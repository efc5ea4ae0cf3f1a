import Oasys.Util.TokenBucket

/-!
# TokenBucket correctness

`update` compares `tokens_ + new_tokens` with `depth_` as unsigned numbers. After an
overdraft that more than `new_tokens` would have to make good, the sum is negative and
thus larger than any depth, and the bucket is filled to the brim. `drain` in turn lets
`tokens_` wrap around below the smallest `int64_t`.

`try_to_drain` asserts that there is no overdraft, one of an earlier `drain` included.
`time_to_level` rounds the time down to microseconds and `update` to milliseconds, so that who
waits that long may find a token missing.

Where none of this happens the bucket is one: `update` adds what the rate gives for the time
since `last_update_`, and what has been drained and what is left never add up to more
than the depth and what the rate gives for the time of the run.
-/

namespace Oasys.TokenBucket

/-! ### One call -/

/-- The fields are in their ranges, and the bucket holds no more than its depth. -/
structure Sound (b : TokenBucket) : Prop where
  depth_nonneg : 0 ≤ b.depth_
  depth_lt : b.depth_ < 2 ^ 63
  rate_nonneg : 0 ≤ b.rate_
  tokens_ge : -(2 ^ 63) ≤ b.tokens_
  tokens_le : b.tokens_ ≤ b.depth_
  reading : b.last_update_.Reading

def elapsed (b : TokenBucket) (now : Time) : Int := (now.usecs - b.last_update_.usecs) / 1000

/-- What the rate gives for them, in the arithmetic of the code: the milliseconds are a
    `u_int32_t`, and the product is a `u_int64_t`. -/
def newTokens (b : TokenBucket) (now : Time) : Int :=
  b.rate_ * (b.elapsed now % 2 ^ 32) % 2 ^ 64 / 1000

/-- An overdraft is made good at once where anything comes in at all. -/
def Refills (b : TokenBucket) (now : Time) : Prop :=
  0 < b.newTokens now → 0 ≤ b.tokens_ + b.newTokens now

/-- What the bucket holds once `update` has done its work at `now`. -/
def level (b : TokenBucket) (now : Time) : Int := min b.depth_ (b.tokens_ + b.newTokens now)

def filled (b : TokenBucket) (now : Time) : TokenBucket :=
  { b with
    tokens_ := b.level now
    last_update_ := if b.tokens_ = b.depth_ ∨ 0 < b.newTokens now then now else b.last_update_ }

instance (b : TokenBucket) (now : Time) : Decidable (b.Refills now) :=
  inferInstanceAs (Decidable (_ → _))

variable {b b' : TokenBucket} {now : Time}

theorem newTokens_nonneg (b : TokenBucket) (now : Time) : 0 ≤ b.newTokens now := by
  simp only [newTokens]
  omega

theorem newTokens_lt (b : TokenBucket) (now : Time) : b.newTokens now ≤ 2 ^ 64 / 1000 := by
  simp only [newTokens]
  omega

theorem newTokens_le (hrate : 0 ≤ b.rate_) (helapsed : 0 ≤ b.elapsed now) :
    b.newTokens now ≤ b.rate_ * b.elapsed now / 1000 := by
  have hmod : b.elapsed now % 2 ^ 32 ≤ b.elapsed now := by omega
  have hmul := Int.mul_le_mul_of_nonneg_left hmod hrate
  have hnonneg : 0 ≤ b.rate_ * (b.elapsed now % 2 ^ 32) := Int.mul_nonneg hrate (by omega)
  simp only [newTokens]
  omega

private theorem Sound.update_eq (h : b.Sound) (hnow : now.Reading)
    (hlast : b.last_update_.usecs ≤ now.usecs) :
    b.update now = .ok
      (if b.tokens_ = b.depth_ then { b with last_update_ := now }
      else if 0 < b.newTokens now then
        { b with
          tokens_ := if b.tokens_ + b.newTokens now < 0 then b.depth_
            else min b.depth_ (b.tokens_ + b.newTokens now)
          last_update_ := now }
      else b) := by
  obtain ⟨h₀, h₁, -, h₂, h₃, hreading⟩ := h
  have hconv : IntType.i64.conv b.depth_ = b.depth_ := by
    rw [IntType.i64_conv]
    omega
  obtain ⟨d, hsub, hms⟩ := hnow.sub hreading hlast
  have hnew : IntType.u64.conv (b.rate_ * d.inMilliseconds) / 1000 = b.newTokens now := by
    rw [hms, IntType.u64_conv]
    rfl
  simp only [TokenBucket.update, hconv, hsub, ok_bind, hnew]
  have hk := b.newTokens_nonneg now
  have hk₁ := b.newTokens_lt now
  -- what comes in is just a number from here on
  generalize b.newTokens now = k at hk hk₁
  split
  · rfl
  · split
    · rename_i hne
      have htokens : IntType.i64.conv (b.tokens_ + if IntType.u64.conv (b.tokens_ + k) > b.depth_
          then IntType.u64.conv (b.depth_ - b.tokens_) else k) =
          if b.tokens_ + k < 0 then b.depth_ else min b.depth_ (b.tokens_ + k) := by
        simp only [IntType.i64_conv, IntType.u64_conv]
        by_cases hneg : b.tokens_ + k < 0
        · rw [if_pos hneg, if_pos (by omega)]
          omega
        · rw [if_neg hneg]
          split
          · rw [Int.min_eq_left (by omega)]
            omega
          · rw [Int.min_eq_right (by omega)]
            omega
      have hpos : 0 < k := by omega
      simp only [htokens, hpos, if_true]
      rfl
    · have hpos : ¬ 0 < k := by omega
      simp only [hpos, if_false]
      rfl

theorem Sound.update (h : b.Sound) (hnow : now.Reading)
    (hlast : b.last_update_.usecs ≤ now.usecs) (hrefills : b.Refills now) :
    b.update now = .ok (b.filled now) := by
  have hle := h.tokens_le
  have hk := b.newTokens_nonneg now
  rw [h.update_eq hnow hlast]
  simp only [filled, level]
  split
  · rename_i hfull
    have hmin : min b.depth_ (b.tokens_ + b.newTokens now) = b.tokens_ := by omega
    rw [hmin, if_pos (.inl hfull)]
  · rename_i hfull
    split
    · rename_i hpos
      have hsum := hrefills hpos
      rw [if_neg (by omega)]
      simp [hpos]
    · have hzero : b.newTokens now = 0 := by omega
      simp [hfull, hzero, hle]

theorem Sound.update_of_not_refills (h : b.Sound) (hnow : now.Reading)
    (hlast : b.last_update_.usecs ≤ now.usecs) (hrefills : ¬ b.Refills now) :
    b.update now = .ok { b with tokens_ := b.depth_, last_update_ := now } := by
  have hdepth := h.depth_nonneg
  simp only [Refills, not_forall, Int.not_le] at hrefills
  obtain ⟨hpos, hsum⟩ := hrefills
  rw [h.update_eq hnow hlast, if_neg (by omega), if_pos hpos, if_pos hsum]

theorem Sound.filled (h : b.Sound) (hnow : now.Reading) : (b.filled now).Sound where
  depth_nonneg := h.depth_nonneg
  depth_lt := h.depth_lt
  rate_nonneg := h.rate_nonneg
  tokens_ge := by
    have hge := h.tokens_ge
    have hk := b.newTokens_nonneg now
    have := h.depth_nonneg
    simp only [TokenBucket.filled, level]
    omega
  tokens_le := Int.min_le_left ..
  reading := by
    simp only [TokenBucket.filled]
    split
    · exact hnow
    · exact h.reading

theorem filled_tokens_le (b : TokenBucket) (now : Time) :
    (b.filled now).tokens_ ≤ b.tokens_ + b.newTokens now :=
  Int.min_le_right ..

theorem filled_last_le (hlast : b.last_update_.usecs ≤ now.usecs) :
    (b.filled now).last_update_.usecs ≤ now.usecs := by
  simp only [TokenBucket.filled]
  split <;> omega

theorem le_filled_last (hlast : b.last_update_.usecs ≤ now.usecs) :
    b.last_update_.usecs ≤ (b.filled now).last_update_.usecs := by
  simp only [TokenBucket.filled]
  split <;> omega

/-- Where nothing overflows, an update raises the tokens by no more than the rate gives
    exactly when it makes an overdraft good. -/
theorem Sound.raises_iff (h : b.Sound) (hnow : now.Reading)
    (hlast : b.last_update_.usecs ≤ now.usecs)
    (hnew : b.newTokens now = b.rate_ * b.elapsed now / 1000) :
    (∀ b', b.update now = .ok b' → b'.tokens_ ≤ b.tokens_ + b.rate_ * b.elapsed now / 1000) ↔
      b.Refills now := by
  constructor
  · intro hraise
    by_contra hrefills
    have hle := hraise _ (h.update_of_not_refills hnow hlast hrefills)
    simp only [Refills, not_forall, Int.not_le] at hrefills
    obtain ⟨hpos, hsum⟩ := hrefills
    have := h.depth_nonneg
    simp only at hle
    omega
  · intro hrefills b' hupdate
    rw [h.update hnow hlast hrefills] at hupdate
    obtain rfl := Except.ok.inj hupdate
    have := b.filled_tokens_le now
    omega

/-! ### Runs -/

/-- What holds of a bucket in every state of a run: it has no more tokens than its depth, an
    update that `ok` allows adds no more than the rate gives for the time since
    `last_update_`, and what has been drained is no more than the depth, what the rate gives
    for the time of the run, and what is overdrawn. -/
structure Bounded (ok : State → Call × Time → Prop) (depth rate : Nat) (s : State) : Prop where
  tokens : s.bucket.tokens_ ≤ depth
  raises : ∀ now b, now.Reading → s.clock.usecs ≤ now.usecs → ok s (.update, now) →
    s.bucket.update now = .ok b →
      b.tokens_ ≤ s.bucket.tokens_ + rate * s.bucket.elapsed now / 1000
  drained : (s.drained : Int) ≤ depth + rate * ((s.clock.usecs - s.start.usecs) / 1000) / 1000 +
    max 0 (-s.bucket.tokens_)

/-- The update of the call makes an overdraft good or has nothing to add, and the call does
    not overdraw the bucket by more than an `int64_t` holds. -/
def Careful (s : State) (a : Call × Time) : Prop :=
  s.bucket.Refills a.2 ∧
    ∀ length, a.1 = .drain length false → (length : Int) ≤ s.bucket.level a.2 + 2 ^ 63

/-- What holds between any two calls of a careful run. -/
structure Inv (depth rate : Nat) (s : State) : Prop extends Sound s.bucket where
  depth_eq : s.bucket.depth_ = depth
  rate_eq : s.bucket.rate_ = rate
  clock : s.clock.Reading
  last_le : s.bucket.last_update_.usecs ≤ s.clock.usecs
  start_le : s.start.usecs ≤ s.bucket.last_update_.usecs
  /-- Tokens drained and tokens left are what there was and what came in. -/
  balance : s.drained + s.bucket.tokens_ ≤
    depth + rate * ((s.bucket.last_update_.usecs - s.start.usecs) / 1000) / 1000

private theorem rate_add_le {r a e c : Int} (hr : 0 ≤ r) (h : a + e ≤ c) :
    r * a / 1000 + r * e / 1000 ≤ r * c / 1000 := by
  have hmul := Int.mul_le_mul_of_nonneg_left h hr
  rw [Int.mul_add] at hmul
  omega

theorem inv_new {depth rate : Nat} (hdepth : depth < 2 ^ 63) {now : Time} (hnow : now.Reading) :
    Inv depth rate ⟨.new depth rate now, now, now, 0⟩ := by
  have hconv : IntType.i64.conv (depth : Int) = depth := by
    rw [IntType.i64_conv]
    omega
  refine ⟨⟨?_, ?_, ?_, ?_, ?_, hnow⟩, rfl, rfl, hnow, Int.le_refl _, Int.le_refl _, ?_⟩
  all_goals simp only [new, hconv]
  · omega
  · omega
  · omega
  · omega
  · omega
  · simp

def State.updated (s : State) (now : Time) : State :=
  { s with clock := now, bucket := s.bucket.filled now }

section Steps

variable {B : Build} {depth rate : Nat} {s : State}

theorem Inv.updated (h : Inv depth rate s) (hnow : now.Reading)
    (hclock : s.clock.usecs ≤ now.usecs) : Inv depth rate (s.updated now) := by
  have hk := s.bucket.newTokens_nonneg now
  have hlast := h.last_le
  have hstart := h.start_le
  have helapsed : 0 ≤ s.bucket.elapsed now := by
    simp only [elapsed]
    omega
  have hle := newTokens_le h.rate_nonneg helapsed
  rw [h.rate_eq] at hle
  have hrate : (0 : Int) ≤ rate := by omega
  have htokens := h.tokens_le
  have hbalance := h.balance
  refine ⟨h.toSound.filled hnow, h.depth_eq, h.rate_eq, hnow, filled_last_le (by omega),
    Int.le_trans hstart (le_filled_last (by omega)), ?_⟩
  simp only [State.updated, filled, level]
  split
  · -- what came in is for the time up to `now`
    have := rate_add_le (c := (now.usecs - s.start.usecs) / 1000) hrate
      (a := (s.bucket.last_update_.usecs - s.start.usecs) / 1000) (e := s.bucket.elapsed now)
      (by simp only [elapsed]; omega)
    omega
  · omega

theorem Inv.drained (h : Inv depth rate s) {length : Nat}
    (hlength : (length : Int) ≤ s.bucket.tokens_ + 2 ^ 63) :
    Inv depth rate
      { s with
        bucket := { s.bucket with tokens_ := IntType.i64.conv (s.bucket.tokens_ - length) }
        drained := s.drained + length } := by
  have hge := h.tokens_ge
  have hle := h.tokens_le
  have hlt := h.depth_lt
  have hbalance := h.balance
  have hconv : IntType.i64.conv (s.bucket.tokens_ - length) = s.bucket.tokens_ - length := by
    rw [IntType.i64_conv]
    omega
  rw [hconv]
  refine ⟨⟨h.depth_nonneg, hlt, h.rate_nonneg, ?_, ?_, h.reading⟩, h.depth_eq, h.rate_eq,
    h.clock, h.last_le, h.start_le, ?_⟩
  · simp only
    omega
  · simp only
    omega
  · push_cast
    omega

theorem drain_ok {u : TokenBucket} {length : Int} {only_if_enough enough : Bool}
    (hupdate : b.update now = .ok u)
    (h : b.drain length only_if_enough now = .ok (enough, b')) :
    (enough = true ↔ 0 ≤ u.tokens_ ∧ length ≤ u.tokens_) ∧
      b' = if enough || !only_if_enough then
        { u with tokens_ := IntType.i64.conv (u.tokens_ - length) } else u := by
  simp only [drain, hupdate, ok_bind] at h
  have henough : ((if u.tokens_ < 0 then false else decide (length ≤ u.tokens_)) = true) ↔
      0 ≤ u.tokens_ ∧ length ≤ u.tokens_ := by
    split <;> simp <;> omega
  split at h
  · -- the assertion of `try_to_drain` holds
    obtain ⟨-, -, h⟩ := bind_eq_ok.1 h
    obtain ⟨rfl, rfl⟩ := Prod.mk.inj (Except.ok.inj h)
    exact ⟨henough, rfl⟩
  · obtain ⟨rfl, rfl⟩ := Prod.mk.inj (Except.ok.inj h)
    exact ⟨henough, rfl⟩

theorem timeToLevel_ok {n : Int} {t : Time} (h : b.timeToLevel B n now = .ok (t, b')) :
    b.update now = .ok b' := by
  obtain ⟨u, hupdate, h⟩ := bind_eq_ok.1 h
  obtain ⟨need, -, h⟩ := bind_eq_ok.1 h
  obtain ⟨sec, -, h⟩ := bind_eq_ok.1 h
  obtain ⟨product, -, h⟩ := bind_eq_ok.1 h
  obtain ⟨usec, -, h⟩ := bind_eq_ok.1 h
  rw [hupdate, (Prod.mk.inj (Except.ok.inj h)).2]

private theorem Inv.drain (h : Inv depth rate s) (hnow : now.Reading)
    (hclock : s.clock.usecs ≤ now.usecs) (hrefills : s.bucket.Refills now) {length : Nat}
    {only_if_enough enough : Bool}
    (hforced : only_if_enough = false → (length : Int) ≤ s.bucket.level now + 2 ^ 63)
    (hdrain : s.bucket.drain length only_if_enough now = .ok (enough, b')) :
    Inv depth rate ⟨b', s.start, now,
      s.drained + if enough || !only_if_enough then length else 0⟩ := by
  have hlast := h.last_le
  have hupdate := h.toSound.update hnow (by omega) hrefills
  have hinv := h.updated hnow hclock
  obtain ⟨henough, rfl⟩ := drain_ok hupdate hdrain
  split
  · rename_i hdrained
    apply hinv.drained
    rw [Bool.or_eq_true, Bool.not_eq_true'] at hdrained
    rcases hdrained with hdrained | hdrained
    · have hlength := (henough.1 hdrained).2
      exact Int.le_trans hlength (by simp only [State.updated, TokenBucket.filled]; omega)
    · exact hforced hdrained
  · exact hinv

theorem Inv.step {a : Call × Time} {s' : State} (h : Inv depth rate s) (hcareful : Careful s a)
    (hstep : (system B depth rate).step s a s') : Inv depth rate s' := by
  obtain ⟨c, now⟩ := a
  obtain ⟨hnow, hclock, drained, hcall, hs'⟩ := hstep
  obtain ⟨hrefills, hforced⟩ := hcareful
  have hlast := h.last_le
  have hclock : s.clock.usecs ≤ now.usecs := hclock
  have hupdate := h.toSound.update hnow (by omega) hrefills
  have hinv := h.updated hnow hclock
  rw [hs']
  cases c with
  | drain length only_if_enough =>
    obtain ⟨r, hdrain, hr⟩ := bind_eq_ok.1 hcall
    obtain ⟨hbucket, hdrained⟩ := Prod.mk.inj (Except.ok.inj hr)
    rw [← hbucket, ← hdrained]
    apply h.drain hnow hclock hrefills _ hdrain
    intro hno
    exact hforced length (by rw [hno])
  | tryToDrain length =>
    obtain ⟨r, hdrain, hr⟩ := bind_eq_ok.1 hcall
    obtain ⟨hbucket, hdrained⟩ := Prod.mk.inj (Except.ok.inj hr)
    rw [← hbucket, ← hdrained]
    have hdrain : s.bucket.drain length true now = .ok (r.1, r.2) := hdrain
    have := h.drain hnow hclock hrefills (by simp) hdrain
    simpa using this
  | update =>
    simp only [call, hupdate, ok_bind, pure_eq_ok, Except.ok.injEq, Prod.mk.injEq] at hcall
    obtain ⟨hbucket, rfl⟩ := hcall
    rw [← hbucket]
    exact hinv
  | timeToLevel n =>
    obtain ⟨r, hlevel, hr⟩ := bind_eq_ok.1 hcall
    obtain ⟨hbucket, rfl⟩ := Prod.mk.inj (Except.ok.inj hr)
    have := timeToLevel_ok hlevel
    rw [hupdate] at this
    rw [← hbucket, ← Except.ok.inj this]
    exact hinv

end Steps

theorem Inv.bounded {depth rate : Nat} {s : State} (h : Inv depth rate s) :
    Bounded Careful depth rate s where
  tokens := h.depth_eq ▸ h.tokens_le
  raises now b hnow hclock hcareful hupdate := by
    have hlast := h.last_le
    have helapsed : 0 ≤ s.bucket.elapsed now := by
      simp only [elapsed]
      omega
    have hle := newTokens_le h.rate_nonneg helapsed
    rw [h.toSound.update hnow (by omega) hcareful.1] at hupdate
    obtain rfl := Except.ok.inj hupdate
    rw [h.rate_eq] at hle
    have := s.bucket.filled_tokens_le now
    omega
  drained := by
    have hbalance := h.balance
    have hlast := h.last_le
    have hmono := rate_add_le (r := rate) (e := 0) (Int.natCast_nonneg _)
      (show (s.bucket.last_update_.usecs - s.start.usecs) / 1000 + 0 ≤
        (s.clock.usecs - s.start.usecs) / 1000 by omega)
    omega

/-- In every run whose calls are careful, of any length. -/
theorem rateBound_of_careful (B : Build) {depth : Nat} (hdepth : depth < 2 ^ 63) (rate : Nat)
    {s : State} (hs : (system B depth rate).ReachableWith Careful s) :
    Bounded Careful depth rate s := by
  have hinv : Inv depth rate s := by
    apply hs.invariant
    · rintro s ⟨now, hnow, rfl⟩
      exact inv_new hdepth hnow
    · intro s a s' h hcareful hstep
      exact h.step hcareful hstep
  exact hinv.bounded

/-- A bucket is overdrawn by 10 tokens, and a second later made good. -/
theorem rateBound_of_careful_overdraft : ∃ s : State, s.bucket.tokens_ = 990 ∧ s.drained = 10010 ∧
    Bounded Careful 10000 1000 s := by
  have hdrain : (system ⟨false, false⟩ 10000 1000).ReachableWith Careful
      ⟨⟨10000, 1000, -10, ⟨0, 0⟩⟩, ⟨0, 0⟩, ⟨0, 0⟩, 10010⟩ :=
    .step (a := (.drain 10010 false, ⟨0, 0⟩)) (.init ⟨⟨0, 0⟩, by decide, rfl⟩)
      ⟨by decide +kernel, fun length hlength => by cases hlength; decide +kernel⟩
      ⟨by decide, by decide, 10010, by decide +kernel, rfl⟩
  have hupdate : (system ⟨false, false⟩ 10000 1000).ReachableWith Careful
      ⟨⟨10000, 1000, 990, ⟨1, 0⟩⟩, ⟨0, 0⟩, ⟨1, 0⟩, 10010⟩ :=
    .step (a := (.update, ⟨1, 0⟩)) hdrain ⟨by decide, nofun⟩
      ⟨by decide, by decide, 0, by decide +kernel, rfl⟩
  exact ⟨_, rfl, rfl, rateBound_of_careful _ (by decide) 1000 hupdate⟩

/-- The lengths and the clock that a bucket is made for: no length comes near what a `u_int64_t`
    holds, and the rate times the milliseconds since `last_update_` does not overflow. -/
def Admissible (s : State) (a : Call × Time) : Prop :=
  s.bucket.rate_ * s.bucket.elapsed a.2 < 2 ^ 64 ∧
    ∀ length only_if_enough, a.1 = .drain length only_if_enough ∨ a.1 = .tryToDrain length →
      length < 2 ^ 62

/-- Without the condition a bucket overdrawn by 10000 tokens is full 10 milliseconds later,
    for which the rate gives 10 tokens. -/
theorem not_rateBound : ¬ ∀ (B : Build) (depth rate : Nat) (s : State), depth < 2 ^ 63 →
    (system B depth rate).ReachableWith Admissible s → Bounded Admissible depth rate s := by
  intro h
  have hdrain : (system ⟨false, false⟩ 10000 1000).ReachableWith Admissible
      ⟨⟨10000, 1000, -10000, ⟨0, 0⟩⟩, ⟨0, 0⟩, ⟨0, 0⟩, 20000⟩ := by
    refine .step (a := (.drain 20000 false, ⟨0, 0⟩)) (.init ⟨⟨0, 0⟩, by decide, rfl⟩)
      ⟨by decide, ?_⟩ ⟨by decide, by decide, 20000, by decide +kernel, rfl⟩
    rintro length only_if_enough (hlength | hlength) <;> cases hlength
    decide
  have hraise := (h _ _ _ _ (by decide) hdrain).raises ⟨0, 10000⟩
    ⟨10000, 1000, 10000, ⟨0, 10000⟩⟩ (by decide) (by decide) ⟨by decide, nofun⟩ (by decide +kernel)
  exact absurd hraise (by decide)

/-! ### try_to_drain -/

/-- The fields have values of their types. -/
structure Typed (b : TokenBucket) : Prop where
  depth_nonneg : 0 ≤ b.depth_
  depth_lt : b.depth_ < 2 ^ 64
  tokens_ge : -(2 ^ 63) ≤ b.tokens_
  tokens_lt : b.tokens_ < 2 ^ 63
  reading : b.last_update_.Reading

/-- Everything that is available after the refill can be drained, all of it or nothing. -/
def DrainsIfEnough (b : TokenBucket) (length : Int) (now : Time) : Prop :=
  ∃ u, b.update now = .ok u ∧
    b.tryToDrain length now = .ok
      (if length ≤ u.tokens_ then (true, { u with tokens_ := u.tokens_ - length }) else (false, u))

/-- A bucket that is not overdrawn, or that gets something now, so that the overdraft is gone;
    and a clock that has not gone back where there is something to refill. With a depth of
    `2 ^ 63` or more, which `tokens_` cannot hold, the refill must not get that far. -/
def Covered (b : TokenBucket) (now : Time) : Prop :=
  if b.tokens_ = IntType.i64.conv b.depth_ then 0 ≤ b.tokens_
  else b.last_update_.usecs ≤ now.usecs ∧
    if b.newTokens now = 0 then 0 ≤ b.tokens_
    else b.depth_ < 2 ^ 63 ∨ IntType.u64.conv (b.tokens_ + b.newTokens now) < 2 ^ 63

instance (b : TokenBucket) (now : Time) : Decidable (b.Covered now) :=
  inferInstanceAs (Decidable (ite _ _ _))

theorem Typed.update_eq (h : b.Typed) (hnow : now.Reading) :
    b.update now =
      if b.tokens_ = IntType.i64.conv b.depth_ then .ok { b with last_update_ := now }
      else if b.last_update_.usecs ≤ now.usecs then
        .ok (if b.newTokens now = 0 then b
          else
            { b with
              tokens_ := IntType.i64.conv
                (min (IntType.u64.conv (b.tokens_ + b.newTokens now)) b.depth_)
              last_update_ := now })
      else .error .assertFailed := by
  obtain ⟨h₀, h₁, h₂, h₃, hreading⟩ := h
  rw [TokenBucket.update]
  split
  · rfl
  split
  · rename_i hlast
    obtain ⟨d, hsub, hms⟩ := hnow.sub hreading hlast
    have hnew : IntType.u64.conv (b.rate_ * d.inMilliseconds) / 1000 = b.newTokens now := by
      rw [hms, IntType.u64_conv]
      rfl
    simp only [hsub, ok_bind, hnew]
    have hk := b.newTokens_nonneg now
    have hk₁ := b.newTokens_lt now
    generalize b.newTokens now = k at hk hk₁
    by_cases hzero : k = 0
    · simp [hzero]
    · -- either way the sum is taken modulo `2 ^ 64`
      have htokens : IntType.i64.conv (b.tokens_ + if IntType.u64.conv (b.tokens_ + k) > b.depth_
          then IntType.u64.conv (b.depth_ - b.tokens_) else k) =
          IntType.i64.conv (min (IntType.u64.conv (b.tokens_ + k)) b.depth_) := by
        simp only [IntType.i64_conv, IntType.u64_conv]
        split <;> omega
      simp only [hzero, if_false, ne_eq, not_false_eq_true, if_true, htokens]
      rfl
  · rename_i hlast
    have hge : now.ge b.last_update_ = false := by
      rw [Bool.eq_false_iff]
      exact fun h => hlast ((hnow.ge_iff hreading).1 h)
    simp only [Time.sub, hge]
    rfl

theorem tryToDrain_eq {u : TokenBucket} (hupdate : b.update now = .ok u) (length : Int) :
    b.tryToDrain length now =
      let enough := 0 ≤ u.tokens_ ∧ length ≤ u.tokens_
      let b := if enough then { u with tokens_ := IntType.i64.conv (u.tokens_ - length) } else u
      if 0 ≤ b.tokens_ then .ok (enough, b) else .error .assertFailed := by
  have henough : (if u.tokens_ < 0 then false else decide (length ≤ u.tokens_)) =
      decide (0 ≤ u.tokens_ ∧ length ≤ u.tokens_) := by
    split <;> simp <;> omega
  simp only [tryToDrain, drain, hupdate, ok_bind, henough, Bool.not_true, Bool.or_false, if_true,
    decide_eq_true_eq, ge_iff_le]
  generalize (if 0 ≤ u.tokens_ ∧ length ≤ u.tokens_ then _ else u) = b'
  by_cases hnonneg : 0 ≤ b'.tokens_
  · simp [hnonneg]
  · simp [hnonneg, assert]

theorem drainsIfEnough_iff_update (h : ∀ u, b.update now = .ok u → u.tokens_ < 2 ^ 63)
    {length : Int} (hlength : 0 ≤ length) :
    b.DrainsIfEnough length now ↔ ∃ u, b.update now = .ok u ∧ 0 ≤ u.tokens_ := by
  refine exists_congr fun u => and_congr_right fun hupdate => ?_
  have hlt := h u hupdate
  rw [tryToDrain_eq hupdate]
  by_cases hnonneg : 0 ≤ u.tokens_
  · refine iff_of_true ?_ hnonneg
    by_cases hle : length ≤ u.tokens_
    · have hconv : IntType.i64.conv (u.tokens_ - length) = u.tokens_ - length := by
        rw [IntType.i64_conv]
        omega
      simp [hnonneg, hle, hconv]
    · simp [hnonneg, hle]
  · -- the assertion is about an overdraft that is not of this call
    simp [hnonneg]

theorem conv_bounds (z : Int) : -(2 ^ 63) ≤ IntType.i64.conv z ∧ IntType.i64.conv z < 2 ^ 63 := by
  rw [IntType.i64_conv]
  omega

theorem Typed.of_update (h : b.Typed) (hnow : now.Reading) (hupdate : b.update now = .ok b') :
    b'.Typed := by
  have hconv := conv_bounds (min (IntType.u64.conv (b.tokens_ + b.newTokens now)) b.depth_)
  rw [h.update_eq hnow] at hupdate
  split at hupdate
  · obtain rfl := Except.ok.inj hupdate
    exact ⟨h.depth_nonneg, h.depth_lt, h.tokens_ge, h.tokens_lt, hnow⟩
  split at hupdate
  · obtain rfl := Except.ok.inj hupdate
    split
    · exact h
    · exact ⟨h.depth_nonneg, h.depth_lt, hconv.1, hconv.2, hnow⟩
  · cases hupdate

theorem Typed.covered_iff (h : b.Typed) (hnow : now.Reading) :
    (∃ u, b.update now = .ok u ∧ 0 ≤ u.tokens_) ↔ b.Covered now := by
  rw [h.update_eq hnow, Covered]
  split
  · simp
  split
  · rename_i hlast
    simp only [hlast, true_and, Except.ok.injEq, exists_eq_left']
    split
    · rfl
    · -- the unsigned minimum is one of a signed 64-bit number where it is below `2 ^ 63`
      have hdepth := h.depth_nonneg
      have hdepth' := h.depth_lt
      simp only [IntType.i64_conv, IntType.u64_conv]
      omega
  · rename_i hlast
    simp [hlast]

theorem Typed.covered_iff_of_lt (h : b.Typed) (hdepth : b.depth_ < 2 ^ 63)
    (hlast : b.last_update_.usecs ≤ now.usecs) :
    b.Covered now ↔ 0 ≤ b.tokens_ ∨ 0 < b.newTokens now := by
  have hnonneg := h.depth_nonneg
  have hk := b.newTokens_nonneg now
  have hconv : IntType.i64.conv b.depth_ = b.depth_ := by
    rw [IntType.i64_conv]
    omega
  simp only [Covered, hconv, hlast, hdepth, true_and, true_or]
  split
  · omega
  · by_cases hzero : b.newTokens now = 0
    · simp [hzero]
    · have hpos : 0 < b.newTokens now := by omega
      simp [hzero, hpos]

theorem Typed.op {B : Build} {o : Op} (h : b.Typed) (hnow : now.Reading)
    (hop : b.op B o now = .ok b') : b'.Typed := by
  have hdrained : ∀ {u : TokenBucket} {length : Int}, u.Typed →
      Typed { u with tokens_ := IntType.i64.conv (u.tokens_ - length) } := by
    intro u length hu
    have hconv := conv_bounds (u.tokens_ - length)
    exact ⟨hu.depth_nonneg, hu.depth_lt, hconv.1, hconv.2, hu.reading⟩
  have hdrain : ∀ {length : Int} {only enough : Bool} {b' : TokenBucket},
      b.drain length only now = .ok (enough, b') → b'.Typed := by
    intro length only enough b' hdrain
    obtain ⟨u, hupdate, -⟩ := bind_eq_ok.1 hdrain
    obtain ⟨-, rfl⟩ := drain_ok hupdate hdrain
    have hu := h.of_update hnow hupdate
    split
    · exact hdrained hu
    · exact hu
  have hlevel : ∀ {n : Int} {t : Time} {b' : TokenBucket},
      b.timeToLevel B n now = .ok (t, b') → b'.Typed :=
    fun hlevel => h.of_update hnow (timeToLevel_ok hlevel)
  cases o with
  | call c =>
    obtain ⟨⟨b'', n⟩, hcall, rfl⟩ := map_eq_ok.1 hop
    cases c with
    | drain length only =>
      obtain ⟨r, hr, heq⟩ := bind_eq_ok.1 hcall
      obtain ⟨rfl, -⟩ := Prod.mk.inj (Except.ok.inj heq)
      exact hdrain hr
    | tryToDrain length =>
      obtain ⟨r, hr, heq⟩ := bind_eq_ok.1 hcall
      obtain ⟨rfl, -⟩ := Prod.mk.inj (Except.ok.inj heq)
      exact hdrain hr
    | update =>
      obtain ⟨u, hu, heq⟩ := bind_eq_ok.1 hcall
      obtain ⟨rfl, -⟩ := Prod.mk.inj (Except.ok.inj heq)
      exact h.of_update hnow hu
    | timeToLevel n =>
      obtain ⟨r, hr, heq⟩ := bind_eq_ok.1 hcall
      obtain ⟨rfl, -⟩ := Prod.mk.inj (Except.ok.inj heq)
      exact hlevel hr
  | timeToFill =>
    obtain ⟨r, hr, rfl⟩ := map_eq_ok.1 hop
    exact hlevel hr
  | setDepth depth =>
    have hlt := depth.toNat_lt
    have htyped : Typed { b with depth_ := depth.toNat } :=
      ⟨by simp, by simp only; omega, h.tokens_ge, h.tokens_lt, h.reading⟩
    exact htyped.of_update hnow hop
  | setRate rate =>
    have htyped : Typed { b with rate_ := rate.toNat } :=
      ⟨h.depth_nonneg, h.depth_lt, h.tokens_ge, h.tokens_lt, h.reading⟩
    exact htyped.of_update hnow hop
  | empty =>
    obtain rfl := Except.ok.inj hop
    exact ⟨h.depth_nonneg, h.depth_lt, by simp [TokenBucket.empty], by simp [TokenBucket.empty],
      hnow⟩

theorem typed_of_reachable {B : Build} {depth rate : UInt64}
    (hb : (operations B depth rate).Reachable b) : b.Typed := by
  apply hb.invariant (P := Typed)
  · rintro b ⟨now, hnow, rfl⟩
    have hlt := depth.toNat_lt
    have hconv := conv_bounds depth.toNat
    exact ⟨by simp [new], by simp only [new]; omega, hconv.1, hconv.2, hnow⟩
  · intro b a b' h _ hstep
    exact h.op hstep.1 hstep.2

/-- In every state of every run, for every length: `try_to_drain` fails no assertion and drains
    the length or nothing exactly where the bucket is covered. -/
theorem drainsIfEnough_iff_covered (B : Build) (depth rate : UInt64)
    (hb : (operations B depth rate).Reachable b) (length : UInt64) (hnow : now.Reading) :
    b.DrainsIfEnough length.toNat now ↔ b.Covered now := by
  have htyped := typed_of_reachable hb
  rw [drainsIfEnough_iff_update _ (by simp)]
  · exact htyped.covered_iff hnow
  · exact fun u hu => (htyped.of_update hnow hu).tokens_lt

/-- A bucket that has been overdrawn by 10 tokens, for which 20 have come in. -/
theorem drainsIfEnough_overdraft :
    DrainsIfEnough ⟨10, 1000, -10, ⟨0, 0⟩⟩ 7 ⟨0, 20000⟩ := by
  have hdrain : (operations ⟨false, false⟩ 10 1000).Reachable ⟨10, 1000, -10, ⟨0, 0⟩⟩ :=
    .step (a := (.call (.drain 20 false), ⟨0, 0⟩)) (.init ⟨⟨0, 0⟩, by decide, rfl⟩) trivial
      ⟨by decide, by decide +kernel⟩
  exact (drainsIfEnough_iff_covered _ _ _ hdrain 7 (by decide)).2 (by decide +kernel)

/-- Before anything has come in, the assertion of `drain` fails. -/
theorem not_drainsIfEnough : ¬ ∀ (B : Build) (depth rate : UInt64) (b : TokenBucket)
    (length : UInt64) (now : Time), (operations B depth rate).Reachable b → now.Reading →
      b.last_update_.usecs ≤ now.usecs → b.DrainsIfEnough length.toNat now := by
  intro h
  have hdrain : (operations ⟨false, false⟩ 10 1000).Reachable ⟨10, 1000, -10, ⟨0, 0⟩⟩ :=
    .step (a := (.call (.drain 20 false), ⟨0, 0⟩)) (.init ⟨⟨0, 0⟩, by decide, rfl⟩) trivial
      ⟨by decide, by decide +kernel⟩
  obtain ⟨u, hu, hfails⟩ := h _ _ _ _ 1 ⟨0, 0⟩ hdrain (by decide) (by decide)
  have hfault : (tryToDrain ⟨10, 1000, -10, ⟨0, 0⟩⟩ 1 ⟨0, 0⟩) = .error .assertFailed := by
    decide +kernel
  cases hfault.symm.trans hfails

/-! ### time_to_level -/

/-- What the rate gives for the whole milliseconds since `last_update_`, in thousandths of a
    token and in the arithmetic of the code. -/
def credit (b : TokenBucket) (now : Time) : Int :=
  b.rate_ * (b.elapsed now % 2 ^ 32) % 2 ^ 64

/-- The bucket after an update, for whatever values the fields have. -/
def refilled (b : TokenBucket) (now : Time) : TokenBucket :=
  if b.tokens_ = IntType.i64.conv b.depth_ then { b with last_update_ := now }
  else if b.credit now < 1000 then b
  else
    { b with
      tokens_ := IntType.i64.conv
        (min (IntType.u64.conv (b.tokens_ + b.credit now / 1000)) b.depth_)
      last_update_ := now }

/-- The milliseconds until then are enough for a level: for each token that is missing there is
    a thousandfold credit, or the level is reached without any. An overdraft of more than comes
    in is made good at once. A depth of `2 ^ 63` or more `tokens_` cannot hold. -/
def Waited (b : TokenBucket) (n : Int) (later : Time) : Prop :=
  if b.tokens_ = IntType.i64.conv b.depth_ ∨ b.credit later < 1000 then n ≤ b.tokens_
  else if b.depth_ < 2 ^ 63 then
    b.tokens_ + b.credit later / 1000 < 0 ∨ 1000 * (n - b.tokens_) ≤ b.credit later
  else
    n ≤ IntType.i64.conv (min (IntType.u64.conv (b.tokens_ + b.credit later / 1000)) b.depth_)

instance (b : TokenBucket) (n : Int) (later : Time) : Decidable (b.Waited n later) :=
  inferInstanceAs (Decidable (ite _ _ _))

theorem credit_bounds (b : TokenBucket) (now : Time) :
    0 ≤ b.credit now ∧ b.credit now < 2 ^ 64 := by
  rw [credit]
  omega

theorem Typed.update_refilled (h : b.Typed) (hnow : now.Reading)
    (hlast : b.last_update_.usecs ≤ now.usecs) : b.update now = .ok (b.refilled now) := by
  obtain ⟨hnonneg, -⟩ := b.credit_bounds now
  have hnew : b.newTokens now = b.credit now / 1000 := rfl
  rw [h.update_eq hnow, if_pos hlast, refilled, hnew]
  by_cases hfull : b.tokens_ = IntType.i64.conv b.depth_
  · rw [if_pos hfull, if_pos hfull]
  · rw [if_neg hfull, if_neg hfull]
    by_cases hsmall : b.credit now < 1000
    · rw [if_pos hsmall, if_pos (by omega)]
    · rw [if_neg hsmall, if_neg (by omega)]

theorem Typed.eq_refilled (h : b.Typed) (hnow : now.Reading) (hupdate : b.update now = .ok b') :
    b' = b.refilled now ∧ b'.last_update_.usecs ≤ now.usecs := by
  by_cases hlast : b.last_update_.usecs ≤ now.usecs
  · rw [h.update_refilled hnow hlast] at hupdate
    obtain rfl := Except.ok.inj hupdate
    refine ⟨rfl, ?_⟩
    rw [refilled]
    split
    · exact Int.le_refl _
    · split
      · exact hlast
      · exact Int.le_refl _
  · rw [h.update_eq hnow, if_neg hlast] at hupdate
    split at hupdate
    · rename_i hfull
      obtain rfl := Except.ok.inj hupdate
      rw [refilled, if_pos hfull]
      exact ⟨rfl, Int.le_refl _⟩
    · cases hupdate

theorem Typed.waited_iff (h : b.Typed) {n : Int} (hn : n ≤ b.depth_) {later : Time} :
    n ≤ (b.refilled later).tokens_ ↔ b.Waited n later := by
  obtain ⟨hnonneg, hlt⟩ := b.credit_bounds later
  rw [refilled, Waited]
  by_cases hfull : b.tokens_ = IntType.i64.conv b.depth_
  · rw [if_pos hfull, if_pos (Or.inl hfull)]
  · rw [if_neg hfull]
    by_cases hsmall : b.credit later < 1000
    · rw [if_pos hsmall, if_pos (Or.inr hsmall)]
    · rw [if_neg hsmall, if_neg (by simp only [hfull, hsmall, or_self, not_false_eq_true])]
      by_cases hdepth : b.depth_ < 2 ^ 63
      · have hge := h.tokens_ge
        have hlt' := h.tokens_lt
        have hdepth₀ := h.depth_nonneg
        rw [if_pos hdepth]
        simp only [IntType.i64_conv, IntType.u64_conv]
        omega
      · rw [if_neg hdepth]

theorem timeToLevel_reading {n : Int} {t : Time} (h : b.timeToLevel B n now = .ok (t, b')) :
    0 ≤ t.usecs := by
  obtain ⟨u, -, h⟩ := bind_eq_ok.1 h
  obtain ⟨need, -, h⟩ := bind_eq_ok.1 h
  obtain ⟨sec, -, h⟩ := bind_eq_ok.1 h
  obtain ⟨product, -, h⟩ := bind_eq_ok.1 h
  obtain ⟨usec, -, h⟩ := bind_eq_ok.1 h
  rw [← (Prod.mk.inj (Except.ok.inj h)).1]
  have husec : IntType.u32.conv (usec % 1000000) = usec % 1000000 := by
    rw [IntType.u32_conv]
    omega
  have hclean : ¬ usec % 1000000 > 1000000 := by omega
  simp only [Time.new, Time.cleanup, husec, if_neg hclean, Time.usecs, IntType.u32_conv]
  omega

@[simp] theorem refilled_depth (b : TokenBucket) (now : Time) :
    (b.refilled now).depth_ = b.depth_ := by
  unfold refilled
  split
  · rfl
  · split <;> rfl

@[simp] theorem refilled_rate (b : TokenBucket) (now : Time) :
    (b.refilled now).rate_ = b.rate_ := by
  unfold refilled
  split
  · rfl
  · split <;> rfl

theorem arith_i64 (B : Build) {z : Int} (h₀ : 0 ≤ z) (h : z < 2 ^ 63) :
    IntType.i64.arith B z = .ok z ∧ IntType.u64.conv z = z := by
  constructor
  · apply IntType.arith_of_inRange
    simp only [IntType.InRange, IntType.max, IntType.min, IntType.size, IntType.i64]
    omega
  · rw [IntType.u64_conv]
    omega

/-- Where nothing overflows, the time is that for the missing tokens, rounded down to
    microseconds. -/
theorem timeToLevel_usecs {u : TokenBucket} {n : Int} {t : Time} (hrate : 0 < u.rate_)
    (hupdate : b.update now = .ok u) (htokens : u.tokens_ < n)
    (hproduct : (n - u.tokens_) * 1000000 < 2 ^ 63)
    (hshort : 1000 * (n - u.tokens_) / u.rate_ < 2 ^ 32)
    (h : b.timeToLevel B n now = .ok (t, b')) :
    t.usecs = (n - u.tokens_) * 1000000 / u.rate_ := by
  have hne : u.rate_ ≠ 0 := Int.ne_of_gt hrate
  obtain ⟨hneed, hneedu⟩ := arith_i64 B (z := n - u.tokens_) (by omega) (by omega)
  obtain ⟨hprod, hprodu⟩ := arith_i64 B (z := (n - u.tokens_) * 1000000) (by omega) hproduct
  rw [timeToLevel, hupdate, ok_bind, need, if_pos htokens, hneed, ok_bind, divU64, if_neg hne,
    pure_eq_ok, ok_bind, hprod, ok_bind, divU64, if_neg hne, pure_eq_ok, ok_bind, hneedu,
    hprodu] at h
  rw [← (Prod.mk.inj (Except.ok.inj h)).1]
  have hm : 0 ≤ n - u.tokens_ := by omega
  generalize n - u.tokens_ = m at *
  -- the seconds are those of the microseconds
  have hsec : m * 1000000 / u.rate_ / 1000000 = m / u.rate_ := by
    rw [Int.ediv_ediv_of_nonneg (Int.le_of_lt hrate), Int.mul_ediv_mul_of_pos_left _ _ (by decide)]
  have hsec₀ : 0 ≤ m / u.rate_ := Int.ediv_nonneg (by omega) (Int.le_of_lt hrate)
  have hle : m / u.rate_ ≤ 1000 * m / u.rate_ := Int.ediv_le_ediv hrate (by omega)
  generalize m * 1000000 / u.rate_ = x at *
  generalize m / u.rate_ = s at *
  have hclean : ¬ x % 1000000 % 2 ^ 32 > 1000000 := by omega
  simp only [Time.new, Time.cleanup, Time.usecs, IntType.u32_conv, if_neg hclean]
  omega

/-- The shortest wait for a level that a bucket which was updated just now has not reached. No
    number that it takes overflows. -/
structure ShortestWait (u : TokenBucket) (n : Int) (t now later : Time) : Prop where
  updated : u.last_update_ = now
  later_eq : later.usecs = now.usecs + t.usecs
  depth_lt : u.depth_ < 2 ^ 63
  tokens_nonneg : 0 ≤ u.tokens_
  tokens_lt : u.tokens_ < n
  product_lt : (n - u.tokens_) * 1000000 < 2 ^ 63
  short : 1000 * (n - u.tokens_) / u.rate_ < 2 ^ 32

theorem ShortestWait.credit_eq {u : TokenBucket} {n : Int} {t later : Time}
    (h : u.ShortestWait n t now later) (hrate : 0 < u.rate_)
    (ht : t.usecs = (n - u.tokens_) * 1000000 / u.rate_) :
    u.credit later = u.rate_ * (1000 * (n - u.tokens_) / u.rate_) := by
  obtain ⟨hupdated, hlater, -, -, htokens, hproduct, hshort⟩ := h
  have hms : u.elapsed later = 1000 * (n - u.tokens_) / u.rate_ := by
    have hsub : later.usecs - now.usecs = (n - u.tokens_) * 1000000 / u.rate_ := by omega
    have hscale : (n - u.tokens_) * 1000000 = 1000 * (n - u.tokens_) * 1000 := by omega
    rw [elapsed, hupdated, hsub, Int.ediv_ediv_of_nonneg (Int.le_of_lt hrate), hscale,
      Int.mul_ediv_mul_of_pos_left _ _ (by decide)]
  have hms₀ : 0 ≤ 1000 * (n - u.tokens_) / u.rate_ :=
    Int.ediv_nonneg (by omega) (Int.le_of_lt hrate)
  have hle : u.rate_ * (1000 * (n - u.tokens_) / u.rate_) ≤ 1000 * (n - u.tokens_) :=
    Int.mul_ediv_self_le (Int.ne_of_gt hrate)
  have hnonneg := Int.mul_nonneg (Int.le_of_lt hrate) hms₀
  rw [credit, hms, Int.emod_eq_of_lt hms₀ hshort, Int.emod_eq_of_lt hnonneg (by omega)]

theorem ShortestWait.waited_iff {u : TokenBucket} {n : Int} {t later : Time}
    (h : u.ShortestWait n t now later) (hrate : 0 < u.rate_) (hn : n ≤ u.depth_)
    (ht : t.usecs = (n - u.tokens_) * 1000000 / u.rate_) :
    u.Waited n later ↔ u.rate_ ∣ 1000 * (n - u.tokens_) := by
  have hcredit := h.credit_eq hrate ht
  have htokens := h.tokens_lt
  have hnonneg := h.tokens_nonneg
  have hdepth := h.depth_lt
  have hnotfull : u.tokens_ ≠ IntType.i64.conv u.depth_ := by
    rw [IntType.i64_conv]
    omega
  have hsum := Int.mul_ediv_add_emod (1000 * (n - u.tokens_)) u.rate_
  have hrest := Int.emod_nonneg (1000 * (n - u.tokens_)) (Int.ne_of_gt hrate)
  rw [Int.dvd_iff_emod_eq_zero, Waited, hcredit]
  generalize u.rate_ * (1000 * (n - u.tokens_) / u.rate_) = k at *
  generalize 1000 * (n - u.tokens_) % u.rate_ = r at *
  by_cases hsmall : k < 1000
  · rw [if_pos (Or.inr hsmall)]
    omega
  · rw [if_neg (by simp only [hnotfull, hsmall, or_self, not_false_eq_true]), if_pos hdepth]
    omega

/-- In every state of every run, for every level: who waits as long as `time_to_level` says
    finds the level reached exactly where the whole milliseconds give enough. For the
    shortest such wait from an update on these are the levels whose missing tokens, times
    1000, are a multiple of the rate. -/
theorem level_reached_iff (B : Build) (depth rate : UInt64)
    (hb : (operations B depth rate).Reachable b) (hrate : 0 < b.rate_) {n : Int}
    (hn : n ≤ b.depth_) {later t : Time} (hnow : now.Reading) (hlater : later.Reading)
    (hlevel : b.timeToLevel B n now = .ok (t, b')) (hwait : now.usecs + t.usecs ≤ later.usecs) :
    ((∃ u, b'.update later = .ok u ∧ n ≤ u.tokens_) ↔ (b.refilled now).Waited n later) ∧
      ((b.refilled now).ShortestWait n t now later →
        ((b.refilled now).Waited n later ↔ b.rate_ ∣ 1000 * (n - (b.refilled now).tokens_))) := by
  have htyped := typed_of_reachable hb
  have hupdate := timeToLevel_ok hlevel
  have htyped' := htyped.of_update hnow hupdate
  obtain ⟨heq, hlast⟩ := htyped.eq_refilled hnow hupdate
  have hdepth : b'.depth_ = b.depth_ := by rw [heq, refilled_depth]
  have hrate' : b'.rate_ = b.rate_ := by rw [heq, refilled_rate]
  have ht := timeToLevel_reading hlevel
  rw [← heq]
  constructor
  · rw [htyped'.update_refilled hlater (by omega)]
    simp only [Except.ok.injEq, exists_eq_left']
    exact htyped'.waited_iff (by rwa [hdepth])
  · intro hshort
    rw [← hrate'] at hrate ⊢
    exact hshort.waited_iff hrate (by rwa [hdepth])
      (timeToLevel_usecs hrate hupdate hshort.tokens_lt hshort.product_lt hshort.short hlevel)

/-- An empty bucket gets 4 tokens a second, and one after a quarter of it. -/
theorem level_reached_quarter :
    ∃ u, update ⟨10, 4, 0, ⟨0, 0⟩⟩ ⟨0, 250000⟩ = .ok u ∧ 1 ≤ u.tokens_ := by
  have hempty : (operations ⟨false, false⟩ 10 4).Reachable ⟨10, 4, 0, ⟨0, 0⟩⟩ :=
    .step (a := (.empty, ⟨0, 0⟩)) (.init ⟨⟨0, 0⟩, by decide, rfl⟩) trivial ⟨by decide, rfl⟩
  have hlevel : timeToLevel ⟨false, false⟩ ⟨10, 4, 0, ⟨0, 0⟩⟩ 1 ⟨0, 0⟩
      = .ok (⟨0, 250000⟩, ⟨10, 4, 0, ⟨0, 0⟩⟩) := by decide +kernel
  exact (level_reached_iff _ _ _ hempty (by decide) (by decide) (by decide) (by decide) hlevel
    (by decide)).1.2 (by decide +kernel)

/-- An empty bucket gets 3 tokens a second, and none after a third of it. -/
theorem not_level_reached_third : ¬ ∀ (B : Build) (depth rate : UInt64) (b b' : TokenBucket)
    (n : Int) (now later t : Time), (operations B depth rate).Reachable b → 0 < b.rate_ →
      n ≤ b.depth_ → now.Reading → later.Reading → b.timeToLevel B n now = .ok (t, b') →
        now.usecs + t.usecs ≤ later.usecs → ∃ u, b'.update later = .ok u ∧ n ≤ u.tokens_ := by
  intro h
  have hempty : (operations ⟨false, false⟩ 10 3).Reachable ⟨10, 3, 0, ⟨0, 0⟩⟩ :=
    .step (a := (.empty, ⟨0, 0⟩)) (.init ⟨⟨0, 0⟩, by decide, rfl⟩) trivial ⟨by decide, rfl⟩
  have hlevel : timeToLevel ⟨false, false⟩ ⟨10, 3, 0, ⟨0, 0⟩⟩ 1 ⟨0, 0⟩
      = .ok (⟨0, 333333⟩, ⟨10, 3, 0, ⟨0, 0⟩⟩) := by decide +kernel
  obtain ⟨u, hu, hle⟩ := h _ _ _ _ _ 1 ⟨0, 0⟩ ⟨0, 333333⟩ _ hempty (by decide) (by decide)
    (by decide) (by decide) hlevel (by decide)
  have hnone : update ⟨10, 3, 0, ⟨0, 0⟩⟩ ⟨0, 333333⟩ = .ok ⟨10, 3, 0, ⟨0, 0⟩⟩ := by
    decide +kernel
  rw [hnone] at hu
  obtain rfl := Except.ok.inj hu
  exact absurd hle (by decide)

end Oasys.TokenBucket
