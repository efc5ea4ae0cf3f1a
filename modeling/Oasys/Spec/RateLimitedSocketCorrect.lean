import Oasys.Io.RateLimitedSocket
import Oasys.Spec.TokenBucketCorrect

/-!
# RateLimitedSocket correctness

The constructor gives its bucket the configured rate for a depth and 65535 * 8, the bits of
one packet, for a rate. So the burst is what the rate should be, and the rate is what the
burst should be: the limit of the interface holds for the one rate at which the two are
the same, and for those at which no packet with a byte in it ever goes out.
-/

namespace Oasys.RateLimitedSocket

open TokenBucket (Sound)

def maxPacket : Int := 65535 * 8

/-- The packets that the socket underneath has been handed, the last one first. -/
def handed (s : RateLimitedSocket) : List Packet := s.socket_.elim [] IPSocket.handed

/-- The bits handed over in the `t` milliseconds from `start`. -/
def bitsIn (start : Int) (t : Nat) (ps : List Packet) : Int :=
  (ps.map fun p =>
    if start ≤ p.time.usecs ∧ p.time.usecs ≤ start + t * 1000 then (p.len * 8 : Int) else 0).sum

/-- The limit: whenever an interval starts, and however long it is. -/
def Limited (rate : Nat) (s : State) : Prop :=
  ∀ (start : Int) (t : Nat), bitsIn start t s.socket.handed ≤ maxPacket + rate * t / 1000

/-- A packet that is not handed over is refused, and consumes no tokens. -/
def RefusedFree (s : State) : Prop :=
  ∀ c now cc r s', now.Reading → s.clock.usecs ≤ now.usecs →
    s.socket.call c now cc = .ok (r, s') → s'.handed = s.socket.handed →
      r = IORATELIMIT ∧ s.socket.bucket_.update now = .ok s'.bucket_

/-- The number of bits of the packet is a `u_int64_t`. -/
def Short (_ : State) (a : Action) : Prop := a.call.len < 2 ^ 61

/-! ### One call -/

/-- What holds between any two calls. -/
structure Inv (rate : Nat) (s : State) : Prop where
  sound : s.socket.bucket_.Sound
  tokens_nonneg : 0 ≤ s.socket.bucket_.tokens_
  depth_eq : s.socket.bucket_.depth_ = rate
  rate_eq : s.socket.bucket_.rate_ = maxPacket
  clock : s.clock.Reading
  last_le : s.socket.bucket_.last_update_.usecs ≤ s.clock.usecs
  present : s.socket.socket_.isSome
  handed_le : ∀ p ∈ s.socket.handed, p.time.usecs ≤ s.clock.usecs

def Call.packet (now : Time) : Call → Packet
  | send len flags => ⟨now, len, flags, none⟩
  | sendto len flags addr port => ⟨now, len, flags, some (addr, port)⟩

@[simp] theorem Call.packet_time (now : Time) (c : Call) : (c.packet now).time = now := by
  cases c <;> rfl

@[simp] theorem Call.packet_len (now : Time) (c : Call) : (c.packet now).len = c.len := by
  cases c <;> rfl

theorem call_eq (s : RateLimitedSocket) (c : Call) (now : Time) (cc : Int) :
    s.call c now cc = s.sendPacket (c.packet now) cc := by
  cases c <;> rfl

variable {rate : Nat} {s s' : State} {now : Time}

theorem tryToDrain_eq {b : TokenBucket} (h : b.Sound) (hnonneg : 0 ≤ b.tokens_)
    (hnow : now.Reading) (hlast : b.last_update_.usecs ≤ now.usecs) {length : Int}
    (hlength : 0 ≤ length) :
    b.tryToDrain length now = .ok
      (if length ≤ b.level now then
        (true, { b.filled now with tokens_ := b.level now - length })
      else (false, b.filled now)) := by
  have hk := b.newTokens_nonneg now
  have hupdate := h.update hnow hlast fun _ => by omega
  have hdepth := h.depth_nonneg
  have hlevel : 0 ≤ (b.filled now).tokens_ := by
    simp only [TokenBucket.filled, TokenBucket.level]
    omega
  have hlt : (b.filled now).tokens_ < 2 ^ 63 :=
    Int.lt_of_le_of_lt (h.filled hnow).tokens_le h.depth_lt
  simp only [TokenBucket.tryToDrain, TokenBucket.drain, hupdate, ok_bind, if_true,
    Bool.not_true, Bool.or_false, if_neg (Int.not_lt.2 hlevel), decide_eq_true_eq]
  change _ = Except.ok (if length ≤ (b.filled now).tokens_ then
    (true, { b.filled now with tokens_ := (b.filled now).tokens_ - length }) else _)
  split
  · rename_i henough
    have hconv : IntType.i64.conv ((b.filled now).tokens_ - length) =
        (b.filled now).tokens_ - length := by
      rw [IntType.i64_conv]
      omega
    simp [hconv, henough]
  · rename_i henough
    have hlevel : (b.filled now).tokens_ ≥ 0 := hlevel
    simp [hlevel, henough]

def Call.bits (c : Call) : Int := IntType.u64.conv (c.len * 8)

theorem Call.bits_nonneg (c : Call) : 0 ≤ c.bits := by
  simp only [Call.bits, IntType.u64_conv]
  omega

theorem Call.bits_of_short {c : Call} (h : c.len < 2 ^ 61) : c.bits = c.len * 8 := by
  simp only [Call.bits, IntType.u64_conv]
  omega

/-- The socket after a packet was handed over. -/
def State.sent (s : State) (c : Call) (now : Time) : State :=
  { clock := now
    socket :=
      { bucket_ :=
          { s.socket.bucket_.filled now with
            tokens_ := s.socket.bucket_.level now - c.bits }
        socket_ := some { handed := c.packet now :: s.socket.handed } } }

def State.refused (s : State) (now : Time) : State :=
  { clock := now, socket := { s.socket with bucket_ := s.socket.bucket_.filled now } }

/-- What a call comes to: the packet is handed over where the bucket has a token for every
    bit that the call asks for. -/
theorem Inv.call (h : Inv rate s) (hnow : now.Reading) (hclock : s.clock.usecs ≤ now.usecs)
    (c : Call) (cc : Int) :
    s.socket.call c now cc = .ok
      (if c.bits ≤ s.socket.bucket_.level now then (cc, (s.sent c now).socket)
      else (IORATELIMIT, (s.refused now).socket)) := by
  have hlast := h.last_le
  have hdrain := tryToDrain_eq h.sound h.tokens_nonneg hnow (by omega) c.bits_nonneg
  have hrate : s.socket.bucket_.rate_ ≠ 0 := by
    rw [h.rate_eq]
    decide
  obtain ⟨socket, hsocket⟩ := Option.isSome_iff_exists.1 h.present
  rw [call_eq, sendPacket, hsocket]
  simp only [canSend, hrate, ne_eq, not_false_eq_true, if_true, Call.packet_len,
    Call.packet_time]
  rw [show IntType.u64.conv (c.len * 8) = c.bits from rfl, hdrain]
  split
  · simp [State.sent, handed, hsocket]
  · simp [State.refused, hsocket]

theorem Inv.refusedFree (h : Inv rate s) : RefusedFree s := by
  intro c now cc r s' hnow hclock hcall hhanded
  have hlast := h.last_le
  rw [h.call hnow hclock c cc, Except.ok.injEq] at hcall
  split at hcall
  · -- a packet that was handed over is one more
    obtain ⟨-, rfl⟩ := Prod.mk.inj hcall
    have := congrArg List.length hhanded
    simp [State.sent, handed] at this
  · obtain ⟨rfl, rfl⟩ := Prod.mk.inj hcall
    have hk := s.socket.bucket_.newTokens_nonneg now
    have htokens := h.tokens_nonneg
    exact ⟨rfl, h.sound.update hnow (by omega) fun _ => by omega⟩

/-! ### The invariant -/

theorem inv_new (hrate : rate < 2 ^ 32) (hnow : now.Reading) :
    Inv rate ⟨.new rate (some ⟨[]⟩) now, now⟩ := by
  have hconv : IntType.i64.conv (rate : Int) = rate := by
    rw [IntType.i64_conv]
    omega
  refine ⟨⟨?_, ?_, ?_, ?_, ?_, hnow⟩, ?_, rfl, rfl, hnow, Int.le_refl _, rfl, nofun⟩
  all_goals simp only [new, TokenBucket.new, hconv]
  all_goals omega

theorem Inv.refused (h : Inv rate s) (hnow : now.Reading) (hclock : s.clock.usecs ≤ now.usecs) :
    Inv rate (s.refused now) where
  sound := h.sound.filled hnow
  tokens_nonneg := by
    have hk := s.socket.bucket_.newTokens_nonneg now
    have htokens := h.tokens_nonneg
    have hdepth := h.sound.depth_nonneg
    simp only [State.refused, TokenBucket.filled, TokenBucket.level]
    omega
  depth_eq := h.depth_eq
  rate_eq := h.rate_eq
  clock := hnow
  last_le := by
    have hlast := h.last_le
    exact TokenBucket.filled_last_le (by omega)
  present := h.present
  handed_le p hp := by
    have := h.handed_le p hp
    simp only [State.refused]
    omega

theorem Inv.sent (h : Inv rate s) (hnow : now.Reading) (hclock : s.clock.usecs ≤ now.usecs)
    {c : Call} (hc : c.bits ≤ s.socket.bucket_.level now) : Inv rate (s.sent c now) := by
  have hr := h.refused hnow hclock
  have hbits := c.bits_nonneg
  have hge := hr.sound.tokens_ge
  have hle := hr.sound.tokens_le
  simp only [State.refused, TokenBucket.filled] at hge hle
  exact
  { sound :=
      { depth_nonneg := hr.sound.depth_nonneg
        depth_lt := hr.sound.depth_lt
        rate_nonneg := hr.sound.rate_nonneg
        tokens_ge := by
          simp only [State.sent]
          omega
        tokens_le := by
          simp only [State.sent, TokenBucket.filled]
          omega
        reading := hr.sound.reading }
    tokens_nonneg := by
      simp only [State.sent]
      omega
    depth_eq := hr.depth_eq
    rate_eq := hr.rate_eq
    clock := hnow
    last_le := hr.last_le
    present := rfl
    handed_le := by
      intro p hp
      rcases List.mem_cons.1 hp with rfl | hp
      · simp [State.sent]
      · exact hr.handed_le p hp }

theorem Inv.step_cases {a : Action} (h : Inv rate s) (hstep : (system rate).step s a s') :
    a.now.Reading ∧ s.clock.usecs ≤ a.now.usecs ∧
      ((a.call.bits ≤ s.socket.bucket_.level a.now ∧ s' = s.sent a.call a.now) ∨
        (¬ a.call.bits ≤ s.socket.bucket_.level a.now ∧ s' = s.refused a.now)) := by
  obtain ⟨hnow, hclock, r, hcall, hs'⟩ := hstep
  rw [h.call hnow hclock, Except.ok.injEq] at hcall
  refine ⟨hnow, hclock, ?_⟩
  split at hcall
  · obtain ⟨-, hsocket⟩ := Prod.mk.inj hcall
    rw [← hsocket] at hs'
    exact .inl ⟨‹_›, hs'⟩
  · obtain ⟨-, hsocket⟩ := Prod.mk.inj hcall
    rw [← hsocket] at hs'
    exact .inr ⟨‹_›, hs'⟩

theorem Inv.step {a : Action} (h : Inv rate s) (hstep : (system rate).step s a s') :
    Inv rate s' := by
  obtain ⟨hnow, hclock, ⟨hc, rfl⟩ | ⟨-, rfl⟩⟩ := h.step_cases hstep
  · exact h.sent hnow hclock hc
  · exact h.refused hnow hclock

theorem Inv.step_sent (h : Inv rate s) (hnow : now.Reading) (hclock : s.clock.usecs ≤ now.usecs)
    {c : Call} (hc : c.bits ≤ s.socket.bucket_.level now) (cc : Int) :
    (system rate).step s ⟨c, now, cc⟩ (s.sent c now) := by
  refine ⟨hnow, hclock, cc, ?_, rfl⟩
  rw [h.call hnow hclock, if_pos hc]

/-! ### The rate of one packet a second -/

/-- Inside an interval that began at `start`, with `sent` bits handed over in it so far: what
    was sent and what the bucket holds is its depth and what `ms` milliseconds give. They
    lie behind `since`, up to which the bucket has been filled, and `since` is at most a
    millisecond before the interval. -/
structure Window (start sent : Int) (s : State) : Prop where
  intro ::
  balance : ∃ since ms : Int, 0 ≤ ms ∧ since ≤ s.clock.usecs ∧ 1000 * ms ≤ since - start + 999 ∧
    (∀ now : Time, s.clock.usecs ≤ now.usecs →
      s.socket.bucket_.elapsed now % 2 ^ 32 ≤ (now.usecs - since) / 1000) ∧
    sent + s.socket.bucket_.tokens_ ≤ s.socket.bucket_.depth_ + maxPacket * ms / 1000

theorem newTokens_eq {b : TokenBucket} (hrate : b.rate_ = maxPacket) (now : Time) :
    b.newTokens now = maxPacket * (b.elapsed now % 2 ^ 32) / 1000 := by
  simp only [TokenBucket.newTokens, hrate, maxPacket]
  omega

theorem Inv.window_start (h : Inv rate s) {start : Int} (_hclock : s.clock.usecs ≤ now.usecs)
    (hstart : start ≤ now.usecs) : Window start 0 (s.refused now) := by
  have hlast := h.last_le
  have hle : (s.socket.bucket_.filled now).tokens_ ≤ s.socket.bucket_.depth_ :=
    Int.min_le_left ..
  have hnew := newTokens_eq h.rate_eq now
  by_cases hmoved : s.socket.bucket_.tokens_ = s.socket.bucket_.depth_ ∨
      0 < s.socket.bucket_.newTokens now
  · -- the bucket is filled up to now
    refine ⟨now.usecs, 0, by omega, by simp [State.refused], by omega, fun now' hnow' => ?_, ?_⟩
    · simp only [State.refused, TokenBucket.filled, if_pos hmoved, TokenBucket.elapsed] at hnow' ⊢
      omega
    · simp only [State.refused, TokenBucket.filled] at hle ⊢
      omega
  · -- less than a millisecond has passed, whatever the 32 bits have dropped
    have hzero : s.socket.bucket_.elapsed now % 2 ^ 32 = 0 := by
      simp only [maxPacket] at hnew
      omega
    refine ⟨s.socket.bucket_.last_update_.usecs + 1000 * s.socket.bucket_.elapsed now, 0,
      by omega, ?_, ?_, fun now' hnow' => ?_, ?_⟩
    · simp only [State.refused, TokenBucket.elapsed]
      omega
    · simp only [TokenBucket.elapsed]
      omega
    · simp only [State.refused, TokenBucket.filled, if_neg hmoved, TokenBucket.elapsed]
        at hnow' hzero ⊢
      omega
    · simp only [State.refused, TokenBucket.filled] at hle ⊢
      omega

theorem Window.refused {start sent : Int} (hw : Window start sent s) (h : Inv rate s)
    (hclock : s.clock.usecs ≤ now.usecs) : Window start sent (s.refused now) := by
  obtain ⟨since, ms, hms, hsince, hbehind, helapsed, hbalance⟩ := hw
  have hlast := h.last_le
  have hle := s.socket.bucket_.filled_tokens_le now
  have hnow := helapsed now hclock
  have hnew := newTokens_eq h.rate_eq now
  simp only [maxPacket] at hnew hbalance
  by_cases hmoved : s.socket.bucket_.tokens_ = s.socket.bucket_.depth_ ∨
      0 < s.socket.bucket_.newTokens now
  · refine ⟨now.usecs, ms + (now.usecs - since) / 1000, by omega, by simp [State.refused],
      by omega, fun now' hnow' => ?_, ?_⟩
    · simp only [State.refused, TokenBucket.filled, if_pos hmoved, TokenBucket.elapsed] at hnow' ⊢
      omega
    · simp only [State.refused, TokenBucket.filled, maxPacket] at hle ⊢
      omega
  · refine ⟨since, ms, hms, ?_, hbehind, fun now' hnow' => ?_, ?_⟩
    · simp only [State.refused]
      omega
    · have := helapsed now' (by simp only [State.refused] at hnow'; omega)
      simpa only [State.refused, TokenBucket.filled, if_neg hmoved, TokenBucket.elapsed] using this
    · simp only [State.refused, TokenBucket.filled, maxPacket] at hle ⊢
      omega

theorem Window.sent {start sent : Int} {c : Call} (hw : Window start sent (s.refused now)) :
    Window start (sent + c.bits) (s.sent c now) := by
  obtain ⟨since, ms, hms, hsince, hbehind, helapsed, hbalance⟩ := hw
  refine ⟨since, ms, hms, hsince, hbehind, helapsed, ?_⟩
  simp only [State.refused, State.sent, TokenBucket.filled] at hbalance ⊢
  omega

theorem Window.sent_le {start sent : Int} {t : Nat} (hw : Window start sent s)
    (h : Inv 524280 s) (hend : s.clock.usecs ≤ start + t * 1000) :
    sent ≤ maxPacket + 524280 * t / 1000 := by
  obtain ⟨since, ms, hms, hsince, hbehind, -, hbalance⟩ := hw
  have htokens := h.tokens_nonneg
  rw [h.depth_eq] at hbalance
  simp only [maxPacket] at hbalance ⊢
  omega

theorem bitsIn_cons (start : Int) (t : Nat) (p : Packet) (ps : List Packet) :
    bitsIn start t (p :: ps) =
      (if start ≤ p.time.usecs ∧ p.time.usecs ≤ start + t * 1000 then (p.len * 8 : Int) else 0) +
        bitsIn start t ps := by
  simp [bitsIn]

theorem bitsIn_eq_zero {start : Int} (t : Nat) {ps : List Packet}
    (h : ∀ p ∈ ps, p.time.usecs < start) : bitsIn start t ps = 0 := by
  induction ps with
  | nil => rfl
  | cons p ps ih =>
    have hp := h p (by simp)
    rw [bitsIn_cons, if_neg (by omega), ih fun q hq => h q (by simp [hq])]
    rfl

/-- The invariant of one interval. -/
structure Interval (start : Int) (t : Nat) (s : State) : Prop extends Inv 524280 s where
  limited : bitsIn start t s.socket.handed ≤ maxPacket + 524280 * t / 1000
  window : start ≤ s.clock.usecs → s.clock.usecs ≤ start + t * 1000 →
    Window start (bitsIn start t s.socket.handed) s

theorem Interval.refused {start : Int} {t : Nat} (h : Interval start t s) (hnow : now.Reading)
    (hclock : s.clock.usecs ≤ now.usecs) : Interval start t (s.refused now) where
  toInv := h.toInv.refused hnow hclock
  limited := h.limited
  window hstart hend := by
    by_cases hbefore : start ≤ s.clock.usecs
    · have hend : now.usecs ≤ start + t * 1000 := hend
      exact (h.window hbefore (by omega)).refused h.toInv hclock
    · -- this is the first call in the interval
      have hzero : bitsIn start t s.socket.handed = 0 := by
        apply bitsIn_eq_zero
        intro p hp
        have := h.handed_le p hp
        omega
      change Window start (bitsIn start t s.socket.handed) (s.refused now)
      rw [hzero]
      exact h.toInv.window_start hclock hstart

theorem Interval.step {start : Int} {t : Nat} {a : Action} (h : Interval start t s)
    (hshort : Short s a) (hstep : (system 524280).step s a s') : Interval start t s' := by
  have hinv := h.toInv.step hstep
  obtain ⟨hnow, hclock, ⟨hc, rfl⟩ | ⟨-, rfl⟩⟩ := h.toInv.step_cases hstep
  · have hr := h.refused hnow hclock
    have hbits := a.call.bits_of_short hshort
    have hcons : bitsIn start t (s.sent a.call a.now).socket.handed =
        (if start ≤ a.now.usecs ∧ a.now.usecs ≤ start + t * 1000 then a.call.bits else 0) +
          bitsIn start t s.socket.handed := by
      rw [hbits]
      simp [State.sent, handed, bitsIn_cons]
    by_cases hin : start ≤ a.now.usecs ∧ a.now.usecs ≤ start + t * 1000
    · have hw := (hr.window hin.1 hin.2).sent (c := a.call)
      rw [if_pos hin, Int.add_comm] at hcons
      refine ⟨hinv, ?_, fun _ _ => ?_⟩
      · rw [hcons]
        exact hw.sent_le hinv hin.2
      · rw [hcons]
        exact hw
    · rw [if_neg hin, Int.zero_add] at hcons
      exact ⟨hinv, hcons ▸ h.limited, fun hstart hend => absurd ⟨hstart, hend⟩ hin⟩
  · exact h.refused hnow hclock

theorem limited_of_packet_rate {s : State} (hs : (system 524280).ReachableWith Short s) :
    Limited 524280 s := by
  intro start t
  have hinterval : Interval start t s := by
    apply hs.invariant
    · rintro s ⟨now, hnow, rfl⟩
      have hinv : Inv 524280 ⟨.new 524280 (some ⟨[]⟩) now, now⟩ := inv_new (by decide) hnow
      refine ⟨hinv, ?_, fun hstart _ => ?_⟩
      · simp only [new, handed, Option.elim, bitsIn, List.map_nil, List.sum_nil, maxPacket]
        omega
      · -- the bucket is full, and has been filled up to `now`
        have hstart : start ≤ now.usecs := hstart
        refine ⟨now.usecs, 0, by omega, Int.le_refl _, by omega, fun now' hnow' => ?_, ?_⟩
        · simp only [TokenBucket.elapsed, new, TokenBucket.new] at hnow' ⊢
          omega
        · have hle := hinv.sound.tokens_le
          simp only [new, handed, Option.elim, bitsIn, List.map_nil, List.sum_nil] at hle ⊢
          omega
    · intro s a s' h hshort hstep
      exact h.step hshort hstep
  exact hinterval.limited

/-! ### Rates at which nothing goes out -/

/-- Packets with nothing in them are all that was handed over. -/
structure Silent (rate : Nat) (s : State) : Prop extends Inv rate s where
  empty : ∀ p ∈ s.socket.handed, p.len = 0

theorem Silent.step {a : Action} (hrate : rate < 8) (h : Silent rate s) (hshort : Short s a)
    (hstep : (system rate).step s a s') : Silent rate s' := by
  have hinv := h.toInv.step hstep
  obtain ⟨hnow, hclock, ⟨hc, rfl⟩ | ⟨-, rfl⟩⟩ := h.toInv.step_cases hstep
  · refine ⟨hinv, ?_⟩
    intro p hp
    rcases List.mem_cons.1 hp with rfl | hp
    · have hle : s.socket.bucket_.level a.now ≤ s.socket.bucket_.depth_ := Int.min_le_left ..
      have hdepth := h.depth_eq
      rw [a.call.bits_of_short hshort] at hc
      simp only [Call.packet_len]
      omega
    · exact h.empty p hp
  · exact ⟨hinv, h.empty⟩

theorem limited_of_lt_byte (hrate : rate < 8) (hs : (system rate).ReachableWith Short s) :
    Limited rate s := by
  have hsilent : Silent rate s := by
    apply hs.invariant
    · rintro s ⟨now, hnow, rfl⟩
      exact ⟨inv_new (by omega) hnow, nofun⟩
    · intro s a s' h hshort hstep
      exact h.step hrate hshort hstep
  intro start t
  have hzero : ∀ ps : List Packet, (∀ p ∈ ps, p.len = 0) → bitsIn start t ps = 0 := by
    intro ps hps
    induction ps with
    | nil => rfl
    | cons p ps ih =>
      rw [bitsIn_cons, hps p (by simp), ih fun q hq => hps q (by simp [hq])]
      simp
  rw [hzero _ hsilent.empty]
  have : (0 : Int) ≤ rate * t / 1000 :=
    Int.ediv_nonneg (Int.mul_nonneg (by omega) (by omega)) (by omega)
  simp only [maxPacket]
  omega

/-! ### The other rates -/

def msTime (m : Nat) : Time := { sec_ := m / 1000, usec_ := m % 1000 * 1000 }

@[simp] theorem msTime_usecs (m : Nat) : (msTime m).usecs = m * 1000 := by
  simp only [msTime, Time.usecs]
  omega

theorem msTime_reading {m : Nat} (h : m < 2 ^ 32 * 1000) : (msTime m).Reading where
  sec_nonneg := by
    simp only [msTime]
    omega
  sec_lt := by
    simp only [msTime]
    omega
  usec_nonneg := by
    simp only [msTime]
    omega
  usec_lt := by
    simp only [msTime]
    omega

/-- A state of a run in which a packet was handed over `m` milliseconds after the start, with
    the bucket filled up to then: what it holds, and the bits handed over so far. -/
structure AfterPacket (rate : Nat) (tokens : Int) (m : Nat) (bits : Int) (s : State) : Prop
    extends Inv rate s where
  reachable : (system rate).ReachableWith Short s
  clock_eq : s.clock = msTime m
  last_eq : s.socket.bucket_.last_update_ = msTime m
  tokens_eq : s.socket.bucket_.tokens_ = tokens
  handed_ge : ∀ p ∈ s.socket.handed, 0 ≤ p.time.usecs
  bits_eq : (s.socket.handed.map fun p => (p.len * 8 : Int)).sum = bits

theorem AfterPacket.bitsIn_eq {tokens bits : Int} {m : Nat} (h : AfterPacket rate tokens m bits s) :
    bitsIn 0 m s.socket.handed = bits := by
  rw [← h.bits_eq, bitsIn]
  congr 1
  apply List.map_congr_left
  intro p hp
  have hle := h.handed_le p hp
  rw [h.clock_eq, msTime_usecs] at hle
  rw [if_pos ⟨h.handed_ge p hp, by omega⟩]

/-- More was handed over than the limit allows. -/
theorem AfterPacket.not_limited {tokens bits : Int} {m : Nat}
    (h : AfterPacket rate tokens m bits s) (hbits : maxPacket + rate * m / 1000 < bits) :
    ¬ Limited rate s := by
  intro hlimited
  have := hlimited 0 m
  rw [h.bitsIn_eq] at this
  omega

private theorem Inv.afterPacket {m b : Nat} {bits : Int} (h : Inv rate s)
    (hreach : (system rate).ReachableWith Short s) (hm : m < 2 ^ 32 * 1000)
    (hclock : s.clock.usecs ≤ m * 1000) (hshort : b < 2 ^ 61)
    (hb : b * 8 ≤ s.socket.bucket_.level (msTime m))
    (hfilled : (s.socket.bucket_.filled (msTime m)).last_update_ = msTime m)
    (hge : ∀ p ∈ s.socket.handed, 0 ≤ p.time.usecs)
    (hbits : (s.socket.handed.map fun p => (p.len * 8 : Int)).sum = bits) :
    ∃ s', AfterPacket rate (s.socket.bucket_.level (msTime m) - b * 8) m (bits + b * 8) s' := by
  have hnow := msTime_reading hm
  have hclock : s.clock.usecs ≤ (msTime m).usecs := by
    rw [msTime_usecs]
    exact hclock
  let c : Call := .send b 0
  have hc : c.bits = b * 8 := c.bits_of_short hshort
  have hc' : c.bits ≤ s.socket.bucket_.level (msTime m) := by
    rw [hc]
    exact hb
  have hshort : Short s ⟨c, msTime m, 0⟩ := hshort
  refine ⟨s.sent c (msTime m), h.sent hnow hclock hc',
    hreach.step hshort (h.step_sent hnow hclock hc' 0), rfl, hfilled, ?_, ?_, ?_⟩
  · simp only [State.sent, hc]
  · intro p hp
    rcases List.mem_cons.1 hp with rfl | hp
    · rw [Call.packet_time, msTime_usecs]
      omega
    · exact hge p hp
  · change (List.map _ (c.packet (msTime m) :: s.socket.handed)).sum = _
    rw [List.map_cons, List.sum_cons, hbits, Call.packet_len, Int.add_comm]
    rfl

theorem exists_afterPacket (hrate : rate < 2 ^ 32) {b : Nat} (hb : b * 8 ≤ rate) :
    ∃ s, AfterPacket rate (rate - b * 8) 0 (b * 8) s := by
  have hnow := msTime_reading (m := 0) (by omega)
  have hinv : Inv rate ⟨.new rate (some ⟨[]⟩) (msTime 0), msTime 0⟩ := inv_new hrate hnow
  have hfull : (TokenBucket.new rate (65535 * 8) (msTime 0)).tokens_ = rate := by
    simp only [TokenBucket.new, IntType.i64_conv]
    omega
  have hk := (TokenBucket.new rate (65535 * 8) (msTime 0)).newTokens_nonneg (msTime 0)
  have hlevel : (TokenBucket.new rate (65535 * 8) (msTime 0)).level (msTime 0) = rate := by
    rw [TokenBucket.level, hfull]
    exact Int.min_eq_left (by simp only [TokenBucket.new] at hk ⊢; omega)
  have hlast : ((TokenBucket.new rate (65535 * 8) (msTime 0)).filled (msTime 0)).last_update_ =
      msTime 0 := by
    simp only [TokenBucket.filled]
    split <;> rfl
  have hpacket := hinv.afterPacket (m := 0) (b := b) (.init ⟨msTime 0, hnow, rfl⟩)
    (by omega) (by simp) (by omega) (by simp only [new, hlevel]; omega)
    hlast (by simp [new, handed]) (show _ = (0 : Int) from rfl)
  simpa only [new, hlevel, Int.zero_add] using hpacket

theorem AfterPacket.next {tokens bits : Int} {m k b : Nat} (h : AfterPacket rate tokens m bits s)
    (hk : 0 < k) (hm : m + k < 2 ^ 32 * 1000) (hk' : k < 2 ^ 32) (hshort : b < 2 ^ 61)
    (hb : (b * 8 : Int) ≤ min (rate : Int) (tokens + maxPacket * k / 1000)) :
    ∃ s', AfterPacket rate (min (rate : Int) (tokens + maxPacket * k / 1000) - b * 8) (m + k)
      (bits + b * 8) s' := by
  have helapsed : s.socket.bucket_.elapsed (msTime (m + k)) = k := by
    simp only [TokenBucket.elapsed, h.last_eq, msTime_usecs]
    omega
  have hnew : s.socket.bucket_.newTokens (msTime (m + k)) = maxPacket * k / 1000 := by
    rw [newTokens_eq h.rate_eq, helapsed, Int.emod_eq_of_lt (by omega) (by omega)]
  have hlevel : s.socket.bucket_.level (msTime (m + k)) =
      min (rate : Int) (tokens + maxPacket * k / 1000) := by
    rw [TokenBucket.level, h.depth_eq, h.tokens_eq, hnew]
  rw [← hlevel] at hb ⊢
  refine h.toInv.afterPacket h.reachable hm ?_ hshort hb ?_ h.handed_ge h.bits_eq
  · rw [h.clock_eq, msTime_usecs]
    omega
  · have hpos : 0 < s.socket.bucket_.newTokens (msTime (m + k)) := by
      rw [hnew]
      simp only [maxPacket]
      omega
    simp only [TokenBucket.filled, if_pos (Or.inr hpos)]

/-- A packet of `b` bytes every `k` milliseconds, where the bucket takes in as much in that
    time. -/
theorem exists_afterPackets (hrate : rate < 2 ^ 32) {k b : Nat} (hk : 0 < k) (hk' : k < 2 ^ 32)
    (hb : b * 8 ≤ rate) (hfill : (b * 8 : Int) ≤ maxPacket * k / 1000) (n : Nat)
    (hn : n * k < 2 ^ 32 * 1000) :
    ∃ s, AfterPacket rate (rate - b * 8) (n * k) ((n + 1) * (b * 8)) s := by
  induction n with
  | zero => simpa using exists_afterPacket hrate hb
  | succ n ih =>
    have hsucc : (n + 1) * k = n * k + k := Nat.succ_mul n k
    rw [hsucc] at hn ⊢
    obtain ⟨s, hs⟩ := ih (by omega)
    have hmin : min (rate : Int) (rate - b * 8 + maxPacket * k / 1000) = rate :=
      Int.min_eq_left (by omega)
    obtain ⟨s', hs'⟩ := hs.next (k := k) (b := b) hk (by omega) hk' (by omega)
      (by rw [hmin]; omega)
    rw [hmin] at hs'
    have hbits : (n + 1 : Int) * (b * 8) + b * 8 = (n + 1 + 1) * (b * 8) := by ring
    rw [hbits] at hs'
    exact ⟨s', by exact_mod_cast hs'⟩

/-- A run in which the packets together are too much for the configured rate gets over any
    burst in the end. -/
theorem exists_not_limited (hrate : rate < 2 ^ 32) {k b : Nat} (hk : 0 < k) (hk' : k ≤ 200)
    (hb : b * 8 ≤ rate) (hfill : (b * 8 : Int) ≤ maxPacket * k / 1000)
    (hfast : rate * k < b * 8000) :
    ∃ s, (system rate).ReachableWith Short s ∧ ¬ Limited rate s := by
  -- after this many packets the excess is more than a packet of the largest size
  let n := 524280000
  obtain ⟨s, hs⟩ := exists_afterPackets hrate hk (by omega) hb hfill n (by omega)
  refine ⟨s, hs.reachable, hs.not_limited ?_⟩
  have hcast : ((n * k : Nat) : Int) = 524280000 * k := by push_cast; rfl
  have hproduct : (rate : Int) * (524280000 * k) = 524280000 * ((rate * k : Nat) : Int) := by
    push_cast
    ring
  rw [hcast, hproduct]
  simp only [maxPacket, n]
  omega

/-- Every rate but the one of a packet a second, and those of less than a byte, has a run
    that gets over the limit. -/
theorem exists_not_limited_of_ne (hrate : rate < 2 ^ 32) (hbyte : 8 ≤ rate)
    (hne : rate ≠ 524280) : ∃ s, (system rate).ReachableWith Short s ∧ ¬ Limited rate s := by
  by_cases hslow : rate < 104856
  · -- as many bytes as come in in a millisecond
    by_cases hsmall : rate < 524
    · exact exists_not_limited (k := 1) (b := 1) hrate (by omega) (by omega) (by omega)
        (by simp only [maxPacket]; omega) (by omega)
    · exact exists_not_limited (k := 1) (b := 65) hrate (by omega) (by omega) (by omega)
        (by simp only [maxPacket]; omega) (by omega)
  · by_cases hless : rate < 524280
    · exact exists_not_limited (k := 200) (b := 13107) hrate (by omega) (by omega) (by omega)
        (by simp only [maxPacket]; omega) (by omega)
    · by_cases hburst : rate < 524288
      · -- a packet of the largest size, and what has come in an eighth of a second later
        obtain ⟨s, hs⟩ := exists_afterPacket hrate (b := 65535) (by omega)
        have hmin : (65536 : Int) ≤ min (rate : Int) (rate - 65535 * 8 + maxPacket * 125 / 1000) :=
          Int.le_min.2 ⟨by omega, by simp only [maxPacket]; omega⟩
        obtain ⟨s', hs'⟩ := hs.next (k := 125) (b := 8192) (by omega) (by omega) (by omega)
          (by omega) (by push_cast; exact hmin)
        refine ⟨s', hs'.reachable, hs'.not_limited ?_⟩
        simp only [maxPacket]
        push_cast
        omega
      · -- the burst alone is too much
        obtain ⟨s, hs⟩ := exists_afterPacket hrate (b := rate / 8) (by omega)
        refine ⟨s, hs.reachable, hs.not_limited ?_⟩
        simp only [maxPacket]
        push_cast
        omega

/-! ### The limit -/

theorem inv_of_reachable (hrate : rate < 2 ^ 32) (hs : (system rate).ReachableWith Short s) :
    Inv rate s := by
  apply hs.invariant
  · rintro s ⟨now, hnow, rfl⟩
    exact inv_new hrate hnow
  · intro s a s' h _ hstep
    exact h.step hstep

/-- The rates for which the limit holds in every run. Refused packets are free at any rate. -/
theorem limited_iff (hrate : rate < 2 ^ 32) :
    (∀ s, (system rate).ReachableWith Short s → Limited rate s ∧ RefusedFree s) ↔
      rate < 8 ∨ rate = 65535 * 8 := by
  constructor
  · intro h
    by_contra hother
    obtain ⟨s, hs, hlimited⟩ := exists_not_limited_of_ne hrate (by omega) (by omega)
    exact hlimited (h s hs).1
  · rintro (hbyte | rfl) s hs
    · exact ⟨limited_of_lt_byte hbyte hs, (inv_of_reachable hrate hs).refusedFree⟩
    · exact ⟨limited_of_packet_rate hs, (inv_of_reachable hrate hs).refusedFree⟩

/-- The rate of a packet a second. -/
theorem limited_iff_packet : 65535 * 8 < 2 ^ 32 ∧
    ∀ s, (system (65535 * 8)).ReachableWith Short s → Limited (65535 * 8) s ∧ RefusedFree s :=
  ⟨by decide, (limited_iff (by decide)).2 (.inr rfl)⟩

/-- At twice that rate two packets go out at once. -/
theorem not_limited : ¬ ∀ (rate : Nat) (s : State), 0 < rate → rate < 2 ^ 32 →
    (system rate).ReachableWith Short s → Limited rate s ∧ RefusedFree s := by
  intro h
  let now : Time := ⟨0, 0⟩
  have hshort : 65535 < 2 ^ 61 := by decide
  have hinit : (system 1048560).ReachableWith Short ⟨.new 1048560 (some ⟨[]⟩) now, now⟩ :=
    .init ⟨now, by decide, rfl⟩
  have hfirst : (system 1048560).ReachableWith Short
      ⟨⟨⟨1048560, 524280, 524280, now⟩, some ⟨[⟨now, 65535, 0, none⟩]⟩⟩, now⟩ :=
    .step (a := ⟨.send 65535 0, now, 65535⟩) hinit hshort
      ⟨by decide, by decide, 65535, by decide +kernel, rfl⟩
  have hsecond : (system 1048560).ReachableWith Short
      ⟨⟨⟨1048560, 524280, 0, now⟩,
        some ⟨[⟨now, 65535, 0, none⟩, ⟨now, 65535, 0, none⟩]⟩⟩, now⟩ :=
    .step (a := ⟨.send 65535 0, now, 65535⟩) hfirst hshort
      ⟨by decide, by decide, 65535, by decide +kernel, rfl⟩
  have hlimited := (h _ _ (by decide) (by decide) hsecond).1 0 0
  exact absurd hlimited (by decide +kernel)

end Oasys.RateLimitedSocket
