import Oasys.Spec.TimerCorrect

/-!
# Timers that fire

Which timers are called, and when. Each scheduling is in the queue until it is called or,
once cancelled, dropped. A sequence number tells apart timers due at the same time as long
as `seqno_` has not wrapped around, and the queue hands out the least.

A time that `schedule_in` computes may have a million microseconds, and less than none
where it is asked for the past; the times of pending timers are shown to be close enough to
normal for the differences that the loop computes.
-/

namespace Oasys

/-! ### Times -/

namespace Timeval

theorem lt_iff {t1 t2 : Timeval} : t1.lt t2 = true ↔
    t1.tv_sec < t2.tv_sec ∨ (t1.tv_sec = t2.tv_sec ∧ t1.tv_usec < t2.tv_usec) := by
  simp [lt]

theorem not_lt_iff {t1 t2 : Timeval} : t1.lt t2 = false ↔
    t2.tv_sec < t1.tv_sec ∨ (t1.tv_sec = t2.tv_sec ∧ t2.tv_usec ≤ t1.tv_usec) := by
  rw [← Bool.not_eq_true, lt_iff]
  omega

def usecsUntil (t now : Timeval) : Int :=
  (t.tv_sec - now.tv_sec) * 1000000 + (t.tv_usec - now.tv_usec)

/-- A time of a pending timer: its microseconds do not exceed a million, and are negative
    only in the past. -/
def Normal (t now : Timeval) : Prop :=
  t.tv_usec ≤ 1000000 ∧ (0 ≤ t.tv_usec ∨ now.lt t = false)

theorem Normal.mono {t now now' : Timeval} (h : t.Normal now) (hnow : now'.lt now = false) :
    t.Normal now' := by
  refine ⟨h.1, h.2.imp_right fun hpast => ?_⟩
  rw [not_lt_iff] at *
  omega

theorem InRange.normal {t : Timeval} (h : t.InRange) (now : Timeval) : t.Normal now :=
  ⟨Int.le_of_lt (Int.lt_of_lt_of_le h.2 (by decide)), .inl h.1⟩

theorem carry_usec (tv_sec tv_usec : Int) :
    (carry tv_sec tv_usec).tv_usec ≤ 1000000 ∧ (0 ≤ tv_usec → 0 ≤ (carry tv_sec tv_usec).tv_usec)
      ∧ (tv_usec < 0 → carry tv_sec tv_usec = ⟨tv_sec, tv_usec⟩) := by
  fun_induction carry tv_sec tv_usec with
  | case1 tv_sec tv_usec hmore ih =>
    obtain ⟨hle, hpos, -⟩ := ih
    exact ⟨hle, fun _ => hpos (by omega), fun hneg => by omega⟩
  | case2 tv_sec tv_usec hdone =>
    exact ⟨Int.not_lt.1 hdone, id, fun _ => rfl⟩

theorem carry_normal {now : Timeval} (hnow : now.InRange) (milliseconds : Int) :
    (carry (now.tv_sec + milliseconds.tdiv 1000)
      (now.tv_usec + milliseconds.tmod 1000 * 1000)).Normal now := by
  obtain ⟨hle, hpos, hneg⟩ := carry_usec (now.tv_sec + milliseconds.tdiv 1000)
    (now.tv_usec + milliseconds.tmod 1000 * 1000)
  refine ⟨hle, ?_⟩
  by_cases h : 0 ≤ now.tv_usec + milliseconds.tmod 1000 * 1000
  · exact .inl (hpos h)
  · -- less than nothing is left where it is to be in the past
    have hbefore : milliseconds < 0 := by
      by_contra hge
      have := Int.tmod_nonneg (1000) (Int.not_lt.1 hge)
      have := hnow.1
      omega
    have hquot := (tdiv_cases milliseconds 1000).2 hbefore
    have hrest := Int.tmod_def milliseconds 1000
    have hsec : milliseconds.tdiv 1000 ≤ 0 := by omega
    have husec : milliseconds.tmod 1000 ≤ 0 := by omega
    rw [hneg (Int.not_le.1 h)]
    right
    rw [not_lt_iff]
    dsimp only
    omega

end Timeval

namespace TimerSystem

theorem diffMs_spec {when_ now : Timeval} (hnormal : when_.Normal now) (hnow : now.InRange)
    (hlt : now.lt when_ = true) :
    0 ≤ diffMs when_ now ∧ (diffMs when_ now = 0 → when_.usecsUntil now < 1000) := by
  obtain ⟨husec, hpast⟩ := hnormal
  rw [hlt] at hpast
  have hpos : 0 ≤ when_.tv_usec := hpast.resolve_right (by decide)
  obtain ⟨hnow₀, hnow₁⟩ := hnow
  rw [Timeval.lt_iff] at hlt
  have hmin : IntType.int.min = -2147483648 := by decide
  have hmax : IntType.int.max = 2147483647 := by decide
  have hquot := tdiv_cases (when_.tv_usec - now.tv_usec) 1000
  unfold diffMs Timeval.usecsUntil
  rw [hmax, show (2147483647 : Int).tdiv 1000 = 2147483 by decide]
  split
  · rename_i hsmall
    -- the difference is small enough for an `int`, and not negative
    have hdiff : when_.diffMsec now =
        (when_.tv_sec - now.tv_sec) * 1000 + (when_.tv_usec - now.tv_usec).tdiv 1000 := by
      apply IntType.conv_of_inRange
      show (0 : Int) ≤ _ ∧ _ ≤ (18446744073709551615 : Int)
      omega
    rw [hdiff, IntType.conv_of_inRange]
    · omega
    · rw [IntType.InRange, hmin, hmax]
      omega
  · exact ⟨by decide, fun hzero => absurd hzero (by decide)⟩

/-! ### The order of the timers -/

theorem timerCompare_iff {a b : Timer} : timerCompare a b = true ↔
    b.when_.tv_sec < a.when_.tv_sec ∨ (a.when_.tv_sec = b.when_.tv_sec ∧
      (b.when_.tv_usec < a.when_.tv_usec ∨ (a.when_.tv_usec = b.when_.tv_usec ∧
        b.seqno_.toNat < a.seqno_.toNat))) := by
  have hgt : a.when_.gt b.when_ = true ↔ b.when_.tv_sec < a.when_.tv_sec ∨
      (a.when_.tv_sec = b.when_.tv_sec ∧ b.when_.tv_usec < a.when_.tv_usec) := by
    simp [Timeval.gt]
  have hlt : a.when_.lt b.when_ = true ↔ _ := Timeval.lt_iff
  -- later, earlier, or at the same time
  unfold timerCompare
  split
  · rename_i h
    rw [hgt] at h
    simp only [true_iff]
    omega
  · rename_i h
    rw [hgt] at h
    split
    · rename_i h'
      rw [hlt] at h'
      simp only [Bool.false_eq_true, false_iff]
      omega
    · rename_i h'
      rw [hlt] at h'
      rw [decide_eq_true_eq, gt_iff_lt, UInt32.lt_iff_toNat_lt]
      omega

theorem strictWeak_timerCompare {Id : Type} (timer : Id → Timer) :
    PriorityQueue.StrictWeak fun a b => timerCompare (timer a) (timer b) where
  asymm {a b} h := by
    rw [← Bool.not_eq_true, timerCompare_iff]
    rw [timerCompare_iff] at h
    omega
  trans {a b c} hab hbc := by
    rw [← Bool.not_eq_true, timerCompare_iff] at *
    omega

theorem first_of_top {Id : Type} {s : TimerSystem Id} {t u : Id} (htop : s.top = some t)
    (hu : u ∈ s.timers_) : timerCompare (s.timer t) (s.timer u) = false := by
  have hfirst := PriorityQueue.top_first (strictWeak_timerCompare s.timer) htop hu
  exact hfirst

/-! ### What the timers promise -/

variable {Id : Type} [DecidableEq Id]

/-- A reading of the clock: its microseconds are in range, and it does not go back. -/
def Reads (s : State Id) (now : Timeval) : Prop := now.InRange ∧ now.lt s.clock = false

/-- A timer may be scheduled: it is not pending, and the sequence numbers do not wrap
    around. -/
def MaySchedule (s : State Id) (t : Id) : Prop :=
  s.count < 2 ^ 32 ∧ (s.sys.timer t).pending_ = false

/-- The calls that the timers are made for. -/
def Regular (s : State Id) : Op Id → Prop
  | .scheduleAt when_ t => MaySchedule s t ∧ when_.InRange
  | .scheduleIn now _ t => MaySchedule s t ∧ Reads s now
  | .scheduleImmediate now t => MaySchedule s t ∧ Reads s now
  | .round now => Reads s now
  | _ => True

/-- `t` is called as it should be: it is the least in the queue, it is not cancelled, and
    less than a millisecond is left. -/
structure Fires (s : State Id) (now : Timeval) (t : Id) : Prop where
  mem : t ∈ s.sys.timers_
  least : ∀ u ∈ s.sys.timers_, u ≠ t → timerCompare (s.sys.timer u) (s.sys.timer t) = true
  live : (s.sys.timer t).cancelled_ = false
  onTime : (s.sys.timer t).when_.usecsUntil now < 1000

/-- The next timer is cancelled, and the assertion that it has been counted fails. -/
def Uncounted (s : TimerSystem Id) : Prop :=
  (∃ t, s.top = some t ∧ (s.timer t).cancelled_ = true) ∧ s.num_cancelled_ = 0

/-- What holds between any two steps. -/
structure Safe (s : State Id) : Prop where
  /-- Each scheduling leads to one call at most. -/
  once : s.fired.Nodup
  /-- None that was cancelled leads to a call. -/
  apart : ∀ n ∈ s.fired, n ∉ s.cancelled
  /-- The others are in the queue, or have led to a call. -/
  accounted : ∀ n < s.count, n ∈ s.fired ∨ n ∈ s.cancelled ∨
    ∃ t ∈ s.sys.timers_, s.current t = n
  /-- A timer is called when it should be. -/
  fires : ∀ now sys t, Reads s now → s.sys.runExpiredTimers now = .ok (sys, .timeout t) →
    Fires s now t
  /-- No pending timer, cancelled or not, is due when `run_expired_timers` returns. -/
  returns : ∀ now sys ms, Reads s now →
    s.sys.runExpiredTimers now = .ok (sys, .returned ms) →
    ∀ t, (sys.timer t).pending_ = true → now.lt (sys.timer t).when_ = true
  /-- The next step fails no other assertion than that on `num_cancelled_`. -/
  asserts : ∀ op, Enabled s op → Regular s op → (∃ s', exec s op = .ok s') ∨
    (∃ now, op = .round now) ∧ Uncounted s.sys

/-! ### The invariant -/

/-- The timers in the queue, each with its scheduling. -/
structure Inv (s : State Id) : Prop extends Kept s.sys where
  clock : s.clock.InRange
  normal : ∀ t ∈ s.sys.timers_, (s.sys.timer t).when_.Normal s.clock
  count_le : s.count ≤ 2 ^ 32
  seqno : s.sys.seqno_ = .ofNat s.count
  seqnos : ∀ t ∈ s.sys.timers_, (s.sys.timer t).seqno_ = .ofNat (s.current t)
  current_lt : ∀ t ∈ s.sys.timers_, s.current t < s.count
  current_inj : ∀ t ∈ s.sys.timers_, ∀ u ∈ s.sys.timers_, s.current t = s.current u → t = u
  waiting : ∀ t ∈ s.sys.timers_, s.current t ∉ s.fired
  flag : ∀ t ∈ s.sys.timers_, (s.sys.timer t).cancelled_ = true ↔ s.current t ∈ s.cancelled
  fired_lt : ∀ n ∈ s.fired, n < s.count
  cancelled_lt : ∀ n ∈ s.cancelled, n < s.count
  once : s.fired.Nodup
  apart : ∀ n ∈ s.fired, n ∉ s.cancelled
  accounted : ∀ n < s.count, n ∈ s.fired ∨ n ∈ s.cancelled ∨
    ∃ t ∈ s.sys.timers_, s.current t = n

section Steps

variable {s s' : State Id} {t : Id} {now : Timeval}

omit [DecidableEq Id] in
theorem Inv.clockOn (h : Inv s) (hreads : Reads s now) : Inv { s with clock := now } :=
  { h with
    clock := hreads.1
    normal := fun t ht => (h.normal t ht).mono hreads.2 }

theorem Inv.scheduling (h : Inv s) (hmay : MaySchedule s t) {when_ : Timeval}
    (hnormal : when_.Normal s.clock) : Inv (s.scheduling (s.sys.scheduled when_ t) t) := by
  obtain ⟨hlt, hpending⟩ := hmay
  have hnotin := h.not_mem hpending
  -- the others are what they were
  have hothers : ∀ u ∈ s.sys.timers_, u ≠ t := fun u hu heq => hnotin (heq ▸ hu)
  have htimer : ∀ u ∈ s.sys.timers_,
      (s.scheduling (s.sys.scheduled when_ t) t).sys.timer u = s.sys.timer u :=
    fun u hu => Function.update_of_ne (hothers u hu) _ _
  have hcurrent : ∀ u ∈ s.sys.timers_,
      (s.scheduling (s.sys.scheduled when_ t) t).current u = s.current u :=
    fun u hu => Function.update_of_ne (hothers u hu) _ _
  have htimer' : (s.scheduling (s.sys.scheduled when_ t) t).sys.timer t = { s.sys.timer t with
      when_, pending_ := true, cancelled_ := false, seqno_ := s.sys.seqno_ } :=
    Function.update_self _ _ _
  have hcurrent' : (s.scheduling (s.sys.scheduled when_ t) t).current t = s.count :=
    Function.update_self _ _ _
  refine
    { h.scheduled hpending when_ with
      clock := h.clock
      normal := ?_
      count_le := hlt
      seqno := ?_
      seqnos := ?_
      current_lt := ?_
      current_inj := ?_
      waiting := ?_
      flag := ?_
      fired_lt := fun n hn => Nat.lt_succ_of_lt (h.fired_lt n hn)
      cancelled_lt := fun n hn => Nat.lt_succ_of_lt (h.cancelled_lt n hn)
      once := h.once
      apart := h.apart
      accounted := ?_ }
  · intro u hu
    cases hu with
    | head =>
      rw [htimer']
      exact hnormal
    | tail _ hu =>
      rw [htimer u hu]
      exact h.normal u hu
  · show s.sys.seqno_ + 1 = .ofNat (s.count + 1)
    rw [UInt32.ofNat_add, h.seqno]
    rfl
  · intro u hu
    cases hu with
    | head =>
      rw [htimer', hcurrent']
      exact h.seqno
    | tail _ hu =>
      rw [htimer u hu, hcurrent u hu]
      exact h.seqnos u hu
  · intro u hu
    cases hu with
    | head =>
      rw [hcurrent']
      exact Nat.lt_succ_self _
    | tail _ hu =>
      rw [hcurrent u hu]
      exact Nat.lt_succ_of_lt (h.current_lt u hu)
  · -- the new scheduling has a number of its own
    intro u hu v hv heq
    cases hu with
    | head =>
      cases hv with
      | head => rfl
      | tail _ hv =>
        rw [hcurrent', hcurrent v hv] at heq
        have := h.current_lt v hv
        omega
    | tail _ hu =>
      cases hv with
      | head =>
        rw [hcurrent', hcurrent u hu] at heq
        have := h.current_lt u hu
        omega
      | tail _ hv =>
        rw [hcurrent u hu, hcurrent v hv] at heq
        exact h.current_inj u hu v hv heq
  · intro u hu hfired
    cases hu with
    | head =>
      rw [hcurrent'] at hfired
      exact Nat.lt_irrefl _ (h.fired_lt _ hfired)
    | tail _ hu =>
      rw [hcurrent u hu] at hfired
      exact h.waiting u hu hfired
  · intro u hu
    cases hu with
    | head =>
      rw [htimer', hcurrent']
      exact iff_of_false Bool.false_ne_true fun hin => Nat.lt_irrefl _ (h.cancelled_lt _ hin)
    | tail _ hu =>
      rw [htimer u hu, hcurrent u hu]
      exact h.flag u hu
  · intro n hn
    obtain hn | rfl := Nat.lt_succ_iff_lt_or_eq.1 hn
    · obtain hfired | hcancelled | ⟨u, hu, rfl⟩ := h.accounted n hn
      · exact .inl hfired
      · exact .inr (.inl hcancelled)
      · exact .inr (.inr ⟨u, List.mem_cons_of_mem _ hu, hcurrent u hu⟩)
    · exact .inr (.inr ⟨t, List.mem_cons_self, hcurrent'⟩)

theorem Inv.cancelling (h : Inv s) (hpending : (s.sys.timer t).pending_ = true) :
    Inv { s with sys := (s.sys.cancel t).2, cancelled := s.current t :: s.cancelled } := by
  have hmem := (h.pending t).1 hpending
  have hkept := h.toKept.cancel t
  rw [cancel_pending hpending] at hkept ⊢
  have hothers : ∀ u, u ≠ t → Function.update s.sys.timer t
      { s.sys.timer t with cancelled_ := true } u = s.sys.timer u :=
    fun u hut => Function.update_of_ne hut _ _
  have htimer : Function.update s.sys.timer t { s.sys.timer t with cancelled_ := true } t =
      { s.sys.timer t with cancelled_ := true } := Function.update_self _ _ _
  refine
    { hkept with
      clock := h.clock
      normal := ?_
      count_le := h.count_le
      seqno := h.seqno
      seqnos := ?_
      current_lt := h.current_lt
      current_inj := h.current_inj
      waiting := h.waiting
      flag := ?_
      fired_lt := h.fired_lt
      cancelled_lt := ?_
      once := h.once
      apart := ?_
      accounted := ?_ }
  · intro u hu
    show (Function.update s.sys.timer t _ u).when_.Normal s.clock
    by_cases hut : u = t
    · rw [hut, htimer]
      exact h.normal t hmem
    · rw [hothers u hut]
      exact h.normal u hu
  · intro u hu
    show (Function.update s.sys.timer t _ u).seqno_ = .ofNat (s.current u)
    by_cases hut : u = t
    · rw [hut, htimer]
      exact h.seqnos t hmem
    · rw [hothers u hut]
      exact h.seqnos u hu
  · intro u hu
    show (Function.update s.sys.timer t _ u).cancelled_ = true ↔
      s.current u ∈ s.current t :: s.cancelled
    by_cases hut : u = t
    · rw [hut, htimer]
      exact iff_of_true rfl List.mem_cons_self
    · -- no other timer in the queue has the scheduling
      have hne : s.current u ≠ s.current t := fun heq => hut (h.current_inj u hu t hmem heq)
      rw [hothers u hut, List.mem_cons, or_iff_right hne]
      exact h.flag u hu
  · intro n hn
    cases hn with
    | head => exact h.current_lt t hmem
    | tail _ hn => exact h.cancelled_lt n hn
  · intro n hfired hn
    cases hn with
    | head => exact h.waiting t hmem hfired
    | tail _ hn => exact h.apart n hfired hn
  · intro n hn
    obtain hfired | hcancelled | hqueue := h.accounted n hn
    · exact .inl hfired
    · exact .inr (.inl (List.mem_cons_of_mem _ hcancelled))
    · exact .inr (.inr hqueue)

/-- A timer leaves the queue, and is called unless it was cancelled. -/
theorem Inv.popped (h : Inv s) (hmem : t ∈ s.sys.timers_) :
    Inv { s with
      sys := s.sys.popped t
      fired := if (s.sys.timer t).cancelled_ then s.fired else s.current t :: s.fired } := by
  have hleft : ∀ u ∈ (s.sys.popped t).timers_, u ≠ t ∧ u ∈ s.sys.timers_ :=
    fun u hu => h.nodup.mem_erase_iff.1 hu
  have hothers : ∀ u, u ≠ t → (s.sys.popped t).timer u = s.sys.timer u :=
    fun u hut => Function.update_of_ne hut _ _
  refine
    { h.toKept.popped t with
      clock := h.clock
      normal := ?_
      count_le := h.count_le
      seqno := h.seqno
      seqnos := ?_
      current_lt := fun u hu => h.current_lt u (hleft u hu).2
      current_inj := fun u hu v hv => h.current_inj u (hleft u hu).2 v (hleft v hv).2
      waiting := ?_
      flag := ?_
      fired_lt := ?_
      cancelled_lt := h.cancelled_lt
      once := ?_
      apart := ?_
      accounted := ?_ }
  · intro u hu
    obtain ⟨hut, hu⟩ := hleft u hu
    rw [hothers u hut]
    exact h.normal u hu
  · intro u hu
    obtain ⟨hut, hu⟩ := hleft u hu
    rw [hothers u hut]
    exact h.seqnos u hu
  · intro u hu hfired
    obtain ⟨hut, hu⟩ := hleft u hu
    dsimp only at hfired
    split at hfired
    · exact h.waiting u hu hfired
    · obtain heq | hfired := List.mem_cons.1 hfired
      · exact hut (h.current_inj u hu t hmem heq)
      · exact h.waiting u hu hfired
  · intro u hu
    obtain ⟨hut, hu⟩ := hleft u hu
    rw [hothers u hut]
    exact h.flag u hu
  · intro n hn
    dsimp only at hn
    split at hn
    · exact h.fired_lt n hn
    · cases hn with
      | head => exact h.current_lt t hmem
      | tail _ hn => exact h.fired_lt n hn
  · dsimp only
    split
    · exact h.once
    · exact List.nodup_cons.2 ⟨h.waiting t hmem, h.once⟩
  · intro n hn
    dsimp only at hn
    split at hn
    · exact h.apart n hn
    · rename_i hlive
      cases hn with
      | head => exact fun hcancelled => hlive ((h.flag t hmem).2 hcancelled)
      | tail _ hn => exact h.apart n hn
  · intro n hn
    obtain hfired | hcancelled | ⟨u, hu, rfl⟩ := h.accounted n hn
    · left
      dsimp only
      split
      · exact hfired
      · exact List.mem_cons_of_mem _ hfired
    · exact .inr (.inl hcancelled)
    · by_cases hut : u = t
      · -- the timer that leaves has been called, or was cancelled
        rw [hut]
        dsimp only
        split
        · rename_i hflag
          exact .inr (.inl ((h.flag t hmem).1 hflag))
        · exact .inl List.mem_cons_self
      · exact .inr (.inr ⟨u, h.nodup.mem_erase_iff.2 ⟨hut, hu⟩, rfl⟩)

omit [DecidableEq Id] in
theorem Inv.least (h : Inv s) (htop : s.sys.top = some t) {u : Id} (hu : u ∈ s.sys.timers_)
    (hut : u ≠ t) : timerCompare (s.sys.timer u) (s.sys.timer t) = true := by
  have hmem := mem_of_top htop
  have hfirst : timerCompare (s.sys.timer t) (s.sys.timer u) = false :=
    first_of_top htop hu
  -- the sequence numbers differ, since the schedulings do
  have hseqno : ∀ v ∈ s.sys.timers_, (s.sys.timer v).seqno_.toNat = s.current v := by
    intro v hv
    have hlt := h.current_lt v hv
    have hle := h.count_le
    have hsize : UInt32.size = 2 ^ 32 := rfl
    rw [h.seqnos v hv]
    exact UInt32.toNat_ofNat_of_lt' (by omega)
  have hne : s.current u ≠ s.current t := fun heq => hut (h.current_inj u hu t hmem heq)
  rw [← Bool.not_eq_true, timerCompare_iff, hseqno t hmem, hseqno u hu] at hfirst
  rw [timerCompare_iff, hseqno t hmem, hseqno u hu]
  omega

theorem Inv.round (h : Inv s) (hreads : Reads s now) :
    (s.sys.runExpiredTimers now = .error .assertFailed ∧ Uncounted s.sys) ∨
      ∃ sys r, s.sys.runExpiredTimers now = .ok (sys, r) ∧ (∀ t, r = .timeout t → Fires s now t) ∧
        ∀ ms, r = .returned ms → sys = s.sys ∧
          ∀ t ∈ s.sys.timers_, now.lt (s.sys.timer t).when_ = true := by
  unfold runExpiredTimers
  split
  · rename_i hempty
    refine .inr ⟨_, _, rfl, nofun, fun ms _ => ⟨rfl, fun t ht => ?_⟩⟩
    rw [show s.sys.timers_ = [] from PriorityQueue.top_eq_none.1 hempty] at ht
    cases ht
  rename_i t htop
  have hmem := mem_of_top htop
  have hpending := (h.pending t).2 hmem
  cases hcancelled : (s.sys.timer t).cancelled_ with
  | true =>
    rw [if_pos rfl]
    by_cases hnum : s.sys.num_cancelled_ > 0
    · rw [popRound_cancelled htop hpending hcancelled hnum]
      exact .inr ⟨_, _, rfl, nofun, nofun⟩
    · rw [popRound_uncounted htop hpending hcancelled hnum]
      exact .inl ⟨rfl, ⟨t, htop, hcancelled⟩, UInt64.le_zero_iff.1 (UInt64.not_lt.1 hnum)⟩
  | false =>
    right
    rw [if_neg Bool.false_ne_true]
    have hfires : (s.sys.timer t).when_.usecsUntil now < 1000 → Fires s now t := fun hlate =>
      ⟨hmem, fun u hu hut => h.least htop hu hut, hcancelled, hlate⟩
    have hnormal := (h.normal t hmem).mono hreads.2
    split
    · rename_i hwait
      obtain ⟨hpos, hshort⟩ := diffMs_spec hnormal hreads.1 hwait
      dsimp only
      rw [show decide (diffMs (s.sys.timer t).when_ now ≥ 0) = true from decide_eq_true hpos]
      show ∃ sys r, (if diffMs (s.sys.timer t).when_ now = 0 then s.sys.popRound
        else .ok (s.sys, .returned (diffMs (s.sys.timer t).when_ now))) = .ok (sys, r) ∧ _
      split
      · rename_i hzero
        rw [popRound_live htop hpending hcancelled]
        refine ⟨_, _, rfl, fun t' heq => ?_, nofun⟩
        obtain rfl := Round.timeout.inj heq
        exact hfires (hshort hzero)
      · refine ⟨_, _, rfl, nofun, fun ms _ => ⟨rfl, fun u hu => ?_⟩⟩
        -- what is not due is due no later than the others
        have hfirst : timerCompare (s.sys.timer t) (s.sys.timer u) = false :=
          first_of_top htop hu
        rw [← Bool.not_eq_true, timerCompare_iff] at hfirst
        rw [Timeval.lt_iff] at hwait ⊢
        omega
    · rename_i hdue
      rw [popRound_live htop hpending hcancelled]
      refine ⟨_, _, rfl, fun t' heq => ?_, nofun⟩
      obtain rfl := Round.timeout.inj heq
      apply hfires
      rw [Bool.not_eq_true, Timeval.not_lt_iff] at hdue
      obtain ⟨hmax, -⟩ := hnormal
      obtain ⟨hmin, -⟩ := hreads.1
      unfold Timeval.usecsUntil
      omega

theorem Inv.exec (h : Inv s) {op : Op Id} (hregular : Regular s op) :
    (∃ s', exec s op = .ok s' ∧ Inv s') ∨
      exec s op = .error .assertFailed ∧ (∃ now, op = .round now) ∧ Uncounted s.sys := by
  cases op with
  | scheduleAt when_ t =>
    obtain ⟨hmay, hwhen⟩ := hregular
    refine .inl ⟨_, ?_, h.scheduling hmay (hwhen.normal s.clock)⟩
    unfold TimerSystem.exec
    dsimp only
    rw [scheduleAt_eq hmay.2]
    rfl
  | scheduleIn now milliseconds t =>
    obtain ⟨hmay, hreads⟩ := hregular
    refine .inl ⟨_, ?_,
      (h.clockOn hreads).scheduling hmay (Timeval.carry_normal hreads.1 milliseconds)⟩
    unfold TimerSystem.exec scheduleIn
    dsimp only
    rw [scheduleAt_eq hmay.2]
    rfl
  | scheduleImmediate now t =>
    obtain ⟨hmay, hreads⟩ := hregular
    refine .inl ⟨_, ?_, (h.clockOn hreads).scheduling hmay (hreads.1.normal now)⟩
    unfold TimerSystem.exec
    dsimp only
    rw [scheduleAt_eq hmay.2]
    rfl
  | cancel t =>
    left
    unfold TimerSystem.exec
    dsimp only
    cases hpending : (s.sys.timer t).pending_ with
    | true =>
      have hinv := h.cancelling hpending
      rw [cancel_pending hpending] at hinv ⊢
      exact ⟨_, rfl, hinv⟩
    | false =>
      rw [cancel_idle hpending]
      exact ⟨_, rfl, h⟩
  | runExpiredTimers => exact .inl ⟨_, rfl, { h with }⟩
  | timeoutReturns => exact .inl ⟨_, rfl, { h with }⟩
  | round now =>
    obtain ⟨hfails, huncounted⟩ | ⟨sys, r, hround, -, -⟩ := h.round hregular
    · refine .inr ⟨?_, ⟨now, rfl⟩, huncounted⟩
      unfold TimerSystem.exec
      dsimp only
      rw [hfails]
      rfl
    left
    -- a round reads the clock only if there is a timer
    have hclock : Inv { s with clock := if s.sys.timers_ = [] then s.clock else now } := by
      split
      · exact h
      · exact h.clockOn hregular
    have hstep := h.toKept.round hround
    unfold TimerSystem.exec
    dsimp only
    rw [hround]
    cases hstep with
    | again t htop hcancelled hnum =>
      have hinv := hclock.popped (mem_of_top htop)
      rw [hcancelled, if_pos rfl] at hinv
      exact ⟨_, rfl, { hinv with }⟩
    | timeout t htop hlive =>
      have hinv := hclock.popped (mem_of_top htop)
      rw [hlive, if_neg Bool.false_ne_true] at hinv
      exact ⟨_, rfl, { hinv with }⟩
    | returned ms => exact ⟨_, rfl, { hclock with }⟩

theorem Inv.safe (h : Inv s) : Safe s where
  once := h.once
  apart := h.apart
  accounted := h.accounted
  fires now sys t hreads hround := by
    obtain ⟨hfails, -⟩ | ⟨sys', r, hround', hfires, -⟩ := h.round hreads
    · rw [hround] at hfails
      cases hfails
    · rw [hround] at hround'
      obtain ⟨-, rfl⟩ := Prod.mk.inj (Except.ok.inj hround')
      exact hfires t rfl
  returns now sys ms hreads hround t hpending := by
    obtain ⟨hfails, -⟩ | ⟨sys', r, hround', -, hreturns⟩ := h.round hreads
    · rw [hround] at hfails
      cases hfails
    · rw [hround] at hround'
      obtain ⟨rfl, rfl⟩ := Prod.mk.inj (Except.ok.inj hround')
      obtain ⟨rfl, hdue⟩ := hreturns ms rfl
      exact hdue t ((h.pending t).1 hpending)
  asserts op _ hregular := by
    obtain ⟨s', hexec, -⟩ | ⟨-, huncounted⟩ := h.exec hregular
    · exact .inl ⟨s', hexec⟩
    · exact .inr huncounted

end Steps

theorem inv_init {s : State Id} (hinit : (system Id).init s) : Inv s := by
  obtain ⟨⟨timer, hsys, hnew⟩, -, hclock, hcount, hfired, hcancelled⟩ := hinit
  have hempty : s.sys.timers_ = [] := by rw [hsys]; rfl
  have hnone : ∀ t, t ∉ s.sys.timers_ := fun t ht => by rw [hempty] at ht; cases ht
  have hkept := kept_new hnew
  rw [← hsys] at hkept
  -- no timer is in the queue, and nothing has been scheduled
  refine
    { hkept with
      clock := hclock
      normal := fun t ht => (hnone t ht).elim
      count_le := by rw [hcount]; exact Nat.zero_le _
      seqno := by rw [hcount, hsys]; rfl
      seqnos := fun t ht => (hnone t ht).elim
      current_lt := fun t ht => (hnone t ht).elim
      current_inj := fun t ht => (hnone t ht).elim
      waiting := fun t ht => (hnone t ht).elim
      flag := fun t ht => (hnone t ht).elim
      fired_lt := ?_
      cancelled_lt := ?_
      once := by rw [hfired]; exact List.nodup_nil
      apart := ?_
      accounted := ?_ }
  · intro n hn
    rw [hfired] at hn
    cases hn
  · intro n hn
    rw [hcancelled] at hn
    cases hn
  · intro n hn
    rw [hfired] at hn
    cases hn
  · intro n hn
    rw [hcount] at hn
    omega

end TimerSystem

end Oasys
