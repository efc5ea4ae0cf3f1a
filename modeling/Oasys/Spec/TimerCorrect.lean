import Oasys.ForStd.Transition
import Oasys.Thread.Timer
import Mathlib.Data.List.Count

/-!
# Timers

What each function of the timer system does to the queue and to the flags of the timers,
and the count of cancelled timers. A timer is in the queue, once, from when it is
scheduled to when it is popped, and that is when `pending_` is set; `cancel` leaves it
there and sets `cancelled_`, which `pop_timer` takes back.

`cancel` counts a timer whenever it is pending, also one that it has counted before. In
runs where no timer is cancelled twice before it is popped, `num_cancelled_` is the number
of cancelled timers in the queue.
-/

namespace Oasys

def Timeval.InRange (t : Timeval) : Prop := 0 ≤ t.tv_usec ∧ t.tv_usec < 1000000

namespace TimerSystem

variable {Id : Type} [DecidableEq Id]

/-! ### The runs -/

/-- Where the system is between two steps. -/
inductive Control (Id : Type) where
  | idle
  /-- At the loop of `run_expired_timers`. -/
  | looping
  /-- In the callback of a timer. -/
  | inTimeout (t : Id)
  deriving DecidableEq, Repr

/-- The system, and what has happened to the timers. Every call of a schedule function is
    a scheduling, and the schedulings are numbered from 0. -/
structure State (Id : Type) where
  sys : TimerSystem Id
  control : Control Id
  /-- The last reading of the clock. -/
  clock : Timeval
  /-- How many schedulings there have been. -/
  count : Nat
  /-- The last scheduling of a timer. -/
  current : Id → Nat
  /-- The schedulings whose timers have been called. -/
  fired : List Nat
  /-- The schedulings cancelled while their timers were pending. -/
  cancelled : List Nat

/-- The calls, the rounds of the loop of `run_expired_timers`, and the end of a
    callback. -/
inductive Op (Id : Type) where
  | scheduleAt (when_ : Timeval) (t : Id)
  | scheduleIn (now : Timeval) (milliseconds : Int) (t : Id)
  | scheduleImmediate (now : Timeval) (t : Id)
  | cancel (t : Id)
  | runExpiredTimers
  | round (now : Timeval)
  | timeoutReturns
  deriving DecidableEq, Repr

def State.scheduling (s : State Id) (sys : TimerSystem Id) (t : Id) : State Id :=
  { s with sys, count := s.count + 1, current := Function.update s.current t s.count }

/-- What a step leaves. -/
def exec (s : State Id) : Op Id → Except Fault (State Id)
  | .scheduleAt when_ t => do
    let sys ← s.sys.scheduleAt when_ t
    return s.scheduling sys t
  | .scheduleIn now milliseconds t => do
    let sys ← s.sys.scheduleIn now milliseconds t
    return { s.scheduling sys t with clock := now }
  | .scheduleImmediate now t => do
    let sys ← s.sys.scheduleAt now t
    return { s.scheduling sys t with clock := now }
  | .cancel t =>
    match s.sys.cancel t with
    | (true, sys) => return { s with sys, cancelled := s.current t :: s.cancelled }
    | (false, sys) => return { s with sys }
  | .runExpiredTimers => return { s with control := .looping }
  | .round now => do
    let (sys, round) ← s.sys.runExpiredTimers now
    -- the clock is read only where there is a timer
    let s := { s with sys, clock := if s.sys.timers_ = [] then s.clock else now }
    match round with
    | .again => return s
    | .timeout t => return { s with control := .inTimeout t, fired := s.current t :: s.fired }
    | .returned _ => return { s with control := .idle }
  | .timeoutReturns => return { s with control := .looping }

/-- The lock keeps calls out of the loop, but for those of callbacks, and a deleted timer is
    not used again. -/
def Enabled (s : State Id) : Op Id → Prop
  | .scheduleAt _ t | .scheduleIn _ _ t | .scheduleImmediate _ t | .cancel t =>
    s.control ≠ .looping ∧ t ∉ s.sys.deleted
  | .runExpiredTimers => s.control = .idle
  | .round _ => s.control = .looping
  | .timeoutReturns => ∃ t, s.control = .inTimeout t

variable (Id) in
/-- A new timer system and new timers, under any sequence of steps that return. -/
def system : TransitionSystem (State Id) (Op Id) where
  init s := (∃ timer, s.sys = new timer ∧
      ∀ t, (timer t).pending_ = false ∧ (timer t).cancelled_ = false) ∧
    s.control = .idle ∧ s.clock.InRange ∧ s.count = 0 ∧ s.fired = [] ∧ s.cancelled = []
  step s op s' := Enabled s op ∧ exec s op = .ok s'

/-! ### What the functions do -/

section Functions

variable {s s' : TimerSystem Id} {t u : Id}

/-- The system once `t` is scheduled for `when_`. -/
def scheduled (s : TimerSystem Id) (when_ : Timeval) (t : Id) : TimerSystem Id :=
  { s with
    seqno_ := s.seqno_ + 1
    timers_ := t :: s.timers_
    timer := Function.update s.timer t { s.timer t with
      when_, pending_ := true, cancelled_ := false, seqno_ := s.seqno_ } }

def popped (s : TimerSystem Id) (t : Id) : TimerSystem Id :=
  { s with
    timers_ := s.timers_.erase t
    timer := Function.update s.timer t { s.timer t with pending_ := false, cancelled_ := false } }

/-- The same, where `t` was cancelled. -/
def dropped (s : TimerSystem Id) (t : Id) : TimerSystem Id :=
  { s.popped t with
    num_cancelled_ := s.num_cancelled_ - 1
    deleted := if (s.timer t).cancel_flags_ = .DELETE_ON_CANCEL then t :: s.deleted
      else s.deleted }

theorem scheduleAt_eq (hpending : (s.timer t).pending_ = false) (when_ : Timeval) :
    s.scheduleAt when_ t = .ok (s.scheduled when_ t) := by
  simp only [scheduleAt, update, Function.update_self, Function.update_idem, hpending,
    Bool.false_eq_true, if_false, pure, Except.pure, scheduled]

theorem scheduleAt_ok {when_ : Timeval} (h : s.scheduleAt when_ t = .ok s') :
    (s.timer t).pending_ = false ∧ s' = s.scheduled when_ t := by
  cases hpending : (s.timer t).pending_ with
  | true =>
    simp only [scheduleAt, update, Function.update_self, hpending, if_true] at h
    cases h
  | false =>
    rw [scheduleAt_eq hpending] at h
    exact ⟨rfl, (Except.ok.inj h).symm⟩

theorem popTimer_live (htop : s.top = some t) (hpending : (s.timer t).pending_ = true)
    (hlive : (s.timer t).cancelled_ = false) : s.popTimer = .ok (s.popped t, some t) := by
  unfold popTimer
  rw [htop]
  simp only [update, hpending, Function.update_self, hlive, assert_true, Bool.not_false, if_true,
    bind, Except.bind, pure, Except.pure, popped]

theorem popTimer_cancelled (htop : s.top = some t) (hpending : (s.timer t).pending_ = true)
    (hcancelled : (s.timer t).cancelled_ = true) (hnum : s.num_cancelled_ > 0) :
    s.popTimer = .ok (s.dropped t, none) := by
  unfold popTimer
  rw [htop]
  simp only [update, hpending, hcancelled, Function.update_self, Function.update_idem,
    Bool.not_true, Bool.false_eq_true, if_false, assert_true, hnum, decide_true, Bool.not_false,
    bind, Except.bind, pure, Except.pure]
  split
  · rename_i hflags
    simp only [dropped, popped, hflags, if_true]
  · rename_i hflags
    simp only [dropped, popped, hflags, if_false]

theorem popTimer_uncounted (htop : s.top = some t) (hpending : (s.timer t).pending_ = true)
    (hcancelled : (s.timer t).cancelled_ = true) (hnum : ¬ s.num_cancelled_ > 0) :
    s.popTimer = .error .assertFailed := by
  unfold popTimer
  rw [htop]
  simp only [update, hpending, hcancelled, Function.update_self, hnum, Bool.not_true,
    Bool.false_eq_true, if_false, assert_true, decide_false, assert_false, bind, Except.bind]

theorem popRound_cancelled (htop : s.top = some t) (hpending : (s.timer t).pending_ = true)
    (hcancelled : (s.timer t).cancelled_ = true) (hnum : s.num_cancelled_ > 0) :
    s.popRound = .ok (s.dropped t, .again) := by
  unfold popRound
  rw [popTimer_cancelled htop hpending hcancelled hnum]
  rfl

theorem popRound_uncounted (htop : s.top = some t) (hpending : (s.timer t).pending_ = true)
    (hcancelled : (s.timer t).cancelled_ = true) (hnum : ¬ s.num_cancelled_ > 0) :
    s.popRound = .error .assertFailed := by
  unfold popRound
  rw [popTimer_uncounted htop hpending hcancelled hnum]
  rfl

theorem popRound_live (htop : s.top = some t) (hpending : (s.timer t).pending_ = true)
    (hlive : (s.timer t).cancelled_ = false) : s.popRound = .ok (s.popped t, .timeout t) := by
  unfold popRound
  rw [popTimer_live htop hpending hlive]
  rfl

theorem cancel_pending (hpending : (s.timer t).pending_ = true) :
    s.cancel t = (true, { s with
      num_cancelled_ := s.num_cancelled_ + 1
      timer := Function.update s.timer t { s.timer t with cancelled_ := true } }) := by
  unfold cancel
  rw [if_pos hpending]
  rfl

theorem cancel_idle (hpending : (s.timer t).pending_ = false) : s.cancel t = (false, s) := by
  unfold cancel
  rw [hpending]
  rfl

end Functions

/-! ### The queue and the flags -/

/-- A timer is in the queue, once, where it is pending, and only there it is cancelled. -/
structure Kept (s : TimerSystem Id) : Prop where
  nodup : s.timers_.Nodup
  pending : ∀ t, (s.timer t).pending_ = true ↔ t ∈ s.timers_
  cancelled : ∀ t, (s.timer t).cancelled_ = true → t ∈ s.timers_

omit [DecidableEq Id] in
theorem mem_of_top {s : TimerSystem Id} {t : Id} (htop : s.top = some t) : t ∈ s.timers_ :=
  PriorityQueue.top_mem htop

section Kept

variable {s s' : TimerSystem Id} {t u : Id}

omit [DecidableEq Id] in
theorem Kept.not_mem (h : Kept s) (hpending : (s.timer t).pending_ = false) : t ∉ s.timers_ := by
  rw [← h.pending t, hpending]
  exact Bool.false_ne_true

theorem Kept.scheduled (h : Kept s) (hpending : (s.timer t).pending_ = false)
    (when_ : Timeval) : Kept (s.scheduled when_ t) where
  nodup := List.nodup_cons.2 ⟨h.not_mem hpending, h.nodup⟩
  pending u := by
    show (Function.update s.timer t _ u).pending_ = true ↔ u ∈ t :: s.timers_
    by_cases hut : u = t
    · rw [hut, Function.update_self]
      simp
    · rw [Function.update_of_ne hut, List.mem_cons, or_iff_right hut]
      exact h.pending u
  cancelled u hu := by
    replace hu : (Function.update s.timer t _ u).cancelled_ = true := hu
    by_cases hut : u = t
    · rw [hut]
      exact List.mem_cons_self
    · rw [Function.update_of_ne hut] at hu
      exact List.mem_cons_of_mem _ (h.cancelled u hu)

theorem Kept.popped (h : Kept s) (t : Id) : Kept (s.popped t) where
  nodup := h.nodup.erase t
  pending u := by
    show (Function.update s.timer t _ u).pending_ = true ↔ u ∈ s.timers_.erase t
    rw [h.nodup.mem_erase_iff]
    by_cases hut : u = t
    · rw [hut, Function.update_self]
      simp
    · rw [Function.update_of_ne hut, h.pending u]
      exact (and_iff_right hut).symm
  cancelled u hu := by
    replace hu : (Function.update s.timer t _ u).cancelled_ = true := hu
    show u ∈ s.timers_.erase t
    by_cases hut : u = t
    · rw [hut, Function.update_self] at hu
      cases hu
    · rw [Function.update_of_ne hut] at hu
      exact h.nodup.mem_erase_iff.2 ⟨hut, h.cancelled u hu⟩

theorem Kept.dropped (h : Kept s) (t : Id) : Kept (s.dropped t) :=
  ⟨(h.popped t).nodup, (h.popped t).pending, (h.popped t).cancelled⟩

theorem Kept.cancel (h : Kept s) (t : Id) : Kept (s.cancel t).2 := by
  cases hpending : (s.timer t).pending_ with
  | false =>
    rw [cancel_idle hpending]
    exact h
  | true =>
    rw [cancel_pending hpending]
    refine ⟨h.nodup, fun u => ?_, fun u hu => ?_⟩
    · show (Function.update s.timer t _ u).pending_ = true ↔ u ∈ s.timers_
      by_cases hut : u = t
      · rw [hut, Function.update_self]
        exact h.pending t
      · rw [Function.update_of_ne hut]
        exact h.pending u
    · replace hu : (Function.update s.timer t _ u).cancelled_ = true := hu
      show u ∈ s.timers_
      by_cases hut : u = t
      · rw [hut]
        exact (h.pending t).1 hpending
      · rw [Function.update_of_ne hut] at hu
        exact h.cancelled u hu

/-- What a round that returns comes to. -/
inductive RoundCases (s : TimerSystem Id) : TimerSystem Id → Round Id → Prop where
  | again (t : Id) (htop : s.top = some t) (hcancelled : (s.timer t).cancelled_ = true)
      (hnum : s.num_cancelled_ > 0) : RoundCases s (s.dropped t) .again
  | timeout (t : Id) (htop : s.top = some t) (hlive : (s.timer t).cancelled_ = false) :
      RoundCases s (s.popped t) (.timeout t)
  | returned (ms : Int) : RoundCases s s (.returned ms)

theorem Kept.round (h : Kept s) {now : Timeval} {r : Round Id}
    (hround : s.runExpiredTimers now = .ok (s', r)) : RoundCases s s' r := by
  unfold runExpiredTimers at hround
  split at hround
  · obtain ⟨rfl, rfl⟩ := Prod.mk.inj (Except.ok.inj hround)
    exact .returned _
  rename_i t htop
  have hpending := (h.pending t).2 (mem_of_top htop)
  cases hcancelled : (s.timer t).cancelled_ with
  | true =>
    rw [hcancelled, if_pos rfl] at hround
    by_cases hnum : s.num_cancelled_ > 0
    · rw [popRound_cancelled htop hpending hcancelled hnum] at hround
      obtain ⟨rfl, rfl⟩ := Prod.mk.inj (Except.ok.inj hround)
      exact .again t htop hcancelled hnum
    · rw [popRound_uncounted htop hpending hcancelled hnum] at hround
      cases hround
  | false =>
    rw [hcancelled, if_neg Bool.false_ne_true] at hround
    -- a live timer is popped if it is not in the future, by either comparison
    have hpop : s.popRound = .ok (s', r) → RoundCases s s' r := by
      intro hpop
      rw [popRound_live htop hpending hcancelled] at hpop
      obtain ⟨rfl, rfl⟩ := Prod.mk.inj (Except.ok.inj hpop)
      exact .timeout t htop hcancelled
    split at hround
    · obtain ⟨-, -, hrest⟩ := bind_eq_ok.1 hround
      split at hrest
      · exact hpop hrest
      · obtain ⟨rfl, rfl⟩ := Prod.mk.inj (Except.ok.inj hrest)
        exact .returned _
    · exact hpop hround

theorem RoundCases.kept {r : Round Id} (h : Kept s) (hround : RoundCases s s' r) : Kept s' := by
  cases hround with
  | again t => exact h.dropped t
  | timeout t => exact h.popped t
  | returned ms => exact h

end Kept

theorem Kept.scheduleAt {s s' : TimerSystem Id} {when_ : Timeval} {t : Id} (h : Kept s)
    (hschedule : s.scheduleAt when_ t = .ok s') : Kept s' := by
  obtain ⟨hpending, rfl⟩ := scheduleAt_ok hschedule
  exact h.scheduled hpending when_

theorem Kept.exec {s s' : State Id} {op : Op Id} (h : Kept s.sys) (hexec : exec s op = .ok s') :
    Kept s'.sys := by
  cases op with
  | scheduleAt when_ t =>
    obtain ⟨sys, hsys, hrest⟩ := bind_eq_ok.1 hexec
    obtain rfl := Except.ok.inj hrest
    exact h.scheduleAt hsys
  | scheduleIn now milliseconds t =>
    obtain ⟨sys, hsys, hrest⟩ := bind_eq_ok.1 hexec
    obtain rfl := Except.ok.inj hrest
    exact h.scheduleAt hsys
  | scheduleImmediate now t =>
    obtain ⟨sys, hsys, hrest⟩ := bind_eq_ok.1 hexec
    obtain rfl := Except.ok.inj hrest
    exact h.scheduleAt hsys
  | cancel t =>
    have hkept := h.cancel t
    unfold TimerSystem.exec at hexec
    dsimp only at hexec
    split at hexec
    all_goals
      rename_i hcancel
      rw [hcancel] at hkept
      obtain rfl := Except.ok.inj hexec
      exact hkept
  | runExpiredTimers =>
    obtain rfl := Except.ok.inj hexec
    exact h
  | round now =>
    obtain ⟨⟨sys, r⟩, hround, hrest⟩ := bind_eq_ok.1 hexec
    have hkept := (h.round hround).kept h
    cases r with
    | again =>
      obtain rfl := Except.ok.inj hrest
      exact hkept
    | timeout t =>
      obtain rfl := Except.ok.inj hrest
      exact hkept
    | returned ms =>
      obtain rfl := Except.ok.inj hrest
      exact hkept
  | timeoutReturns =>
    obtain rfl := Except.ok.inj hexec
    exact h

omit [DecidableEq Id] in
theorem kept_new {timer : Id → Timer}
    (hnew : ∀ t, (timer t).pending_ = false ∧ (timer t).cancelled_ = false) :
    Kept (new timer) where
  nodup := List.nodup_nil
  pending t := by
    show (timer t).pending_ = true ↔ t ∈ []
    rw [(hnew t).1]
    simp
  cancelled t ht := by
    replace ht : (timer t).cancelled_ = true := ht
    rw [(hnew t).2] at ht
    cases ht

/-! ### The count of cancelled timers -/

def numCancelled (s : TimerSystem Id) : Nat := s.timers_.countP fun t => (s.timer t).cancelled_

def numLive (s : TimerSystem Id) : Nat := s.timers_.countP fun t => !(s.timer t).cancelled_

/-- The counts are right, and the difference that `num_pending_timers` returns is not
    negative. -/
structure Counted (s : TimerSystem Id) : Prop where
  cancelled : s.num_cancelled_ = .ofNat s.numCancelled
  pending : s.numPendingTimers = .ofNat s.numLive
  noWrap : s.num_cancelled_.toNat ≤ s.timers_.length

/-- No timer is cancelled again before it is popped. -/
def CancelsOnce (s : State Id) : Op Id → Prop
  | .cancel t => ¬((s.sys.timer t).pending_ = true ∧ (s.sys.timer t).cancelled_ = true)
  | _ => True

section Count

variable {s s' : TimerSystem Id} {t : Id}

theorem countP_erase_congr {l : List Id} (hnodup : l.Nodup) {p q : Id → Bool}
    (heq : ∀ u, u ≠ t → p u = q u) : (l.erase t).countP p = (l.erase t).countP q := by
  apply List.countP_congr
  intro u hu
  rw [heq u (hnodup.mem_erase_iff.1 hu).1]

theorem countP_eq_erase {l : List Id} (hmem : t ∈ l) (p : Id → Bool) :
    l.countP p = (l.erase t).countP p + if p t then 1 else 0 := by
  rw [(List.perm_cons_erase hmem).countP_eq p, List.countP_cons]

theorem Kept.numCancelled_scheduled (h : Kept s) (hpending : (s.timer t).pending_ = false)
    (when_ : Timeval) : (s.scheduled when_ t).numCancelled = s.numCancelled := by
  show (t :: s.timers_).countP (fun u => (Function.update s.timer t _ u).cancelled_) = _
  rw [List.countP_cons, Function.update_self]
  apply List.countP_congr
  intro u hu
  have hut : u ≠ t := fun heq => h.not_mem hpending (heq ▸ hu)
  rw [Function.update_of_ne hut]

theorem Kept.numCancelled_popped (h : Kept s) (hmem : t ∈ s.timers_) :
    s.numCancelled = (s.popped t).numCancelled + if (s.timer t).cancelled_ then 1 else 0 := by
  unfold numCancelled
  rw [countP_eq_erase hmem]
  congr 1
  apply countP_erase_congr h.nodup
  intro u hut
  show (s.timer u).cancelled_ = (Function.update s.timer t _ u).cancelled_
  rw [Function.update_of_ne hut]

theorem Kept.numCancelled_cancel (h : Kept s) (hpending : (s.timer t).pending_ = true)
    (hlive : (s.timer t).cancelled_ = false) :
    (s.cancel t).2.numCancelled = s.numCancelled + 1 := by
  have hmem := (h.pending t).1 hpending
  rw [cancel_pending hpending]
  show s.timers_.countP (fun u => (Function.update s.timer t _ u).cancelled_) = _
  unfold numCancelled
  rw [countP_eq_erase hmem, countP_eq_erase hmem (fun u => (s.timer u).cancelled_),
    Function.update_self, hlive, if_pos rfl, if_neg Bool.false_ne_true, Nat.add_zero]
  congr 1
  apply countP_erase_congr h.nodup
  intro u hut
  rw [Function.update_of_ne hut]

omit [DecidableEq Id] in
theorem counted_of_cancelled (hcount : s.num_cancelled_ = .ofNat s.numCancelled) :
    Counted s where
  cancelled := hcount
  pending := by
    have hsplit : s.timers_.length = s.numLive + s.numCancelled := by
      unfold numLive numCancelled
      rw [List.length_eq_countP_add_countP (fun t => (s.timer t).cancelled_), Nat.add_comm]
      congr 2
      funext t
      cases (s.timer t).cancelled_ <;> rfl
    unfold numPendingTimers
    rw [hcount, hsplit, UInt64.ofNat_add, UInt64.add_sub_cancel]
  noWrap := by
    have hle : s.numCancelled ≤ s.timers_.length := List.countP_le_length
    rw [hcount, UInt64.toNat_ofNat']
    exact Nat.le_trans (Nat.mod_le _ _) hle

end Count

theorem Kept.count {s s' : State Id} {op : Op Id} (h : Kept s.sys)
    (hcount : s.sys.num_cancelled_ = .ofNat s.sys.numCancelled) (honce : CancelsOnce s op)
    (hexec : TimerSystem.exec s op = .ok s') :
    s'.sys.num_cancelled_ = .ofNat s'.sys.numCancelled := by
  have hscheduled : ∀ {when_ t sys}, s.sys.scheduleAt when_ t = .ok sys →
      sys.num_cancelled_ = .ofNat sys.numCancelled := by
    intro when_ t sys hsys
    obtain ⟨hpending, rfl⟩ := scheduleAt_ok hsys
    rw [h.numCancelled_scheduled hpending when_]
    exact hcount
  cases op with
  | scheduleAt when_ t =>
    obtain ⟨sys, hsys, hrest⟩ := bind_eq_ok.1 hexec
    obtain rfl := Except.ok.inj hrest
    exact hscheduled hsys
  | scheduleIn now milliseconds t =>
    obtain ⟨sys, hsys, hrest⟩ := bind_eq_ok.1 hexec
    obtain rfl := Except.ok.inj hrest
    exact hscheduled hsys
  | scheduleImmediate now t =>
    obtain ⟨sys, hsys, hrest⟩ := bind_eq_ok.1 hexec
    obtain rfl := Except.ok.inj hrest
    exact hscheduled hsys
  | cancel t =>
    unfold TimerSystem.exec at hexec
    dsimp only at hexec
    cases hpending : (s.sys.timer t).pending_ with
    | false =>
      rw [cancel_idle hpending] at hexec
      obtain rfl := Except.ok.inj hexec
      exact hcount
    | true =>
      -- a timer that is cancelled already would be counted twice
      have hlive : (s.sys.timer t).cancelled_ = false := by
        cases hcancelled : (s.sys.timer t).cancelled_ with
        | false => rfl
        | true => exact (honce ⟨hpending, hcancelled⟩).elim
      have hmore := h.numCancelled_cancel hpending hlive
      rw [cancel_pending hpending] at hexec hmore
      obtain rfl := Except.ok.inj hexec
      show s.sys.num_cancelled_ + 1 = .ofNat _
      rw [hmore, UInt64.ofNat_add, hcount]
      rfl
  | runExpiredTimers =>
    obtain rfl := Except.ok.inj hexec
    exact hcount
  | timeoutReturns =>
    obtain rfl := Except.ok.inj hexec
    exact hcount
  | round now =>
    obtain ⟨⟨sys, r⟩, hround, hrest⟩ := bind_eq_ok.1 hexec
    cases h.round hround with
    | again t htop hcancelled hnum =>
      obtain rfl := Except.ok.inj hrest
      have hless := h.numCancelled_popped (mem_of_top htop)
      rw [hcancelled, if_pos rfl] at hless
      show s.sys.num_cancelled_ - 1 = .ofNat (s.sys.popped t).numCancelled
      rw [hcount, hless, UInt64.ofNat_add]
      exact UInt64.add_sub_cancel _ _
    | timeout t htop hlive =>
      obtain rfl := Except.ok.inj hrest
      have hsame := h.numCancelled_popped (mem_of_top htop)
      rw [hlive, if_neg Bool.false_ne_true, Nat.add_zero] at hsame
      show s.sys.num_cancelled_ = .ofNat (s.sys.popped t).numCancelled
      rw [hcount, hsame]
    | returned ms =>
      obtain rfl := Except.ok.inj hrest
      exact hcount

/-- In every run in which no timer is cancelled again before it is popped, the counts are
    right. -/
theorem counted_of_cancelsOnce {s : State Id} (hs : (system Id).ReachableWith CancelsOnce s) :
    Counted s.sys := by
  have hinv : Kept s.sys ∧ s.sys.num_cancelled_ = .ofNat s.sys.numCancelled := by
    apply hs.invariant
    · rintro s ⟨⟨timer, hsys, hnew⟩, -⟩
      rw [hsys]
      exact ⟨kept_new hnew, rfl⟩
    · rintro s op s' ⟨hkept, hcount⟩ honce ⟨-, hexec⟩
      exact ⟨hkept.exec hexec, hkept.count hcount honce hexec⟩
  exact counted_of_cancelled hinv.2

/-- A new system, with the clock at zero. -/
def State.new (timer : Id → Timer) : State Id where
  sys := .new timer
  control := .idle
  clock := ⟨0, 0⟩
  count := 0
  current := fun _ => 0
  fired := []
  cancelled := []

/-- A new timer. -/
def newTimer (cancel_flags_ : Timer.CancelFlags) : Timer where
  when_ := ⟨0, 0⟩
  pending_ := false
  cancelled_ := false
  cancel_flags_ := cancel_flags_
  seqno_ := 0

theorem init_new (cancel_flags_ : Timer.CancelFlags) :
    (system Id).init (.new fun _ => newTimer cancel_flags_) :=
  ⟨⟨_, rfl, fun _ => ⟨rfl, rfl⟩⟩, rfl,
    ⟨Int.le_refl 0, by show (0 : Int) < 1000000; decide⟩, rfl, rfl, rfl⟩

/-- A timer that is scheduled and cancelled, and cancelled once more when it has been
    popped. -/
theorem counted_of_cancelsOnce_popped : ∃ s : State Nat, s.cancelled = [0] ∧
    s.sys.num_cancelled_ = 0 ∧ Counted s.sys := by
  have hinit : (system Nat).ReachableWith CancelsOnce (.new fun _ => newTimer .NO_DELETE) :=
    .init (init_new .NO_DELETE)
  have hscheduled : (system Nat).ReachableWith CancelsOnce _ :=
    .step (a := .scheduleAt ⟨5, 0⟩ 7) hinit trivial ⟨⟨nofun, nofun⟩, rfl⟩
  have hcancelled : (system Nat).ReachableWith CancelsOnce _ :=
    .step (a := .cancel 7) hscheduled (fun h => Bool.false_ne_true h.2) ⟨⟨nofun, nofun⟩, rfl⟩
  have hrun : (system Nat).ReachableWith CancelsOnce _ :=
    .step (a := .runExpiredTimers) hcancelled trivial ⟨rfl, rfl⟩
  have hpopped : (system Nat).ReachableWith CancelsOnce _ :=
    .step (a := .round ⟨1, 0⟩) hrun trivial ⟨rfl, rfl⟩
  have hreturned : (system Nat).ReachableWith CancelsOnce _ :=
    .step (a := .round ⟨1, 0⟩) hpopped trivial ⟨rfl, rfl⟩
  have hagain : (system Nat).ReachableWith CancelsOnce _ :=
    .step (a := .cancel 7) hreturned (fun h => Bool.false_ne_true h.2) ⟨⟨nofun, nofun⟩, rfl⟩
  exact ⟨_, rfl, rfl, counted_of_cancelsOnce hagain⟩

/-- Without the condition they are not: a timer that is cancelled twice counts twice. -/
theorem not_counted_cancelled_twice : ¬ ∀ s : State Nat, (system Nat).Reachable s →
    Counted s.sys := by
  intro h
  have hinit : (system Nat).Reachable (.new fun _ => newTimer .NO_DELETE) :=
    .init (init_new .NO_DELETE)
  have hscheduled : (system Nat).Reachable _ :=
    .step (a := .scheduleAt ⟨5, 0⟩ 7) hinit trivial ⟨⟨nofun, nofun⟩, rfl⟩
  have hcancelled : (system Nat).Reachable _ :=
    .step (a := .cancel 7) hscheduled trivial ⟨⟨nofun, nofun⟩, rfl⟩
  have htwice : (system Nat).Reachable _ :=
    .step (a := .cancel 7) hcancelled trivial ⟨⟨nofun, nofun⟩, rfl⟩
  have hle : (2 : UInt64).toNat ≤ 1 := (h _ htwice).noWrap
  exact absurd hle (by decide)

theorem not_counted_of_twice {s : TimerSystem Id} {t : Id} (h : Counted s)
    (hpending : (s.timer t).pending_ = true) (hcancelled : (s.timer t).cancelled_ = true) :
    ¬ Counted (s.cancel t).2 := by
  intro htwice
  have hcount := htwice.cancelled
  rw [cancel_pending hpending] at hcount
  -- the flag was set already
  have hsame : Function.update s.timer t { s.timer t with cancelled_ := true } = s.timer := by
    rw [show ({ s.timer t with cancelled_ := true } : Timer) = s.timer t by rw [← hcancelled],
      Function.update_eq_self]
  simp only [numCancelled, hsame] at hcount
  have hbefore : s.num_cancelled_ = .ofNat (s.timers_.countP fun t => (s.timer t).cancelled_) :=
    h.cancelled
  rw [← hbefore] at hcount
  simp at hcount

end TimerSystem

end Oasys
