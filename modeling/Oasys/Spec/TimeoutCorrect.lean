import Oasys.Spec.RwVallCorrect

/-!
# Timeouts of rwdata, rwvall and poll_with_notifier

`adjust_timeout` subtracts the time since the start of the call from a timeout that the retries
before have reduced already, and its division by 1000 rounds toward zero where the
microseconds of the clock have gone below those of the start. `Right` says at which retries
the result is what is left of the timeout all the same.

Each of the three functions has a copy of the timeout of its own, so the retry before is the
last one of the same loop or of a loop around it.
-/

namespace Oasys.Io

/-! ### What is left of a timeout -/

def elapsed (start now : Int) : Int := (now - start) / 1000

def remaining (T start now : Int) : Int := max 0 (T - elapsed start now)

/-- A retry at `now` whose timeout is what was left at `prev`. Nothing was left; or nothing is
    left now, and the difference does not wrap around; or no millisecond had passed at `prev`,
    and the division does not round up. -/
def Right (T start prev now : Int) : Prop :=
  let msec := elapsedMsec (gettimeofday start) (gettimeofday now)
  T ≤ elapsed start prev ∨
    (T ≤ elapsed start now ∧ IntType.int.conv (T - elapsed start prev - msec) ≤ 0) ∨
    (elapsed start now < T ∧ elapsed start prev = 0 ∧ msec = elapsed start now)

section Adjust

variable {T start prev now : Int}

theorem elapsedMsec_bounds (start now : Int) :
    elapsed start now ≤ elapsedMsec (gettimeofday start) (gettimeofday now) ∧
      elapsedMsec (gettimeofday start) (gettimeofday now) ≤ elapsed start now + 1 := by
  unfold elapsed elapsedMsec gettimeofday
  dsimp only
  have hquot := tdiv_cases (now % 1000000 - start % 1000000) 1000
  by_cases hneg : now % 1000000 - start % 1000000 < 0
  · rw [hquot.2 hneg]
    omega
  · rw [hquot.1 (by omega)]
    omega

/-- `adjust_timeout` leaves what is left exactly at the retries that are right. -/
theorem adjusted_iff (hT : 0 ≤ T) (hint : T < 2 ^ 31) (hprev : start ≤ prev) (hnow : prev ≤ now) :
    adjusted (remaining T start prev) (some (gettimeofday start)) now =
      .ok (remaining T start now) ↔ Right T start prev now := by
  have hbounds := elapsedMsec_bounds start now
  have hzero : 0 ≤ elapsed start prev := by
    unfold elapsed
    omega
  have hmono : elapsed start prev ≤ elapsed start now := by
    unfold elapsed
    omega
  unfold adjusted adjustTimeout Right remaining
  dsimp only
  generalize elapsedMsec (gettimeofday start) (gettimeofday now) = msec at *
  generalize elapsed start prev = before at *
  generalize elapsed start now = passed at *
  by_cases hleft : T ≤ before
  · -- nothing was left, and the clock is not read
    rw [if_neg (by omega)]
    exact iff_of_true (congrArg Except.ok (by omega)) (.inl hleft)
  rw [if_pos (by omega), show max 0 (T - before) - msec = T - before - msec by omega]
  by_cases hover : T ≤ passed
  · -- nothing is left now
    have hgoal : max 0 (T - passed) = 0 := by omega
    rw [hgoal]
    split
    · exact iff_of_true rfl (.inr (.inl ⟨hover, by omega⟩))
    · rename_i hpos
      constructor
      · intro heq
        exact .inr (.inl ⟨hover, Int.le_of_eq (Except.ok.inj heq)⟩)
      · rintro (hsmall | ⟨-, hle⟩ | ⟨hlt, -, -⟩)
        · exact absurd hsmall hleft
        · exact congrArg Except.ok (by omega)
        · omega
  · -- something is left, and the difference is far from the ends of an `int`
    have hconv : IntType.int.conv (T - before - msec) = T - before - msec := by
      rw [IntType.int_conv]
      omega
    rw [hconv]
    constructor
    · intro heq
      refine .inr (.inr ⟨by omega, ?_⟩)
      split at heq
      · have := Except.ok.inj heq
        omega
      · have := Except.ok.inj heq
        omega
    · rintro (hsmall | ⟨hle, -⟩ | ⟨-, hb, hm⟩)
      · omega
      · omega
      · rw [if_neg (by omega)]
        exact congrArg Except.ok (by omega)

end Adjust

/-! ### The retries of a call -/

section Retries

variable (T start : Int)

/-- The retries of the loop of `poll_with_notifier` are right. -/
def PollsRight : Int → List Poll → Prop
  | _, [] => True
  | prev, p :: polls =>
    p.interrupted → Right T start prev p.now ∧ PollsRight p.now polls

/-- The retries of a call of `rwdata` are right. -/
def StepsRight (intr : Option Int) (poll_fd : PollFd) (ignore_eagain : Bool) :
    Int → List RwStep → Prop
  | _, [] => True
  | prev, s :: steps =>
    PollsRight T start prev s.polls ∧
      (s.ready intr poll_fd true → s.retried ignore_eagain →
        Right T start prev s.now ∧ StepsRight intr poll_fd ignore_eagain s.now steps)

/-- The retries of a call of `rwvall` that has `left` bytes to transfer are right. When none
    is left it returns the total, which may have the value of `IOTIMEOUT` as an `int`. -/
def RoundsRight (intr : Option Int) (poll_fd : PollFd) (total_bytes : Int) (left : Nat)
    (prev : Int) (rounds : List (List RwStep)) : Prop :=
  if left = 0 then total_bytes = IOTIMEOUT → T * 1000 ≤ prev - start
  else
    match rounds with
    | [] => True
    | steps :: rounds =>
      StepsRight T start intr poll_fd true prev steps ∧
        ∀ cc now, transfer intr poll_fd true true steps = some (cc, now) →
          (cc.toNat < left → Right T start prev now) ∧
            RoundsRight intr poll_fd total_bytes (left - cc.toNat) now rounds

end Retries

/-- The times at which the system calls of a round return. -/
def RwStep.times (s : RwStep) : List Int := s.polls.map Poll.now ++ [s.now]

/-- A call of one of the functions, with what the system calls return. -/
inductive Call where
  | pollWithNotifier (intr : Option Int) (fds : List PollFd) (polls : List Poll)
  | rwdata (op : IO_Op_t) (fd : Int) (iov : Option (List IoVec)) (flags : Int)
      (args : Option RwDataExtraArgs) (intr : Option Int) (ignore_eagain : Bool)
      (steps : List RwStep)
  | rwvall (op : IO_Op_t) (fd : Int) (iov : List IoVec) (intr : Option Int)
      (rounds : List (List RwStep))

namespace Call

/-- The call with the timeout `T`, at `start`. -/
def run (T start : Int) : Call → Except Fault Done
  | pollWithNotifier intr fds polls =>
    Prod.fst <$> Io.pollWithNotifier intr fds T (some (gettimeofday start)) start polls
  | rwdata op fd iov flags args intr ignore_eagain steps =>
    Io.rwdata op fd iov flags T args (some (gettimeofday start)) intr ignore_eagain start steps
  | rwvall op fd iov intr rounds =>
    Prod.fst <$> Io.rwvall op fd iov T (some (gettimeofday start)) intr start rounds

def times : Call → List Int
  | pollWithNotifier _ _ polls => polls.map Poll.now
  | rwdata _ _ _ _ _ _ _ steps => steps.flatMap RwStep.times
  | rwvall _ _ _ _ rounds => rounds.flatMap fun steps => steps.flatMap RwStep.times

/-- The retries are right. -/
def Right (T start : Int) : Call → Prop
  | pollWithNotifier _ _ polls => PollsRight T start start polls
  | rwdata op fd _ _ _ intr ignore_eagain steps =>
    ∀ poll_fd, pollFd op fd = .ok poll_fd →
      StepsRight T start intr poll_fd ignore_eagain start steps
  | rwvall op fd iov intr rounds =>
    ∀ poll_fd, pollFd op fd = .ok poll_fd →
      RoundsRight T start intr poll_fd (IntType.int.conv (COWIoVec.new iov).bytes_left_)
        (COWIoVec.new iov).bytes_left_ start rounds

end Call

/-- Each wait has what is left of the timeout, and `IOTIMEOUT` is not returned early. -/
def Accounts (T start : Int) (r : Done) : Prop :=
  (∀ w ∈ r.waits, w.1 = remaining T start w.2) ∧
    (r.cc = IOTIMEOUT → T * 1000 ≤ r.now - start)

/-! ### The waits of poll_with_notifier -/

section Waits

variable {T start now timeout : Int} {intr : Option Int} {poll_fd : PollFd}
  {ignore_eagain : Bool}

variable {p : Poll}

theorem pollResult_timeout {fds fds' : List PollFd}
    (hresult : pollResult intr fds p = .ok (IOTIMEOUT, fds')) : p.cc = 0 := by
  unfold pollResult IOTIMEOUT at hresult
  split at hresult
  · cases hresult
  dsimp only at hresult
  -- every other branch returns another value
  by_contra hcc
  rw [if_neg hcc, if_neg hcc] at hresult
  split at hresult
  · obtain ⟨-, -, hok⟩ := bind_eq_ok.1 hresult
    have := congrArg Prod.fst (Except.ok.inj hok)
    dsimp only at this
    omega
  · split at hresult
    · split at hresult
      · obtain ⟨-, hassert, hok⟩ := bind_eq_ok.1 hresult
        have := congrArg Prod.fst (Except.ok.inj hok)
        dsimp only at this
        omega
      · have := congrArg Prod.fst (Except.ok.inj hresult)
        dsimp only at this
        omega
    · split at hresult
      · cases hresult
      · split at hresult
        · cases hresult
        · cases hresult

variable {gs : Option Timeval}

theorem pollLoop_head {polls : List Poll} {now' : Int}
    {waits : List (Int × Int)} (hrun : pollLoop gs timeout now polls = .ok (p, now', waits)) :
    (timeout, now) ∈ waits := by
  cases polls with
  | nil => cases hrun
  | cons q polls =>
    unfold pollLoop at hrun
    split at hrun
    · obtain ⟨timeout', -, hrun⟩ := bind_eq_ok.1 hrun
      obtain ⟨⟨p', now'', waits'⟩, -, hrun⟩ := bind_eq_ok.1 hrun
      cases hrun
      exact List.mem_cons_self
    · cases hrun
      exact List.mem_cons_self

theorem pollLoop_find {polls : List Poll} {now' : Int}
    {waits : List (Int × Int)} (hrun : pollLoop gs timeout now polls = .ok (p, now', waits)) :
    polls.find? (fun p => !p.interrupted) = some p := by
  induction polls generalizing timeout now now' waits with
  | nil => cases hrun
  | cons q polls ih =>
    unfold pollLoop at hrun
    split at hrun
    · rename_i hq
      obtain ⟨timeout', -, hrun⟩ := bind_eq_ok.1 hrun
      obtain ⟨⟨p', now'', waits'⟩, hloop, hrun⟩ := bind_eq_ok.1 hrun
      cases hrun
      rw [List.find?_cons_of_neg (by simp [hq])]
      exact ih hloop
    · rename_i hq
      cases hrun
      exact List.find?_cons_of_pos (by simp [hq])

/-- The waits of the loop of `poll_with_notifier`, and its end if `::poll` times out. -/
theorem pollLoop_accounts (hT : 0 ≤ T) (hint : T < 2 ^ 31) {polls : List Poll} :
    ∀ {now : Int} {p : Poll} {now' : Int} {waits : List (Int × Int)}, start ≤ now →
    (now :: polls.map Poll.now).Pairwise (· ≤ ·) →
    pollLoop (some (gettimeofday start)) (remaining T start now) now polls =
      .ok (p, now', waits) →
    ((∀ w ∈ waits, w.1 = remaining T start w.2) ↔ PollsRight T start now polls) ∧
      (PollsRight T start now polls → p.cc = 0 → T * 1000 ≤ now' - start) := by
  -- the induction is on the returns of `::poll`; each retry sets the timeout of the rest
  induction polls with
  | nil =>
    intro now p now' waits _ _ hrun
    cases hrun
  | cons q polls ih =>
    intro now p now' waits hstart htimes hrun
    unfold pollLoop at hrun
    rw [List.map_cons, List.pairwise_cons] at htimes
    obtain ⟨hle, htimes'⟩ := htimes
    have hnow : now ≤ q.now := hle q.now List.mem_cons_self
    split at hrun
    · rename_i hq
      obtain ⟨timeout', hadjusted, hrun⟩ := bind_eq_ok.1 hrun
      obtain ⟨⟨p', now'', waits'⟩, hloop, hrun⟩ := bind_eq_ok.1 hrun
      cases hrun
      have hiff := adjusted_iff hT hint hstart hnow
      have hnext := fun hright : Right T start now q.now =>
        ih (Int.le_trans hstart hnow) htimes'
          (Except.ok.inj (hadjusted.symm.trans (hiff.2 hright)) ▸ hloop)
      refine ⟨⟨fun hwaits _ => ?_, fun hright => ?_⟩, fun hright => ?_⟩
      · obtain ⟨-, hrest⟩ := List.forall_mem_cons.1 hwaits
        have hright : Right T start now q.now := by
          rw [← hiff, hadjusted]
          exact congrArg Except.ok (hrest _ (pollLoop_head hloop))
        exact ⟨hright, (hnext hright).1.1 hrest⟩
      · obtain ⟨hright, hrest⟩ := hright hq
        exact List.forall_mem_cons.2 ⟨rfl, (hnext hright).1.2 hrest⟩
      · obtain ⟨hright, hrest⟩ := hright hq
        exact (hnext hright).2 hrest
    · rename_i hq
      cases hrun
      refine ⟨iff_of_true ?_ fun hint => absurd hint hq, fun _ hzero => ?_⟩
      · intro w hw
        obtain rfl := List.mem_singleton.1 hw
        rfl
      · -- `::poll` has taken what was left
        unfold Poll.returns
        rw [if_pos hzero]
        unfold remaining elapsed
        omega

theorem rwdataPoll_spec {s : RwStep} {r : Done} (htimeout : -1 < timeout)
    (hrun : rwdataPoll poll_fd gs intr timeout now s.polls = .ok r) :
    ∃ p, pollLoop gs timeout now s.polls = .ok (p, r.now, r.waits) ∧
      (r.cc = IOTIMEOUT → p.cc = 0) ∧
      s.ready intr poll_fd true = !(r.cc = IOERROR || r.cc = IOTIMEOUT || r.cc = IOINTR) := by
  have hpolled : (intr.isSome || decide (timeout > -1)) = true := by
    rw [decide_eq_true htimeout, Bool.or_true]
  unfold rwdataPoll at hrun
  rw [if_pos hpolled] at hrun
  obtain ⟨⟨r', fds⟩, hcall, rfl⟩ := map_eq_ok.1 hrun
  obtain ⟨-, -, hrun⟩ := bind_eq_ok.1 hcall
  obtain ⟨-, -, hrun⟩ := bind_eq_ok.1 hrun
  obtain ⟨⟨p, now', waits⟩, hloop, hrun⟩ := bind_eq_ok.1 hrun
  obtain ⟨⟨cc, fds'⟩, hresult, hrun⟩ := bind_eq_ok.1 hrun
  cases hrun
  refine ⟨p, hloop, fun htimeout => ?_, ?_⟩
  · have htimeout : cc = IOTIMEOUT := htimeout
    rw [htimeout] at hresult
    exact pollResult_timeout hresult
  · unfold RwStep.ready
    rw [pollLoop_find hloop, Option.elim_some, hresult]
    rfl

/-! ### The waits of rwdata -/

theorem adjusted_nonneg {timeout' : Int} (htimeout : -1 < timeout)
    (hadjusted : adjusted timeout gs now = .ok timeout') : -1 < timeout' := by
  unfold adjusted adjustTimeout at hadjusted
  split at hadjusted
  · split at hadjusted
    · cases hadjusted
    · dsimp only at hadjusted
      split at hadjusted
      · have := Except.ok.inj hadjusted
        omega
      · have := Except.ok.inj hadjusted
        omega
  · rw [← Except.ok.inj hadjusted]
    exact htimeout

/-- The first wait is with the timeout that `rwdata` is given, and a positive result is what
    the system call has transferred. -/
theorem rwdataLoop_spec {iov : List IoVec} {steps : List RwStep} :
    ∀ {timeout now : Int} {r : Done}, -1 < timeout →
    rwdataLoop poll_fd iov gs intr ignore_eagain timeout now steps = .ok r →
    (timeout, now) ∈ r.waits ∧
      (0 < r.cc → transfer intr poll_fd true ignore_eagain steps = some (r.cc, r.now)) := by
  -- the induction is on the rounds; a round ends the call, retries it, or has its result
  induction steps with
  | nil =>
    intro timeout now r _ hrun
    cases hrun
  | cons s steps ih =>
    intro timeout now r htimeout hrun
    unfold rwdataLoop at hrun
    obtain ⟨polled, hpoll, hrun⟩ := bind_eq_ok.1 hrun
    obtain ⟨p, hloop, -, hready⟩ := rwdataPoll_spec htimeout hpoll
    have hhead := pollLoop_head hloop
    unfold transfer
    split at hrun
    · rename_i hstops
      obtain rfl := Except.ok.inj hrun
      refine ⟨hhead, fun hpos => ?_⟩
      -- the values that end the call are not positive
      unfold IOERROR IOTIMEOUT IOINTR at hstops
      simp only [Bool.or_eq_true, decide_eq_true_eq] at hstops
      omega
    · rename_i hgoes
      rw [Bool.not_eq_true] at hgoes
      rw [hready, hgoes, Bool.not_false, if_pos rfl]
      split at hrun
      · rename_i hretried
        obtain ⟨timeout', hadjusted, hrun⟩ := bind_eq_ok.1 hrun
        obtain ⟨r', hloop', hrun⟩ := bind_eq_ok.1 hrun
        obtain rfl := Except.ok.inj hrun
        rw [if_pos hretried]
        refine ⟨List.mem_append_left _ hhead, fun hpos => ?_⟩
        exact (ih (adjusted_nonneg htimeout hadjusted) hloop').2 hpos
      · rename_i hretried
        obtain rfl := Except.ok.inj hrun
        rw [if_neg hretried]
        refine ⟨hhead, fun hpos => ?_⟩
        dsimp only at hpos ⊢
        unfold IOAGAIN IOERROR at *
        split at hpos
        · split at hpos <;> omega
        · rename_i hcc
          rw [if_pos hpos, if_neg hcc]

/-- The waits of the loop of `rwdata`, and its end if it times out. -/
theorem rwdataLoop_accounts (hT : 0 ≤ T) (hint : T < 2 ^ 31) {iov : List IoVec}
    {steps : List RwStep} : ∀ {now : Int} {r : Done}, start ≤ now →
    (now :: steps.flatMap RwStep.times).Pairwise (· ≤ ·) →
    rwdataLoop poll_fd iov (some (gettimeofday start)) intr ignore_eagain
      (remaining T start now) now steps = .ok r →
    ((∀ w ∈ r.waits, w.1 = remaining T start w.2) ↔
        StepsRight T start intr poll_fd ignore_eagain now steps) ∧
      (StepsRight T start intr poll_fd ignore_eagain now steps → r.cc = IOTIMEOUT →
        T * 1000 ≤ r.now - start) := by
  -- the induction is on the rounds; each retry sets the timeout of the rest
  induction steps with
  | nil =>
    intro now r _ _ hrun
    cases hrun
  | cons s steps ih =>
    intro now r hstart htimes hrun
    have hnonneg : -1 < remaining T start now := by
      unfold remaining
      omega
    unfold rwdataLoop at hrun
    obtain ⟨polled, hpoll, hrun⟩ := bind_eq_ok.1 hrun
    obtain ⟨p, hloop, htimeout, hready⟩ := rwdataPoll_spec hnonneg hpoll
    -- the times of this round, and those of the ones after it
    rw [List.flatMap_cons, RwStep.times, List.append_assoc, List.singleton_append] at htimes
    have hpolls : (now :: s.polls.map Poll.now).Pairwise (· ≤ ·) :=
      htimes.sublist ((List.sublist_append_left _ _).cons_cons now)
    obtain ⟨hle, htimes'⟩ := List.pairwise_cons.1 htimes
    have hnow : now ≤ s.now := hle _ (List.mem_append_right _ List.mem_cons_self)
    have hafter : (s.now :: steps.flatMap RwStep.times).Pairwise (· ≤ ·) :=
      htimes'.sublist (List.sublist_append_right _ _)
    obtain ⟨hwaits, hlate⟩ := pollLoop_accounts hT hint hstart hpolls hloop
    split at hrun
    · -- `poll_with_notifier` ends the call
      rename_i hstops
      obtain rfl := Except.ok.inj hrun
      rw [hstops, Bool.not_true] at hready
      refine ⟨hwaits.trans ⟨fun h => ⟨h, fun hgoes => ?_⟩, fun h => h.1⟩, fun hright hcc => ?_⟩
      · rw [hready] at hgoes
        cases hgoes
      · exact hlate hright.1 (htimeout hcc)
    rename_i hgoes
    rw [Bool.not_eq_true] at hgoes
    rw [hgoes, Bool.not_false] at hready
    split at hrun
    · rename_i hretried
      obtain ⟨timeout', hadjusted, hrun⟩ := bind_eq_ok.1 hrun
      obtain ⟨r', hloop', hrun⟩ := bind_eq_ok.1 hrun
      obtain rfl := Except.ok.inj hrun
      have hiff := adjusted_iff hT hint hstart hnow
      have hnext := fun hright : Right T start now s.now =>
        ih (Int.le_trans hstart hnow) hafter
          (Except.ok.inj (hadjusted.symm.trans (hiff.2 hright)) ▸ hloop')
      refine ⟨⟨fun h => ?_, fun h => ?_⟩, fun h => ?_⟩
      · obtain ⟨hfirst, hrest⟩ := List.forall_mem_append.1 h
        have hhead := (rwdataLoop_spec (adjusted_nonneg hnonneg hadjusted) hloop').1
        have hright : Right T start now s.now := by
          rw [← hiff, hadjusted]
          exact congrArg Except.ok (hrest _ hhead)
        exact ⟨hwaits.1 hfirst, fun _ _ => ⟨hright, (hnext hright).1.1 hrest⟩⟩
      · obtain ⟨hright, hrest⟩ := h.2 hready hretried
        exact List.forall_mem_append.2 ⟨hwaits.2 h.1, (hnext hright).1.2 hrest⟩
      · obtain ⟨hright, hrest⟩ := h.2 hready hretried
        exact (hnext hright).2 hrest
    · rename_i hretried
      obtain rfl := Except.ok.inj hrun
      refine ⟨hwaits.trans ⟨fun h => ⟨h, fun _ hagain => absurd hagain hretried⟩, fun h => h.1⟩,
        fun _ hcc => ?_⟩
      -- no system call returns the value of `IOTIMEOUT`
      dsimp only at hcc
      unfold IOAGAIN IOERROR IOTIMEOUT at hcc
      split at hcc
      · split at hcc <;> omega
      · omega

end Waits

/-! ### The waits of rwvall -/

section Rounds

variable {T start now timeout total_bytes : Int} {op : IO_Op_t} {fd : Int} {intr : Option Int}
  {poll_fd : PollFd} {gs : Option Timeval}

variable {steps : List RwStep}

theorem transfer_mem {polled ignore_eagain : Bool} {cc t : Int}
    (htransfer : transfer intr poll_fd polled ignore_eagain steps = some (cc, t)) :
    t ∈ steps.flatMap RwStep.times := by
  fun_induction transfer intr poll_fd polled ignore_eagain steps with
  | case1 => cases htransfer
  | case2 s steps _ _ ih => exact List.mem_append_right _ (ih htransfer)
  | case3 s steps _ _ hpos =>
    obtain ⟨-, rfl⟩ := Prod.mk.inj (Option.some.inj htransfer)
    exact List.mem_append_left _ (List.mem_append_right _ List.mem_cons_self)
  | case4 => cases htransfer
  | case5 => cases htransfer

variable {r : Done}

theorem rwdata_loop {iov : Option (List IoVec)} {flags : Int} {args : Option RwDataExtraArgs}
    {ignore_eagain : Bool}
    (hrun : rwdata op fd iov flags timeout args gs intr ignore_eagain now steps = .ok r) :
    ∃ poll_fd iov, pollFd op fd = .ok poll_fd ∧
      rwdataLoop poll_fd iov gs intr ignore_eagain timeout now steps = .ok r := by
  obtain ⟨-, -, hrun⟩ := bind_eq_ok.1 hrun
  obtain ⟨poll_fd, hfd, hrun⟩ := bind_eq_ok.1 hrun
  obtain ⟨iov, -, hrun⟩ := bind_eq_ok.1 hrun
  exact ⟨poll_fd, iov, hfd, hrun⟩

theorem rwvallLoop_head {cow_iov cow_iov' : COWIoVec} {rounds : List (List RwStep)}
    (htimeout : -1 < timeout) (hleft : 0 < cow_iov.bytes_left_)
    (hrun : rwvallLoop op fd gs intr total_bytes cow_iov timeout now rounds =
      .ok (r, cow_iov')) : (timeout, now) ∈ r.waits := by
  unfold rwvallLoop at hrun
  rw [if_pos hleft] at hrun
  split at hrun
  · cases hrun
  · obtain ⟨es, -, hrun⟩ := bind_eq_ok.1 hrun
    obtain ⟨r₁, hdata, hrun⟩ := bind_eq_ok.1 hrun
    obtain ⟨poll_fd, iov, -, hloop⟩ := rwdata_loop hdata
    have hhead := (rwdataLoop_spec htimeout hloop).1
    split at hrun
    · cases hrun
      exact hhead
    · obtain ⟨c₁, -, hrun⟩ := bind_eq_ok.1 hrun
      obtain ⟨timeout₁, -, hrun⟩ := bind_eq_ok.1 hrun
      obtain ⟨⟨rest, c₂⟩, -, hrun⟩ := bind_eq_ok.1 hrun
      cases hrun
      exact List.mem_append_left _ hhead

theorem rwdataLoop_not_transfer {iov : List IoVec} (hnonneg : -1 < timeout)
    (hloop : rwdataLoop poll_fd iov (some (gettimeofday start)) intr true timeout now steps = .ok r)
    (hcc : r.cc ≤ 0) : ∀ cc t, transfer intr poll_fd true true steps ≠ some (cc, t) := by
  intro cc t htransfer
  have hsome : -1 < timeout → (some (gettimeofday start)).isSome := fun _ => rfl
  obtain ⟨waits, hok⟩ := rwdataLoop_transfer iov htransfer now (Int.le_of_lt hnonneg) hsome
    (by rw [decide_eq_true hnonneg, Bool.or_true])
  obtain rfl := Except.ok.inj (hok.symm.trans hloop)
  exact absurd (transfer_pos htransfer) (Int.not_lt.2 hcc)

theorem accounts_append {rest : Done} : Accounts T start { rest with
        transferred := r.transferred ++ rest.transferred
        waits := r.waits ++ rest.waits } ↔
      (∀ w ∈ r.waits, w.1 = remaining T start w.2) ∧ Accounts T start rest := by
  unfold Accounts
  rw [List.forall_mem_append, and_assoc]

theorem rwvallLoop_accounts (hT : 0 ≤ T) (hint : T < 2 ^ 31) (hfd : pollFd op fd = .ok poll_fd)
    {rounds : List (List RwStep)} : ∀ {now : Int} {cow_iov cow_iov' : COWIoVec} {r : Done},
    start ≤ now →
    (now :: rounds.flatMap fun steps => steps.flatMap RwStep.times).Pairwise (· ≤ ·) →
    rwvallLoop op fd (some (gettimeofday start)) intr total_bytes cow_iov
      (remaining T start now) now rounds = .ok (r, cow_iov') →
    (Accounts T start r ↔
      RoundsRight T start intr poll_fd total_bytes cow_iov.bytes_left_ now rounds) := by
  -- the induction is on the rounds; each transfer that leaves something is a retry
  induction rounds with
  | nil =>
    intro now cow_iov cow_iov' r hstart htimes hrun
    unfold rwvallLoop at hrun
    unfold RoundsRight
    split at hrun
    · cases hrun
    · rename_i hleft
      cases hrun
      rw [if_pos (by omega)]
      exact and_iff_right fun w hw => absurd hw List.not_mem_nil
  | cons steps rounds ih =>
    intro now cow_iov cow_iov' r hstart htimes hrun
    have hnonneg : -1 < remaining T start now := by
      unfold remaining
      omega
    unfold rwvallLoop at hrun
    unfold RoundsRight
    split at hrun
    swap
    · rename_i hleft
      cases hrun
      rw [if_pos (by omega)]
      exact and_iff_right fun w hw => absurd hw List.not_mem_nil
    rename_i hleft
    rw [if_neg (by omega)]
    obtain ⟨es, -, hrun⟩ := bind_eq_ok.1 hrun
    obtain ⟨r₁, hdata, hrun⟩ := bind_eq_ok.1 hrun
    obtain ⟨poll_fd', iov, hfd', hloop⟩ := rwdata_loop hdata
    obtain rfl := Except.ok.inj (hfd.symm.trans hfd')
    -- the times of this call of `rwdata`, and those of the ones after it
    rw [List.flatMap_cons] at htimes
    have hfirst : (now :: steps.flatMap RwStep.times).Pairwise (· ≤ ·) :=
      htimes.sublist ((List.sublist_append_left _ _).cons_cons now)
    obtain ⟨hle, htimes'⟩ := List.pairwise_cons.1 htimes
    obtain ⟨-, hrest, hacross⟩ := List.pairwise_append.1 htimes'
    obtain ⟨hwaits, hlate⟩ := rwdataLoop_accounts hT hint hstart hfirst hloop
    split at hrun
    · -- an error, or the end of the file
      rename_i hcc
      cases hrun
      have hnone := rwdataLoop_not_transfer hnonneg hloop hcc
      constructor
      · rintro ⟨h, -⟩
        exact ⟨hwaits.1 h, fun cc t htransfer => absurd htransfer (hnone cc t)⟩
      · rintro ⟨h, -⟩
        exact ⟨hwaits.2 h, hlate h⟩
    rename_i hcc
    obtain ⟨c₁, hconsume, hrun⟩ := bind_eq_ok.1 hrun
    obtain ⟨timeout₁, hadjusted, hrun⟩ := bind_eq_ok.1 hrun
    obtain ⟨⟨rest, c₂⟩, hloop', hrun⟩ := bind_eq_ok.1 hrun
    cases hrun
    obtain ⟨hfits, hleft₁⟩ := COWIoVec.consume_left hconsume
    have htransfer := (rwdataLoop_spec hnonneg hloop).2 (by omega)
    have hmem := transfer_mem htransfer
    have hnow : now ≤ r₁.now := hle _ (List.mem_append_left _ hmem)
    have hafter : (r₁.now :: rounds.flatMap fun steps =>
        steps.flatMap RwStep.times).Pairwise (· ≤ ·) :=
      List.pairwise_cons.2 ⟨fun t ht => hacross _ hmem t ht, hrest⟩
    have hiff := adjusted_iff hT hint hstart hnow
    -- what the rest accounts for, once the retry is right
    have hnext : (r₁.cc.toNat < cow_iov.bytes_left_ → Right T start now r₁.now) →
        (Accounts T start rest ↔ RoundsRight T start intr poll_fd total_bytes
          (cow_iov.bytes_left_ - r₁.cc.toNat) r₁.now rounds) := by
      intro hright
      rw [← hleft₁]
      by_cases hmore : r₁.cc.toNat < cow_iov.bytes_left_
      · exact ih (Int.le_trans hstart hnow) hafter
          (Except.ok.inj (hadjusted.symm.trans (hiff.2 (hright hmore))) ▸ hloop')
      · have hzero : c₁.bytes_left_ = 0 := by omega
        rw [rwvallLoop_done hzero] at hloop'
        exact ih (Int.le_trans hstart hnow) hafter ((rwvallLoop_done hzero rounds).trans hloop')
    rw [accounts_append, hwaits]
    constructor
    · rintro ⟨hsteps, haccounts⟩
      have hright : r₁.cc.toNat < cow_iov.bytes_left_ → Right T start now r₁.now := by
        intro hmore
        have hhead := rwvallLoop_head (adjusted_nonneg hnonneg hadjusted) (by omega) hloop'
        rw [← hiff, hadjusted]
        exact congrArg Except.ok (haccounts.1 _ hhead)
      refine ⟨hsteps, fun cc t htransfer' => ?_⟩
      obtain ⟨rfl, rfl⟩ := Prod.mk.inj (Option.some.inj (htransfer.symm.trans htransfer'))
      exact ⟨hright, (hnext hright).1 haccounts⟩
    · rintro ⟨hsteps, h⟩
      obtain ⟨hright, hrounds⟩ := h _ _ htransfer
      exact ⟨hsteps, (hnext hright).2 hrounds⟩

end Rounds

/-- In every call, with any timeout and start, and whatever the system calls return and when,
    each wait has what is left of the timeout and `IOTIMEOUT` is not returned early exactly
    where the retries are right. -/
theorem accounts_iff {T start : Int} (hT : 0 ≤ T) (hint : T < 2 ^ 31) (call : Call) {r : Done}
    (htimes : (start :: call.times).Pairwise (· ≤ ·)) (hrun : call.run T start = .ok r) :
    Accounts T start r ↔ call.Right T start := by
  -- at the start the whole timeout is left
  have hremaining : remaining T start start = T := by
    unfold remaining elapsed
    omega
  cases call with
  | pollWithNotifier intr fds polls =>
    obtain ⟨⟨r', fds'⟩, hcall, rfl⟩ := map_eq_ok.1 hrun
    obtain ⟨-, -, hcall⟩ := bind_eq_ok.1 hcall
    obtain ⟨-, -, hcall⟩ := bind_eq_ok.1 hcall
    obtain ⟨⟨p, now', waits⟩, hloop, hcall⟩ := bind_eq_ok.1 hcall
    obtain ⟨⟨cc, fds''⟩, hresult, hcall⟩ := bind_eq_ok.1 hcall
    cases hcall
    rw [← hremaining] at hloop
    obtain ⟨hwaits, hlate⟩ := pollLoop_accounts hT hint (Int.le_refl start) htimes hloop
    refine (and_iff_left_of_imp fun h hcc => ?_).trans hwaits
    have hcc : cc = IOTIMEOUT := hcc
    rw [hcc] at hresult
    exact hlate (hwaits.1 h) (pollResult_timeout hresult)
  | rwdata op fd iov flags args intr ignore_eagain steps =>
    obtain ⟨poll_fd, iov, hfd, hloop⟩ := rwdata_loop hrun
    rw [← hremaining] at hloop
    obtain ⟨hwaits, hlate⟩ := rwdataLoop_accounts hT hint (Int.le_refl start) htimes hloop
    refine ((and_iff_left_of_imp fun h => hlate (hwaits.1 h)).trans hwaits).trans ?_
    constructor
    · intro h poll_fd' hfd'
      exact Except.ok.inj (hfd.symm.trans hfd') ▸ h
    · exact fun h => h poll_fd hfd
  | rwvall op fd iov intr rounds =>
    obtain ⟨⟨r', cow_iov'⟩, hcall, rfl⟩ := map_eq_ok.1 hrun
    obtain ⟨_, hop, hcall⟩ := bind_eq_ok.1 hcall
    obtain ⟨-, -, hloop⟩ := bind_eq_ok.1 hcall
    -- only reads and writes of vectors pass the assertion
    have hfd : ∃ poll_fd, pollFd op fd = .ok poll_fd := by
      cases op <;> first | exact ⟨_, rfl⟩ | cases hop
    obtain ⟨poll_fd, hfd⟩ := hfd
    rw [← hremaining] at hloop
    refine (rwvallLoop_accounts hT hint hfd (Int.le_refl start) htimes hloop).trans ?_
    constructor
    · intro h poll_fd' hfd'
      exact Except.ok.inj (hfd.symm.trans hfd') ▸ h
    · exact fun h => h poll_fd hfd

/-- A poll of 100 ms that is interrupted once, after 40 ms. -/
def interruptedOnce : Call :=
  .pollWithNotifier none [⟨3, POLLIN, 0⟩] [⟨-1, .EINTR, 40000, []⟩, ⟨0, .other, 100000, [0]⟩]

/-- The second wait is of 60 ms. -/
theorem accounts_iff_once : Accounts 100 0 ⟨IOTIMEOUT, 100000, [], [(100, 0), (60, 40000)]⟩ := by
  refine (accounts_iff (by decide) (by decide) interruptedOnce (by decide) rfl).2 ?_
  exact fun _ => ⟨.inr (.inr ⟨by decide, by decide, by decide⟩), fun h => nomatch h⟩

/-- Where a second retry follows, they do not: a poll of 10 ms that is interrupted after 3 ms and
    after 6 ms times out after 7 ms. -/
theorem not_accounts_twice : ¬ ∀ (T start : Int), 0 ≤ T → T < 2 ^ 31 → ∀ (call : Call) (r : Done),
    (start :: call.times).Pairwise (· ≤ ·) → call.run T start = .ok r → Accounts T start r := by
  intro h
  have haccounts := h 10 0 (by decide) (by decide)
    (.pollWithNotifier none [⟨3, POLLIN, 0⟩]
      [⟨-1, .EINTR, 3000, []⟩, ⟨-1, .EINTR, 6000, []⟩, ⟨0, .other, 7000, [0]⟩])
    ⟨IOTIMEOUT, 7000, [], [(10, 0), (7, 3000), (1, 6000)]⟩ (by decide) (by decide +kernel)
  exact absurd (haccounts.2 rfl) (by decide)

end Oasys.Io
