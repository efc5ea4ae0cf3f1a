import Oasys.Io.IoCalls
import Oasys.Spec.TimeoutCorrect
import Mathlib.Data.List.Forall2

/-!
# Correctness of the public functions of IO

Which of the functions meet the assertions of `rwdata`, `rwvall` and `poll_with_notifier`:
all but `timeout_write` and `timeout_writev`, which wait with a timeout and give no start
time.

The system calls behave as they are documented to. `Asserted` is about a computation that
fails no assertion; a retry keeps a timeout that the assertions allow (`adjusted_ok`), so the
loops follow by induction on their rounds.

With a notifier `poll_with_notifier` polls a copy of the entries, and the caller gets its
result. `pollMultiple_agrees_iff` says where that is the same as without one.
-/

namespace Oasys.Io

/-! ### Computations that fail no assertion -/

/-- No assertion fails, and what is returned is as `post` says. -/
def Asserted {α : Type} (x : Except Fault α) (post : α → Prop) : Prop :=
  x ≠ .error .assertFailed ∧ ∀ a, x = .ok a → post a

section Rules

variable {α β : Type} {x : Except Fault α} {post post' : α → Prop} {f : α → Except Fault β}
  {out : β → Prop}

theorem Asserted.ok {a : α} (h : post a) : Asserted (.ok a) post :=
  ⟨nofun, fun _ ha => Except.ok.inj ha ▸ h⟩

theorem Asserted.error {e : Fault} (h : e ≠ .assertFailed) : Asserted (.error e) post :=
  ⟨fun he => h (Except.error.inj he), nofun⟩

theorem Asserted.bind (h : Asserted x post) (hf : ∀ a, x = .ok a → post a → Asserted (f a) out) :
    Asserted (x >>= f) out := by
  cases x with
  | error e => exact .error fun he => h.1 (congrArg _ he)
  | ok a => exact hf a rfl (h.2 a rfl)

theorem Asserted.fst_ne {x : Except Fault (α × β)} {post : α × β → Prop} (h : Asserted x post) :
    Prod.fst <$> x ≠ .error .assertFailed := by
  cases x with
  | error e => exact fun he => h.1 (by cases he; rfl)
  | ok a => exact nofun

theorem Asserted.assert {b : Bool} (hb : b = true) : Asserted (assert b) fun _ => True := by
  rw [hb]
  exact .ok trivial

end Rules

/-! ### What the system calls may do -/

def PollFd.mask (f : PollFd) : BitVec 16 := f.events ||| POLLERR ||| POLLHUP ||| POLLNVAL

def eventCount (revents : List (BitVec 16)) : Nat := revents.countP (· ≠ 0)

/-- A return of `::poll`: an error, or the number of entries that have events, with events
    that were asked for or that are always shown. -/
def Poll.Conforms (poll_set : List PollFd) (p : Poll) : Prop :=
  p.cc < 0 ∨ (p.cc = eventCount p.revents ∧
    List.Forall₂ (fun f r => r &&& f.mask = r) poll_set p.revents)

/-- A system call on `len` bytes: a transfer is of no more than that, and of fewer than an
    `ssize_t` holds. -/
def RwStep.Conforms (intr : Option Int) (poll_fd : PollFd) (len : Nat) (s : RwStep) : Prop :=
  (∀ p ∈ s.polls, p.Conforms (pollSet intr [poll_fd])) ∧
    (0 < s.cc → s.cc ≤ len ∧ len < 2 ^ 63)

/-- The rounds of `rwvall`, on what the rounds before have left of `len` bytes. -/
def RoundsConform (intr : Option Int) (poll_fd : PollFd) (polled : Bool) :
    Nat → List (List RwStep) → Prop
  | _, [] => True
  | len, steps :: rounds =>
    (∀ s ∈ steps, s.Conforms intr poll_fd len) ∧
      ∀ cc t, transfer intr poll_fd polled true steps = some (cc, t) →
        RoundsConform intr poll_fd polled (len - cc.toNat) rounds

/-! ### poll_with_notifier -/

section Poll

variable {intr : Option Int} {fds : List PollFd} {rs : List (BitVec 16)} {p : Poll}
  {timeout now : Int} {start : Option Timeval}

/-- An entry with what `::poll` has shown of it. -/
def PollFd.shown (f : PollFd) (revents : BitVec 16) : PollFd := { f with revents }

theorem gotEvent_shown {f : PollFd} {r : BitVec 16} (h : r &&& f.mask = r) :
    (f.shown r).gotEvent = decide (r ≠ 0) := by
  show decide (r &&& f.mask ≠ 0) = _
  rw [h]

theorem eventCount_cons (r : BitVec 16) (rs : List (BitVec 16)) :
    eventCount (r :: rs) = eventCount rs + if r = 0 then 0 else 1 := by
  rw [eventCount, eventCount, List.countP_cons]
  by_cases hr : r = 0
  · rw [if_pos hr, if_neg (by simpa using hr)]
  · rw [if_neg hr, if_pos (by simpa using hr)]

theorem eventCount_concat (rs : List (BitVec 16)) (n : BitVec 16) :
    eventCount (rs ++ [n]) = eventCount rs + if n = 0 then 0 else 1 := by
  have hone := eventCount_cons n []
  rw [eventCount, List.countP_append, ← eventCount, ← eventCount, hone]
  simp [eventCount]

theorem any_gotEvent (h : List.Forall₂ (fun f r => r &&& f.mask = r) fds rs) :
    (List.zipWith PollFd.shown fds rs).any PollFd.gotEvent = true ↔ 0 < eventCount rs := by
  induction h with
  | nil => exact iff_of_false nofun (Nat.lt_irrefl 0)
  | cons hmask _ ih =>
    rename_i f r fds rs _
    rw [List.zipWith_cons_cons, List.any_cons, Bool.or_eq_true, ih, gotEvent_shown hmask,
      eventCount_cons, decide_eq_true_iff]
    split
    · rename_i hr
      simp [hr]
    · rename_i hr
      exact iff_of_true (.inl hr) (by omega)

theorem forall₂_concat {α β : Type} {R : α → β → Prop} {as : List α} {a : α} {bs : List β}
    (h : List.Forall₂ R (as ++ [a]) bs) : ∃ bs' b, bs = bs' ++ [b] ∧ List.Forall₂ R as bs' := by
  induction as generalizing bs with
  | nil =>
    obtain ⟨b, bs, -, hnil, rfl⟩ := List.forall₂_cons_left_iff.1 h
    cases hnil
    exact ⟨[], b, rfl, .nil⟩
  | cons x as ih =>
    obtain ⟨b, bs, hb, hbs, rfl⟩ := List.forall₂_cons_left_iff.1 h
    obtain ⟨bs', b', rfl, has⟩ := ih hbs
    exact ⟨b :: bs', b', rfl, .cons hb has⟩

theorem Poll.Conforms.with_notifier {read_fd : Int} (h : p.Conforms (pollSet (some read_fd) fds))
    (hcc : 0 ≤ p.cc) : ∃ rs n, p.revents = rs ++ [n] ∧ p.cc = eventCount (rs ++ [n]) ∧
      List.Forall₂ (fun f r => r &&& f.mask = r) fds rs := by
  obtain hneg | ⟨hcount, hmask⟩ := h
  · omega
  · obtain ⟨rs, n, hrs, hfds⟩ := forall₂_concat hmask
    rw [List.forall₂_map_left_iff] at hfds
    exact ⟨rs, n, hrs, hrs ▸ hcount, hfds⟩

theorem pollResult_none (hcc : 0 < p.cc) (hcount : p.cc = eventCount p.revents)
    (h : List.Forall₂ (fun f r => r &&& f.mask = r) fds p.revents) :
    pollResult none fds p = .ok (p.cc, List.zipWith PollFd.shown fds p.revents) := by
  have hany := (any_gotEvent h).2 (by omega)
  have hpos : ¬ p.cc < 0 := by omega
  have hne : ¬ p.cc = 0 := by omega
  rw [pollResult, if_neg hpos]
  show (if p.cc = 0 then _ else _) = _
  rw [if_neg hne]
  show (assert ((List.zipWith PollFd.shown fds p.revents).any PollFd.gotEvent) >>= _) = _
  rw [hany]
  rfl

/-- An entry of the caller as `poll_with_notifier` leaves it with a notifier. -/
def PollFd.copiedBack (f : PollFd) (revents : BitVec 16) : PollFd :=
  if (f.shown revents).gotEvent then f.shown revents else f

theorem zipWith_copiedBack (fds : List PollFd) (rs : List (BitVec 16)) :
    List.zipWith (fun f g => if g.gotEvent then { f with revents := g.revents } else f) fds
      (List.zipWith PollFd.shown fds rs) = List.zipWith PollFd.copiedBack fds rs := by
  induction fds generalizing rs with
  | nil => rfl
  | cons f fds ih =>
    cases rs with
    | nil => rfl
    | cons r rs =>
      simp only [List.zipWith_cons_cons, ih]
      rfl

/-- What `poll_with_notifier` makes of the count. -/
def notified (cc : Int) (n : BitVec 16) : Int :=
  if n &&& (POLLIN ||| POLLPRI ||| POLLERR) ≠ 0 then cc - 1 else cc

theorem polled_split (read_fd : Int) (n : BitVec 16) (hlength : fds.length = rs.length) :
    (List.zipWith PollFd.shown (pollSet (some read_fd) fds) (rs ++ [n])).take fds.length =
        List.zipWith PollFd.shown fds rs ∧
      ((List.zipWith PollFd.shown (pollSet (some read_fd) fds) (rs ++ [n])).drop
        fds.length).head?.elim 0 PollFd.revents = n := by
  have hset : List.zipWith PollFd.shown (pollSet (some read_fd) fds) (rs ++ [n]) =
      List.zipWith PollFd.shown fds rs ++
        [⟨read_fd, POLLIN ||| POLLPRI ||| POLLERR, n⟩] := by
    rw [pollSet, List.zipWith_append (by rw [List.length_map, hlength]), List.zipWith_map_left]
    rfl
  have hown : fds.length = (List.zipWith PollFd.shown fds rs).length := by
    rw [List.length_zipWith, hlength, Nat.min_self]
  rw [hset, hown]
  exact ⟨List.take_left, by rw [List.drop_left]; rfl⟩

theorem pollResult_some {read_fd : Int} {n : BitVec 16} (hrs : p.revents = rs ++ [n])
    (hcount : p.cc = eventCount (rs ++ [n]))
    (h : List.Forall₂ (fun f r => r &&& f.mask = r) fds rs) (hevent : 0 < eventCount rs) :
    pollResult (some read_fd) fds p =
      .ok (notified p.cc n, List.zipWith PollFd.copiedBack fds rs) := by
  have hpos : ¬ p.cc < 0 := by omega
  have hne : ¬ p.cc = 0 := by
    rw [eventCount_concat] at hcount
    omega
  obtain ⟨htake, hdrop⟩ := polled_split read_fd n h.length_eq
  rw [← hrs] at htake hdrop
  have hany := (any_gotEvent h).2 hevent
  have hback := zipWith_copiedBack fds rs
  rw [← htake] at hany hback
  have hresult : pollResult (some read_fd) fds p =
      if n &&& (POLLIN ||| POLLPRI ||| POLLERR) ≠ 0 then
        assert (decide (p.cc > 1)) >>= fun _ =>
          pure (p.cc - 1, List.zipWith PollFd.copiedBack fds rs)
      else pure (p.cc, List.zipWith PollFd.copiedBack fds rs) := by
    rw [← hback, ← hdrop, pollResult, if_neg hpos]
    show (if p.cc = 0 then _ else if ((List.zipWith PollFd.shown (pollSet (some read_fd) fds)
      p.revents).take fds.length).any PollFd.gotEvent then _ else _) = _
    rw [if_neg hne, if_pos hany]
    rfl
  rw [hresult, notified]
  split
  · -- the notifier is counted too
    rename_i hn
    have hn₀ : n ≠ 0 := by
      rintro rfl
      exact hn (by decide)
    have hmore : p.cc > 1 := by
      rw [eventCount_concat, if_neg hn₀] at hcount
      omega
    rw [decide_eq_true hmore]
    rfl
  · rfl

theorem pollResult_asserted (h : p.Conforms (pollSet intr fds)) :
    Asserted (pollResult intr fds p) fun r => r.1 ≠ 0 := by
  by_cases hneg : p.cc < 0
  · rw [pollResult, if_pos hneg]
    exact .ok (by simp [IOERROR])
  by_cases hzero : p.cc = 0
  · have hresult : ∃ fds', pollResult intr fds p = .ok (IOTIMEOUT, fds') := by
      rw [pollResult, if_neg hneg]
      cases intr with
      | none => exact ⟨_, if_pos hzero⟩
      | some read_fd => exact ⟨_, if_pos hzero⟩
    obtain ⟨fds', hresult⟩ := hresult
    rw [hresult]
    exact .ok (by simp [IOTIMEOUT])
  cases intr with
  | none =>
    obtain hcc | ⟨hcount, hmask⟩ := h
    · exact absurd hcc hneg
    · have hresult := pollResult_none (by omega) hcount hmask
      rw [show pollSet none fds = fds from rfl] at hresult
      rw [hresult]
      exact .ok hzero
  | some read_fd =>
    obtain ⟨rs, n, hrs, hcount, hmask⟩ := h.with_notifier (by omega)
    by_cases hevent : 0 < eventCount rs
    · rw [pollResult_some hrs hcount hmask hevent]
      rw [eventCount_concat] at hcount
      refine .ok ?_
      show notified p.cc n ≠ 0
      rw [notified]
      split
      · rename_i hn
        have hn₀ : n ≠ 0 := by
          rintro rfl
          exact hn (by decide)
        rw [if_neg hn₀] at hcount
        omega
      · exact hzero
    · -- only the notifier has an event
      obtain ⟨htake, -⟩ := polled_split read_fd n hmask.length_eq
      rw [← hrs] at htake
      have hany := mt (any_gotEvent hmask).1 hevent
      rw [← htake] at hany
      rw [pollResult, if_neg hneg]
      show Asserted (if p.cc = 0 then _ else
        if ((List.zipWith PollFd.shown (pollSet (some read_fd) fds) p.revents).take
          fds.length).any PollFd.gotEvent then _ else _) _
      rw [if_neg hzero, if_neg hany]
      split
      · exact .ok (by simp [IOERROR])
      · split
        · exact .ok (by simp [IOINTR])
        · exact .error (by decide)

theorem adjusted_asserted (htimeout : -1 ≤ timeout) (hstart : 0 < timeout → start.isSome)
    (now : Int) :
    ∃ timeout', adjusted timeout start now = .ok timeout' ∧ -1 ≤ timeout' ∧
      (0 < timeout' → start.isSome) := by
  by_cases hpos : 0 < timeout
  · obtain ⟨timeout', hadjusted, hle, -⟩ := adjusted_ok htimeout (fun _ => hstart hpos) now
    exact ⟨timeout', hadjusted, hle, fun _ => hstart hpos⟩
  · exact ⟨timeout, if_neg hpos, htimeout, hstart⟩

theorem pollLoop_eq (polls : List Poll) : ∀ {timeout : Int} (now : Int), -1 ≤ timeout →
    (0 < timeout → start.isSome) →
    match polls.find? (fun p => !p.interrupted) with
    | some p => ∃ now' waits, pollLoop start timeout now polls = .ok (p, now', waits)
    | none => pollLoop start timeout now polls = .error .outOfFuel := by
  -- the induction is on the polls; after an interrupted one the timeout is adjusted
  induction polls with
  | nil => exact fun _ _ _ => rfl
  | cons p polls ih =>
    intro timeout now htimeout hstart
    rw [pollLoop]
    by_cases hp : p.interrupted = true
    · obtain ⟨timeout', hadjusted, hle, hstart'⟩ := adjusted_asserted htimeout hstart p.now
      have hrest := ih p.now hle hstart'
      rw [List.find?_cons_of_neg (by simp [hp]), if_pos hp, hadjusted, ok_bind]
      split at hrest
      · obtain ⟨now', waits, hloop⟩ := hrest
        rw [hloop]
        exact ⟨now', _, rfl⟩
      · rw [hrest]
        rfl
    · rw [List.find?_cons_of_pos (by simp [hp]), if_neg hp]
      exact ⟨_, _, rfl⟩

theorem pollLoop_asserted {polls : List Poll} (now : Int) (htimeout : -1 ≤ timeout)
    (hstart : 0 < timeout → start.isSome) :
    Asserted (pollLoop start timeout now polls) fun r =>
      polls.find? (fun p => !p.interrupted) = some r.1 := by
  refine ⟨?_, fun r hr => pollLoop_find hr⟩
  have hloop := pollLoop_eq polls now htimeout hstart
  split at hloop
  · obtain ⟨now', waits, hloop⟩ := hloop
    rw [hloop]
    exact nofun
  · rw [hloop]
    exact nofun

theorem pollWithNotifier_asserted {polls : List Poll} (htimeout : -1 ≤ timeout)
    (hstart : 0 < timeout → start.isSome)
    (hpolls : ∀ p ∈ polls, p.Conforms (pollSet intr fds)) (now : Int) :
    Asserted (pollWithNotifier intr fds timeout start now polls) fun r => r.1.cc ≠ 0 := by
  rw [pollWithNotifier]
  refine (Asserted.assert ?_).bind fun _ _ _ => (Asserted.assert ?_).bind fun _ _ _ =>
    (pollLoop_asserted now htimeout hstart).bind fun r _ hfind => ?_
  · by_cases hpos : 0 < timeout
    · simp [hstart hpos]
    · simp [hpos]
  · simpa using htimeout
  · refine (pollResult_asserted (hpolls r.1 (List.mem_of_find?_eq_some hfind))).bind
      fun r' _ hne => .ok hne

end Poll

/-! ### rwdata -/

section RwData

variable {op : IO_Op_t} {fd : Int} {intr : Option Int} {poll_fd : PollFd} {len : Nat}
  {timeout now : Int} {start : Option Timeval} {polled ignore_eagain : Bool}
  {steps : List RwStep} {iov : List IoVec}

theorem rwdataPoll_asserted {s : RwStep} (hs : s.Conforms intr poll_fd len)
    (htimeout : -1 ≤ timeout) (hstart : 0 < timeout → start.isSome) (now : Int)
    (hpolled : polled = (intr.isSome || decide (timeout > -1))) :
    Asserted (rwdataPoll poll_fd start intr timeout now s.polls) fun r =>
      (r.cc = IOERROR || r.cc = IOTIMEOUT || r.cc = IOINTR) = !s.ready intr poll_fd polled := by
  rw [rwdataPoll, ← hpolled]
  split
  · rename_i htrue
    refine ⟨?_, ?_⟩
    · exact (pollWithNotifier_asserted htimeout hstart hs.1 now).fst_ne
    · rintro r hr
      obtain ⟨⟨r', fds⟩, hcall, rfl⟩ := map_eq_ok.1 hr
      obtain ⟨-, -, hrun⟩ := bind_eq_ok.1 hcall
      obtain ⟨-, -, hrun⟩ := bind_eq_ok.1 hrun
      obtain ⟨⟨p, now', waits⟩, hloop, hrun⟩ := bind_eq_ok.1 hrun
      obtain ⟨⟨cc, fds'⟩, hresult, hrun⟩ := bind_eq_ok.1 hrun
      cases hrun
      rw [RwStep.ready, htrue, pollLoop_find hloop, Option.elim_some, hresult]
      simp
  · rename_i hfalse
    rw [Bool.not_eq_true] at hfalse
    refine .ok ?_
    rw [RwStep.ready, hfalse]
    rfl

theorem rwdataLoop_asserted (hsteps : ∀ s ∈ steps, s.Conforms intr poll_fd len) :
    ∀ {timeout : Int} (now : Int), -1 ≤ timeout → (-1 < timeout → start.isSome) →
      polled = (intr.isSome || decide (timeout > -1)) →
      Asserted (rwdataLoop poll_fd iov start intr ignore_eagain timeout now steps) fun r =>
        0 < r.cc → transfer intr poll_fd polled ignore_eagain steps = some (r.cc, r.now) ∧
          r.cc ≤ len ∧ len < 2 ^ 63 := by
  -- the induction is on the rounds; a round ends the call, retries it, or has its result
  induction steps with
  | nil => exact fun _ _ _ _ => .error nofun
  | cons s steps ih =>
    intro timeout now htimeout hstart hpolled
    have hs := hsteps s List.mem_cons_self
    rw [rwdataLoop, transfer]
    apply (rwdataPoll_asserted hs htimeout (fun h => hstart (by omega)) now hpolled).bind
    intro r _ hready
    split
    · -- the values that end the call are not positive
      rename_i hstops
      refine .ok fun hpos => ?_
      simp only [Bool.or_eq_true, decide_eq_true_eq] at hstops
      simp only [IOERROR, IOTIMEOUT, IOINTR] at hstops
      omega
    · rename_i hgoes
      rw [Bool.not_eq_true] at hgoes
      rw [hgoes] at hready
      have hready : s.ready intr poll_fd polled = true := by simpa using hready.symm
      rw [if_pos hready]
      split
      · rename_i hretried
        obtain ⟨timeout', hadjusted, htimeout', hsame⟩ := adjusted_ok htimeout hstart s.now
        rw [hadjusted, ok_bind]
        have hrest := ih (fun s hs => hsteps s (List.mem_cons_of_mem _ hs)) s.now htimeout'
          (fun h => hstart (hsame.1 h)) (by rw [hpolled, decide_eq_decide.2 hsame.symm])
        refine hrest.bind fun r' _ hr' => ?_
        exact .ok hr'
      · refine .ok fun hpos => ?_
        dsimp only at hpos ⊢
        split at hpos
        · simp only [IOAGAIN, IOERROR] at hpos
          split at hpos <;> omega
        · rename_i hcc
          obtain ⟨hle, hlt⟩ := hs.2 hpos
          rw [if_pos hpos, if_neg hcc]
          exact ⟨rfl, hle, hlt⟩

theorem rwdata_asserted {iov : Option (List IoVec)} {flags : Int} {args : Option RwDataExtraArgs}
    (hasserts : rwdataAsserts op iov flags timeout args start = .ok ())
    (hfd : pollFd op fd = .ok poll_fd) (hsteps : ∀ s ∈ steps, s.Conforms intr poll_fd len)
    (htimeout : -1 ≤ timeout) (hstart : -1 < timeout → start.isSome) (now : Int) :
    Asserted (rwdata op fd iov flags timeout args start intr ignore_eagain now steps) fun r =>
      0 < r.cc → transfer intr poll_fd (intr.isSome || decide (timeout > -1)) ignore_eagain steps =
        some (r.cc, r.now) ∧ r.cc ≤ len ∧ len < 2 ^ 63 := by
  rw [rwdata, hasserts, hfd, ok_bind, ok_bind]
  have hvectors : Asserted (vectors op iov args) fun _ => True := by
    refine ⟨?_, fun _ _ => trivial⟩
    rw [vectors.eq_def]
    split <;> exact nofun
  exact hvectors.bind fun iov _ _ => rwdataLoop_asserted hsteps now htimeout hstart rfl

end RwData

/-! ### rwvall -/

section RwVall

variable {op : IO_Op_t} {fd : Int} {intr : Option Int} {poll_fd : PollFd} {len m : Nat}
  {timeout now total_bytes : Int} {start : Option Timeval} {polled : Bool} {iov : List IoVec}
  {cow_iov : COWIoVec} {rounds : List (List RwStep)}

theorem rwvall_rwdata_asserted {steps : List RwStep} (hop : op = .READV ∨ op = .WRITEV)
    (hfd : pollFd op fd = .ok poll_fd) (hsteps : ∀ s ∈ steps, s.Conforms intr poll_fd len)
    (htimeout : -1 ≤ timeout) (hstart : -1 < timeout → start.isSome) (iov : List IoVec)
    (now : Int) :
    Asserted (rwdata op fd (some iov) 0 timeout none start intr true now steps) fun r =>
      0 < r.cc → transfer intr poll_fd (intr.isSome || decide (timeout > -1)) true steps =
        some (r.cc, r.now) ∧ r.cc ≤ len ∧ len < 2 ^ 63 := by
  refine rwdata_asserted ?_ hfd hsteps htimeout hstart now
  have hsome : (decide (timeout > -1) && start.isNone) = false := by
    by_cases h : -1 < timeout
    · simp [hstart h]
    · simp [h]
  rw [rwdataAsserts, hsome, decide_eq_true htimeout]
  obtain rfl | rfl := hop <;> rfl

/-- What `rwvall` has in hand before a round: the vectors of the caller, a copy with `m` bytes
    gone, or nothing that is left. -/
def Underway (iov : List IoVec) (m : Nat) (c : COWIoVec) : Prop :=
  (c = .new iov ∧ m = 0) ∨ (c.Copied iov m ∧ totalLen iov < 2 ^ 63) ∨ c.bytes_left_ = 0

theorem Underway.round (h : Underway iov m cow_iov) (hleft : 0 < cow_iov.bytes_left_) :
    ∃ es, cow_iov.entries = .ok es ∧ ∀ cc : Nat, 0 < cc → cc ≤ totalLen iov - m →
      totalLen iov - m < 2 ^ 63 →
        ∃ cow_iov', cow_iov.consume cc = .ok cow_iov' ∧ Underway iov (m + cc) cow_iov' := by
  obtain ⟨rfl, rfl⟩ | ⟨hcopied, hfits⟩ | hzero := h
  · refine ⟨iov, COWIoVec.entries_new iov, fun cc hpos hle hlt => ?_⟩
    by_cases hall : cc = totalLen iov
    · subst hall
      exact ⟨_, COWIoVec.consume_new_all (by omega), .inr (.inr rfl)⟩
    · have hfits : totalLen iov < 2 ^ 64 := by omega
      have hshort : cc < totalLen iov := by omega
      obtain ⟨c, hconsume, hcopied⟩ := COWIoVec.consume_new hfits hshort
      exact ⟨c, hconsume, .inr (.inl ⟨by simpa using hcopied, by omega⟩)⟩
  · obtain ⟨a, k, es, hpoints, -⟩ := hcopied.rest hleft
    refine ⟨es, hpoints.entries, fun cc hpos hle hlt => ?_⟩
    obtain ⟨c, hconsume, hcopied'⟩ := hcopied.consume cc hleft (by rw [hcopied.left]; exact hle)
    exact ⟨c, hconsume, .inr (.inl ⟨hcopied', hfits⟩)⟩
  · omega

theorem rwvallLoop_asserted (hop : op = .READV ∨ op = .WRITEV) (hfd : pollFd op fd = .ok poll_fd) :
    ∀ {timeout : Int} {m : Nat} {cow_iov : COWIoVec} (now : Int), -1 ≤ timeout →
      (-1 < timeout → start.isSome) → Underway iov m cow_iov →
      RoundsConform intr poll_fd (intr.isSome || decide (timeout > -1)) (totalLen iov - m) rounds →
      Asserted (rwvallLoop op fd start intr total_bytes cow_iov timeout now rounds) fun _ =>
        True := by
  -- the induction is on the rounds, each of which takes off what it transfers
  induction rounds with
  | nil =>
    intro timeout m cow_iov now _ _ _ _
    rw [rwvallLoop]
    split
    · exact .error nofun
    · exact .ok trivial
  | cons steps rounds ih =>
    intro timeout m cow_iov now htimeout hstart hunderway hrounds
    rw [rwvallLoop]
    split
    · rename_i hleft
      obtain ⟨es, hentries, hround⟩ := hunderway.round hleft
      rw [hentries, ok_bind]
      apply (rwvall_rwdata_asserted hop hfd hrounds.1 htimeout hstart es now).bind
      intro r _ hr
      split
      · exact .ok trivial
      · rename_i hpos
        obtain ⟨htransfer, hle, hlt⟩ := hr (by omega)
        obtain ⟨c', hconsume, hunderway'⟩ := hround r.cc.toNat (by omega) (by omega) hlt
        obtain ⟨timeout', hadjusted, htimeout', hsame⟩ := adjusted_ok htimeout hstart r.now
        rw [hconsume, ok_bind, hadjusted, ok_bind]
        have hnext := hrounds.2 _ _ htransfer
        rw [decide_eq_decide.2 hsame.symm, Nat.sub_sub] at hnext
        refine (ih r.now htimeout' (fun h => hstart (hsame.1 h)) hunderway' hnext).bind
          fun _ _ _ => .ok trivial
    · exact .ok trivial

theorem rwvall_asserted (hop : op = .READV ∨ op = .WRITEV) (hfd : pollFd op fd = .ok poll_fd)
    (htimeout : -1 ≤ timeout) (hstart : -1 < timeout → start.isSome)
    (hrounds : RoundsConform intr poll_fd (intr.isSome || decide (timeout > -1)) (totalLen iov)
      rounds) (now : Int) :
    Asserted (rwvall op fd iov timeout start intr now rounds) fun _ => True := by
  rw [rwvall]
  refine (Asserted.assert ?_).bind fun _ _ _ => (Asserted.assert ?_).bind fun _ _ _ => ?_
  · obtain rfl | rfl := hop <;> rfl
  · by_cases h : timeout = -1
    · simp [h]
    · simp [hstart (by omega)]
  · exact rwvallLoop_asserted hop hfd (m := 0) now htimeout hstart (.inl ⟨rfl, rfl⟩) hrounds

end RwVall

/-! ### The public functions -/

namespace IoCalls

section Polls

variable {fds : List PollFd} {intr : Option Int} {timeout_ms now : Int} {polls : List Poll}

theorem pollMultiple_asserted (htimeout : -1 ≤ timeout_ms)
    (hpolls : ∀ p ∈ polls, p.Conforms (pollSet intr fds)) :
    Asserted (pollMultiple fds timeout_ms intr now polls) fun _ => True := by
  have hstart : 0 < timeout_ms →
      (if timeout_ms > 0 then some (gettimeofday now) else none).isSome := by
    intro hpos
    rw [if_pos hpos]
    rfl
  rw [pollMultiple]
  refine (pollWithNotifier_asserted htimeout hstart hpolls now).bind fun r _ hne => ?_
  exact (Asserted.assert (by simpa using hne)).bind fun _ _ _ => .ok trivial

theorem pollSingle_asserted {fd : Int} {events uninitialised : BitVec 16}
    (htimeout : -1 ≤ timeout_ms)
    (hpolls : ∀ p ∈ polls, p.Conforms (pollSet intr [⟨fd, events, uninitialised⟩])) :
    Asserted (pollSingle fd events uninitialised timeout_ms intr now polls) fun _ => True := by
  rw [pollSingle]
  refine (pollMultiple_asserted htimeout hpolls).bind fun r _ _ => ?_
  obtain ⟨d, fds⟩ := r
  cases fds with
  | nil => exact .error (by decide)
  | cons f fds => exact .ok trivial

end Polls

/-- The descriptor as it is polled before a system call that reads. -/
def readFd (fd : Int) : PollFd := { fd, events := POLLIN ||| POLLPRI, revents := 0 }

/-- The descriptor as it is polled before a system call that writes. -/
def writeFd (fd : Int) : PollFd := { fd, events := POLLOUT, revents := 0 }

/-- The system calls of a function do what they are documented to. -/
def Function.Conforms (fd : Int) (intr : Option Int) (sys : Outcomes) : Function → Prop
  | .read _ len | .timeoutRead _ len _ | .recv _ len _ | .recvfrom _ len _ =>
    ∀ s ∈ sys.steps, s.Conforms intr (readFd fd) len
  | .readv iov | .timeoutReadv iov _ | .recvmsg iov _ =>
    ∀ s ∈ sys.steps, s.Conforms intr (readFd fd) (totalLen iov)
  | .write _ len | .timeoutWrite _ len _ | .send _ len _ | .sendto _ len _ =>
    ∀ s ∈ sys.steps, s.Conforms intr (writeFd fd) len
  | .writev iov | .timeoutWritev iov _ | .sendmsg iov _ =>
    ∀ s ∈ sys.steps, s.Conforms intr (writeFd fd) (totalLen iov)
  | .readall _ len => RoundsConform intr (readFd fd) intr.isSome len sys.rounds
  | .readvall iov => RoundsConform intr (readFd fd) intr.isSome (totalLen iov) sys.rounds
  | .timeoutReadall _ len t =>
    RoundsConform intr (readFd fd) (intr.isSome || t > -1) len sys.rounds
  | .timeoutReadvall iov t =>
    RoundsConform intr (readFd fd) (intr.isSome || t > -1) (totalLen iov) sys.rounds
  | .writeall _ len => RoundsConform intr (writeFd fd) intr.isSome len sys.rounds
  | .writevall iov => RoundsConform intr (writeFd fd) intr.isSome (totalLen iov) sys.rounds
  | .timeoutWriteall _ len t =>
    RoundsConform intr (writeFd fd) (intr.isSome || t > -1) len sys.rounds
  | .timeoutWritevall iov t =>
    RoundsConform intr (writeFd fd) (intr.isSome || t > -1) (totalLen iov) sys.rounds
  | .pollSingle events uninitialised _ =>
    ∀ p ∈ sys.polls, p.Conforms (pollSet intr [⟨fd, events, uninitialised⟩])
  | .pollMultiple fds _ => ∀ p ∈ sys.polls, p.Conforms (pollSet intr fds)

/-- The functions that wait with a timeout, and give `rwdata` no start time. -/
def Function.Untimed : Function → Prop
  | .timeoutWrite _ _ t | .timeoutWritev _ t => -1 < t
  | _ => False

/-- No assertion fails in a call: not one of `rwdata`, `rwvall` and `poll_with_notifier`,
    through every retry, and not that of `poll_multiple` on the result. -/
def Function.MeetsAssertions (fd : Int) (intr : Option Int) (now : Int) (sys : Outcomes)
    (f : Function) : Prop :=
  f.run fd intr now sys ≠ .error .assertFailed

section Groups

variable {op : IO_Op_t} {fd : Int} {intr : Option Int} {poll_fd : PollFd} {len : Nat}
  {timeout now : Int} {iov : Option (List IoVec)} {flags : Int} {args : Option RwDataExtraArgs}
  {steps : List RwStep}

theorem forever_ne (hasserts : rwdataAsserts op iov flags (-1) args none = .ok ())
    (hfd : pollFd op fd = .ok poll_fd) (hsteps : ∀ s ∈ steps, s.Conforms intr poll_fd len) :
    rwdata op fd iov flags (-1) args none intr false now steps ≠ .error .assertFailed := by
  have hstart : (-1 : Int) < -1 → (none : Option Timeval).isSome := by decide
  exact (rwdata_asserted hasserts hfd hsteps (by decide) hstart now).1

theorem timedRead_ne (htimeout : -1 ≤ timeout) (iov : List IoVec)
    (hsteps : ∀ s ∈ steps, s.Conforms intr (readFd fd) len) :
    rwdata .READV fd (some iov) 0 timeout none (some (gettimeofday now)) intr false now steps ≠
      .error .assertFailed := by
  have hasserts : rwdataAsserts .READV (some iov) 0 timeout none (some (gettimeofday now)) =
      .ok () := by
    simp [rwdataAsserts, htimeout]
  exact (rwdata_asserted hasserts rfl hsteps htimeout (fun _ => rfl) now).1

theorem untimedWrite_iff (htimeout : -1 ≤ timeout) (iov : List IoVec)
    (hsteps : ∀ s ∈ steps, s.Conforms intr (writeFd fd) len) :
    rwdata .WRITEV fd (some iov) 0 timeout none none intr false now steps ≠
      .error .assertFailed ↔ ¬ -1 < timeout := by
  by_cases hlt : -1 < timeout
  · have hasserts : rwdataAsserts .WRITEV (some iov) 0 timeout none none =
        .error .assertFailed := by
      simp [rwdataAsserts, htimeout, hlt]
    refine iff_of_false (fun hne => hne ?_) (fun hge => hge hlt)
    rw [rwdata, hasserts]
    rfl
  · obtain rfl : timeout = -1 := by omega
    exact iff_of_true (forever_ne rfl rfl hsteps) hlt

variable {iov : List IoVec} {rounds : List (List RwStep)}

theorem allForever_ne (hop : op = .READV ∨ op = .WRITEV) (hfd : pollFd op fd = .ok poll_fd)
    (hlen : totalLen iov = len) (hrounds : RoundsConform intr poll_fd intr.isSome len rounds) :
    Prod.fst <$> rwvall op fd iov (-1) none intr now rounds ≠ .error .assertFailed := by
  have hstart : (-1 : Int) < -1 → (none : Option Timeval).isSome := by decide
  have hpolled : (intr.isSome || decide ((-1 : Int) > -1)) = intr.isSome := by simp
  rw [← hlen, ← hpolled] at hrounds
  exact (rwvall_asserted hop hfd (by decide) hstart hrounds now).fst_ne

theorem allTimed_ne (hop : op = .READV ∨ op = .WRITEV) (hfd : pollFd op fd = .ok poll_fd)
    (htimeout : -1 ≤ timeout) (hlen : totalLen iov = len)
    (hrounds : RoundsConform intr poll_fd (intr.isSome || timeout > -1) len rounds) :
    Prod.fst <$> rwvall op fd iov timeout (some (gettimeofday now)) intr now rounds ≠
      .error .assertFailed := by
  rw [← hlen] at hrounds
  exact (rwvall_asserted hop hfd htimeout (fun _ => rfl) hrounds now).fst_ne

end Groups

/-- Whatever the timeout, the notifier and the outcomes of the system calls: every function
    meets the assertions but `timeout_write` and `timeout_writev` with a timeout. -/
theorem meetsAssertions_iff (f : Function) (htimeout : -1 ≤ f.timeout) (fd : Int)
    (intr : Option Int) (now : Int) (sys : Outcomes) (hsys : f.Conforms fd intr sys) :
    f.MeetsAssertions fd intr now sys ↔ ¬ f.Untimed := by
  have hone : ∀ bp len, totalLen [⟨bp, len⟩] = len := fun bp len => by simp
  cases f with
  | timeoutWrite bp len t => exact untimedWrite_iff htimeout _ hsys
  | timeoutWritev iov t => exact untimedWrite_iff htimeout _ hsys
  | read bp len => exact iff_of_true (forever_ne rfl rfl hsys) id
  | readv iov => exact iff_of_true (forever_ne rfl rfl hsys) id
  | readall bp len => exact iff_of_true (allForever_ne (.inl rfl) rfl (hone bp len) hsys) id
  | readvall iov => exact iff_of_true (allForever_ne (.inl rfl) rfl rfl hsys) id
  | timeoutRead bp len t => exact iff_of_true (timedRead_ne htimeout _ hsys) id
  | timeoutReadv iov t => exact iff_of_true (timedRead_ne htimeout _ hsys) id
  | timeoutReadall bp len t =>
    exact iff_of_true (allTimed_ne (.inl rfl) rfl htimeout (hone bp len) hsys) id
  | timeoutReadvall iov t => exact iff_of_true (allTimed_ne (.inl rfl) rfl htimeout rfl hsys) id
  | recv bp len flags => exact iff_of_true (forever_ne rfl rfl hsys) id
  | recvfrom bp len flags => exact iff_of_true (forever_ne rfl rfl hsys) id
  | recvmsg iov flags => exact iff_of_true (forever_ne rfl rfl hsys) id
  | write bp len => exact iff_of_true (forever_ne rfl rfl hsys) id
  | writev iov => exact iff_of_true (forever_ne rfl rfl hsys) id
  | writeall bp len => exact iff_of_true (allForever_ne (.inr rfl) rfl (hone bp len) hsys) id
  | writevall iov => exact iff_of_true (allForever_ne (.inr rfl) rfl rfl hsys) id
  | timeoutWriteall bp len t =>
    exact iff_of_true (allTimed_ne (.inr rfl) rfl htimeout (hone bp len) hsys) id
  | timeoutWritevall iov t => exact iff_of_true (allTimed_ne (.inr rfl) rfl htimeout rfl hsys) id
  | send bp len flags => exact iff_of_true (forever_ne rfl rfl hsys) id
  | sendto bp len flags => exact iff_of_true (forever_ne rfl rfl hsys) id
  | sendmsg iov flags => exact iff_of_true (forever_ne rfl rfl hsys) id
  | pollSingle events uninitialised t =>
    exact iff_of_true (pollSingle_asserted htimeout hsys).fst_ne id
  | pollMultiple fds t => exact iff_of_true (pollMultiple_asserted htimeout hsys).fst_ne id

/-- A `timeout_writeall` of 5 bytes: `::poll` is interrupted once, then 3 bytes go, then 2. -/
def twoWrites : Outcomes where
  steps := []
  rounds :=
    [[⟨[⟨-1, .EINTR, 1000, []⟩, ⟨1, .other, 2000, [POLLOUT]⟩], 3, .other, 2000⟩],
      [⟨[⟨1, .other, 3000, [POLLOUT]⟩], 2, .other, 3000⟩]]
  polls := []

theorem meetsAssertions_timeoutWriteall :
    Function.MeetsAssertions 7 none 0 twoWrites (.timeoutWriteall 0 5 100) := by
  have hready : Poll.Conforms (pollSet none [writeFd 7]) ⟨1, .other, 3000, [POLLOUT]⟩ :=
    .inr ⟨by decide, .cons (by decide) .nil⟩
  have hconforms : Function.Conforms 7 none twoWrites (.timeoutWriteall 0 5 100) := by
    refine ⟨?_, ?_⟩
    · intro s hs
      obtain rfl := List.mem_singleton.1 hs
      refine ⟨?_, fun _ => by decide⟩
      rintro p (_ | ⟨_, _ | ⟨_, hp⟩⟩)
      · exact .inl (by decide)
      · exact .inr ⟨by decide, .cons (by decide) .nil⟩
      · cases hp
    · intro cc t htransfer
      cases htransfer
      refine ⟨?_, fun _ _ _ => trivial⟩
      intro s hs
      obtain rfl := List.mem_singleton.1 hs
      refine ⟨?_, fun _ => by decide⟩
      intro p hp
      obtain rfl := List.mem_singleton.1 hp
      exact hready
  exact (meetsAssertions_iff _ (by decide) 7 none 0 twoWrites hconforms).2 id

/-- A `timeout_write` that would only look whether it can write. -/
theorem not_meetsAssertions : ¬ ∀ (f : Function), -1 ≤ f.timeout → ∀ (fd : Int)
    (intr : Option Int) (now : Int) (sys : Outcomes), f.Conforms fd intr sys →
      f.MeetsAssertions fd intr now sys := by
  intro h
  exact h (.timeoutWrite 0 5 0) (by decide) 7 none 0 ⟨[], [], []⟩ nofun rfl

/-! ### With a notifier and without one -/

/-- What `::poll` returns when the events of the caller are `revents` and those of the notifier,
    if there is one in the set, are `n`. -/
def outcome (now : Int) (revents : List (BitVec 16)) (n : Option (BitVec 16)) : Poll where
  cc := eventCount (revents ++ n.toList)
  errno := .other
  now := now
  revents := revents ++ n.toList

/-- The same count and the same `revents` in every entry of the caller. -/
def Agree (x y : Except Fault (Done × List PollFd)) : Prop :=
  ∃ r s, x = .ok r ∧ y = .ok s ∧ r.1.cc = s.1.cc ∧
    r.2.map PollFd.revents = s.2.map PollFd.revents

section Agreement

variable {fds : List PollFd} {rs : List (BitVec 16)} {timeout_ms now : Int} {polls : List Poll}

theorem pollMultiple_eq {intr : Option Int} {p : Poll} {r : Int × List PollFd} (now : Int)
    (htimeout : -1 ≤ timeout_ms) (hinterrupted : ∀ q ∈ polls, q.interrupted = true)
    (hp : p.interrupted = false) (hresult : pollResult intr fds p = .ok r) (hne : r.1 ≠ 0) :
    ∃ now' waits, pollMultiple fds timeout_ms intr now (polls ++ [p]) =
      .ok (⟨r.1, now', [], waits⟩, r.2) := by
  have hstart : 0 < timeout_ms →
      (if timeout_ms > 0 then some (gettimeofday now) else none).isSome := by
    intro hpos
    rw [if_pos hpos]
    rfl
  have hfind : (polls ++ [p]).find? (fun p => !p.interrupted) = some p := by
    rw [List.find?_append, List.find?_eq_none.2 (by simpa using hinterrupted)]
    simp [hp]
  have hloop := pollLoop_eq (polls ++ [p]) now htimeout hstart
  rw [hfind] at hloop
  obtain ⟨now', waits, hloop⟩ := hloop
  have hassert : (!(decide (timeout_ms > 0) &&
      (if timeout_ms > 0 then some (gettimeofday now) else none).isNone)) = true := by
    by_cases hpos : 0 < timeout_ms
    · simp [hpos]
    · simp [hpos]
  refine ⟨now', waits, ?_⟩
  rw [pollMultiple, pollWithNotifier, hassert, decide_eq_true htimeout]
  simp only [assert_true, ok_bind, hloop, hresult, pure_eq_ok, decide_eq_true hne]

theorem map_shown (h : rs.length = fds.length) :
    (List.zipWith PollFd.shown fds rs).map PollFd.revents = rs := by
  induction fds generalizing rs with
  | nil =>
    obtain rfl := List.length_eq_zero_iff.1 h
    rfl
  | cons f fds ih =>
    cases rs with
    | nil => cases h
    | cons r rs =>
      rw [List.zipWith_cons_cons, List.map_cons, ih (by simpa using h)]
      rfl

theorem map_copiedBack_iff (h : List.Forall₂ (fun f r => r &&& f.mask = r) fds rs) :
    (List.zipWith PollFd.copiedBack fds rs).map PollFd.revents = rs ↔
      List.Forall₂ (fun f r => r = 0 → f.revents = 0) fds rs := by
  induction h with
  | nil => exact iff_of_true rfl .nil
  | cons hmask _ ih =>
    rename_i f r fds rs _
    have hback : (f.copiedBack r).revents = r ↔ (r = 0 → f.revents = 0) := by
      rw [PollFd.copiedBack, gotEvent_shown hmask]
      by_cases hr : r = 0
      · subst hr
        simp
      · rw [if_pos (by simpa using hr)]
        exact iff_of_true rfl fun h => absurd h hr
    rw [List.zipWith_cons_cons, List.map_cons, List.cons.injEq, ih, hback, List.forall₂_cons]

/-- For every list of entries, and every outcome in which one of them has an event: the call
    with a notifier agrees with the one without exactly where the notifier shows nothing or
    what it was asked for, and where every entry without an event had none shown before. -/
theorem pollMultiple_agree_iff (htimeout : -1 ≤ timeout_ms)
    (hinterrupted : ∀ q ∈ polls, q.interrupted = true)
    (h : List.Forall₂ (fun f r => r &&& f.mask = r) fds rs) (hevent : 0 < eventCount rs)
    (read_fd later : Int) (n : BitVec 16) :
    Agree
        (pollMultiple fds timeout_ms (some read_fd) now (polls ++ [outcome later rs (some n)]))
        (pollMultiple fds timeout_ms none now (polls ++ [outcome later rs none])) ↔
      (n = 0 ∨ n &&& (POLLIN ||| POLLPRI ||| POLLERR) ≠ 0) ∧
        List.Forall₂ (fun f r => r = 0 → f.revents = 0) fds rs := by
  have hnone : outcome later rs none = ⟨eventCount rs, .other, later, rs⟩ := by
    simp [outcome]
  have hwithout : pollResult none fds ⟨eventCount rs, .other, later, rs⟩ =
      .ok (eventCount rs, List.zipWith PollFd.shown fds rs) :=
    pollResult_none (by simpa using hevent) rfl h
  have hwith : pollResult (some read_fd) fds (outcome later rs (some n)) =
      .ok (notified (eventCount (rs ++ [n])) n, List.zipWith PollFd.copiedBack fds rs) :=
    pollResult_some rfl rfl h hevent
  -- the notifier is counted where it shows anything, and taken off where that was asked for
  have hsame : notified (eventCount (rs ++ [n])) n = eventCount rs ↔
      n = 0 ∨ n &&& (POLLIN ||| POLLPRI ||| POLLERR) ≠ 0 := by
    rw [notified, eventCount_concat]
    by_cases hn : n = 0
    · subst hn
      simp
    · rw [if_neg hn]
      by_cases hmask : n &&& (POLLIN ||| POLLPRI ||| POLLERR) ≠ 0
      · rw [if_pos hmask]
        exact iff_of_true (by omega) (.inr hmask)
      · rw [if_neg hmask]
        exact iff_of_false (by omega) fun h => h.elim hn hmask
  have hpos : notified (eventCount (rs ++ [n])) n ≠ 0 := by
    rw [notified, eventCount_concat]
    by_cases hn : n = 0
    · subst hn
      simp
      omega
    · rw [if_neg hn]
      split <;> omega
  obtain ⟨now₁, waits₁, hrun₁⟩ := pollMultiple_eq now htimeout hinterrupted
    (by simp [Poll.interrupted, outcome]) hwith hpos
  obtain ⟨now₂, waits₂, hrun₂⟩ := pollMultiple_eq now htimeout hinterrupted
    (by simp [Poll.interrupted]) hwithout (by simp; omega)
  rw [hnone, hrun₁, hrun₂, ← hsame, ← map_copiedBack_iff h, Agree]
  simp [map_shown h.length_eq.symm]

end Agreement

/-- One entry has an event and one has none, and the notifier has one too. -/
theorem pollMultiple_agree_two :
    Agree
      (pollMultiple [⟨3, POLLIN, POLLIN⟩, ⟨4, POLLOUT, 0⟩] 50 (some 9) 0
        ([⟨-1, .EINTR, 1000, []⟩] ++ [outcome 2000 [POLLIN, 0] (some POLLIN)]))
      (pollMultiple [⟨3, POLLIN, POLLIN⟩, ⟨4, POLLOUT, 0⟩] 50 none 0
        ([⟨-1, .EINTR, 1000, []⟩] ++ [outcome 2000 [POLLIN, 0] none])) := by
  have hinterrupted : ∀ q ∈ [(⟨-1, .EINTR, 1000, []⟩ : Poll)], q.interrupted = true := by decide
  exact (pollMultiple_agree_iff (by decide) hinterrupted
    (.cons (by decide) (.cons (by decide) .nil)) (by decide) 9 2000 POLLIN).2
    ⟨.inr (by decide), .cons (by decide) (.cons (by decide) .nil)⟩

/-- An entry without an event keeps the `revents` of an earlier call. -/
theorem not_pollMultiple_agree : ¬ ∀ (fds : List PollFd) (rs : List (BitVec 16))
    (timeout_ms now read_fd later : Int) (n : BitVec 16), -1 ≤ timeout_ms →
      List.Forall₂ (fun f r => r &&& f.mask = r) fds rs → 0 < eventCount rs →
      Agree (pollMultiple fds timeout_ms (some read_fd) now [outcome later rs (some n)])
        (pollMultiple fds timeout_ms none now [outcome later rs none]) := by
  intro h
  obtain ⟨r, s, hr, hs, -, hsame⟩ := h [⟨3, POLLIN, 0⟩, ⟨4, POLLOUT, POLLOUT⟩] [POLLIN, 0] (-1)
    0 9 0 0 (by decide) (.cons (by decide) (.cons (by decide) .nil)) (by decide)
  cases hr
  cases hs
  exact absurd hsame (by decide)

end IoCalls

end Oasys.Io
