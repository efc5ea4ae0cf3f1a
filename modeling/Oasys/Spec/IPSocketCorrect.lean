import Oasys.Io.IPSocket
import Mathlib.Tactic.ByContra
import Mathlib.Tactic.SplitIfs

/-!
# IPSocket correctness

`state_` and `fd_` go together: a socket without a descriptor is in INIT or FINI, and one
in FINI has no descriptor. Two calls break what later assertions rely on. A `connect` whose
`socket` fails sets CONNECTING without a descriptor, and `shutdown` takes INIT for the state
of a socket without a descriptor, which it is not after `bind`.
-/

namespace Oasys.SocketObject

/-- The call leaves `state_` and `fd_` as the assertions want them: `connect` obtains a
    descriptor where it needs one, and no `shutdown` with a proper mode finds the socket in
    INIT with a descriptor. -/
def Careful (s : SocketObject) : Call → Prop
  | .connect socket _ | .connectTo _ _ socket _ =>
    s.state_ = .established ∨ s.fd_ ≠ none ∨ socket ≠ none
  | .shutdown how => ShutdownMode how → s.state_ = .init → s.fd_ = none
  | _ => True

/-- What holds between any two calls. -/
structure Inv (s : SocketObject) : Prop where
  state_of_none : s.fd_ = none → s.state_ = .init ∨ s.state_ = .fini
  none_of_fini : s.state_ = .fini → s.fd_ = none
  holding_eq : FdEvent.holding s.events = some s.fd_

def Returns (s : SocketObject) (a : Call) : Prop := ∃ out, s.call a = .ok out

/-- The call returns, and leaves a socket that may be closed, as its destructor does. -/
def ReturnsClosable (s : SocketObject) (a : Call) : Prop :=
  ∃ r s', s.call a = .ok (r, s') ∧ s'.Returns (.close true)

variable {s s' : SocketObject} {a : Call}

/-! ### The operations -/

theorem Inv.initSocket (h : s.Inv) (hfd : s.fd_ = none) (socket : Option Nat) :
    ∃ s', s.initSocket socket = .ok s' ∧ s'.fd_ = socket ∧ s'.state_ = .init ∧ s'.Inv := by
  have hstate : (s.state_ = .init || s.state_ = .fini : Bool) = true := by
    simpa using h.state_of_none hfd
  have hholding := h.holding_eq
  rw [hfd] at hholding
  simp only [SocketObject.initSocket, hstate, hfd, decide_true, assert_true, ok_bind]
  cases socket with
  | none => exact ⟨_, rfl, rfl, rfl, ⟨by simp, by simp, hholding⟩⟩
  | some fd => exact ⟨_, rfl, rfl, rfl, ⟨by simp, by simp, by simp [FdEvent.holding, hholding]⟩⟩

theorem Inv.ensureFd (h : s.Inv) (socket : Option Nat) :
    ∃ s', s.ensureFd socket = .ok s' ∧ s'.Inv ∧
      (s'.fd_ = none ↔ s.fd_ = none ∧ socket = none) := by
  by_cases hfd : s.fd_ = none
  · obtain ⟨s', hs', hfd', -, h'⟩ := h.initSocket hfd socket
    refine ⟨s', ?_, h', ?_⟩
    · simpa [SocketObject.ensureFd, hfd] using hs'
    · simp [hfd', hfd]
  · exact ⟨s, by simp [SocketObject.ensureFd, hfd], h, by simp [hfd]⟩

theorem Inv.congr (h : s.Inv) (hfd : s'.fd_ = s.fd_) (hevents : s'.events = s.events)
    (hstate : s'.state_ = s.state_ ∨ s.fd_ ≠ none ∧ s'.state_ ≠ .fini) : s'.Inv := by
  refine ⟨fun hnone => ?_, fun hfini => ?_, by rw [hevents, hfd, h.holding_eq]⟩
  · rw [hfd] at hnone
    obtain hstate | ⟨hsome, -⟩ := hstate
    · simpa [hstate] using h.state_of_none hnone
    · exact absurd hnone hsome
  · rw [hfd]
    obtain hstate | ⟨-, hne⟩ := hstate
    · exact h.none_of_fini (hstate ▸ hfini)
    · exact absurd hfini hne

theorem Inv.bind (h : s.Inv) (local_addr local_port : Nat) (socket : Option Nat) (bound : Bool) :
    ∃ r s', s.bind local_addr local_port socket bound = .ok (r, s') ∧ s'.Inv := by
  obtain ⟨t, ht, hinv, -⟩ := h.ensureFd socket
  simp only [SocketObject.bind, ht, ok_bind]
  exact ⟨_, _, rfl, hinv.congr rfl rfl (.inl rfl)⟩

theorem Inv.connect (h : s.Inv) (socket : Option Nat) (connected : Bool) :
    ∃ r s', s.connect socket connected = .ok (r, s') ∧
      (s.state_ = .established ∨ s.fd_ ≠ none ∨ socket ≠ none → s'.Inv) ∧
      (¬ (s.state_ = .established ∨ s.fd_ ≠ none ∨ socket ≠ none) →
        s'.fd_ = none ∧ s'.state_ = .connecting) := by
  by_cases hstate : s.state_ = .established
  · refine ⟨0, s, by simp [SocketObject.connect, hstate], fun _ => h, fun hno => ?_⟩
    exact absurd (.inl hstate) hno
  obtain ⟨t, ht, hinv, hnone⟩ := h.ensureFd socket
  simp only [SocketObject.connect, hstate, if_false, ht, ok_bind, false_or]
  by_cases hfd : t.fd_ = none
  · -- `socket` has failed, and so does the system call on -1
    have hno : ¬ (s.fd_ ≠ none ∨ socket ≠ none) := by
      obtain ⟨hs, hsocket⟩ := hnone.1 hfd
      simp [hs, hsocket]
    simp only [onFd, hfd, Option.isSome_none, Bool.false_and, Bool.false_eq_true, if_false]
    exact ⟨_, _, rfl, fun hyes => absurd hyes hno, fun _ => ⟨rfl, rfl⟩⟩
  · have hyes : s.fd_ ≠ none ∨ socket ≠ none := by
      by_contra hno
      apply hfd
      apply hnone.2
      simpa using hno
    split
    · exact ⟨_, _, rfl, fun _ => hinv.congr rfl rfl (.inr ⟨hfd, by simp⟩),
        fun hno => absurd hyes hno⟩
    · exact ⟨_, _, rfl, fun _ => hinv.congr rfl rfl (.inr ⟨hfd, by simp⟩),
        fun hno => absurd hyes hno⟩

theorem Inv.asyncConnectResult (h : s.Inv) (hstate : s.state_ = .connecting)
    (getsockopt : Except Int Int) :
    ∃ r s', s.asyncConnectResult getsockopt = .ok (r, s') ∧ s'.Inv := by
  have hfd : s.fd_ ≠ none := by
    intro hnone
    simpa [hstate] using h.state_of_none hnone
  obtain ⟨fd, hfd'⟩ := Option.ne_none_iff_exists'.1 hfd
  simp only [SocketObject.asyncConnectResult, hstate, decide_true, assert_true, ok_bind, hfd']
  cases getsockopt with
  | error errno => exact ⟨_, _, rfl, h⟩
  | ok result =>
    refine ⟨_, _, rfl, ?_⟩
    split
    · exact h.congr hfd'.symm rfl (.inr ⟨hfd, by simp⟩)
    · exact h

theorem Inv.listen (h : s.Inv) (hfd : s.fd_ ≠ none) (listening : Bool) :
    ∃ r s', s.listen listening = .ok (r, s') ∧ s'.Inv := by
  simp only [SocketObject.listen, hfd, ne_eq, not_false_eq_true, decide_true, assert_true, ok_bind]
  split
  · exact ⟨_, _, rfl, h.congr rfl rfl (.inr ⟨hfd, by simp⟩)⟩
  · exact ⟨_, _, rfl, h⟩

theorem Inv.close (h : s.Inv) (closed : Bool) :
    ∃ r s', s.close closed = .ok (r, s') ∧ s'.Inv := by
  unfold SocketObject.close
  split
  · have hstate : (s.state_ = .init || s.state_ = .fini : Bool) = true := by
      simpa using h.state_of_none ‹_›
    simp only [hstate, assert_true, ok_bind]
    exact ⟨_, _, rfl, h⟩
  · have hholding := h.holding_eq
    split
    · exact ⟨_, _, rfl, ⟨by simp, by simp, by simp_all [FdEvent.holding]⟩⟩
    · exact ⟨_, _, rfl, h⟩

theorem Inv.shutdown (h : s.Inv) (how : Int)
    (hok : ShutdownMode how → s.state_ = .init → s.fd_ = none) :
    ∃ r s', s.shutdown how = .ok (r, s') ∧ s'.Inv := by
  unfold SocketObject.shutdown
  by_cases hhow : ShutdownMode how
  case neg => exact ⟨_, _, if_pos hhow, h⟩
  rw [if_neg (by simpa using hhow)]
  by_cases hstate : s.state_ = .init ∨ s.state_ = .fini
  · have hfd : s.fd_ = none := hstate.elim (hok hhow) h.none_of_fini
    simp only [hstate, if_true, hfd, decide_true, assert_true, ok_bind]
    exact ⟨_, _, rfl, h⟩
  · have hfd : s.fd_ ≠ none := fun hnone => hstate (h.state_of_none hnone)
    have hset (t : SocketState) (ht : t ≠ .fini) : Inv { s with state_ := t } :=
      h.congr rfl rfl (.inr ⟨hfd, ht⟩)
    rw [if_neg hstate]
    -- one case for each `set_state`, and one for the state it refuses
    split_ifs
    · exact ⟨_, _, rfl, hset .rdclosed (by simp)⟩
    · exact ⟨_, _, rfl, hset .wrclosed (by simp)⟩
    · exact ⟨_, _, rfl, hset .closed (by simp)⟩
    · exact ⟨_, _, rfl, hset .closed (by simp)⟩
    · exact ⟨_, _, rfl, hset .closed (by simp)⟩
    · exact ⟨_, _, rfl, h⟩

/-! ### Runs -/

theorem Inv.call (h : s.Inv) (hallowed : s.Allowed a) (hok : s.Careful a) :
    ∃ r s', s.call a = .ok (r, s') ∧ s'.Inv := by
  cases a with
  | bind local_addr local_port socket bound => exact h.bind local_addr local_port socket bound
  | connect socket connected =>
    obtain ⟨r, s', hs', hinv, -⟩ := h.connect socket connected
    exact ⟨r, s', hs', hinv hok⟩
  | connectTo remote_addr remote_port socket connected =>
    have hset : Inv { s with remote_addr_ := remote_addr, remote_port_ := remote_port } :=
      h.congr rfl rfl (.inl rfl)
    obtain ⟨r, s', hs', hinv, -⟩ := hset.connect socket connected
    exact ⟨r, s', hs', hinv hok⟩
  | asyncConnectResult getsockopt => exact h.asyncConnectResult hallowed getsockopt
  | listen listening => exact h.listen hallowed listening
  | close closed => exact h.close closed
  | shutdown how => exact h.shutdown how hok

theorem not_returns_close (hfd : s.fd_ = none) (hstate : s.state_ = .connecting) :
    ¬ s.Returns (.close true) := by
  rintro ⟨out, hout⟩
  simp [SocketObject.call, SocketObject.close, hfd, hstate] at hout

/-- A call that is not careful runs into an assertion, or leaves a socket whose `close`
    does. -/
theorem Inv.careful_of_returnsClosable (h : s.Inv) (hret : s.ReturnsClosable a) :
    s.Careful a := by
  obtain ⟨r, s', hs', hclose⟩ := hret
  cases a with
  | bind | asyncConnectResult | listen | close => trivial
  | connect socket connected =>
    by_contra hno
    obtain ⟨r₁, s₁, hs₁, -, hbad⟩ := h.connect socket connected
    obtain ⟨-, rfl⟩ := Prod.mk.inj (Except.ok.inj (hs₁.symm.trans hs'))
    exact not_returns_close (hbad hno).1 (hbad hno).2 hclose
  | connectTo remote_addr remote_port socket connected =>
    by_contra hno
    have hset : Inv { s with remote_addr_ := remote_addr, remote_port_ := remote_port } :=
      h.congr rfl rfl (.inl rfl)
    obtain ⟨r₁, s₁, hs₁, -, hbad⟩ := hset.connect socket connected
    obtain ⟨-, rfl⟩ := Prod.mk.inj (Except.ok.inj (hs₁.symm.trans hs'))
    exact not_returns_close (hbad hno).1 (hbad hno).2 hclose
  | shutdown how =>
    intro hhow hstate
    by_contra hfd
    simp [SocketObject.call, SocketObject.shutdown, hhow, hstate, hfd] at hs'

theorem inv_init (h : system.init s) : s.Inv := by
  have hnew : new.Inv := ⟨by simp [new], by simp [new], rfl⟩
  obtain rfl | ⟨sock, remote_addr, remote_port, rfl⟩ | ⟨fd, hs⟩ := h
  · exact hnew
  · exact ⟨by simp [ofFd], by simp [ofFd], rfl⟩
  · obtain ⟨s', hs', -, -, hinv⟩ := hnew.initSocket rfl (some fd)
    obtain rfl := Except.ok.inj (hs'.symm.trans hs)
    exact hinv

theorem inv_of_reachableWith (h : system.ReachableWith Careful s) : s.Inv := by
  refine h.invariant (fun s => inv_init) fun s a s' hinv hok hstep => ?_
  obtain ⟨hallowed, r, hs'⟩ := hstep
  obtain ⟨r₁, s₁, hs₁, hinv₁⟩ := hinv.call hallowed hok
  obtain ⟨-, rfl⟩ := Prod.mk.inj (Except.ok.inj (hs₁.symm.trans hs'))
  exact hinv₁

/-- Along every run of careful calls each descriptor is closed before the next one is
    obtained, and only once; and a call leaves the socket working exactly if it is careful
    again. -/
theorem careful_calls_return (s : SocketObject) (h : system.ReachableWith Careful s) :
    FdEvent.holding s.events = some s.fd_ ∧
    ∀ a, s.Allowed a → (s.ReturnsClosable a ↔ s.Careful a) := by
  have hinv := inv_of_reachableWith h
  refine ⟨hinv.holding_eq, fun a hallowed => ⟨hinv.careful_of_returnsClosable, fun hok => ?_⟩⟩
  obtain ⟨r, s', hs', hinv'⟩ := hinv.call hallowed hok
  obtain ⟨r₁, s₁, hs₁, -⟩ := hinv'.close true
  exact ⟨r, s', hs', _, hs₁⟩

/-- The witness of the run theorem: `bind`, then `close`. -/
theorem careful_calls_return_closed :
    FdEvent.holding [.closed 3, .opened 3] = some none ∧
    (SocketObject.ReturnsClosable
      { new with state_ := .fini, local_addr_ := 1, local_port_ := 80,
                 events := [.closed 3, .opened 3] } (.connect (some 4) true) ↔
      SocketObject.Careful
        { new with state_ := .fini, local_addr_ := 1, local_port_ := 80,
                   events := [.closed 3, .opened 3] } (.connect (some 4) true)) := by
  have hinit : system.ReachableWith Careful new := .init (.inl rfl)
  have hbound : system.ReachableWith Careful
      { new with fd_ := some 3, local_addr_ := 1, local_port_ := 80, events := [.opened 3] } :=
    .step (a := .bind 1 80 (some 3) true) hinit trivial ⟨trivial, 0, rfl⟩
  have hclosed : system.ReachableWith Careful
      { new with state_ := .fini, local_addr_ := 1, local_port_ := 80,
                 events := [.closed 3, .opened 3] } :=
    .step (a := .close true) hbound trivial ⟨trivial, 0, rfl⟩
  obtain ⟨hholding, hall⟩ := careful_calls_return _ hclosed
  exact ⟨hholding, hall _ trivial⟩

/-- Not every allowed call returns: after `bind`, `shutdown` finds a descriptor in INIT. -/
theorem shutdown_after_bind_asserts :
    ¬ ∀ s a, system.Reachable s → s.Allowed a → s.Returns a := by
  intro hall
  have hbound : system.Reachable
      { new with fd_ := some 3, local_addr_ := 1, local_port_ := 80, events := [.opened 3] } :=
    .step (a := .bind 1 80 (some 3) true) (.init (.inl rfl)) trivial ⟨trivial, 0, rfl⟩
  obtain ⟨out, hout⟩ := hall _ (.shutdown SHUT_RDWR) hbound trivial
  cases hout

end Oasys.SocketObject
