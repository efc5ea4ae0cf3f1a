import Oasys.Thread.OnOffNotifier

/-!
# OnOffNotifier correctness

`active_` and the byte in the pipe are two copies of one bit. Both are written under
`notifier_lock_`, so they agree between any two steps, and neither the write of `signal`
nor the read of `clear` can go wrong. `::poll` looks at the pipe only, outside the lock;
as it sees the pipe of one moment, what it answers is the `active_` of that moment.
-/

namespace Oasys.OnOffNotifier

/-! ### The notifier -/

/-- The pipe mirrors `active_`, and has room for a byte. -/
structure Mirrors (n : OnOffNotifier) : Prop where
  bytes : n.bytes = if n.active_ then 1 else 0
  room : 0 < n.capacity

theorem mirrors_new {capacity : Nat} (h : 0 < capacity) (read_fd : Int) :
    Mirrors (.new capacity read_fd) :=
  ⟨rfl, h⟩

variable {n : OnOffNotifier}

theorem Mirrors.setWaiter (h : n.Mirrors) (b : Bool) : Mirrors { n with waiter_ := b } :=
  ⟨h.bytes, h.room⟩

theorem Mirrors.signal (h : n.Mirrors) : n.signal = .ok { n with active_ := true, bytes := 1 } := by
  have hbytes := h.bytes
  have hroom := h.room
  cases hactive : n.active_ with
  | true =>
    rw [hactive, if_pos rfl] at hbytes
    cases n
    simp_all [OnOffNotifier.signal]
  | false =>
    rw [hactive, if_neg (by simp)] at hbytes
    simp [OnOffNotifier.signal, write, hactive, hbytes, hroom]

theorem Mirrors.clear (h : n.Mirrors) : n.clear = .ok { n with active_ := false, bytes := 0 } := by
  have hbytes := h.bytes
  cases hactive : n.active_ with
  | true =>
    rw [hactive, if_pos rfl] at hbytes
    simp [OnOffNotifier.clear, read, hactive, hbytes]
  | false =>
    rw [hactive, if_neg (by simp)] at hbytes
    cases n
    simp_all [OnOffNotifier.clear]

theorem Mirrors.active_iff (h : n.Mirrors) : n.active_ = true ↔ 0 < n.bytes := by
  have hbytes := h.bytes
  cases hactive : n.active_ <;> simp_all

/-! ### One step of wait -/

theorem pollSingle_of_mayReturn {timeout : Int} {p : Io.Poll} (h : n.mayReturn timeout p = true) :
    n.pollSingle p = .ok (if p.cc < 0 then Io.IOERROR else if p.cc = 0 then Io.IOTIMEOUT else 1) ∧
      (p.cc = 0 → 0 ≤ timeout ∧ n.bytes = 0) ∧ (0 < p.cc → 0 < n.bytes) := by
  simp only [mayReturn] at h
  split at h
  · rename_i hneg
    simp [pollSingle, Io.pollResult, hneg, Io.IOERROR]
    omega
  · rename_i hneg
    split at h
    · rename_i hzero
      simp only [ge_iff_le, decide_eq_true_eq] at h
      obtain ⟨htime, hempty, -⟩ := h
      simp [pollSingle, Io.pollResult, hzero, htime, hempty, Io.IOTIMEOUT]
    · rename_i hzero
      simp only [decide_eq_true_eq] at h
      obtain ⟨hone, hbytes, hrevents⟩ := h
      have hevent : ∀ fd, (⟨fd, Io.POLLIN, Io.POLLIN⟩ : Io.PollFd).gotEvent = true := by
        intro fd
        simp [Io.PollFd.gotEvent, Io.POLLIN, Io.POLLERR, Io.POLLHUP, Io.POLLNVAL]
      simp [pollSingle, Io.pollResult, Io.pollSet, hone, hbytes, hrevents, hevent]

def WaitPC.waiting : WaitPC → Bool
  | unlock _ | pollSingle _ | poll _ _ _ | relock _ _ | clearWaiter _ _ => true
  | test _ _ | ret _ _ => false

/-- What is known inside `wait` from how it got there, where `saw` says whether the notifier
    has been active since the call: `::poll` was given a timeout only if `wait` was, and
    `wait` is on its way to returning true only if the notifier has been active. -/
def WaitPC.Ok (saw : Bool) : WaitPC → Prop
  | unlock _ | pollSingle _ => True
  | poll args timeout _ => args.timeout < 0 → timeout < 0
  | relock args r | clearWaiter args r | test args r =>
    (args.timeout < 0 → r ≠ Io.IOTIMEOUT) ∧ (0 ≤ r → saw = true)
  | ret args result => (args.timeout < 0 → result = true) ∧ (result = true → saw = true)

theorem WaitPC.Ok.mono {saw saw' : Bool} (hsaw : saw = true → saw' = true) {pc : WaitPC}
    (h : pc.Ok saw) : pc.Ok saw' := by
  cases pc with
  | unlock | pollSingle | poll => exact h
  | relock | clearWaiter | test | ret => exact ⟨h.1, fun hr => hsaw (h.2 hr)⟩

theorem adjusted_neg {timeout timeout' now : Int} {start : Option Timeval} (hneg : timeout < 0)
    (h : Io.adjusted timeout start now = .ok timeout') : timeout' < 0 := by
  rw [Io.adjusted, if_neg (by omega)] at h
  obtain rfl := Except.ok.inj h
  exact hneg

/-- What a step of `wait` can do to the notifier, and what it knows afterwards. -/
theorem waitStep_ok {n' : OnOffNotifier} {pc pc' : WaitPC} {input : WaitInput} {saw : Bool}
    (hn : n.Mirrors) (hpc : pc.Ok saw) (h : n.waitStep pc input = some (.ok (n', pc'))) :
    (n' = n ∧ pc'.waiting = pc.waiting ∨ n' = { n with waiter_ := false }) ∧
      pc'.args = pc.args ∧ pc'.Ok (saw || n.active_) := by
  cases pc with
  | unlock args =>
    cases input with
    | poll => exact nomatch h
    | time =>
      simp only [waitStep, Option.some.injEq, pure_eq_ok, Except.ok.injEq, Prod.mk.injEq] at h
      obtain ⟨rfl, rfl⟩ := h
      exact ⟨.inl ⟨rfl, rfl⟩, rfl, trivial⟩
  | pollSingle args =>
    cases input with
    | poll => exact nomatch h
    | time now =>
      simp only [waitStep, Option.some.injEq, bind_eq_ok] at h
      obtain ⟨-, -, -, -, hpoll⟩ := h
      obtain ⟨rfl, rfl⟩ := Prod.mk.inj (Except.ok.inj hpoll)
      exact ⟨.inl ⟨rfl, rfl⟩, rfl, fun hneg => hneg⟩
  | poll args timeout start =>
    cases input with
    | time => exact nomatch h
    | poll p =>
      simp only [waitStep, Option.ite_none_right_eq_some, Option.some.injEq] at h
      obtain ⟨hmay, h⟩ := h
      split at h
      · -- the call was interrupted, and is made again
        obtain ⟨timeout', hadjusted, hpoll⟩ := bind_eq_ok.1 h
        obtain ⟨rfl, rfl⟩ := Prod.mk.inj (Except.ok.inj hpoll)
        exact ⟨.inl ⟨rfl, rfl⟩, rfl, fun hneg => adjusted_neg (hpc hneg) hadjusted⟩
      · obtain ⟨hret, hzero, hpos⟩ := pollSingle_of_mayReturn hmay
        rw [hret] at h
        obtain ⟨rfl, rfl⟩ := Prod.mk.inj (Except.ok.inj h)
        refine ⟨.inl ⟨rfl, rfl⟩, rfl, fun hneg hout => ?_, fun hready => ?_⟩
        · -- only a call with a timeout times out
          have hcc : p.cc = 0 := by
            revert hout
            simp only [Io.IOERROR, Io.IOTIMEOUT]
            split
            · omega
            · split
              · intro
                assumption
              · omega
          have := hpc hneg
          have := (hzero hcc).1
          omega
        · have hcc : 0 < p.cc := by
            revert hready
            simp only [Io.IOERROR, Io.IOTIMEOUT]
            split
            · omega
            · split
              · omega
              · omega
          simp [hn.active_iff.2 (hpos hcc)]
  | relock args r =>
    cases input with
    | poll => exact nomatch h
    | time =>
      simp only [waitStep, Option.some.injEq, pure_eq_ok, Except.ok.injEq, Prod.mk.injEq] at h
      obtain ⟨rfl, rfl⟩ := h
      exact ⟨.inl ⟨rfl, rfl⟩, rfl, hpc.1, fun hr => by simp [hpc.2 hr]⟩
  | clearWaiter args r =>
    cases input with
    | poll => exact nomatch h
    | time =>
      simp only [waitStep, Option.some.injEq, pure_eq_ok, Except.ok.injEq, Prod.mk.injEq] at h
      obtain ⟨rfl, rfl⟩ := h
      exact ⟨.inr rfl, rfl, hpc.1, fun hr => by simp [hpc.2 hr]⟩
  | test args r =>
    cases input with
    | poll => exact nomatch h
    | time =>
      simp only [waitStep, Option.some.injEq] at h
      split at h
      · exact nomatch h
      · rename_i herror
        split at h
        · rename_i hout
          obtain ⟨rfl, rfl⟩ := Prod.mk.inj (Except.ok.inj h)
          exact ⟨.inl ⟨rfl, rfl⟩, rfl, fun hneg => absurd hout (hpc.1 hneg), nofun⟩
        · rename_i hout
          obtain ⟨rfl, rfl⟩ := Prod.mk.inj (Except.ok.inj h)
          have hr : 0 ≤ r := by
            by_contra hr
            exact herror ⟨by omega, hout⟩
          exact ⟨.inl ⟨rfl, rfl⟩, rfl, fun _ => rfl, fun _ => by simp [hpc.2 hr]⟩
  | ret args result => cases input <;> exact nomatch h

/-! ### The invariant -/

variable {Tid : Type}

/-- A call of `wait` is made while no thread is in one. -/
def OneWaiter (s : State Tid) (l : Tid × Action) : Prop :=
  ∀ args, l.2 = .wait args → ∀ t, s.pc t = none

/-- What holds of the notifier and its threads between any two steps. -/
structure Inv (s : State Tid) : Prop where
  mirrors : s.notifier.Mirrors
  waiter : s.notifier.waiter_ = true → ∃ t pc, s.pc t = some pc ∧ pc.waiting = true
  pcOk : ∀ t pc, s.pc t = some pc → pc.Ok (s.sawActive t)

theorem inv_new {capacity : Nat} (h : 0 < capacity) (read_fd : Int) :
    Inv (.new Tid capacity read_fd) where
  mirrors := mirrors_new h read_fd
  waiter := nofun
  pcOk := nofun

variable {s : State Tid}

theorem Inv.setFault (h : Inv s) (e : Fault) : Inv { s with fault := some e } :=
  ⟨h.mirrors, h.waiter, h.pcOk⟩

theorem Inv.become (h : Inv s) {n : OnOffNotifier} (hn : n.Mirrors)
    (hwaiter : n.waiter_ = s.notifier.waiter_) : Inv (s.become (.ok n)) where
  mirrors := hn
  waiter hw := h.waiter (hwaiter ▸ hw)
  pcOk t pc hpc := (h.pcOk t pc hpc).mono fun hsaw => by
    rw [State.become_sawActive, hsaw, Bool.true_or]

variable [DecidableEq Tid]

theorem Inv.waitEnter (h : Inv s) (hone : ∀ t, s.pc t = none) (t : Tid) (args : WaitArgs) :
    Inv ({ s with sawActive := Function.update s.sawActive t false }.becomeAt t
      (s.notifier.waitEnter args)) := by
  have hwaiter : s.notifier.waiter_ = false := by
    rw [Bool.eq_false_iff]
    intro hw
    obtain ⟨u, pc, hpc, -⟩ := h.waiter hw
    simp [hone u] at hpc
  have honly : ∀ {pc : WaitPC} {u : Tid} {pc' : WaitPC},
      Function.update s.pc t (some pc) u = some pc' → u = t ∧ pc' = pc := by
    intro pc u pc' hu
    by_cases hut : u = t
    · subst hut
      simpa [eq_comm] using hu
    · simp [hut, hone u] at hu
  cases hactive : s.notifier.active_ with
  | true =>
    simp only [OnOffNotifier.waitEnter, hwaiter, hactive, if_true, Bool.false_eq_true, if_false]
    exact
    { mirrors := h.mirrors
      waiter := fun hw => absurd (hwaiter.symm.trans hw) (by simp)
      pcOk := fun u pc' hu => by
        obtain ⟨rfl, rfl⟩ := honly hu
        refine ⟨fun _ => rfl, fun _ => ?_⟩
        rw [pure_eq_ok, State.becomeAt_sawActive, hactive, Bool.or_true] }
  | false =>
    simp only [OnOffNotifier.waitEnter, hwaiter, hactive, Bool.false_eq_true, if_false]
    exact
    { mirrors := by simpa [hactive] using h.mirrors.setWaiter true
      waiter := fun _ => ⟨t, _, Function.update_self .., rfl⟩
      pcOk := fun u pc' hu => by
        obtain ⟨rfl, rfl⟩ := honly hu
        exact trivial }

theorem Inv.waitStep (h : Inv s) {t : Tid} {pc pc' : WaitPC} {input : WaitInput}
    {n : OnOffNotifier} (hpc : s.pc t = some pc)
    (hstep : s.notifier.waitStep pc input = some (.ok (n, pc'))) :
    Inv (s.becomeAt t (.ok (n, pc'))) := by
  obtain ⟨hn, -, hok⟩ := waitStep_ok h.mirrors (h.pcOk t pc hpc) hstep
  have hmirrors : n.Mirrors := by
    rcases hn with ⟨rfl, -⟩ | rfl
    · exact h.mirrors
    · exact h.mirrors.setWaiter false
  have hactive : n.active_ = s.notifier.active_ := by
    rcases hn with ⟨rfl, -⟩ | rfl <;> rfl
  refine ⟨hmirrors, fun hw => ?_, fun u pcu hu => ?_⟩
  · -- `waiter_` is still set, so it is the same thread that waits
    rcases hn with ⟨rfl, hwaiting⟩ | rfl
    · obtain ⟨u, pcu, hu, hwait⟩ := h.waiter hw
      by_cases hut : u = t
      · subst hut
        obtain rfl := Option.some.inj (hpc.symm.trans hu)
        exact ⟨u, pc', Function.update_self .., hwaiting.trans hwait⟩
      · exact ⟨u, pcu, (Function.update_of_ne hut ..).trans hu, hwait⟩
    · exact nomatch hw
  · by_cases hut : u = t
    · subst hut
      have : pcu = pc' := by simpa [eq_comm] using hu
      subst this
      simpa [hactive] using hok
    · have hu' : s.pc u = some pcu := by simpa [hut] using hu
      exact (h.pcOk u pcu hu').mono fun hsaw => by simp [hsaw]

theorem Inv.next {s' : State Tid} {t : Tid} {a : Action} (h : Inv s)
    (hone : OneWaiter s (t, a)) (hstep : next s t a = some s') : Inv s' := by
  simp only [OnOffNotifier.next] at hstep
  split at hstep
  · exact nomatch hstep
  · split at hstep
    · obtain rfl := Option.some.inj hstep
      rw [h.mirrors.signal]
      exact h.become ⟨rfl, h.mirrors.room⟩ rfl
    · obtain rfl := Option.some.inj hstep
      rw [h.mirrors.clear]
      exact h.become ⟨rfl, h.mirrors.room⟩ rfl
    · obtain rfl := Option.some.inj hstep
      exact h.waitEnter (hone _ rfl) t _
    · rename_i pc input hpc
      obtain ⟨r, hr, rfl⟩ := Option.map_eq_some_iff.1 hstep
      match r with
      | .error e => exact h.setFault e
      | .ok (n, pc') => exact h.waitStep hpc hr
    · -- the return
      obtain rfl := Option.some.inj hstep
      have hother : ∀ {u : Tid} {pc : WaitPC},
          Function.update s.pc t none u = some pc → s.pc u = some pc := by
        intro u pc hu
        by_cases hut : u = t
        · simp [hut] at hu
        · simpa [hut] using hu
      refine ⟨h.mirrors, fun hw => ?_, fun u pc hu => h.pcOk u pc (hother hu)⟩
      obtain ⟨u, pc, hu, hwait⟩ := h.waiter hw
      refine ⟨u, pc, ?_, hwait⟩
      have hut : u ≠ t := by
        rintro rfl
        rename_i hpc
        obtain rfl := Option.some.inj (hpc.symm.trans hu)
        exact nomatch hwait
      simpa [hut] using hu
    · exact nomatch hstep

/-! ### The state of the notifier -/

/-- What holds in every state of the notifier: the pipe mirrors `active_`, the assertions of
    `signal` and `clear` hold, `wait` on an active notifier is at its return with the result
    true as soon as it has given `notifier_lock_` up, and where `wait` without a timeout is at
    its return the notifier has been active since the call. -/
structure Agrees (s : State Tid) : Prop where
  bytes : s.notifier.bytes = if s.notifier.active_ then 1 else 0
  signal : ∃ n, s.notifier.signal = .ok n
  clear : ∃ n, s.notifier.clear = .ok n
  wait : ∀ t args s', s.notifier.active_ = true → OneWaiter s (t, .wait args) →
    next s t (.wait args) = some s' → s'.fault = none ∧ s'.pc t = some (.ret args true)
  returns : ∀ t args result, s.pc t = some (.ret args result) → args.timeout < 0 →
    s.sawActive t = true

theorem Inv.agrees (h : Inv s) : Agrees s where
  bytes := h.mirrors.bytes
  signal := ⟨_, h.mirrors.signal⟩
  clear := ⟨_, h.mirrors.clear⟩
  wait t args s' hactive hone hstep := by
    have hpc : ∀ u, s.pc u = none := hone args rfl
    have hwaiter : s.notifier.waiter_ = false := by
      rw [Bool.eq_false_iff]
      intro hw
      obtain ⟨u, pc, hu, -⟩ := h.waiter hw
      simp [hpc u] at hu
    simp only [OnOffNotifier.next, hpc t] at hstep
    split at hstep
    · exact nomatch hstep
    · rename_i hfault
      obtain rfl := Option.some.inj hstep
      simpa [OnOffNotifier.waitEnter, hwaiter, hactive] using hfault
  returns t args result hpc hneg := by
    have hok := h.pcOk t _ hpc
    exact hok.2 (hok.1 hneg)

/-- Whatever the threads do, as long as one at a time is in `wait`. -/
theorem agrees_of_oneWaiter {capacity : Nat} (hcapacity : 0 < capacity) (read_fd : Int)
    {s : State Tid} (hs : (system Tid capacity read_fd).ReachableWith OneWaiter s) :
    Agrees s := by
  have hinv : Inv s := by
    apply hs.invariant
    · intro s hs
      rw [show s = .new Tid capacity read_fd from hs]
      exact inv_new hcapacity read_fd
    · intro s l s' h hone hstep
      exact h.next hone hstep
  exact hinv.agrees

/-- A thread waits without a timeout, and the other one has signalled before it got to
    `::poll`. -/
theorem agrees_of_oneWaiter_signal : ∃ s : State Bool, s.notifier.active_ = true ∧
    s.pc true = some (.unlock ⟨false, -1⟩) ∧ Agrees s := by
  have hwait : (system Bool 4096 3).ReachableWith OneWaiter _ :=
    .step (a := (true, .wait ⟨false, -1⟩)) (.init rfl) (fun _ _ _ => rfl) rfl
  have hsignal : (system Bool 4096 3).ReachableWith OneWaiter _ :=
    .step (a := (false, .signal)) hwait nofun rfl
  exact ⟨_, rfl, rfl, agrees_of_oneWaiter (by decide) 3 hsignal⟩

end Oasys.OnOffNotifier
