import Oasys.Spec.ThreadLifetime

/-!
# Requests to stop

`thread_run` clears `SHOULD_STOP` in the new thread, after `start` may have returned, so a
request made in between is lost; and so is one that is written between the read and the
write of its last update. `ThreadPC.Keeps` says where the new thread has neither ahead of it.
A server thread that is woken for a lost request runs into its assertion.
-/

namespace Oasys.Thread

variable {R : Runnable} {c : Config} {s s' : State R}

/-- A request written now is not taken back by the new thread. -/
def ThreadPC.Keeps {L : Type} : ThreadPC L → Prop
  | absent | storeId | setInterruptable | read .setStarted | write .setStarted _
  | read .clearStopped | write .clearStopped _
  | read .clearShouldStop | write .clearShouldStop _ => False
  | write .setStopped flags => Has flags .shouldStop
  | read .setStopped | run _ | testDelete | waitSetup | delete | exited => True

instance {L : Type} (p : ThreadPC L) : Decidable p.Keeps := by
  unfold ThreadPC.Keeps
  split <;> infer_instance

/-- The stopper is at the write of `set_should_stop`. -/
def StopperPC.Writes : StopperPC → Prop
  | write _ _ => True
  | _ => False

instance (p : StopperPC) : Decidable p.Writes := by
  cases p <;> first | exact .isTrue trivial | exact .isFalse id

/-- `set_should_stop` writes only where the request is kept. -/
def State.Careful (s : State R) : Action R → Prop
  | .stop => s.stopper.Writes → s.thread.Keeps
  | _ => True

instance (s : State R) (a : Action R) : Decidable (s.Careful a) := by
  unfold State.Careful
  split <;> infer_instance

/-- The stopper is past the request, in `stop`. -/
def StopperPC.Asked : StopperPC → Prop
  | isStopped | interrupt _ | wait _ | ret _ => True
  | idle | read _ | write _ _ => False

/-- What holds between any two steps of a careful run. -/
structure Requests (c : Config) (s : State R) : Prop where
  returned : s.stopper ≠ .idle ∨ s.requested = true → s.creator.Returned
  asked : s.stopper.Asked → s.requested = true
  kept : s.requested = true → Has s.flags_ .shouldStop ∧ s.thread.Keeps
  threadId : s.thread = .setInterruptable → s.thread_id_ = some c.id

/-! ### Steps -/

theorem startStep_frame {created logs : Bool}
    (h : startStep c s created logs s.creator = some s') :
    ¬ s.creator.Returned ∧ s'.stopper = s.stopper ∧ s'.requested = s.requested ∧
      s'.shared = s.shared ∧ (s.fault = none → s'.fault ≠ some .assertFailed) ∧
      (s'.thread = s.thread ∧ (s'.thread_id_ = s.thread_id_ ∨ s'.thread_id_ = some c.id) ∨
        s'.thread = .storeId) := by
  cases hpc : s.creator <;> rw [hpc] at h <;>
    simp only [startStep, State.access, Option.some.injEq, reduceCtorEq] at h <;>
    grind [CreatorPC.Returned, State.die]

theorem joinStep_frame (h : joinStep s s.creator = some s') :
    s'.creator.Returned ∧ s'.flags_ = s.flags_ ∧ s'.thread_id_ = s.thread_id_ ∧
      s'.thread = s.thread ∧ s'.stopper = s.stopper ∧ s'.requested = s.requested ∧
      s'.shared = s.shared ∧ (s.fault = none → s'.fault ≠ some .assertFailed) := by
  cases hpc : s.creator <;> rw [hpc] at h <;>
    simp only [joinStep, State.access, Option.some.injEq, reduceCtorEq] at h <;>
    grind [CreatorPC.Returned, State.die]

theorem Requests.startStep (h : Requests c s) {created logs : Bool}
    (hstep : startStep c s created logs s.creator = some s') : Requests c s' := by
  obtain ⟨hnot, hstopper, hrequested, -, -, hthread⟩ := startStep_frame hstep
  -- nobody has asked for a stop yet
  have hidle : s.stopper = .idle := by
    by_contra hne
    exact hnot (h.returned (.inl hne))
  have hno : s.requested = false := by
    rw [Bool.eq_false_iff]
    exact fun hyes => hnot (h.returned (.inr hyes))
  refine ⟨?_, ?_, ?_, fun hset => ?_⟩
  · simp [hstopper, hrequested, hidle, hno]
  · simp [hstopper, hidle, StopperPC.Asked]
  · simp [hrequested, hno]
  · obtain ⟨hsame, hid⟩ | hnew := hthread
    · obtain hid | hid := hid
      · rw [hid]
        exact h.threadId (hsame ▸ hset)
      · exact hid
    · rw [hnew] at hset
      cases hset

theorem Requests.joinStep (h : Requests c s) (hstep : joinStep s s.creator = some s') :
    Requests c s' := by
  obtain ⟨hret, hflags, hid, hthread, hstopper, hrequested, -⟩ := joinStep_frame hstep
  refine ⟨fun _ => hret, ?_, ?_, ?_⟩
  · rw [hstopper, hrequested]
    exact h.asked
  · rw [hrequested, hflags, hthread]
    exact h.kept
  · rw [hthread, hid]
    exact h.threadId

theorem Requests.threadStep (h : Requests c s) {env : R.Env}
    (hstep : threadStep c s env s.thread = some s') : Requests c s' := by
  have hgoto (p : ThreadPC R.Local) (hp : s.thread.Keeps → p.Keeps) (hset : p ≠ .setInterruptable)
      (shared : R.Shared) : Requests c { s with shared, thread := p } :=
    { h with
      kept := fun hr => ⟨(h.kept hr).1, hp (h.kept hr).2⟩
      threadId := fun he => absurd he hset }
  cases hpc : s.thread with
  | absent | exited => simp [Thread.threadStep, hpc] at hstep
  | storeId =>
    rw [hpc] at hstep
    obtain rfl := Option.some.inj hstep
    exact { h with
      kept := fun hr => absurd (h.kept hr).2 (by simp [hpc, ThreadPC.Keeps])
      threadId := fun _ => rfl }
  | setInterruptable =>
    rw [hpc] at hstep hgoto
    rw [Thread.threadStep, if_pos (h.threadId hpc)] at hstep
    obtain rfl := Option.some.inj hstep
    exact hgoto (.read .setStarted) id (by simp) s.shared
  | read u =>
    rw [hpc] at hstep
    obtain rfl := Option.some.inj hstep
    refine { h with kept := fun hr => ⟨(h.kept hr).1, ?_⟩, threadId := by simp }
    -- the value read has the request in it
    have hkept := (h.kept hr).2
    rw [hpc] at hkept
    cases u with
    | setStopped => exact (h.kept hr).1
    | setStarted | clearStopped | clearShouldStop => exact hkept
  | write u flags =>
    rw [hpc] at hstep
    obtain rfl := Option.some.inj hstep
    refine { h with kept := fun hr => ?_, threadId := by cases u <;> simp [Update.next] }
    have hkept := (h.kept hr).2
    rw [hpc] at hkept
    cases u with
    | setStopped => exact ⟨has_setFlag.2 (.inr hkept), trivial⟩
    | setStarted | clearStopped | clearShouldStop => exact hkept.elim
  | run l =>
    rw [hpc] at hstep hgoto
    simp only [Thread.threadStep] at hstep
    split at hstep
    · cases hstep
    · obtain rfl := Option.some.inj hstep
      exact hgoto (.run _) (fun _ => trivial) (by simp) _
    · obtain rfl := Option.some.inj hstep
      exact hgoto (.read .setStopped) (fun _ => trivial) (by simp) _
    · obtain rfl := Option.some.inj hstep
      exact { h with }
    · obtain rfl := Option.some.inj hstep
      exact { h with }
  | testDelete =>
    rw [hpc] at hstep hgoto
    obtain rfl := Option.some.inj hstep
    apply hgoto
    all_goals split <;> simp [ThreadPC.Keeps]
  | waitSetup =>
    rw [hpc] at hstep hgoto
    obtain rfl := Option.some.inj hstep
    apply hgoto
    all_goals split <;> simp [ThreadPC.Keeps]
  | delete =>
    rw [hpc] at hstep
    obtain rfl := Option.some.inj hstep
    exact { h with
      kept := fun hr => ⟨(h.kept hr).1, trivial⟩
      threadId := by simp }

theorem Requests.stopStep (h : Requests c s) (hok : s.Careful .stop)
    (hstep : stopStep s s.stopper = some s') : Requests c s' := by
  cases hpc : s.stopper with
  | idle => simp [Thread.stopStep, hpc] at hstep
  | read stop =>
    rw [hpc] at hstep
    obtain rfl := Option.some.inj hstep
    exact { h with
      returned := fun _ => h.returned (.inl (by simp [hpc]))
      asked := fun ha => ha.elim }
  | write stop flags =>
    rw [hpc] at hstep
    obtain rfl := Option.some.inj hstep
    exact { h with
      returned := fun _ => h.returned (.inl (by simp [hpc]))
      asked := fun _ => rfl
      kept := fun _ => ⟨by simp, hok (by simp [hpc, StopperPC.Writes])⟩ }
  | isStopped =>
    rw [hpc] at hstep
    obtain rfl := Option.some.inj hstep
    have hr := h.asked (by simp [hpc, StopperPC.Asked])
    exact { h with
      returned := fun _ => h.returned (.inr hr)
      asked := fun _ => hr }
  | interrupt retries =>
    rw [hpc] at hstep
    have hr := h.asked (by simp [hpc, StopperPC.Asked])
    simp only [Thread.stopStep] at hstep
    split at hstep
    · obtain rfl := Option.some.inj hstep
      exact { h with
        returned := fun _ => h.returned (.inr hr)
        asked := fun _ => hr }
    · split at hstep
      · obtain rfl := Option.some.inj hstep
        exact { h with }
      · obtain rfl := Option.some.inj hstep
        exact { h with
          returned := fun _ => h.returned (.inr hr)
          asked := fun _ => hr }
  | wait i =>
    rw [hpc] at hstep
    obtain rfl := Option.some.inj hstep
    have hr := h.asked (by simp [hpc, StopperPC.Asked])
    exact { h with
      returned := fun _ => h.returned (.inr hr)
      asked := fun _ => hr }
  | ret finished =>
    rw [hpc] at hstep
    obtain rfl := Option.some.inj hstep
    have hr := h.asked (by simp [hpc, StopperPC.Asked])
    exact { h with
      returned := fun _ => h.returned (.inr hr)
      asked := fun _ => hr }

/-! ### Runs -/

theorem Requests.next {a : Action R} (h : Requests c s) (hok : s.Careful a)
    (hstep : next c s a = some s') : Requests c s' := by
  unfold Thread.next at hstep
  split at hstep
  · cases hstep
  · cases a with
    | start created logs =>
      simp only [Option.ite_none_left_eq_some] at hstep
      exact h.startStep hstep.2
    | join =>
      simp only [Option.ite_none_right_eq_some] at hstep
      exact h.joinStep hstep.2
    | thread env => exact h.threadStep hstep
    | call stop =>
      simp only [Option.ite_none_right_eq_some, Option.some.injEq] at hstep
      obtain ⟨⟨hret, -⟩, rfl⟩ := hstep
      exact { h with
        returned := fun _ => hret
        asked := fun ha => ha.elim }
    | stop =>
      simp only [Option.ite_none_left_eq_some] at hstep
      exact h.stopStep hok hstep.2

theorem requests_new (b : Bool) : Requests c (.new R c b) where
  returned := by simp [State.new]
  asked h := h.elim
  kept := by simp [State.new]
  threadId := by simp [State.new]

theorem requests_of_reachableWith (h : (system R c).ReachableWith State.Careful s) :
    Requests c s := by
  refine h.invariant ?_ fun _ _ _ hinv hok hstep => hinv.next hok hstep
  rintro _ ⟨b, rfl⟩
  exact requests_new b

end Oasys.Thread

namespace Oasys.TCPServerThread

open Thread (Action Config Requests State system)

variable {capacity : Nat} {c : Config} {s s' : State (runnable capacity)}

/-- What holds of a server between any two steps: the pipe of its notifier is written to
    by `stop` alone, so where `run` is woken, it has been asked to stop. -/
structure Woken (s : State (runnable capacity)) : Prop where
  bytes : 0 < Notifier.Pipe.bytes s.shared → s.requested = true
  woken : s.thread = .run PC.assertShouldStop → s.requested = true
  fault : s.fault ≠ some .assertFailed

/-- What a step of `run` does: it only takes bytes out of the pipe, it waits for one before
    its assertion, and the assertion is about `should_stop`. -/
theorem step_cases {pipe : Notifier.Pipe} {p : PC} {b : Bool} {e : Event}
    {o : Thread.Outcome Notifier.Pipe PC} (h : step pipe p b e = some o) :
    (∃ pipe' q, o = .goto pipe' q ∧ pipe'.bytes ≤ pipe.bytes ∧
      (q = .assertShouldStop → 0 < pipe.bytes)) ∨
    o = .ret pipe ∨ (o = .assertFailed ∧ p = .assertShouldStop ∧ b = false) := by
  cases p with
  | poll =>
    cases e with
    | notified =>
      simp only [step, Notifier.drainPipe_one] at h
      by_cases hbytes : pipe.bytes = 0
      · simp [hbytes] at h
      · simp only [hbytes, if_false, pure_eq_ok, Option.some.injEq] at h
        exact .inl ⟨_, _, h.symm, Nat.sub_le .., fun _ => by omega⟩
    | _ => grind [step]
  | _ => cases e <;> grind [step]

theorem Woken.goto (h : Woken s) (hfault : s.fault = none) (hshared : s'.shared = s.shared)
    (hrequested : s'.requested = s.requested) (hfault' : s'.fault = s.fault)
    (hrun : s'.thread ≠ .run PC.assertShouldStop) : Woken s' where
  bytes := by
    rw [hshared, hrequested]
    exact h.bytes
  woken he := absurd he hrun
  fault := by simp [hfault', hfault]

theorem Woken.threadStep (h : Woken s) (hreq : Requests c s) (hfault : s.fault = none)
    {env : Event} (hstep : Thread.threadStep c s env s.thread = some s') : Woken s' := by
  cases hpc : s.thread with
  | run l =>
    rw [hpc] at hstep
    simp only [Thread.threadStep] at hstep
    split at hstep
    · cases hstep
    · rename_i pipe' q hq
      obtain rfl := Option.some.inj hstep
      obtain ⟨_, _, ⟨⟩, hle, hwait⟩ | hret | ⟨hfail, -⟩ := step_cases hq
      · exact { h with
          bytes := fun hb => h.bytes (Nat.lt_of_lt_of_le hb hle)
          woken := by
            rintro ⟨⟩
            exact h.bytes (hwait rfl) }
      · cases hret
      · cases hfail
    · rename_i pipe' hq
      obtain rfl := Option.some.inj hstep
      obtain ⟨_, _, hgo, -⟩ | hret | ⟨hfail, -⟩ := step_cases hq
      · cases hgo
      · cases hret
        exact { h with woken := by simp }
      · cases hfail
    · rename_i hq
      obtain ⟨_, _, hgo, -⟩ | hret | ⟨-, rfl, hno⟩ := step_cases hq
      · cases hgo
      · cases hret
      · -- the request that has woken the thread is still there
        have hkept := (hreq.kept (h.woken hpc)).1
        simp [State.should_stop, hkept] at hno
    · rename_i hq
      obtain ⟨_, _, hgo, -⟩ | hret | ⟨hfail, -⟩ := step_cases hq
      · cases hgo
      · cases hret
      · cases hfail
  | setInterruptable =>
    rw [hpc] at hstep
    simp only [Thread.threadStep, hreq.threadId hpc, if_true] at hstep
    obtain rfl := Option.some.inj hstep
    exact h.goto hfault rfl rfl rfl (by simp)
  | absent | exited => simp [Thread.threadStep, hpc] at hstep
  | storeId | read | delete =>
    rw [hpc] at hstep
    obtain rfl := Option.some.inj hstep
    exact h.goto hfault rfl rfl rfl (by simp)
  | write u flags =>
    rw [hpc] at hstep
    obtain rfl := Option.some.inj hstep
    refine h.goto hfault rfl rfl rfl ?_
    cases u <;> simp [Thread.Update.next, runnable]
  | testDelete | waitSetup =>
    rw [hpc] at hstep
    obtain rfl := Option.some.inj hstep
    refine h.goto hfault rfl rfl rfl ?_
    split <;> simp

theorem Woken.stopStep (h : Woken s) (hreq : Requests c s)
    (hstep : Thread.stopStep s s.stopper = some s') : Woken s' := by
  cases hpc : s.stopper with
  | idle => simp [Thread.stopStep, hpc] at hstep
  | write stop flags =>
    rw [hpc] at hstep
    obtain rfl := Option.some.inj hstep
    exact { h with
      bytes := fun _ => rfl
      woken := fun _ => rfl }
  | interrupt retries =>
    rw [hpc] at hstep
    have hr := hreq.asked (by simp [hpc, Thread.StopperPC.Asked])
    simp only [Thread.stopStep] at hstep
    split at hstep
    · obtain rfl := Option.some.inj hstep
      exact { h with
        bytes := fun _ => hr }
    · split at hstep
      · obtain rfl := Option.some.inj hstep
        exact { h with fault := by simp [State.die] }
      · obtain rfl := Option.some.inj hstep
        exact { h with }
  | read | isStopped | wait | ret =>
    rw [hpc] at hstep
    obtain rfl := Option.some.inj hstep
    exact { h with }

theorem Woken.next {a : Action (runnable capacity)} (h : Woken s) (hreq : Requests c s)
    (hstep : Thread.next c s a = some s') : Woken s' := by
  unfold Thread.next at hstep
  split at hstep
  case isTrue => cases hstep
  rename_i hnone
  have hfault : s.fault = none := by simpa using hnone
  cases a with
  | start created logs =>
    simp only [Option.ite_none_left_eq_some] at hstep
    obtain ⟨-, -, hrequested, hshared, hfault', hthread⟩ := Thread.startStep_frame hstep.2
    refine ⟨?_, fun he => ?_, hfault' hfault⟩
    · rw [hshared, hrequested]
      exact h.bytes
    · obtain ⟨hsame, -⟩ | hnew := hthread
      · rw [hrequested]
        exact h.woken (hsame ▸ he)
      · rw [hnew] at he
        cases he
  | join =>
    simp only [Option.ite_none_right_eq_some] at hstep
    obtain ⟨-, -, -, hthread, -, hrequested, hshared, hfault'⟩ := Thread.joinStep_frame hstep.2
    refine ⟨?_, ?_, hfault' hfault⟩
    · rw [hshared, hrequested]
      exact h.bytes
    · rw [hthread, hrequested]
      exact h.woken
  | thread env => exact h.threadStep hreq hfault hstep
  | call stop =>
    simp only [Option.ite_none_right_eq_some, Option.some.injEq] at hstep
    obtain ⟨-, rfl⟩ := hstep
    exact { h with }
  | stop =>
    simp only [Option.ite_none_left_eq_some] at hstep
    exact h.stopStep hreq hstep.2

theorem woken_of_reachableWith
    (h : (system (runnable capacity) c).ReachableWith State.Careful s) : Woken s := by
  have hboth : Requests c s ∧ Woken s := by
    refine h.invariant (P := fun s => Requests c s ∧ Woken s) ?_
      fun _ _ _ hinv hok hstep => ⟨hinv.1.next hok hstep, hinv.2.next hinv.1 hstep⟩
    rintro _ ⟨b, rfl⟩
    refine ⟨Thread.requests_new b, ?_, ?_, ?_⟩
    · simp [State.new, runnable, Notifier.Pipe.new]
    · simp [State.new]
    · simp [State.new]
  exact hboth.2

end Oasys.TCPServerThread

namespace Oasys.Thread

/-- In a run in which every request is written where the new thread keeps it, no request is
    lost, and a server thread that is woken has been asked to stop. -/
theorem careful_requests_last (c : Config) :
    (∀ (R : Runnable) (s : State R), (system R c).ReachableWith State.Careful s →
      s.requested = true → s.should_stop = true) ∧
    ∀ (capacity : Nat) (s : State (TCPServerThread.runnable capacity)),
      (system (TCPServerThread.runnable capacity) c).ReachableWith State.Careful s →
        s.fault ≠ some .assertFailed := by
  refine ⟨fun R s h hr => ?_, fun capacity s h => ?_⟩
  · have hkept := ((requests_of_reachableWith h).kept hr).1
    simpa [State.should_stop] using hkept
  · exact (TCPServerThread.woken_of_reachableWith h).fault

/-- The witness: a server that is in `poll` when it is asked to stop. -/
theorem careful_requests_last_polling :
    ∃ s : State (TCPServerThread.runnable 1),
      s.requested = true ∧ s.should_stop = true ∧ s.fault ≠ some .assertFailed := by
  have hinit : (system (TCPServerThread.runnable 1) ⟨0#32, 1, false⟩).ReachableWith State.Careful
      (.new _ ⟨0#32, 1, false⟩ false) := .init ⟨false, rfl⟩
  have hnext (s : State (TCPServerThread.runnable 1)) a s'
      (h : (if s.Careful a then next ⟨0#32, 1, false⟩ s a else none) = some s') :
      s.Careful a ∧ (system (TCPServerThread.runnable 1) ⟨0#32, 1, false⟩).step s a s' :=
    Option.ite_none_right_eq_some.1 h
  have hrun := hinit.foldlM hnext
    (List.replicate 8 (.start true false) ++ List.replicate 9 (.thread .notified) ++
      [.call true, .stop, .stop]) rfl
  obtain ⟨hlast, hassert⟩ := careful_requests_last ⟨0#32, 1, false⟩
  exact ⟨_, rfl, hlast _ _ hrun rfl, hassert 1 _ hrun⟩

/-- A request made as soon as `start` has returned, before the new thread has cleared the
    flag: the request is lost, and the server thread it wakes up fails its assertion. -/
theorem early_request_lost :
    ∃ s : State (TCPServerThread.runnable 1),
      (system (TCPServerThread.runnable 1) ⟨0#32, 1, false⟩).Reachable s ∧
      s.requested = true ∧ s.should_stop = false ∧ s.fault = some .assertFailed := by
  have hinit : (system (TCPServerThread.runnable 1) ⟨0#32, 1, false⟩).Reachable
      (.new _ ⟨0#32, 1, false⟩ false) := .init ⟨false, rfl⟩
  -- `start`, the request, the new thread up to `poll`, the rest of `stop`, the wake-up
  have hrun := hinit.foldlM (fun _ _ _ h => ⟨trivial, h⟩)
    (List.replicate 8 (.start true false) ++ [.call true, .stop, .stop] ++
      List.replicate 9 (.thread .notified) ++ [.stop, .stop] ++
      List.replicate 2 (.thread .notified)) rfl
  exact ⟨_, hrun, rfl, rfl, rfl⟩

end Oasys.Thread
