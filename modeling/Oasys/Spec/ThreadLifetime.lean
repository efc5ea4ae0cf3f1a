import Oasys.Thread.Thread
import Mathlib.Tactic.ByContra

/-!
# The lifetime of a Thread object

`thread_run` deletes the object only once `start` has cleared `setup_in_progress_`. That is
not the last access of `start`: its last message reads `thread_id_` and `name_` behind it.
And the constructor takes `DELETE_ON_EXIT` out of its parameter, not out of `flags_`, so a
joinable thread that is given both flags deletes itself before it is joined.
-/

namespace Oasys.Thread

/-- A joinable thread does not delete itself, and nobody has used the object after its
    deletion. -/
def Lives {R : Runnable} (c : Config) (s : State R) : Prop :=
  (Has c.flags .createJoinable → s.deleted = false) ∧ s.fault ≠ some .useAfterFree

/-- The flags that decide about the end of a thread are those it was created with. -/
def Agrees (c : Config) (flags : BitVec 32) : Prop :=
  (Has flags .createJoinable ↔ Has c.flags .createJoinable) ∧
    (Has flags .deleteOnExit ↔ Has c.flags .deleteOnExit)

def CreatorPC.SetupDone : CreatorPC → Prop
  | logId | logName | started | testJoin | readId | join | joined => True
  | _ => False

def CreatorPC.Joining : CreatorPC → Prop
  | testJoin | readId | join | joined => True
  | _ => False

/-- What holds between any two steps. -/
structure Tracks {R : Runnable} (c : Config) (s : State R) : Prop where
  flags : Agrees c s.flags_
  thread_flags : ∀ u flags, s.thread = .write u flags → Agrees c flags
  stopper_flags : ∀ stop flags, s.stopper = .write stop flags → Agrees c flags
  delete : s.thread = .waitSetup ∨ s.thread = .delete ∨ s.deleted = true →
    Has c.flags .deleteOnExit
  setup : s.thread = .delete ∨ s.deleted = true → s.setup_in_progress_ = false
  setupDone : s.setup_in_progress_ = false → s.creator.SetupDone
  logName : s.creator = .logName → c.debug = true
  joining : s.creator.Joining → Has c.flags .createJoinable

/-- The flags a thread may be created with: where it deletes itself, nobody joins it and
    `start` ends without a message. -/
def Config.Deletable (c : Config) : Prop :=
  Has c.flags .deleteOnExit → ¬ Has c.flags .createJoinable ∧ c.debug = false

variable {R : Runnable} {c : Config} {s s' : State R}

theorem Agrees.setFlag {flags : BitVec 32} (h : Agrees c flags) {f : Flag}
    (hj : f ≠ .createJoinable) (hd : f ≠ .deleteOnExit) : Agrees c (setFlag flags f) := by
  simpa [Agrees, hj.symm, hd.symm] using h

theorem Agrees.clearFlag {flags : BitVec 32} (h : Agrees c flags) {f : Flag}
    (hj : f ≠ .createJoinable) (hd : f ≠ .deleteOnExit) : Agrees c (clearFlag flags f) := by
  simpa [Agrees, hj.symm, hd.symm] using h

theorem Agrees.apply {flags : BitVec 32} (h : Agrees c flags) (u : Update) :
    Agrees c (u.apply flags) := by
  cases u with
  | setStarted => exact h.setFlag (by simp) (by simp)
  | clearStopped => exact h.clearFlag (by simp) (by simp)
  | clearShouldStop => exact h.clearFlag (by simp) (by simp)
  | setStopped => exact h.setFlag (by simp) (by simp)

/-! ### Steps -/

/-- What a step of `start` does. It finds the object deleted only before it has cleared
    `setup_in_progress_`, or in its last message. -/
theorem startStep_cases {created logs : Bool}
    (h : startStep c s created logs s.creator = some s') :
    (s.deleted = true ∧ (s.creator.SetupDone → logs = true ∨ s.creator = .logName) ∧
      s' = s.die .useAfterFree) ∨
    s' = s.die .panic ∨
    (∃ p b id, s' = { s with creator := p, start_barrier_enabled_ := b, thread_id_ := id } ∧
      (s.creator.SetupDone → p.SetupDone) ∧ (p = .logName → logs = true) ∧ ¬ p.Joining) ∨
    (¬ s.creator.SetupDone ∧ s' = { s with creator := .storeId, thread := .storeId }) ∨
    s' = { s with setup_in_progress_ := false, creator := .logId } := by
  cases hpc : s.creator <;> rw [hpc] at h <;>
    simp only [startStep, State.access, Option.some.injEq, reduceCtorEq] at h <;>
    grind [CreatorPC.Joining, CreatorPC.SetupDone]

theorem joinStep_cases (h : joinStep s s.creator = some s') :
    (s.deleted = true ∧ s' = s.die .useAfterFree) ∨ s' = s.die .panic ∨
    ∃ p : CreatorPC, s' = { s with creator := p } ∧ p.Joining := by
  cases hpc : s.creator <;> rw [hpc] at h <;>
    simp only [joinStep, State.access, Option.some.injEq, reduceCtorEq] at h <;>
    grind [CreatorPC.Joining]

theorem CreatorPC.Joining.setupDone {p : CreatorPC} (h : p.Joining) : p.SetupDone := by
  cases p <;> trivial

theorem Tracks.die (h : Tracks c s) (f : Fault) : Tracks c (s.die f) := { h with }

theorem Tracks.startStep (h : Tracks c s) {created logs : Bool} (hlogs : logs → c.debug = true)
    (hstep : startStep c s created logs s.creator = some s') : Tracks c s' := by
  obtain ⟨-, -, rfl⟩ | rfl | ⟨p, b, id, rfl, hp, hlog, hjoin⟩ | ⟨hsetup, rfl⟩ | rfl :=
    startStep_cases hstep
  · exact h.die _
  · exact h.die _
  · exact { h with
      setupDone := fun hs => hp (h.setupDone hs)
      logName := fun hp => hlogs (hlog hp)
      joining := fun hp => absurd hp hjoin }
  · -- the new thread: the object cannot have been deleted before
    have hset : s.setup_in_progress_ ≠ false := fun hs => hsetup (h.setupDone hs)
    exact { h with
      thread_flags := by simp
      delete := fun hd => h.delete (.inr (.inr (by simpa using hd)))
      setup := fun hd => h.setup (.inr (by simpa using hd))
      setupDone := fun hs => absurd hs hset
      logName := by simp
      joining := fun hp => hp.elim }
  · exact { h with
      setup := fun _ => rfl
      setupDone := fun _ => trivial
      logName := by simp
      joining := fun hp => hp.elim }

theorem Tracks.joinStep (h : Tracks c s) (hjoinable : Has c.flags .createJoinable)
    (hstep : joinStep s s.creator = some s') : Tracks c s' := by
  obtain ⟨-, rfl⟩ | rfl | ⟨p, rfl, hp⟩ := joinStep_cases hstep
  · exact h.die _
  · exact h.die _
  · exact { h with
      setupDone := fun _ => hp.setupDone
      logName := by
        rintro rfl
        exact hp.elim
      joining := fun _ => hjoinable }

theorem Tracks.goto (h : Tracks c s) {p : ThreadPC R.Local}
    (hflags : ∀ u flags, p = .write u flags → Agrees c flags) (hwait : p ≠ .waitSetup)
    (hdelete : p ≠ .delete) (thread_id_ : Option Nat) (shared : R.Shared) :
    Tracks c { s with thread_id_, shared, thread := p } :=
  { h with
    thread_flags := hflags
    delete := fun hd => h.delete (by simp_all)
    setup := fun hd => h.setup (by simp_all) }

theorem Tracks.threadStep (h : Tracks c s) {env : R.Env}
    (hstep : threadStep c s env s.thread = some s') : Tracks c s' := by
  cases hpc : s.thread with
  | absent | exited => simp [Thread.threadStep, hpc] at hstep
  | storeId =>
    rw [hpc] at hstep
    obtain rfl := Option.some.inj hstep
    exact h.goto (by simp) (by simp) (by simp) _ _
  | setInterruptable =>
    rw [hpc] at hstep
    obtain rfl := Option.some.inj hstep
    split
    · exact h.goto (by simp) (by simp) (by simp) _ _
    · exact h.die _
  | read u =>
    rw [hpc] at hstep
    obtain rfl := Option.some.inj hstep
    refine h.goto ?_ (by simp) (by simp) _ _
    rintro u' flags ⟨⟩
    exact h.flags
  | write u flags =>
    rw [hpc] at hstep
    obtain rfl := Option.some.inj hstep
    have hflags := (h.thread_flags u flags hpc).apply u
    have hnext := h.goto (p := u.next R) (by cases u <;> simp [Update.next])
      (by cases u <;> simp [Update.next]) (by cases u <;> simp [Update.next]) s.thread_id_ s.shared
    exact { hnext with flags := hflags }
  | run l =>
    rw [hpc] at hstep
    simp only [Thread.threadStep] at hstep
    split at hstep
    · cases hstep
    · obtain rfl := Option.some.inj hstep
      exact h.goto (by simp) (by simp) (by simp) _ _
    · obtain rfl := Option.some.inj hstep
      exact h.goto (by simp) (by simp) (by simp) _ _
    · obtain rfl := Option.some.inj hstep
      exact h.die _
    · obtain rfl := Option.some.inj hstep
      exact h.die _
  | testDelete =>
    rw [hpc] at hstep
    obtain rfl := Option.some.inj hstep
    split
    · rename_i hdelete
      exact { h with
        thread_flags := by simp
        delete := fun _ => h.flags.2.1 hdelete
        setup := fun hd => h.setup (.inr (by simpa using hd)) }
    · exact h.goto (by simp) (by simp) (by simp) _ _
  | waitSetup =>
    rw [hpc] at hstep
    obtain rfl := Option.some.inj hstep
    have hdelete := h.delete (.inl hpc)
    split
    · exact { h with
        thread_flags := by simp
        delete := fun _ => hdelete
        setup := fun hd => h.setup (.inr (by simpa using hd)) }
    · rename_i hsetup
      exact { h with
        thread_flags := by simp
        delete := fun _ => hdelete
        setup := fun _ => by simpa using hsetup }
  | delete =>
    rw [hpc] at hstep
    obtain rfl := Option.some.inj hstep
    exact { h with
      thread_flags := by simp
      delete := fun _ => h.delete (.inr (.inl hpc))
      setup := fun _ => h.setup (.inl hpc) }

theorem Tracks.stopStep (h : Tracks c s) (hstep : stopStep s s.stopper = some s') :
    Tracks c s' := by
  cases hpc : s.stopper with
  | idle => simp [Thread.stopStep, hpc] at hstep
  | read stop =>
    rw [hpc] at hstep
    obtain rfl := Option.some.inj hstep
    refine { h with stopper_flags := ?_ }
    rintro stop' flags ⟨⟩
    exact h.flags
  | write stop flags =>
    rw [hpc] at hstep
    obtain rfl := Option.some.inj hstep
    exact { h with
      flags := (h.stopper_flags stop flags hpc).setFlag (by simp) (by simp)
      stopper_flags := by cases stop <;> simp }
  | isStopped =>
    rw [hpc] at hstep
    obtain rfl := Option.some.inj hstep
    exact { h with stopper_flags := by split <;> simp }
  | interrupt retries =>
    rw [hpc] at hstep
    simp only [Thread.stopStep] at hstep
    split at hstep
    · obtain rfl := Option.some.inj hstep
      exact { h with stopper_flags := by simp }
    · split at hstep
      · obtain rfl := Option.some.inj hstep
        exact h.die _
      · obtain rfl := Option.some.inj hstep
        exact { h with stopper_flags := by simp }
  | wait i =>
    rw [hpc] at hstep
    obtain rfl := Option.some.inj hstep
    refine { h with stopper_flags := ?_ }
    split
    · simp
    · split <;> simp
  | ret finished =>
    rw [hpc] at hstep
    obtain rfl := Option.some.inj hstep
    exact { h with stopper_flags := by simp }

/-! ### Runs -/

theorem threadStep_fault {env : R.Env} (hfault : s.fault = none)
    (hstep : threadStep c s env s.thread = some s') : s'.fault ≠ some .useAfterFree := by
  cases hpc : s.thread <;> rw [hpc] at hstep <;> simp only [threadStep] at hstep <;>
    grind [State.die]

theorem stopStep_fault (hfault : s.fault = none) (hstep : stopStep s s.stopper = some s') :
    s'.fault ≠ some .useAfterFree := by
  cases hpc : s.stopper <;> rw [hpc] at hstep <;> simp only [stopStep] at hstep <;>
    grind [State.die]

theorem Tracks.next {a : Action R} (h : Tracks c s) (hstep : next c s a = some s') :
    Tracks c s' := by
  unfold Thread.next at hstep
  split at hstep
  · cases hstep
  · cases a with
    | start created logs =>
      simp only [Option.ite_none_left_eq_some] at hstep
      exact h.startStep (fun hl => by simpa [hl] using hstep.1) hstep.2
    | join =>
      simp only [Option.ite_none_right_eq_some] at hstep
      exact h.joinStep hstep.1 hstep.2
    | thread env => exact h.threadStep hstep
    | call stop =>
      simp only [Option.ite_none_right_eq_some, Option.some.injEq] at hstep
      obtain ⟨-, rfl⟩ := hstep
      exact { h with stopper_flags := by simp }
    | stop =>
      simp only [Option.ite_none_left_eq_some] at hstep
      exact h.stopStep hstep.2

/-- With flags under which the object is nobody's once it is deleted, no step uses it. -/
theorem Tracks.next_fault {a : Action R} (h : Tracks c s) (hc : c.Deletable)
    (hstep : Thread.next c s a = some s') : s'.fault ≠ some .useAfterFree := by
  have hdeleted (hd : s.deleted = true) := hc (h.delete (.inr (.inr hd)))
  unfold Thread.next at hstep
  split at hstep
  case isTrue => cases hstep
  rename_i hnone
  have hfault : s.fault = none := by simpa using hnone
  cases a with
  | start created logs =>
    simp only [Option.ite_none_left_eq_some] at hstep
    obtain ⟨hlogs, hstep⟩ := hstep
    obtain ⟨hd, hlast, rfl⟩ | rfl | ⟨p, b, id, rfl, -⟩ | ⟨-, rfl⟩ | rfl := startStep_cases hstep
    · -- only the last message can be late, and it is never on
      have hdebug := (hdeleted hd).2
      obtain rfl | hname := hlast (h.setupDone (h.setup (.inr hd)))
      · simp [hdebug] at hlogs
      · simp [h.logName hname] at hdebug
    · simp [State.die]
    · simp [hfault]
    · simp [hfault]
    · simp [hfault]
  | join =>
    simp only [Option.ite_none_right_eq_some] at hstep
    obtain ⟨hjoinable, hstep⟩ := hstep
    obtain ⟨hd, rfl⟩ | rfl | ⟨p, rfl, -⟩ := joinStep_cases hstep
    · exact absurd hjoinable (hdeleted hd).1
    · simp [State.die]
    · simp [hfault]
  | thread env => exact threadStep_fault hfault hstep
  | call stop =>
    simp only [Option.ite_none_right_eq_some, Option.some.injEq] at hstep
    obtain ⟨-, rfl⟩ := hstep
    simp [hfault]
  | stop =>
    simp only [Option.ite_none_left_eq_some] at hstep
    exact stopStep_fault hfault hstep.2

theorem tracks_new (b : Bool) : Tracks c (.new R c b) where
  flags := ⟨.rfl, .rfl⟩
  thread_flags := by simp [State.new]
  stopper_flags := by simp [State.new]
  delete := by simp [State.new]
  setup := by simp [State.new]
  setupDone := by simp [State.new]
  logName := by simp [State.new]
  joining h := h.elim

theorem tracks_of_reachable (h : (system R c).Reachable s) : Tracks c s := by
  refine h.invariant ?_ fun _ _ _ htracks _ hstep => htracks.next hstep
  rintro _ ⟨b, rfl⟩
  exact tracks_new b

theorem lives_of_deletable (hc : c.Deletable) (h : (system R c).Reachable s) : Lives c s := by
  have hfault : s.fault ≠ some .useAfterFree := by
    -- `Tracks` has to come along, for the step lemma
    have hboth : Tracks c s ∧ s.fault ≠ some .useAfterFree := by
      refine h.invariant (P := fun s => Tracks c s ∧ s.fault ≠ some .useAfterFree) ?_
        fun _ _ _ hinv _ hstep =>
        ⟨hinv.1.next hstep, hinv.1.next_fault hc hstep⟩
      rintro _ ⟨b, rfl⟩
      exact ⟨tracks_new b, by simp [State.new]⟩
    exact hboth.2
  refine ⟨fun hjoinable => ?_, hfault⟩
  by_contra hd
  have hdelete := (tracks_of_reachable h).delete (.inr (.inr (by simpa using hd)))
  exact (hc hdelete).1 hjoinable

/-- A thread whose `run` returns at once. -/
def quits : Runnable where
  Shared := Unit
  Local := Unit
  Env := Unit
  initial := ()
  entry := ()
  step _ _ _ _ := some (.ret ())
  interrupt := some

/-- The state in which `start` has only its last message left, and the new thread has not
    begun yet. -/
def atLogId (c : Config) : State quits :=
  { State.new quits c false with
    setup_in_progress_ := false, thread_id_ := some c.id, creator := .logId, thread := .storeId }

/-- The state after `atLogId` in which the new thread has come to its end. -/
def atExit (c : Config) : State quits :=
  { atLogId c with
    flags_ := setFlag (clearFlag (clearFlag (setFlag c.flags .started) .stopped) .shouldStop)
      .stopped
    deleted := true
    thread := .exited }

theorem reachable_atLogId (c : Config) : (system quits c).Reachable (atLogId c) := by
  have hinit : (system quits c).Reachable (.new quits c false) := .init ⟨false, rfl⟩
  have hnext (s : State quits) (a : Action quits) (s' : State quits)
      (h : next c s a = some s') : True ∧ (system quits c).step s a s' := ⟨trivial, h⟩
  by_cases hj : Has c.flags .createJoinable
  · refine hinit.foldlM hnext [.start false false, .start false false, .start true false,
      .start false false, .start false false, .start false false] ?_
    simp [next, startStep, State.new, State.access, atLogId, hj]
  · refine hinit.foldlM hnext [.start false false, .start false false, .start true false,
      .start false false, .start false false, .start false false, .start false false] ?_
    simp [next, startStep, State.new, State.access, atLogId, hj]

theorem reachable_atExit (hd : Has c.flags .deleteOnExit) :
    (system quits c).Reachable (atExit c) := by
  refine (reachable_atLogId c).foldlM (fun s a s' h => ⟨trivial, h⟩)
    (List.replicate 14 (.thread ())) ?_
  simp [next, threadStep, atLogId, atExit, State.new, quits, List.replicate, Update.next,
    Update.apply, hd]

/-- The last message of `start`, where it is on, is late for a thread that is quick to
    delete itself. -/
theorem reachable_useAfterFree (hd : Has c.flags .deleteOnExit) (hdebug : c.debug = true) :
    (system quits c).Reachable ((atExit c).die .useAfterFree) := by
  have hlate : next c (atExit c) (.start false true) = some ((atExit c).die .useAfterFree) := by
    simp [next, startStep, State.access, atExit, atLogId, State.new, hdebug]
  exact .step (reachable_atExit hd) trivial hlate

/-- The threads whose object lives as long as it is used, whatever their `run` does: those
    that do not delete themselves, and of the others those that are not joinable and that
    `start` has no last message about. -/
theorem lives_iff_deletable (c : Config) :
    (∀ (R : Runnable) (s : State R), (system R c).Reachable s → Lives c s) ↔ c.Deletable := by
  refine ⟨fun hlives hd => ⟨fun hj => ?_, ?_⟩, fun hc R s h => lives_of_deletable hc h⟩
  · -- a joinable thread that deletes itself
    have h := (hlives quits _ (reachable_atExit hd)).1 hj
    cases h
  · rw [Bool.eq_false_iff]
    intro hdebug
    exact (hlives quits _ (reachable_useAfterFree hd hdebug)).2 rfl

/-- A thread created with both flags deletes itself, and is then to be joined. -/
theorem joinable_deletes_itself :
    ¬ ∀ (c : Config) (R : Runnable) (s : State R), (system R c).Reachable s → Lives c s := by
  intro hlives
  have hexit : (system quits ⟨3#32, 1, false⟩).Reachable (atExit ⟨3#32, 1, false⟩) :=
    reachable_atExit (by decide)
  cases (hlives _ _ _ hexit).1 (by decide)

end Oasys.Thread
