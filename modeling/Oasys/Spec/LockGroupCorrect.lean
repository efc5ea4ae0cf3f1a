import Mathlib.Data.List.Nodup
import Oasys.ForStd.Transition
import Oasys.Thread.LockGroup

/-!
# What lock groups do with their locks

Every lock that is added to a group is to be unlocked once, at the latest when the last group
that it was passed to is destroyed. Three calls break this: `release` and the destructor of a
group some of whose locks are unlocked already, and an assignment to one that has locks to
unlock. Without them it holds throughout a run, and with one of them a run that destroys all
groups in the end shows it.
-/

namespace Oasys

namespace LockGroup

variable {Gid Lock : Type}

/-! ### Who is to unlock a lock -/

/-- The locks that have been added, and the last group that each was passed to. There is none
    when that has been destroyed. -/
structure Passing (Gid Lock : Type) where
  added : List (AcquiredLock Lock)
  holder : AcquiredLock Lock → Option Gid

namespace Passing

def initial : Passing Gid Lock := ⟨[], fun _ => none⟩

end Passing

/-- The groups, and what the calls so far mean. -/
structure Tracked (Gid Lock : Type) where
  state : State Gid Lock
  passing : Passing Gid Lock

namespace Tracked

def initial : Tracked Gid Lock := ⟨.initial, .initial⟩

end Tracked

/-! ### What every call keeps -/

def State.Has (s : State Gid Lock) (g : Gid) (l : AcquiredLock Lock) : Prop :=
  ∃ locks, s.locks_ g = some locks ∧ l ∈ locks

namespace State

variable {s s' : State Gid Lock} {g : Gid} {l : AcquiredLock Lock} {locks : LockVector Lock}

theorem has_iff (h : s.locks_ g = some locks) : s.Has g l ↔ l ∈ locks := by
  constructor
  · rintro ⟨locks', hlocks', hl⟩
    rw [h] at hlocks'
    obtain rfl := Option.some.inj hlocks'
    exact hl
  · intro hl
    exact ⟨locks, h, hl⟩

theorem release_eq (h : s.release g = some s') : ∃ locks, s.locks_ g = some locks ∧
    s' = { s with unlocks := s.unlocks ++ locks } := by
  unfold release at h
  split at h
  · cases h
  · rename_i locks hlocks
    exact ⟨locks, hlocks, (Option.some.inj h).symm⟩

end State

/-- Nothing is in two vectors, or twice in one. -/
structure Tracked.Sound (t : Tracked Gid Lock) : Prop where
  length : t.passing.added.length = t.state.acquisitions
  fresh : ∀ l ∈ t.passing.added, l.acquisition < t.state.acquisitions
  has : ∀ g l, t.state.Has g l → l ∈ t.passing.added
  unlocked : ∀ l ∈ t.state.unlocks, l ∈ t.passing.added
  nodup : ∀ g locks, t.state.locks_ g = some locks → locks.Nodup
  apart : ∀ g g' l, t.state.Has g l → t.state.Has g' l → g = g'
  /-- The group that has a lock to unlock has not been destroyed. -/
  alive : ∀ l ∈ t.passing.added, ∀ g, t.passing.holder l = some g → t.state.locks_ g ≠ none

open State

namespace Tracked

theorem initial_sound : (initial : Tracked Gid Lock).Sound where
  length := rfl
  fresh := nofun
  has := by
    rintro g l ⟨locks, hlocks, -⟩
    cases hlocks
  unlocked := nofun
  nodup := nofun
  apart := by
    rintro g g' l ⟨locks, hlocks, -⟩
    cases hlocks
  alive := nofun

theorem Sound.new {t : Tracked Gid Lock} (ht : t.Sound) (lock : Lock) :
    (⟨lock, t.state.acquisitions⟩ : AcquiredLock Lock) ∉ t.passing.added := by
  intro hmem
  exact absurd (ht.fresh _ hmem) (Nat.lt_irrefl _)

theorem mem_unlocks_release {t t' : Tracked Gid Lock} {g : Gid} {l : AcquiredLock Lock}
    (h : t.state.release g = some t'.state) :
    l ∈ t'.state.unlocks ↔ l ∈ t.state.unlocks ∨ t.state.Has g l := by
  obtain ⟨locks, hlocks, hs⟩ := release_eq h
  rw [hs, has_iff hlocks]
  exact List.mem_append

theorem Sound.release {t t' : Tracked Gid Lock} {g : Gid} (ht : t.Sound)
    (h : t.state.release g = some t'.state) (hp : t'.passing = t.passing) : t'.Sound := by
  have hmem (l : AcquiredLock Lock) := mem_unlocks_release (l := l) h
  obtain ⟨locks, hlocks, hs⟩ := release_eq h
  have hvectors : t'.state.locks_ = t.state.locks_ := by rw [hs]
  have hacq : t'.state.acquisitions = t.state.acquisitions := by rw [hs]
  constructor
  · rw [hp, hacq]
    exact ht.length
  · rw [hp, hacq]
    exact ht.fresh
  · rw [hp]
    simp only [Has, hvectors]
    exact ht.has
  · rw [hp]
    intro l hl
    rcases (hmem l).1 hl with hl | hl
    · exact ht.unlocked l hl
    · exact ht.has g l hl
  · rw [hvectors]
    exact ht.nodup
  · simp only [Has, hvectors]
    exact ht.apart
  · rw [hp, hvectors]
    exact ht.alive

end Tracked

variable [DecidableEq Gid]

/-! ### The vectors after a call -/

namespace State

variable {s s' : State Gid Lock} {g g' other : Gid} {l : AcquiredLock Lock}
  {locks : LockVector Lock}

@[simp] theorem setLocks_self (v : Option (LockVector Lock)) : (s.setLocks g v).locks_ g = v :=
  Function.update_self ..

theorem setLocks_of_ne (v : Option (LockVector Lock)) (h : g' ≠ g) :
    (s.setLocks g v).locks_ g' = s.locks_ g' :=
  Function.update_of_ne h ..

theorem has_setLocks_self (v : Option (LockVector Lock)) :
    (s.setLocks g v).Has g l ↔ ∃ locks, v = some locks ∧ l ∈ locks := by
  rw [Has, setLocks_self]

theorem has_setLocks_of_ne (v : Option (LockVector Lock)) (h : g' ≠ g) :
    (s.setLocks g v).Has g' l ↔ s.Has g' l := by
  rw [Has, setLocks_of_ne v h, Has]

/-! Each call, by what it needs and what it leaves. -/

theorem construct_eq (h : s.construct g = some s') :
    s.locks_ g = none ∧ s' = s.setLocks g (some []) := by
  unfold construct at h
  split at h
  · cases h
  · rename_i hnone
    exact ⟨hnone, (Option.some.inj h).symm⟩

theorem take_eq (h : s.take g other = some s') : ∃ locks, s.locks_ other = some locks ∧
    s' = (s.setLocks g (some locks)).setLocks other (some []) := by
  unfold take at h
  split at h
  · cases h
  · rename_i locks hlocks
    exact ⟨locks, hlocks, (Option.some.inj h).symm⟩

theorem copy_eq (h : s.copy g other = some s') : s.locks_ g = none ∧ s.take g other = some s' := by
  unfold copy at h
  split at h
  · cases h
  · rename_i hnone
    exact ⟨hnone, h⟩

theorem assign_eq (h : s.assign g other = some s') :
    (∃ locks, s.locks_ g = some locks) ∧ s.take g other = some s' := by
  unfold assign at h
  split at h
  · cases h
  · rename_i locks hlocks
    exact ⟨⟨locks, hlocks⟩, h⟩

theorem add_eq {lock : Lock} (h : s.add g lock = some s') : ∃ locks, s.locks_ g = some locks ∧
    s'.locks_ = (s.setLocks g (some (locks ++ [⟨lock, s.acquisitions⟩]))).locks_ ∧
    s'.acquisitions = s.acquisitions + 1 ∧ s'.unlocks = s.unlocks := by
  unfold add at h
  split at h
  · cases h
  · rename_i locks hlocks
    obtain rfl := Option.some.inj h
    exact ⟨locks, hlocks, rfl, rfl, rfl⟩

end State

theorem State.has_take {s s' : State Gid Lock} {g g' other : Gid} {l : AcquiredLock Lock}
    (h : s.take g other = some s') :
    s'.Has g' l ↔ g' ≠ other ∧ (if g' = g then s.Has other l else s.Has g' l) := by
  obtain ⟨locks, hlocks, rfl⟩ := take_eq h
  by_cases hother : g' = other
  · subst hother
    rw [has_setLocks_self]
    simp
  · rw [has_setLocks_of_ne _ hother]
    by_cases hg : g' = g
    · subst hg
      rw [has_setLocks_self, has_iff hlocks]
      simp [hother]
    · rw [has_setLocks_of_ne _ hg]
      simp [hother, hg]

theorem State.nodup_take {s s' : State Gid Lock} {g other : Gid} (h : s.take g other = some s')
    (hnodup : ∀ g locks, s.locks_ g = some locks → locks.Nodup) :
    ∀ g locks, s'.locks_ g = some locks → locks.Nodup := by
  obtain ⟨locks, hlocks, rfl⟩ := take_eq h
  intro g' locks' hlocks'
  by_cases hother : g' = other
  · subst hother
    rw [setLocks_self] at hlocks'
    obtain rfl := Option.some.inj hlocks'
    exact List.nodup_nil
  · rw [setLocks_of_ne _ hother] at hlocks'
    by_cases hg : g' = g
    · subst hg
      rw [setLocks_self] at hlocks'
      obtain rfl := Option.some.inj hlocks'
      exact hnodup other locks hlocks
    · rw [setLocks_of_ne _ hg] at hlocks'
      exact hnodup g' locks' hlocks'

theorem State.alive_take {s s' : State Gid Lock} {g g' other : Gid}
    (h : s.take g other = some s') (hg' : g' = g ∨ g' = other ∨ s.locks_ g' ≠ none) :
    s'.locks_ g' ≠ none := by
  obtain ⟨locks, hlocks, rfl⟩ := take_eq h
  by_cases hother : g' = other
  · subst hother
    simp
  · rw [setLocks_of_ne _ hother]
    by_cases hg : g' = g
    · subst hg
      simp
    · rw [setLocks_of_ne _ hg]
      tauto

theorem State.take_rest {s s' : State Gid Lock} {g other : Gid} (h : s.take g other = some s') :
    s'.acquisitions = s.acquisitions ∧ s'.unlocks = s.unlocks := by
  obtain ⟨locks, hlocks, rfl⟩ := take_eq h
  exact ⟨rfl, rfl⟩

/-- The locks of a group are passed to another one, or to none. -/
def Passing.pass (p : Passing Gid Lock) (other : Gid) (g : Option Gid) : Passing Gid Lock :=
  { p with holder := fun l => if p.holder l = some other then g else p.holder l }

namespace Tracked

variable {t t' : Tracked Gid Lock} {g other : Gid} {l : AcquiredLock Lock}

theorem Sound.take (ht : t.Sound) (h : t.state.take g other = some t'.state)
    (hp : t'.passing = t.passing.pass other (some g)) : t'.Sound := by
  obtain ⟨hacq, hunlocks⟩ := take_rest h
  have hadded : t'.passing.added = t.passing.added := by rw [hp, Passing.pass]
  constructor
  · rw [hadded, hacq]
    exact ht.length
  · rw [hadded, hacq]
    exact ht.fresh
  · intro g' l hl
    rw [hadded]
    obtain ⟨-, hl⟩ := (has_take h).1 hl
    split at hl
    · exact ht.has other l hl
    · exact ht.has g' l hl
  · rw [hadded, hunlocks]
    exact ht.unlocked
  · exact nodup_take h ht.nodup
  · intro g₁ g₂ l h₁ h₂
    obtain ⟨hne₁, h₁⟩ := (has_take h).1 h₁
    obtain ⟨hne₂, h₂⟩ := (has_take h).1 h₂
    split at h₁ <;> split at h₂
    · rename_i hg₁ hg₂
      rw [hg₁, hg₂]
    · exact absurd (ht.apart _ _ l h₁ h₂).symm hne₂
    · exact absurd (ht.apart _ _ l h₁ h₂) hne₁
    · exact ht.apart _ _ l h₁ h₂
  · rw [hadded]
    intro l hl g' hg'
    rw [hp] at hg'
    simp only [Passing.pass] at hg'
    apply alive_take h
    split at hg'
    · exact Or.inl (Option.some.inj hg').symm
    · exact Or.inr (Or.inr (ht.alive l hl g' hg'))

theorem Sound.construct (ht : t.Sound) (h : t.state.construct g = some t'.state)
    (hp : t'.passing = t.passing) : t'.Sound := by
  obtain ⟨hnone, hs⟩ := construct_eq h
  have hhas (g' : Gid) (l : AcquiredLock Lock) : t'.state.Has g' l → t.state.Has g' l := by
    rw [hs]
    by_cases hg : g' = g
    · subst hg
      rw [has_setLocks_self]
      simp
    · rw [has_setLocks_of_ne _ hg]
      exact id
  have hacq : t'.state.acquisitions = t.state.acquisitions := by
    rw [hs]
    rfl
  have hunlocks : t'.state.unlocks = t.state.unlocks := by
    rw [hs]
    rfl
  constructor
  · rw [hp, hacq]
    exact ht.length
  · rw [hp, hacq]
    exact ht.fresh
  · intro g' l hl
    rw [hp]
    exact ht.has g' l (hhas g' l hl)
  · rw [hp, hunlocks]
    exact ht.unlocked
  · intro g' locks hlocks
    rw [hs] at hlocks
    by_cases hg : g' = g
    · subst hg
      rw [setLocks_self] at hlocks
      obtain rfl := Option.some.inj hlocks
      exact List.nodup_nil
    · rw [setLocks_of_ne _ hg] at hlocks
      exact ht.nodup g' locks hlocks
  · intro g₁ g₂ l h₁ h₂
    exact ht.apart g₁ g₂ l (hhas g₁ l h₁) (hhas g₂ l h₂)
  · rw [hp, hs]
    intro l hl g' hg'
    by_cases hg : g' = g
    · subst hg
      simp
    · rw [setLocks_of_ne _ hg]
      exact ht.alive l hl g' hg'

theorem Sound.drop (ht : t.Sound) (hs : t'.state = t.state.setLocks g none)
    (hp : t'.passing = t.passing.pass g none) : t'.Sound := by
  have hhas (g' : Gid) (l : AcquiredLock Lock) : t'.state.Has g' l → t.state.Has g' l := by
    rw [hs]
    by_cases hg : g' = g
    · subst hg
      rw [has_setLocks_self]
      simp
    · rw [has_setLocks_of_ne _ hg]
      exact id
  have hadded : t'.passing.added = t.passing.added := by rw [hp, Passing.pass]
  have hacq : t'.state.acquisitions = t.state.acquisitions := by
    rw [hs]
    rfl
  have hunlocks : t'.state.unlocks = t.state.unlocks := by
    rw [hs]
    rfl
  constructor
  · rw [hadded, hacq]
    exact ht.length
  · rw [hadded, hacq]
    exact ht.fresh
  · intro g' l hl
    rw [hadded]
    exact ht.has g' l (hhas g' l hl)
  · rw [hadded, hunlocks]
    exact ht.unlocked
  · intro g' locks hlocks
    rw [hs] at hlocks
    by_cases hg : g' = g
    · subst hg
      rw [setLocks_self] at hlocks
      cases hlocks
    · rw [setLocks_of_ne _ hg] at hlocks
      exact ht.nodup g' locks hlocks
  · intro g₁ g₂ l h₁ h₂
    exact ht.apart g₁ g₂ l (hhas g₁ l h₁) (hhas g₂ l h₂)
  · rw [hadded, hp, hs]
    intro l hl g' hg'
    simp only [Passing.pass] at hg'
    split at hg'
    · cases hg'
    · rename_i hne
      have hg : g' ≠ g := by
        rintro rfl
        exact hne hg'
      rw [setLocks_of_ne _ hg]
      exact ht.alive l hl g' hg'

theorem has_add {lock : Lock} {g' : Gid} (h : t.state.add g lock = some t'.state) :
    t'.state.Has g' l ↔
      t.state.Has g' l ∨ (g' = g ∧ l = ⟨lock, t.state.acquisitions⟩) := by
  obtain ⟨locks, hlocks, hs, -, -⟩ := add_eq h
  rw [Has, hs]
  by_cases hg : g' = g
  · subst hg
    rw [setLocks_self, has_iff hlocks]
    simp
  · rw [setLocks_of_ne _ hg, Has]
    simp [hg]

end Tracked

/-! ### The calls, and what they mean -/

variable [DecidableEq Lock]

namespace Passing

def give (p : Passing Gid Lock) (g : Gid) (lock : Lock) : Passing Gid Lock where
  added := p.added ++ [⟨lock, p.added.length⟩]
  holder := Function.update p.holder ⟨lock, p.added.length⟩ (some g)

/-- What a call means. -/
def call (p : Passing Gid Lock) : Call Gid Lock → Passing Gid Lock
  | .construct _ => p
  | .copy g other => p.pass other (some g)
  | .add g lock => p.give g lock
  | .release _ => p
  | .assign g other => p.pass other (some g)
  | .destroy g => p.pass g none

end Passing

namespace Tracked

variable {t t' : Tracked Gid Lock} {c : Call Gid Lock} {g other : Gid}
  {l : AcquiredLock Lock}

def call (t : Tracked Gid Lock) (c : Call Gid Lock) : Option (Tracked Gid Lock) :=
  (t.state.call c).map fun s => ⟨s, t.passing.call c⟩

/-- No lock has been unlocked twice, and none that no group has any more was forgotten. -/
def Correct (t : Tracked Gid Lock) : Prop :=
  ∀ l ∈ t.passing.added, t.state.unlocks.count l ≤ 1 ∧
    (t.passing.holder l = none → t.state.unlocks.count l = 1)

theorem call_eq (h : t.call c = some t') :
    t.state.call c = some t'.state ∧ t'.passing = t.passing.call c := by
  obtain ⟨s, hs, rfl⟩ := Option.map_eq_some_iff.1 h
  exact ⟨hs, rfl⟩

theorem Sound.add (ht : t.Sound) {lock : Lock} (h : t.state.add g lock = some t'.state)
    (hp : t'.passing = t.passing.give g lock) : t'.Sound := by
  obtain ⟨locks, hlocks, hs, hacq, hunlocks⟩ := add_eq h
  have hnew := ht.new lock
  have hadded : t'.passing.added = t.passing.added ++ [⟨lock, t.state.acquisitions⟩] := by
    rw [hp, Passing.give, ht.length]
  constructor
  · rw [hadded, hacq, List.length_append, ht.length]
    rfl
  · rw [hadded, hacq]
    intro l hl
    rcases List.mem_append.1 hl with hl | hl
    · exact Nat.lt_succ_of_lt (ht.fresh l hl)
    · rw [List.mem_singleton.1 hl]
      exact Nat.lt_succ_self _
  · intro g' l hl
    rw [hadded]
    rcases (has_add h).1 hl with hl | ⟨-, rfl⟩
    · exact List.mem_append_left _ (ht.has g' l hl)
    · exact List.mem_append_right _ (List.mem_singleton_self _)
  · rw [hadded, hunlocks]
    intro l hl
    exact List.mem_append_left _ (ht.unlocked l hl)
  · intro g' locks' hlocks'
    rw [hs] at hlocks'
    by_cases hg : g' = g
    · subst hg
      rw [setLocks_self] at hlocks'
      obtain rfl := Option.some.inj hlocks'
      have hnot : (⟨lock, t.state.acquisitions⟩ : AcquiredLock Lock) ∉ locks := by
        intro hmem
        exact hnew (ht.has g' _ ⟨locks, hlocks, hmem⟩)
      apply List.nodup_append.2
      refine ⟨ht.nodup g' locks hlocks, List.nodup_singleton _, ?_⟩
      intro l hl l' hl' heq
      rw [heq, List.mem_singleton.1 hl'] at hl
      exact hnot hl
    · rw [setLocks_of_ne _ hg] at hlocks'
      exact ht.nodup g' locks' hlocks'
  · intro g₁ g₂ l h₁ h₂
    rcases (has_add h).1 h₁ with h₁ | ⟨rfl, rfl⟩
    · rcases (has_add h).1 h₂ with h₂ | ⟨rfl, rfl⟩
      · exact ht.apart g₁ g₂ l h₁ h₂
      · exact absurd (ht.has g₁ _ h₁) hnew
    · rcases (has_add h).1 h₂ with h₂ | ⟨rfl, -⟩
      · exact absurd (ht.has g₂ _ h₂) hnew
      · rfl
  · rw [hadded, hp, hs]
    intro l hl g' hg'
    have hkeep (hg' : t.state.locks_ g' ≠ none) :
        (t.state.setLocks g (some (locks ++ [⟨lock, t.state.acquisitions⟩]))).locks_ g'
          ≠ none := by
      by_cases hg : g' = g
      · subst hg
        simp
      · rwa [setLocks_of_ne _ hg]
    rw [Passing.give, ht.length] at hg'
    rcases List.mem_append.1 hl with hl | hl
    · have hne : l ≠ ⟨lock, t.state.acquisitions⟩ := by
        rintro rfl
        exact hnew hl
      simp only [Function.update_of_ne hne] at hg'
      exact hkeep (ht.alive l hl g' hg')
    · rw [List.mem_singleton.1 hl] at hg'
      simp only [Function.update_self] at hg'
      obtain rfl := Option.some.inj hg'
      simp

omit [DecidableEq Lock] in
theorem destroy_release (h : t.state.destroy g = some t'.state) :
    ∃ s, t.state.release g = some s ∧ t'.state = s.setLocks g none := by
  obtain ⟨s, hrelease, hs⟩ := Option.bind_eq_some_iff.1 h
  exact ⟨s, hrelease, (Option.some.inj hs).symm⟩

theorem Sound.call (ht : t.Sound) (h : t.call c = some t') : t'.Sound := by
  obtain ⟨hs, hp⟩ := call_eq h
  cases c with
  | construct g => exact ht.construct hs hp
  | copy g other => exact ht.take (copy_eq hs).2 hp
  | add g lock => exact ht.add hs hp
  | release g => exact ht.release hs hp
  | assign g other => exact ht.take (assign_eq hs).2 hp
  | destroy g =>
    obtain ⟨s, hrelease, hs⟩ := destroy_release hs
    have hmid : Sound ⟨s, t.passing⟩ := ht.release hrelease rfl
    exact hmid.drop hs hp

/-! ### Runs of careful calls -/

/-- `release` and the destructor meet no lock that is unlocked already, and an assignment
    none that is still to be unlocked. -/
def Careful (t : Tracked Gid Lock) : Call Gid Lock → Prop
  | .release g => ∀ l, t.state.Has g l → l ∉ t.state.unlocks
  | .destroy g => ∀ l, t.state.Has g l → l ∉ t.state.unlocks
  | .assign g _ => ∀ l, t.state.Has g l → l ∈ t.state.unlocks
  | _ => True

/-- A lock has been unlocked, or the group that is to do it has it. -/
def Kept (t : Tracked Gid Lock) : Prop :=
  ∀ l ∈ t.passing.added, t.state.unlocks.count l = 1 ∨
    (t.state.unlocks.count l = 0 ∧ ∃ g, t.passing.holder l = some g ∧ t.state.Has g l)

omit [DecidableEq Gid] in
theorem Kept.correct (hkept : t.Kept) : t.Correct := by
  intro l hl
  rcases hkept l hl with hone | ⟨hzero, g, hg, -⟩
  · exact ⟨Nat.le_of_eq hone, fun _ => hone⟩
  · refine ⟨Nat.le_trans (Nat.le_of_eq hzero) (Nat.zero_le 1), ?_⟩
    intro hnone
    rw [hg] at hnone
    cases hnone

theorem Kept.take (hkept : t.Kept) (h : t.state.take g other = some t'.state)
    (hp : t'.passing = t.passing.pass other (some g))
    (hdone : ∀ l, t.state.Has g l → l ∈ t.state.unlocks) : t'.Kept := by
  intro l hl
  obtain ⟨-, hunlocks⟩ := take_rest h
  rw [hp] at hl ⊢
  rw [hunlocks]
  rcases hkept l hl with hone | ⟨hzero, g₁, hg₁, hhas⟩
  · exact Or.inl hone
  · have hne : g₁ ≠ g := by
      rintro rfl
      exact List.count_eq_zero.1 hzero (hdone l hhas)
    refine Or.inr ⟨hzero, ?_⟩
    simp only [Passing.pass]
    by_cases hother : g₁ = other
    · subst hother
      exact ⟨g, if_pos hg₁, (has_take h).2 ⟨hne.symm, by rwa [if_pos rfl]⟩⟩
    · have hpass : ¬ t.passing.holder l = some other := by
        rw [hg₁]
        exact fun heq => hother (Option.some.inj heq)
      exact ⟨g₁, by rw [if_neg hpass, hg₁], (has_take h).2 ⟨hother, by rwa [if_neg hne]⟩⟩

theorem Kept.construct (hkept : t.Kept) (h : t.state.construct g = some t'.state)
    (hp : t'.passing = t.passing) : t'.Kept := by
  obtain ⟨hnone, hs⟩ := construct_eq h
  intro l hl
  rw [hp] at hl ⊢
  rw [hs]
  rcases hkept l hl with hone | ⟨hzero, g₁, hg₁, hhas⟩
  · exact Or.inl hone
  · have hne : g₁ ≠ g := by
      rintro rfl
      obtain ⟨locks, hlocks, -⟩ := hhas
      rw [hnone] at hlocks
      cases hlocks
    exact Or.inr ⟨hzero, g₁, hg₁, (has_setLocks_of_ne _ hne).2 hhas⟩

theorem Kept.add (ht : t.Sound) (hkept : t.Kept) {lock : Lock}
    (h : t.state.add g lock = some t'.state) (hp : t'.passing = t.passing.give g lock) :
    t'.Kept := by
  have hnew := ht.new lock
  obtain ⟨-, -, -, -, hunlocks⟩ := add_eq h
  intro l hl
  rw [hp, Passing.give, ht.length] at hl
  rw [hp, Passing.give, ht.length, hunlocks]
  rcases List.mem_append.1 hl with hl | hl
  · have hne : l ≠ ⟨lock, t.state.acquisitions⟩ := by
      rintro rfl
      exact hnew hl
    rcases hkept l hl with hone | ⟨hzero, g₁, hg₁, hhas⟩
    · exact Or.inl hone
    · refine Or.inr ⟨hzero, g₁, ?_, (has_add h).2 (Or.inl hhas)⟩
      simpa only [Function.update_of_ne hne] using hg₁
  · obtain rfl := List.mem_singleton.1 hl
    refine Or.inr ⟨?_, g, ?_, (has_add h).2 (Or.inr ⟨rfl, rfl⟩)⟩
    · apply List.count_eq_zero.2
      intro hmem
      exact hnew (ht.unlocked _ hmem)
    · exact Function.update_self ..

omit [DecidableEq Gid] in
theorem Kept.release (ht : t.Sound) (hkept : t.Kept) (h : t.state.release g = some t'.state)
    (hp : t'.passing = t.passing) (hsafe : ∀ l, t.state.Has g l → l ∉ t.state.unlocks) :
    t'.Kept := by
  obtain ⟨locks, hlocks, hs⟩ := release_eq h
  have hnodup := ht.nodup g locks hlocks
  intro l hl
  rw [hp] at hl ⊢
  rw [hs]
  by_cases hmem : l ∈ locks
  · have hzero := List.count_eq_zero.2 (hsafe l ((has_iff hlocks).2 hmem))
    left
    rw [List.count_append, hzero, List.count_eq_one_of_mem hnodup hmem]
  · have hzero := List.count_eq_zero.2 hmem
    simp only [List.count_append, hzero, Nat.add_zero]
    exact hkept l hl

theorem Kept.drop (hkept : t.Kept) (hs : t'.state = t.state.setLocks g none)
    (hp : t'.passing = t.passing.pass g none)
    (hdone : ∀ l, t.state.Has g l → l ∈ t.state.unlocks) : t'.Kept := by
  intro l hl
  rw [hp] at hl ⊢
  rw [hs]
  rcases hkept l hl with hone | ⟨hzero, g₁, hg₁, hhas⟩
  · exact Or.inl hone
  · have hne : g₁ ≠ g := by
      rintro rfl
      exact List.count_eq_zero.1 hzero (hdone l hhas)
    have hpass : ¬ t.passing.holder l = some g := by
      rw [hg₁]
      exact fun heq => hne (Option.some.inj heq)
    refine Or.inr ⟨hzero, g₁, ?_, (has_setLocks_of_ne _ hne).2 hhas⟩
    rw [Passing.pass]
    exact (if_neg hpass).trans hg₁

theorem Kept.call (ht : t.Sound) (hkept : t.Kept) (hcareful : t.Careful c)
    (h : t.call c = some t') : t'.Kept := by
  obtain ⟨hs, hp⟩ := call_eq h
  cases c with
  | construct g => exact hkept.construct hs hp
  | copy g other =>
    obtain ⟨hnone, htake⟩ := copy_eq hs
    apply hkept.take htake hp
    rintro l ⟨locks, hlocks, -⟩
    rw [hnone] at hlocks
    cases hlocks
  | add g lock => exact hkept.add ht hs hp
  | release g => exact hkept.release ht hs hp hcareful
  | assign g other => exact hkept.take (assign_eq hs).2 hp hcareful
  | destroy g =>
    obtain ⟨s, hrelease, hs⟩ := destroy_release hs
    let t₁ : Tracked Gid Lock := ⟨s, t.passing⟩
    have hmid : t₁.Kept := hkept.release ht hrelease rfl hcareful
    have hrelease' : t.state.release g = some t₁.state := hrelease
    apply hmid.drop hs hp
    intro l hl
    obtain ⟨locks, hlocks, hs₁⟩ := release_eq hrelease'
    apply (mem_unlocks_release hrelease').2
    rw [hs₁] at hl
    exact Or.inr hl

/-! ### Runs that are correct -/

/-- Nobody is to unlock a lock any more, and it is locked. -/
def Lost (t : Tracked Gid Lock) (l : AcquiredLock Lock) : Prop :=
  l ∈ t.passing.added ∧ l ∉ t.state.unlocks ∧ ∀ g, ¬ t.state.Has g l

omit [DecidableEq Gid] [DecidableEq Lock] in
theorem Lost.release (hlost : t.Lost l) (h : t.state.release g = some t'.state)
    (hp : t'.passing = t.passing) : t'.Lost l := by
  obtain ⟨hadded, hunlocks, hhas⟩ := hlost
  have hmem := mem_unlocks_release (l := l) h
  obtain ⟨locks, hlocks, hs⟩ := release_eq h
  refine ⟨by rwa [hp], ?_, ?_⟩
  · rw [hmem]
    rintro (hl | hl)
    · exact hunlocks hl
    · exact hhas g hl
  · rw [hs]
    exact hhas

theorem Lost.call (ht : t.Sound) (hlost : t.Lost l) (h : t.call c = some t') : t'.Lost l := by
  obtain ⟨hs, hp⟩ := call_eq h
  have hkeep (hadded : t'.passing.added = t.passing.added)
      (hunlocks : t'.state.unlocks = t.state.unlocks)
      (hhas : ∀ g, t'.state.Has g l → ∃ g, t.state.Has g l) : t'.Lost l := by
    refine ⟨hadded ▸ hlost.1, hunlocks ▸ hlost.2.1, ?_⟩
    intro g hg
    obtain ⟨g', hg'⟩ := hhas g hg
    exact hlost.2.2 g' hg'
  have htake (g other : Gid) (h : t.state.take g other = some t'.state)
      (hp : t'.passing = t.passing.pass other (some g)) : t'.Lost l := by
    apply hkeep
    · rw [hp, Passing.pass]
    · exact (take_rest h).2
    · intro g' hg'
      obtain ⟨-, hhas⟩ := (has_take h).1 hg'
      split at hhas
      · exact ⟨_, hhas⟩
      · exact ⟨_, hhas⟩
  cases c with
  | construct g =>
    obtain ⟨-, hs⟩ := construct_eq hs
    apply hkeep
    · rw [hp, Passing.call]
    · rw [hs]
      rfl
    · intro g' hg'
      rw [hs] at hg'
      by_cases hg : g' = g
      · subst hg
        simp [has_setLocks_self] at hg'
      · exact ⟨g', (has_setLocks_of_ne _ hg).1 hg'⟩
  | copy g other => exact htake g other (copy_eq hs).2 hp
  | assign g other => exact htake g other (assign_eq hs).2 hp
  | add g lock =>
    obtain ⟨-, -, -, -, hunlocks⟩ := add_eq hs
    refine ⟨?_, by rw [hunlocks]; exact hlost.2.1, ?_⟩
    · rw [hp]
      exact List.mem_append_left _ hlost.1
    · intro g' hg'
      rcases (has_add hs).1 hg' with hhas | ⟨-, rfl⟩
      · exact hlost.2.2 g' hhas
      · exact ht.new lock hlost.1
  | release g => exact hlost.release hs hp
  | destroy g =>
    obtain ⟨s, hrelease, hs⟩ := destroy_release hs
    let t₁ : Tracked Gid Lock := ⟨s, t.passing⟩
    have hrelease' : t.state.release g = some t₁.state := hrelease
    obtain ⟨hadded, hunlocks, hhas⟩ := hlost.release hrelease' rfl
    refine ⟨by rw [hp]; exact hadded, by rw [hs]; exact hunlocks, ?_⟩
    intro g' hg'
    rw [hs] at hg'
    by_cases hg : g' = g
    · subst hg
      simp [has_setLocks_self] at hg'
    · exact hhas g' ((has_setLocks_of_ne _ hg).1 hg')

omit [DecidableEq Gid] in
theorem two_le_count (h : t.state.release g = some t'.state) (hhas : t.state.Has g l)
    (hdone : l ∈ t.state.unlocks) : 2 ≤ t'.state.unlocks.count l := by
  obtain ⟨locks, hlocks, hs⟩ := release_eq h
  rw [hs, List.count_append]
  have h₁ : 0 < t.state.unlocks.count l := List.count_pos_iff.2 hdone
  have h₂ : 0 < locks.count l := List.count_pos_iff.2 ((has_iff hlocks).1 hhas)
  omega

omit [DecidableEq Lock] in
theorem lost_of_take (ht : t.Sound) (h : t.state.take g other = some t'.state)
    (hp : t'.passing = t.passing.pass other (some g)) (hhas : t.state.Has g l)
    (hlocked : l ∉ t.state.unlocks) : t'.Lost l := by
  refine ⟨?_, ?_, ?_⟩
  · rw [hp]
    exact ht.has g l hhas
  · rwa [(take_rest h).2]
  · intro g' hg'
    obtain ⟨hne, hg'⟩ := (has_take h).1 hg'
    split at hg'
    · rename_i heq
      exact hne (heq.trans (ht.apart _ _ l hhas hg'))
    · rename_i hne'
      exact hne' (ht.apart _ _ l hg' hhas)

omit [DecidableEq Gid] in
theorem Lost.not_correct (ht : t.Sound) (hlost : t.Lost l)
    (hgone : ∀ g, t.state.locks_ g = none) : ¬ t.Correct := by
  intro hcorrect
  have hnone : t.passing.holder l = none := by
    cases hholder : t.passing.holder l with
    | none => rfl
    | some g => exact absurd (hgone g) (ht.alive l hlost.1 g hholder)
  have hone := (hcorrect l hlost.1).2 hnone
  rw [List.count_eq_zero.2 hlost.2.1] at hone
  cases hone

open Stepping

theorem throughout_correct {cs : List (Call Gid Lock)} (ht : t.Sound) (hkept : t.Kept)
    (h : Along call Careful t cs) : Throughout call Correct t cs := by
  have hinv := Along.throughout (P := fun t => t.Sound ∧ t.Kept)
    (fun t c t' ht hc hstep => ⟨ht.1.call hstep, ht.2.call ht.1 hc hstep⟩) ⟨ht, hkept⟩ h
  exact hinv.mono fun t ht => ht.2.correct

/-- A call that is not careful shows in the next state, or in the last one. -/
theorem along_careful {cs : List (Call Gid Lock)} (ht : t.Sound)
    (h : Throughout call Correct t cs) (hrun : cs.foldlM call t = some t')
    (hgone : ∀ g, t'.state.locks_ g = none) : Along call Careful t cs := by
  induction cs generalizing t with
  | nil => trivial
  | cons c cs ih =>
    rw [List.foldlM_cons] at hrun
    obtain ⟨t₁, hstep, hrest⟩ := Option.bind_eq_some_iff.1 hrun
    have htail := h.tail hstep
    have ht₁ := ht.call hstep
    obtain ⟨hs, hp⟩ := call_eq hstep
    have htwice (g : Gid) (s : State Gid Lock) (hrelease : t.state.release g = some s)
        (hunlocks : t₁.state.unlocks = s.unlocks) (hadded : t₁.passing.added = t.passing.added) :
        ∀ l, t.state.Has g l → l ∉ t.state.unlocks := by
      intro l hhas hdone
      let t₂ : Tracked Gid Lock := ⟨s, t.passing⟩
      have hrelease' : t.state.release g = some t₂.state := hrelease
      have htwo := two_le_count hrelease' hhas hdone
      have hone := (htail.head l (hadded ▸ ht.has g l hhas)).1
      rw [hunlocks] at hone
      exact absurd htwo (Nat.not_le_of_lt (Nat.lt_succ_of_le hone))
    constructor
    · cases c with
      | construct g => trivial
      | copy g other => trivial
      | add g lock => trivial
      | release g => exact htwice g t₁.state hs rfl (by rw [hp, Passing.call])
      | destroy g =>
        obtain ⟨s, hrelease, hs⟩ := destroy_release hs
        exact htwice g s hrelease (by rw [hs]; rfl) (by rw [hp]; rfl)
      | assign g other =>
        intro l hhas
        by_contra hlocked
        have hlost := lost_of_take ht (assign_eq hs).2 hp hhas hlocked
        obtain ⟨hsound, hlost⟩ := foldlM_invariant
          (P := fun t : Tracked Gid Lock => t.Sound ∧ t.Lost l)
          (fun t c t' ht hstep => ⟨ht.1.call hstep, ht.2.call ht.1 hstep⟩) ⟨ht₁, hlost⟩ hrest
        exact hlost.not_correct hsound hgone (htail.last hrest)
    · intro t₂ hstep'
      rw [hstep] at hstep'
      obtain rfl := Option.some.inj hstep'
      exact ih ht₁ htail hrest

omit [DecidableEq Gid] in
theorem initial_kept : (initial : Tracked Gid Lock).Kept := nofun

/-- Careful calls unlock every lock once, and when all groups are destroyed in the end, no
    other calls do. -/
theorem correct_iff_careful (cs : List (Call Gid Lock)) (t : Tracked Gid Lock)
    (hrun : cs.foldlM call initial = some t) :
    (Along call Careful initial cs → Throughout call Correct initial cs) ∧
      ((∀ g, t.state.locks_ g = none) →
        (Throughout call Correct initial cs ↔ Along call Careful initial cs)) := by
  constructor
  · exact throughout_correct initial_sound initial_kept
  · intro hgone
    constructor
    · intro h
      exact along_careful initial_sound h hrun hgone
    · exact throughout_correct initial_sound initial_kept

/-- A group with a lock that is passed to another group. -/
theorem correct_passed : Throughout call Correct (initial : Tracked Nat Nat)
    [.construct 0, .add 0 7, .copy 1 0, .destroy 0, .destroy 1] := by
  apply (correct_iff_careful _ _ rfl).1
  refine .cons trivial rfl (.cons trivial rfl (.cons trivial rfl (.cons ?_ rfl (.cons ?_ rfl ?_))))
  · exact fun _ _ => List.not_mem_nil
  · exact fun _ _ => List.not_mem_nil
  · trivial

/-- A group that is released and destroyed. -/
theorem not_correct_released : ¬ ∀ (cs : List (Call Nat Nat)) (t : Tracked Nat Nat),
    cs.foldlM call initial = some t → Throughout call Correct initial cs := by
  intro h
  have hall := h [.construct 0, .add 0 7, .release 0, .destroy 0] _ rfl
  have hcorrect := hall.last rfl ⟨7, 0⟩ (List.mem_singleton_self _)
  exact absurd hcorrect.1 (by decide)

end Tracked

end LockGroup

end Oasys
