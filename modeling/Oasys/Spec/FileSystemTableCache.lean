import Oasys.ForStd.AssocList
import Oasys.Spec.LRUListCorrect
import Oasys.Storage.FileSystemTable

/-!
# FileSystemTable: the descriptors

What the cache of a table has to do with the files. Between the calls of a client the cache
is at rest: no descriptor in it is pinned, and each stands for the file that the directory
gives to the name it is cached under (`Cached`, `Idle`). In a call, one descriptor is held,
and is the one that is pinned if there is a cache (`Held`). A table without a cache meets
the same descriptions.
-/

namespace Oasys.FileSystemTable

open FileSystem (Opened Touches Linkless)
open LRUList (Iterator)

/-! ### What the cache promises -/

/-- The cache keeps descriptors of files that are there, each under the name of its file,
    and `pinned` is the name of the only one that is pinned, once. -/
structure Cached (fs : FileSystem Path) (c : OpenFdCache Path) (pinned : Option Path) : Prop where
  indexed : c.open_fds_.Indexed FdListEnt.key_ c.open_fds_map_
  pins : ∀ n ∈ c.open_fds_.nodes, n.2.pin_count_ = if pinned = some n.2.key_ then 1 else 0
  fits : c.open_fds_.nodes.length ≤ max 1 c.max_
  opened : ∀ n ∈ c.open_fds_.nodes, ∃ i fd : Nat, fs.dir.lookup n.2.key_ = some i ∧
    n.2.fd_ = fd ∧ Opened fs fd i
  /-- What it has closed is closed. -/
  closed : c.closed = []

/-- Between two calls. -/
structure Idle (s : State) : Prop where
  links : Linkless s.fs
  cached : ∀ c, s.cache_ = some c → Cached s.fs c none

/-- In a call that holds the descriptor `fd` of the file `name`, the inode `i`. -/
structure Held (s : State) (name : Path) (fd i : Nat) : Prop where
  links : Linkless s.fs
  file : s.fs.dir.lookup name = some i
  opened : Opened s.fs fd i
  cached : ∀ c, s.cache_ = some c → Cached s.fs c (some name) ∧
    ∃ it, (it, FdListEnt.mk name (fd : Int) 1) ∈ c.open_fds_.nodes

/-- Where the descriptor of `name` comes new into a full cache, the one that makes room is
    one that `evict` expects to see. -/
def Evictable (s : State) (name : Path) : Prop :=
  ∀ c, s.cache_ = some c → c.open_fds_map_.lookup name = none →
    c.max_ < c.open_fds_map_.entries.length + 1 →
      ∀ n, c.open_fds_.nodes.head? = some n → n.2.fd_ < OpenFdCache.fdLimit

/-- There is no cache, or nothing under the name in it. -/
def Uncached (s : State) (name : Path) : Prop :=
  ∀ c, s.cache_ = some c → c.open_fds_map_.lookup name = none

instance (s : State) (name : Path) : Decidable (Evictable s name) :=
  inferInstanceAs (Decidable (∀ c, c ∈ s.cache_ → c.open_fds_map_.lookup name = none →
    c.max_ < c.open_fds_map_.entries.length + 1 →
      ∀ n, n ∈ c.open_fds_.nodes.head? → n.2.fd_ < OpenFdCache.fdLimit))

instance (s : State) (name : Path) : Decidable (Uncached s name) :=
  inferInstanceAs (Decidable (∀ c, c ∈ s.cache_ → c.open_fds_map_.lookup name = none))

section Cache

variable {fs fs' : FileSystem Path} {c c' : OpenFdCache Path} {pinned : Option Path}
  {name : Path} {it : Iterator} {ent : FdListEnt Path} {fd i : Nat}

theorem Cached.mono (h : Cached fs c pinned)
    (hdir : ∀ n ∈ c.open_fds_.nodes, fs'.dir.lookup n.2.key_ = fs.dir.lookup n.2.key_)
    (hopened : ∀ n ∈ c.open_fds_.nodes, ∀ i fd : Nat, fs.dir.lookup n.2.key_ = some i →
      n.2.fd_ = fd → Opened fs fd i → Opened fs' fd i) : Cached fs' c pinned where
  indexed := h.indexed
  pins := h.pins
  fits := h.fits
  opened n hn := by
    obtain ⟨i, fd, hname, hfd, ho⟩ := h.opened n hn
    exact ⟨i, fd, (hdir n hn).trans hname, hfd, hopened n hn i fd hname hfd ho⟩
  closed := h.closed

theorem Cached.lookup_none (h : Cached fs c pinned) (hname : fs.dir.lookup name = none) :
    c.open_fds_map_.lookup name = none := by
  cases hlookup : c.open_fds_map_.lookup name with
  | none => rfl
  | some it =>
    obtain ⟨ent, hmem, hkey⟩ := h.indexed.node hlookup
    obtain ⟨i, fd, hfile, -⟩ := h.opened _ hmem
    rw [show ent.key_ = name from hkey, hname] at hfile
    cases hfile

/-- The pin count of an entry changes, and with it the name that is pinned. -/
theorem Cached.repin (h : Cached fs c pinned) (hmem : (it, ent) ∈ c.open_fds_.nodes)
    (pinned' : Option Path) (d : Int)
    (hd : ent.pin_count_ + d = if pinned' = some ent.key_ then 1 else 0)
    (hothers : ∀ key, key ≠ ent.key_ → (pinned' = some key ↔ pinned = some key)) :
    ∃ c', c.addPins it d = .ok (ent.fd_, c') ∧ Cached fs c' pinned' ∧
      (it, FdListEnt.mk ent.key_ ent.fd_ (ent.pin_count_ + d)) ∈ c'.open_fds_.nodes := by
  -- no more than one pin, so the count stays in the range of `int`
  have hrange : IntType.int.InRange (ent.pin_count_ + d) := by
    rw [hd]
    split <;> decide
  refine ⟨{ c with open_fds_ :=
      c.open_fds_.set it { ent with pin_count_ := ent.pin_count_ + d } }, ?_, ?_, ?_⟩
  · unfold OpenFdCache.addPins
    rw [LRUList.deref_eq_some.2 hmem]
    exact if_pos hrange
  · refine ⟨h.indexed.set hmem rfl, ?_, ?_, ?_, h.closed⟩
    · intro n hn
      cases LRUList.mem_set.1 hn with
      | inl hother =>
        -- another node carries another key
        have hne : n.2.key_ ≠ ent.key_ := by
          intro hkey
          have hit := h.indexed.lookup hother.1
          rw [hkey, h.indexed.lookup hmem] at hit
          exact hother.2 (Option.some.inj hit).symm
        rw [h.pins n hother.1]
        simp only [hothers _ hne]
      | inr hset =>
        rw [hset.1]
        exact hd
    · show (c.open_fds_.set it _).nodes.length ≤ _
      rw [LRUList.set, List.length_map]
      exact h.fits
    · intro n hn
      cases LRUList.mem_set.1 hn with
      | inl hother => exact h.opened n hother.1
      | inr hset =>
        rw [hset.1]
        exact h.opened (it, ent) hmem
  · exact LRUList.mem_set.2 (.inr ⟨rfl, ent, hmem⟩)

theorem Cached.moveToBack (h : Cached fs c pinned) (it : Iterator) :
    Cached fs { c with open_fds_ := c.open_fds_.moveToBack it } pinned where
  indexed := h.indexed.moveToBack it
  pins n hn := h.pins n (LRUList.mem_moveToBack.1 hn)
  fits := by
    show (c.open_fds_.moveToBack it).nodes.length ≤ _
    rw [(LRUList.perm_moveToBack _ it).length_eq]
    exact h.fits
  opened n hn := h.opened n (LRUList.mem_moveToBack.1 hn)
  closed := h.closed

private theorem assert_fd (fd : Nat) : assert ((fd : Int) ≠ -1) = .ok () := by
  rw [decide_eq_true (by omega)]
  rfl

theorem Cached.getAndPin (h : Cached fs c none) (hname : fs.dir.lookup name = some i)
    (hit : c.open_fds_map_.lookup name = some it) :
    ∃ (fd : Nat) (c' : OpenFdCache Path), c.getAndPin name = .ok ((fd : Int), c') ∧
      Opened fs fd i ∧ Cached fs c' (some name) ∧
      ∃ it, (it, FdListEnt.mk name (fd : Int) 1) ∈ c'.open_fds_.nodes := by
  obtain ⟨ent, hmem, rfl⟩ := h.indexed.node hit
  obtain ⟨j, fd, hfile, hfd, hopened⟩ := h.opened _ hmem
  obtain rfl := Option.some.inj (hname.symm.trans hfile)
  have hzero : ent.pin_count_ = 0 := h.pins _ hmem
  obtain ⟨c', hadd, hcached, hnode⟩ := (h.moveToBack it).repin (LRUList.mem_moveToBack.2 hmem)
    (some ent.key_) 1 (by simp [hzero]) (fun key hkey => by simp [hkey.symm])
  rw [show ent.fd_ = fd from hfd, hzero] at hnode
  rw [show ent.fd_ = fd from hfd] at hadd
  refine ⟨fd, c', ?_, hopened, hcached, it, hnode⟩
  unfold OpenFdCache.getAndPin
  rw [hit]
  simp only [hadd, bind, Except.bind, assert_fd, pure, Except.pure]

theorem Cached.unpin (h : Cached fs c (some name))
    (hmem : (it, FdListEnt.mk name (fd : Int) 1) ∈ c.open_fds_.nodes) :
    ∃ c', c.unpin name = .ok c' ∧ Cached fs c' none := by
  obtain ⟨c', hadd, hcached, -⟩ := h.repin hmem none (-1) (by simp)
    (fun key hkey => by simpa using hkey.symm)
  refine ⟨c', ?_, hcached⟩
  unfold OpenFdCache.unpin
  rw [show c.open_fds_map_.lookup name = some it from h.indexed.lookup hmem]
  simp only [hadd, Functor.map, Except.map]

/-! ### An eviction -/

private theorem makeRoom_done {fuel : Nat}
    (h : c.open_fds_map_.entries.length + 1 ≤ c.max_ ∨ c.open_fds_.nodes = []) :
    OpenFdCache.makeRoom (fuel + 1) c = .ok c := by
  unfold OpenFdCache.makeRoom
  split
  · rename_i hover
    -- over the limit there is nothing to evict
    have hnil : c.open_fds_.nodes = [] := by
      cases h with
      | inl hroom => omega
      | inr hnil => exact hnil
    have hevict : c.evict = .ok none := by
      unfold OpenFdCache.evict
      rw [hnil]
      rfl
    rw [hevict]
    rfl
  · rfl

/-- `put_and_pin`: the loop takes out one entry at most, the first one. -/
theorem Cached.makeRoom (h : Cached fs c none)
    (hlow : c.max_ < c.open_fds_map_.entries.length + 1 → ∀ n,
      c.open_fds_.nodes.head? = some n → n.2.fd_ < OpenFdCache.fdLimit) :
    ∃ kept, OpenFdCache.makeRoom (c.open_fds_.nodes.length + 1) c = .ok kept ∧
      kept.open_fds_.nodes.length + 1 ≤ max 1 kept.max_ ∧
      (kept = c ∧ (c.open_fds_map_.entries.length + 1 ≤ c.max_ ∨ c.open_fds_.nodes = []) ∨
        ∃ it ent, c.open_fds_.nodes.head? = some (it, ent) ∧
          c.max_ < c.open_fds_map_.entries.length + 1 ∧ kept = c.remove it ent) := by
  have hlength := h.indexed.length
  -- the list never holds more than `max_` entries, or one where `max_` is zero
  have hfits := h.fits
  by_cases hroom : c.open_fds_map_.entries.length + 1 ≤ c.max_
  · exact ⟨c, makeRoom_done (.inl hroom), by omega, .inl ⟨rfl, .inl hroom⟩⟩
  match hnodes : c.open_fds_.nodes with
  | [] => exact ⟨c, makeRoom_done (.inr hnodes), by simp [hnodes], .inl ⟨rfl, .inr rfl⟩⟩
  | (it, ent) :: rest =>
    have hmem : (it, ent) ∈ c.open_fds_.nodes := by simp [hnodes]
    have hevict : c.evict = .ok (some (c.remove it ent)) := by
      have hfree : ent.pin_count_ = 0 := h.pins _ hmem
      have hfd : assert (ent.fd_ < OpenFdCache.fdLimit) = .ok () := by
        rw [decide_eq_true (hlow (by omega) (it, ent) (by simp [hnodes]))]
        rfl
      unfold OpenFdCache.evict
      simp only [hnodes, List.find?_cons, hfree, decide_true, hfd, bind, Except.bind, pure,
        Except.pure]
    -- one entry less, and no more are taken out
    have hremoved := h.indexed.erase hmem
    have hperm := (LRUList.perm_erase hmem).length_eq
    rw [List.length_cons] at hperm
    have hmap : (c.remove it ent).open_fds_map_.entries.length =
        (c.remove it ent).open_fds_.nodes.length := hremoved.length
    have hless : (c.remove it ent).open_fds_.nodes.length + 1 = c.open_fds_.nodes.length :=
      hperm.symm
    have hmax : (c.remove it ent).max_ = c.max_ := rfl
    have hdone : (c.remove it ent).open_fds_map_.entries.length + 1 ≤ (c.remove it ent).max_ ∨
        (c.remove it ent).open_fds_.nodes = [] := by
      rcases Nat.eq_zero_or_pos c.max_ with hzero | hpos
      · exact .inr (List.length_eq_zero_iff.1 (by omega))
      · exact .inl (by omega)
    refine ⟨c.remove it ent, ?_, by omega, .inr ⟨it, ent, by simp, by omega, rfl⟩⟩
    rw [List.length_cons]
    unfold OpenFdCache.makeRoom
    rw [if_pos (by omega), hevict]
    exact makeRoom_done hdone

theorem Cached.remove (h : Cached fs c none) (hlinks : Linkless fs)
    (hmem : (it, ent) ∈ c.open_fds_.nodes) :
    Cached (fs.close ent.fd_.toNat) { c.remove it ent with closed := [] } none where
  indexed := h.indexed.erase hmem
  pins n hn := h.pins n (LRUList.mem_erase.1 hn).1
  fits := by
    have hperm := (LRUList.perm_erase hmem).length_eq
    rw [List.length_cons] at hperm
    have hfits := h.fits
    show (c.open_fds_.erase it).nodes.length ≤ max 1 c.max_
    omega
  opened n hn := by
    obtain ⟨hn, hne⟩ := LRUList.mem_erase.1 hn
    obtain ⟨i, fd, hfile, hfd, hopened⟩ := h.opened n hn
    obtain ⟨j, fd', hfile', hfd', hopened'⟩ := h.opened _ hmem
    refine ⟨i, fd, hfile, hfd, hopened.close ?_⟩
    rw [hfd', Int.toNat_natCast]
    -- another entry is another file, and so another descriptor
    refine hopened.ne hopened' ?_
    rintro rfl
    have hkey := hlinks _ _ _ hfile hfile'
    have hit := h.indexed.lookup hn
    rw [hkey, h.indexed.lookup hmem] at hit
    exact hne (Option.some.inj hit).symm
  closed := rfl

theorem Cached.append (h : Cached fs c none) (hnew : c.open_fds_map_.lookup name = none)
    (hroom : c.open_fds_.nodes.length + 1 ≤ max 1 c.max_) (hname : fs.dir.lookup name = some i)
    (hopened : Opened fs fd i) : Cached fs (c.append name fd) (some name) ∧
      ∃ it, (it, FdListEnt.mk name (fd : Int) 1) ∈ (c.append name fd).open_fds_.nodes := by
  refine ⟨⟨h.indexed.pushBack { key_ := name, fd_ := fd, pin_count_ := 1 } hnew, ?_, ?_, ?_,
    h.closed⟩, c.open_fds_.next, LRUList.mem_pushBack.2 (.inr rfl)⟩
  · intro n hn
    cases LRUList.mem_pushBack.1 hn with
    | inl hold =>
      have hne : name ≠ n.2.key_ := (h.indexed.key_ne hnew hold).symm
      rw [h.pins n hold]
      simp [hne]
    | inr hlast =>
      rw [hlast]
      simp
  · show (c.open_fds_.pushBack _).nodes.length ≤ max 1 c.max_
    rw [LRUList.pushBack, List.length_append, List.length_singleton]
    exact hroom
  · intro n hn
    cases LRUList.mem_pushBack.1 hn with
    | inl hold => exact h.opened n hold
    | inr hlast =>
      rw [hlast]
      exact ⟨i, fd, hname, rfl, hopened⟩

private theorem closeFds_nil (fs : FileSystem Path) (h : c.closed = []) :
    State.closeFds fs c = ⟨fs, some c⟩ := by
  cases c
  cases h
  rfl

private theorem closeFds_one (fs : FileSystem Path) {fd : Int} (h : c.closed = [(it, fd)]) :
    State.closeFds fs c = ⟨fs.close fd.toNat, some { c with closed := [] }⟩ := by
  unfold State.closeFds
  rw [h]
  rfl

/-- `put_and_pin` of a name that is new, and the closing of what it has closed: the entry
    that makes room is another file's, so that the new descriptor stays open. -/
theorem Cached.putAndPin (h : Cached fs c none) (hlinks : Linkless fs)
    (hnew : c.open_fds_map_.lookup name = none) (hname : fs.dir.lookup name = some i)
    (hfile : fs.files fd = some ⟨i, 0⟩)
    (hlow : c.max_ < c.open_fds_map_.entries.length + 1 → ∀ n,
      c.open_fds_.nodes.head? = some n → n.2.fd_ < OpenFdCache.fdLimit) :
    ∃ c' fs' c'', c.putAndPin name fd = .ok ((fd : Int), c') ∧
      State.closeFds fs c' = ⟨fs', some c''⟩ ∧ Cached fs' c'' (some name) ∧
      (∃ it, (it, FdListEnt.mk name (fd : Int) 1) ∈ c''.open_fds_.nodes) ∧
      fs'.dir = fs.dir ∧ fs'.data = fs.data ∧ fs'.files fd = some ⟨i, 0⟩ := by
  obtain ⟨kept, hloop, hroom, hkept⟩ := h.makeRoom hlow
  have hput : c.putAndPin name fd = .ok ((fd : Int), kept.append name fd) := by
    unfold OpenFdCache.putAndPin
    simp only [assert_fd, hnew, hloop, bind, Except.bind, pure, Except.pure]
  have hopened : Opened fs fd i := ⟨0, hfile⟩
  cases hkept with
  | inl hsame =>
    -- there was room
    obtain ⟨rfl, -⟩ := hsame
    have hnothing := closeFds_nil fs (show (kept.append name fd).closed = [] from h.closed)
    have hnode := h.append hnew hroom hname hopened
    exact ⟨_, fs, _, hput, hnothing, hnode.1, hnode.2, rfl, rfl, hfile⟩
  | inr hremoved =>
    -- one entry has gone, whose descriptor is closed behind the back of the cache
    obtain ⟨it, ent, hhead, -, rfl⟩ := hremoved
    have hmem := List.mem_of_mem_head? hhead
    obtain ⟨j, fd', hfile', hfd', hopened'⟩ := h.opened _ hmem
    have hne : fd ≠ ent.fd_.toNat := by
      rw [hfd', Int.toNat_natCast]
      apply hopened.ne hopened'
      rintro rfl
      -- the entry would be the one of the name
      have hkey := hlinks _ _ _ hname hfile'
      exact h.indexed.key_ne hnew hmem hkey.symm
    have hclose : State.closeFds fs ((c.remove it ent).append name fd) =
        ⟨fs.close ent.fd_.toNat,
          some (OpenFdCache.append { c.remove it ent with closed := [] } name fd)⟩ :=
      closeFds_one fs (congrArg (List.cons (it, ent.fd_)) h.closed)
    have hnone : (c.remove it ent).open_fds_map_.lookup name = none :=
      AList.lookup_erase_eq_none hnew ent.key_
    have hnode := (h.remove hlinks hmem).append hnone hroom hname (hopened.close hne)
    exact ⟨_, _, _, hput, hclose, hnode.1, hnode.2, rfl, rfl,
      (Function.update_of_ne hne _ _).trans hfile⟩

theorem Cached.putAndPin_high (h : Cached fs c none)
    (hnew : c.open_fds_map_.lookup name = none)
    (hfull : c.max_ < c.open_fds_map_.entries.length + 1) {n : Iterator × FdListEnt Path}
    (hhead : c.open_fds_.nodes.head? = some n) (hhigh : ¬ n.2.fd_ < OpenFdCache.fdLimit)
    (fd : Nat) : c.putAndPin name fd = .error .assertFailed := by
  have hevict : c.evict = .error .assertFailed := by
    -- at rest no entry is pinned, so the first one would go
    obtain ⟨rest, hnodes⟩ := List.head?_eq_some_iff.1 hhead
    have hfree : n.2.pin_count_ = 0 := h.pins n (by simp [hnodes])
    unfold OpenFdCache.evict
    simp only [hnodes, List.find?_cons, hfree, decide_true, decide_eq_false hhigh, assert_false,
      bind, Except.bind]
  have hloop : OpenFdCache.makeRoom (c.open_fds_.nodes.length + 1) c = .error .assertFailed := by
    unfold OpenFdCache.makeRoom
    rw [if_pos hfull, hevict]
    rfl
  unfold OpenFdCache.putAndPin
  simp only [assert_fd, hnew, hloop, bind, Except.bind]

theorem Cached.close (h : Cached fs c none) (hlinks : Linkless fs)
    (hit : c.open_fds_map_.lookup name = some it) :
    ∃ c' fs' c'', c.close name = .ok c' ∧ State.closeFds fs c' = ⟨fs', some c''⟩ ∧
      Cached fs' c'' none ∧ c''.open_fds_map_.lookup name = none ∧
      fs'.dir = fs.dir ∧ fs'.data = fs.data := by
  obtain ⟨ent, hmem, rfl⟩ := h.indexed.node hit
  have hfree : assert (ent.pin_count_ = 0) = .ok () := by
    rw [decide_eq_true (show ent.pin_count_ = 0 from h.pins _ hmem)]
    rfl
  have hclose : c.close ent.key_ = .ok (c.remove it ent) := by
    unfold OpenFdCache.close
    simp only [hit, LRUList.deref_eq_some.2 hmem, hfree, bind, Except.bind]
    rfl
  have hfds : State.closeFds fs (c.remove it ent) =
      ⟨fs.close ent.fd_.toNat, some { c.remove it ent with closed := [] }⟩ :=
    closeFds_one fs (congrArg (List.cons (it, ent.fd_)) h.closed)
  exact ⟨_, _, _, hclose, hfds, h.remove hlinks hmem, AList.lookup_erase _ _, rfl, rfl⟩

end Cache

/-! ### The calls of a table -/

section Calls

variable {s s' : State} {fs' : FileSystem Path} {name : Path} {fd i : Nat}

theorem idle_new {fs : FileSystem Path} (hlinks : Linkless fs) (size : Option Nat) :
    Idle (.new fs size) where
  links := hlinks
  cached c hc := by
    obtain ⟨max, -, rfl⟩ := Option.map_eq_some_iff.1 hc
    exact ⟨.of_nodes_eq_nil rfl, (fun _ hn => nomatch hn), Nat.zero_le _,
      (fun _ hn => nomatch hn), rfl⟩

theorem Idle.uncached (h : Idle s) (hname : s.fs.dir.lookup name = none) : Uncached s name :=
  fun c hc => (h.cached c hc).lookup_none hname

theorem getAndPin_uncached (h : Uncached s name) : s.getAndPin name = .ok (none, s) := by
  obtain ⟨fs, cache⟩ := s
  cases cache with
  | none => rfl
  | some c =>
    have hnone : c.getAndPin name = .ok (-1, c) := by
      unfold OpenFdCache.getAndPin
      rw [h c rfl]
      rfl
    unfold State.getAndPin
    simp only [hnone, bind, Except.bind]
    rfl

theorem Idle.getAndPin (h : Idle s) (hname : s.fs.dir.lookup name = some i)
    (hcached : ¬ Uncached s name) :
    ∃ fd s', s.getAndPin name = .ok (some fd, s') ∧ Held s' name fd i ∧ s'.fs = s.fs ∧
      s'.cache_.isSome := by
  obtain ⟨fs, cache⟩ := s
  cases cache with
  | none => exact absurd (fun _ hc => nomatch hc) hcached
  | some c =>
    cases hit : c.open_fds_map_.lookup name with
    | none =>
      refine absurd ?_ hcached
      intro c' hc'
      exact Option.some.inj hc' ▸ hit
    | some it =>
      obtain ⟨fd, c', hget, hopened, hpinned, hnode⟩ := (h.cached c rfl).getAndPin hname hit
      refine ⟨fd, ⟨fs, some c'⟩, ?_, ⟨h.links, hname, hopened, ?_⟩, rfl, rfl⟩
      · have hne : ¬ (fd : Int) = -1 := by omega
        unfold State.getAndPin
        simp only [hget, bind, Except.bind, pure, Except.pure, if_neg hne, Int.toNat_natCast]
      · intro c₁ hc₁
        obtain rfl := Option.some.inj hc₁
        exact ⟨hpinned, hnode⟩

theorem Idle.opened {f : Option OpenFile} (h : Idle s) (hlinks : Linkless fs')
    (hdir : ∀ other j, s.fs.dir.lookup other = some j → fs'.dir.lookup other = some j)
    (hfree : s.fs.files fd = none) (hfiles : fs'.files = Function.update s.fs.files fd f) :
    Idle { s with fs := fs' } where
  links := hlinks
  cached c hc := by
    apply (h.cached c hc).mono
    · intro n hn
      -- the files in the cache are there, and keep their names
      obtain ⟨j, -, hfile, -⟩ := (h.cached c hc).opened n hn
      rw [hfile, hdir _ _ hfile]
    · exact fun n _ j fd' _ _ ho => ho.update hfree hfiles

theorem Idle.putAndPin (h : Idle s) (hnew : Uncached s name)
    (hname : s.fs.dir.lookup name = some i) (hfile : s.fs.files fd = some ⟨i, 0⟩)
    (hlow : Evictable s name) :
    ∃ s', s.putAndPin name fd = .ok (fd, s') ∧ Held s' name fd i ∧
      s'.fs.files fd = some ⟨i, 0⟩ ∧ s'.fs.content = s.fs.content := by
  obtain ⟨fs, cache⟩ := s
  cases cache with
  | none => exact ⟨_, rfl, ⟨h.links, hname, ⟨0, hfile⟩, fun _ hc => nomatch hc⟩, hfile, rfl⟩
  | some c =>
    obtain ⟨c', fs', c'', hput, hclose, hpinned, hnode, hdir, hdata, hfile'⟩ :=
      (h.cached c rfl).putAndPin h.links (hnew c rfl) hname hfile (hlow c rfl (hnew c rfl))
    refine ⟨⟨fs', some c''⟩, ?_, ⟨h.links.congr hdir, ?_, ⟨0, hfile'⟩, ?_⟩, hfile',
      FileSystem.content_congr hdir hdata⟩
    · unfold State.putAndPin
      simp only [hput, bind, Except.bind, hclose, pure, Except.pure, Int.toNat_natCast]
      rw [if_neg fun hne => hne rfl]
    · rw [hdir]
      exact hname
    · intro c₁ hc₁
      obtain rfl := Option.some.inj hc₁
      exact ⟨hpinned, hnode⟩

theorem Idle.putAndPin_high (h : Idle s) (hhigh : ¬ Evictable s name) (fs' : FileSystem Path)
    (fd : Nat) :
    Uncached s name ∧ State.putAndPin { s with fs := fs' } name fd = .error .assertFailed := by
  unfold Evictable at hhigh
  push Not at hhigh
  obtain ⟨c, hc, hnew, hfull, n, hhead, hn⟩ := hhigh
  refine ⟨fun c' hc' => ?_, ?_⟩
  · rw [hc] at hc'
    exact Option.some.inj hc' ▸ hnew
  · have herror := (h.cached c hc).putAndPin_high hnew hfull hhead (by omega) fd
    unfold State.putAndPin
    rw [hc]
    simp only [herror, bind, Except.bind]

theorem Held.touches (h : Held s name fd i) (htouches : Touches s.fs fs' i)
    (hopened : Opened fs' fd i) : Held { s with fs := fs' } name fd i where
  links := h.links.congr htouches.dir
  file := by
    rw [htouches.dir]
    exact h.file
  opened := hopened
  cached c hc := by
    obtain ⟨hcached, it, hnode⟩ := h.cached c hc
    refine ⟨hcached.mono (fun n _ => by rw [htouches.dir]) ?_, it, hnode⟩
    intro n hn j fd' hfile hfd ho
    by_cases hkey : n.2.key_ = name
    · -- the entry of the name is the one with the descriptor
      have hit := hcached.indexed.lookup hn
      rw [hkey, show c.open_fds_map_.lookup name = some it from hcached.indexed.lookup hnode]
        at hit
      have hent := LRUList.eq_of_fst_eq hn hnode (Option.some.inj hit).symm
      rw [hent] at hfd hfile
      obtain rfl := Option.some.inj (h.file.symm.trans hfile)
      obtain rfl := Int.ofNat_inj.1 hfd
      exact hopened
    · -- another file's descriptor is another inode's
      refine ho.touches htouches ?_
      rintro rfl
      exact hkey (h.links _ _ _ hfile h.file)

theorem Held.rewind (h : Held s name fd i)
    (hstart : s.cache_ = none → s.fs.files fd = some ⟨i, 0⟩) :
    ∃ s', s.rewind fd = .ok s' ∧ Held s' name fd i ∧ s'.fs.files fd = some ⟨i, 0⟩ ∧
      s'.fs.content = s.fs.content := by
  obtain ⟨fs, cache⟩ := s
  cases cache with
  | none => exact ⟨_, rfl, h, hstart rfl, rfl⟩
  | some c =>
    -- a cached descriptor may stand anywhere
    obtain ⟨off, hfile⟩ := h.opened
    have hseek : fs.seek fd 0 = some (fs.setOffset fd 0) := by
      unfold FileSystem.seek
      rw [hfile]
    obtain ⟨htouches, hopened, hdata⟩ := h.opened.seek hseek
    refine ⟨⟨fs.setOffset fd 0, some c⟩, ?_, h.touches htouches hopened, ?_,
      FileSystem.content_congr htouches.dir hdata⟩
    · unfold State.rewind
      simp only [hseek]
      rfl
    · show (fs.setOffset fd 0).files fd = _
      rw [FileSystem.files_setOffset hfile, Function.update_self]

theorem Held.unpin (h : Held s name fd i) :
    ∃ s', s.unpin name = .ok s' ∧ Idle s' ∧ s'.fs = s.fs := by
  obtain ⟨fs, cache⟩ := s
  cases cache with
  | none => exact ⟨_, rfl, ⟨h.links, fun _ hc => nomatch hc⟩, rfl⟩
  | some c =>
    obtain ⟨hcached, it, hnode⟩ := h.cached c rfl
    obtain ⟨c', hunpin, hidle⟩ := hcached.unpin hnode
    refine ⟨⟨fs, some c'⟩, ?_, ⟨h.links, ?_⟩, rfl⟩
    · unfold State.unpin
      simp only [hunpin, bind, Except.bind]
      rfl
    · intro c₁ hc₁
      exact Option.some.inj hc₁ ▸ hidle

theorem Held.release (h : Held s name fd i) :
    ∃ s', s.release name fd = .ok s' ∧ Idle s' ∧ s'.fs.content = s.fs.content := by
  obtain ⟨fs, cache⟩ := s
  cases cache with
  | none => exact ⟨_, rfl, ⟨h.links, fun _ hc => nomatch hc⟩, rfl⟩
  | some c =>
    obtain ⟨s', hunpin, hidle, hfs⟩ := h.unpin
    exact ⟨s', hunpin, hidle, by rw [hfs]⟩

theorem Idle.closeCached (h : Idle s) (name : Path) :
    ∃ s', s.closeCached name = .ok s' ∧ Idle s' ∧ Uncached s' name ∧ s'.fs.dir = s.fs.dir ∧
      s'.fs.data = s.fs.data := by
  obtain ⟨fs, cache⟩ := s
  cases cache with
  | none => exact ⟨_, rfl, h, (fun _ hc => nomatch hc), rfl, rfl⟩
  | some c =>
    cases hit : c.open_fds_map_.lookup name with
    | none =>
      have hclose : c.close name = .ok c := by
        unfold OpenFdCache.close
        rw [hit]
        rfl
      have hnothing := closeFds_nil fs (h.cached c rfl).closed
      refine ⟨⟨fs, some c⟩, ?_, h, ?_, rfl, rfl⟩
      · unfold State.closeCached
        simp only [hclose, bind, Except.bind, hnothing]
        rfl
      · intro c₁ hc₁
        exact Option.some.inj hc₁ ▸ hit
    | some it =>
      obtain ⟨c', fs', c'', hclose, hfds, hcached, hnone, hdir, hdata⟩ :=
        (h.cached c rfl).close h.links hit
      refine ⟨⟨fs', some c''⟩, ?_, ⟨h.links.congr hdir, ?_⟩, ?_, hdir, hdata⟩
      · unfold State.closeCached
        simp only [hclose, bind, Except.bind, hfds]
        rfl
      · intro c₁ hc₁
        exact Option.some.inj hc₁ ▸ hcached
      · intro c₁ hc₁
        exact Option.some.inj hc₁ ▸ hnone

end Calls

end Oasys.FileSystemTable
