import Oasys.ForStd.AssocList
import Oasys.ForStd.Transition
import Oasys.Spec.LRUListCorrect
import Oasys.Util.OpenFdCache

/-!
# OpenFdCache correctness

Who owns a descriptor. A run keeps beside the cache the pins of each entry that no unpin
has undone, and the descriptors the cache has accepted, each with the node it went into:
at any time, what has been accepted is what has been closed and what is cached, and nothing
is in that account twice.
-/

namespace Oasys.OpenFdCache

open LRUList (Iterator)

variable {Key : Type}

/-! ### The runs -/

/-- A cache and the records of its run. -/
structure State (Key : Type) where
  cache : OpenFdCache Key
  /-- The pins of an entry that no unpin has undone. -/
  pins : Iterator → Nat
  /-- The descriptors accepted for new keys. -/
  accepted : List (Iterator × Int)

inductive Op (Key : Type) where
  | getAndPin (key : Key)
  | putAndPin (key : Key) (fd : Int)
  | unpin (key : Key)
  | close (key : Key)
  | closeAll
  deriving DecidableEq, Repr

def State.new (max : Nat) : State Key where
  cache := .new max
  pins := fun _ => 0
  accepted := []

def State.book (s : State Key) (f : Nat → Nat) (it : Iterator) : State Key :=
  { s with pins := Function.update s.pins it (f (s.pins it)) }

/-- The cache accepts `fd` in the node `it`, with one pin. -/
def State.accept (s : State Key) (fd : Int) (it : Iterator) : State Key :=
  { s.book (fun _ => 1) it with accepted := (it, fd) :: s.accepted }

/-- The descriptors that are cached, with their nodes. -/
def cached (c : OpenFdCache Key) : List (Iterator × Int) :=
  c.open_fds_.nodes.map fun n => (n.1, n.2.fd_)

variable [DecidableEq Key]

/-- A call, and what it leaves in the records. -/
def exec (s : State Key) : Op Key → Except Fault (State Key)
  | .getAndPin key => do
    let (_, cache) ← s.cache.getAndPin key
    pure ((s.cache.open_fds_map_.lookup key).elim { s with cache }
      ({ s with cache }.book (· + 1)))
  | .putAndPin key fd => do
    let (_, cache) ← s.cache.putAndPin key fd
    match s.cache.open_fds_map_.lookup key with
    | some it => pure ({ s with cache }.book (· + 1) it)
    | none => pure ((cache.open_fds_map_.lookup key).elim { s with cache }
        ({ s with cache }.accept fd))
  | .unpin key => do
    let cache ← s.cache.unpin key
    pure ((s.cache.open_fds_map_.lookup key).elim { s with cache }
      ({ s with cache }.book (· - 1)))
  | .close key => do
    let cache ← s.cache.close key
    pure { s with cache }
  | .closeAll => pure { s with cache := s.cache.closeAll }

variable (Key) in
/-- A cache of any capacity, under any sequence of calls that return. -/
def system : TransitionSystem (State Key) (Op Key) where
  init s := ∃ max, s = .new max
  step s op s' := exec s op = .ok s'

/-- An unpin undoes a pin of the entry of its key. -/
def Matched (s : State Key) : Op Key → Prop
  | .unpin key => ∀ it, s.cache.open_fds_map_.lookup key = some it → 0 < s.pins it
  | _ => True

/-! ### What a cache promises -/

/-- The map and the list agree, and every descriptor has one owner. -/
structure Sound (s : State Key) : Prop where
  /-- An entry of the map points at the node with its own key, and every node is pointed at. -/
  map : ∀ key it, s.cache.open_fds_map_.lookup key = some it ↔
    ∃ ent, s.cache.open_fds_.deref it = some ent ∧ ent.key_ = key
  /-- No key is in the list twice. -/
  nodup : (s.cache.open_fds_.elts.map FdListEnt.key_).Nodup
  /-- What has been accepted has been closed, or is cached. -/
  account : s.accepted.Perm (s.cache.closed ++ cached s.cache)
  /-- Nothing has been accepted twice, so nothing has been closed twice, and nothing cached
      has been closed. -/
  once : s.accepted.Nodup
  /-- A pin count is the number of pins that no unpin has undone. -/
  pins : ∀ it ent, s.cache.open_fds_.deref it = some ent → ent.pin_count_ = s.pins it

/-- `c'` is what is left of `c` when entries that no one has pinned are closed. -/
inductive Evicts (pins : Iterator → Nat) : OpenFdCache Key → OpenFdCache Key → Prop
  | done (c) : Evicts pins c c
  | evict {c c' it ent} (hmem : (it, ent) ∈ c.open_fds_.nodes) (hpins : pins it = 0)
      (hrest : Evicts pins (c.remove it ent) c') : Evicts pins c c'

/-- What `put_and_pin` does, unless an assertion on a descriptor fails or a pin count
    overflows. Where the key is there it closes nothing, and hands out the descriptor it
    has; otherwise it evicts, and accepts `fd`, exceeding `max_` only where all that it has
    kept is pinned. -/
def Puts (s : State Key) (key : Key) (fd : Int) : Prop :=
  match s.cache.putAndPin key fd with
  | .error e => e = .assertFailed ∨ e = .overflow
  | .ok (res, c) =>
    match s.cache.open_fds_map_.lookup key with
    | some it => (it, res) ∈ cached s.cache ∧ cached c = cached s.cache ∧
        c.closed = s.cache.closed
    | none => res = fd ∧ ∃ kept, Evicts s.pins s.cache kept ∧ c = kept.append key fd ∧
        (c.max_ < c.open_fds_.nodes.length → ∀ n ∈ kept.open_fds_.nodes, 0 < s.pins n.1)

/-! ### The invariant -/

/-- The cache and the records agree. -/
structure Rep (c : OpenFdCache Key) (pins : Iterator → Nat) (accepted : List (Iterator × Int)) :
    Prop where
  indexed : c.open_fds_.Indexed FdListEnt.key_ c.open_fds_map_
  pins : ∀ it ent, (it, ent) ∈ c.open_fds_.nodes → ent.pin_count_ = pins it
  account : accepted.Perm (c.closed ++ cached c)
  once : accepted.Nodup
  lt_next : ∀ a ∈ accepted, a.1 < c.open_fds_.next

/-- The invariant of a run. -/
abbrev State.Rep (s : State Key) : Prop := OpenFdCache.Rep s.cache s.pins s.accepted

section Rep

variable {c c' : OpenFdCache Key} {pins : Iterator → Nat} {accepted : List (Iterator × Int)}
  {it : Iterator} {ent : FdListEnt Key}

omit [DecidableEq Key] in
theorem addPins_cases {d fd : Int} (hadd : c.addPins it d = .ok (fd, c')) :
    ∃ ent, (it, ent) ∈ c.open_fds_.nodes ∧ fd = ent.fd_ ∧ c' = { c with
      open_fds_ := c.open_fds_.set it { ent with pin_count_ := ent.pin_count_ + d } } := by
  unfold OpenFdCache.addPins at hadd
  split at hadd
  · cases hadd
  rename_i ent hderef
  split at hadd
  · obtain ⟨rfl, rfl⟩ := Prod.mk.inj (Except.ok.inj hadd)
    exact ⟨ent, LRUList.deref_eq_some.1 hderef, rfl, rfl⟩
  · cases hadd

omit [DecidableEq Key] in
theorem cached_addPins {d fd : Int} (hadd : c.addPins it d = .ok (fd, c')) :
    cached c' = cached c := by
  obtain ⟨ent, hmem, -, rfl⟩ := addPins_cases hadd
  exact LRUList.map_set hmem rfl

theorem Rep.addPins (h : Rep c pins accepted) {d fd : Int} {p : Nat}
    (hadd : c.addPins it d = .ok (fd, c')) (hp : (p : Int) = pins it + d) :
    Rep c' (Function.update pins it p) accepted := by
  have hcached := cached_addPins hadd
  obtain ⟨ent, hmem, -, rfl⟩ := addPins_cases hadd
  refine ⟨h.indexed.set hmem rfl, ?_, ?_, h.once, h.lt_next⟩
  · intro it' ent' hmem'
    rw [LRUList.mem_set] at hmem'
    cases hmem' with
    | inl hother =>
      rw [Function.update_of_ne hother.2]
      exact h.pins it' ent' hother.1
    | inr hset =>
      obtain ⟨rfl, rfl⟩ := Prod.mk.inj hset.1
      rw [Function.update_self, hp, h.pins it' ent hmem]
  · rw [hcached]
    exact h.account

theorem Rep.moveToBack (h : Rep c pins accepted) (it : Iterator) :
    Rep { c with open_fds_ := c.open_fds_.moveToBack it } pins accepted where
  indexed := h.indexed.moveToBack it
  pins it' ent' hmem' := h.pins it' ent' (LRUList.mem_moveToBack.1 hmem')
  account := h.account.trans
    (((LRUList.perm_moveToBack _ it).map _).symm.append_left c.closed)
  once := h.once
  lt_next := h.lt_next

theorem Rep.remove (h : Rep c pins accepted) (hmem : (it, ent) ∈ c.open_fds_.nodes) :
    Rep (c.remove it ent) pins accepted where
  indexed := h.indexed.erase hmem
  pins it' ent' hmem' := h.pins it' ent' (LRUList.mem_erase.1 hmem').1
  account := by
    -- the descriptor goes over from the cached ones to the closed ones
    have hperm : (cached c).Perm ((it, ent.fd_) :: cached (c.remove it ent)) :=
      (LRUList.perm_erase hmem).map _
    have hmoved := (hperm.append_left c.closed).trans List.perm_middle
    exact h.account.trans hmoved
  once := h.once
  lt_next := h.lt_next

theorem Rep.append (h : Rep c pins accepted) {key : Key}
    (hnew : c.open_fds_map_.lookup key = none) (fd : Int) :
    Rep (c.append key fd) (Function.update pins c.open_fds_.next 1)
      ((c.open_fds_.next, fd) :: accepted) where
  indexed := h.indexed.pushBack { key_ := key, fd_ := fd, pin_count_ := 1 } hnew
  pins it ent hmem := by
    cases LRUList.mem_pushBack.1 hmem with
    | inl hold =>
      rw [Function.update_of_ne (Nat.ne_of_lt (c.open_fds_.lt_next _ hold))]
      exact h.pins it ent hold
    | inr hlast =>
      obtain ⟨rfl, rfl⟩ := Prod.mk.inj hlast
      rw [Function.update_self]
      rfl
  account := by
    have hcached : cached (c.append key fd) = cached c ++ [(c.open_fds_.next, fd)] :=
      List.map_append
    rw [hcached]
    have hmoved := (h.account.cons (c.open_fds_.next, fd)).trans (List.perm_append_singleton
      (c.open_fds_.next, fd) (c.closed ++ cached c)).symm
    rwa [List.append_assoc] at hmoved
  once := by
    rw [List.nodup_cons]
    -- what was accepted before has the number of an earlier node
    exact ⟨fun hmem => Nat.lt_irrefl _ (h.lt_next _ hmem), h.once⟩
  lt_next a ha := by
    cases List.mem_cons.1 ha with
    | inl hnew => exact hnew ▸ Nat.lt_succ_self _
    | inr hold => exact Nat.lt_succ_of_lt (h.lt_next a hold)

theorem Rep.closeAll (h : Rep c pins accepted) : Rep c.closeAll pins accepted where
  indexed := .of_nodes_eq_nil rfl
  pins _ _ hmem := nomatch hmem
  account := by
    have hreversed : ((cached c).reverse ++ c.closed).Perm (c.closed ++ cached c) :=
      ((List.reverse_perm _).append_right _).trans List.perm_append_comm
    show accepted.Perm (((cached c).reverse ++ c.closed) ++ [])
    rw [List.append_nil]
    exact h.account.trans hreversed.symm
  once := h.once
  lt_next := h.lt_next

/-! ### Evictions -/

theorem Rep.evict (h : Rep c pins accepted) (hevict : c.evict = .ok (some c')) :
    ∃ it ent, (it, ent) ∈ c.open_fds_.nodes ∧ pins it = 0 ∧ c' = c.remove it ent := by
  unfold OpenFdCache.evict at hevict
  split at hevict
  · cases hevict
  rename_i it ent hfind
  obtain ⟨-, -, hdone⟩ := bind_eq_ok.1 hevict
  obtain rfl := Option.some.inj (Except.ok.inj hdone)
  have hmem := List.mem_of_find?_eq_some hfind
  have hfree := List.find?_some hfind
  rw [decide_eq_true_iff] at hfree
  have hpins := h.pins it ent hmem
  refine ⟨it, ent, hmem, ?_, rfl⟩
  simp only at hfree
  omega

theorem Rep.pos_of_evict (h : Rep c pins accepted) (hevict : c.evict = .ok none) :
    ∀ n ∈ c.open_fds_.nodes, 0 < pins n.1 := by
  unfold OpenFdCache.evict at hevict
  split at hevict
  swap
  · obtain ⟨-, -, hdone⟩ := bind_eq_ok.1 hevict
    cases hdone
  rename_i hfind
  intro n hn
  have hbusy := List.find?_eq_none.1 hfind n hn
  rw [decide_eq_true_iff] at hbusy
  have hpins := h.pins n.1 n.2 hn
  omega

theorem evict_error {e : Fault} (hevict : c.evict = .error e) : e = .assertFailed := by
  unfold OpenFdCache.evict at hevict
  split at hevict
  · cases hevict
  rename_i it ent hfind
  by_cases hlimit : ent.fd_ < fdLimit
  · rw [decide_eq_true hlimit] at hevict
    cases hevict
  · rw [decide_eq_false hlimit] at hevict
    exact (Except.error.inj hevict).symm

/-- The loop ends within as many rounds as the list has nodes and one, or by the assertion
    of an eviction. -/
theorem Rep.makeRoom {fuel : Nat} (h : Rep c pins accepted)
    (hfuel : c.open_fds_.nodes.length < fuel) :
    match OpenFdCache.makeRoom fuel c with
    | .error e => e = .assertFailed
    | .ok c' => Evicts pins c c' ∧ Rep c' pins accepted ∧ c'.max_ = c.max_ ∧
        (c'.max_ < c'.open_fds_.nodes.length + 1 → ∀ n ∈ c'.open_fds_.nodes, 0 < pins n.1) ∧
        ∀ key, c.open_fds_map_.lookup key = none → c'.open_fds_map_.lookup key = none := by
  induction fuel generalizing c with
  | zero => exact absurd hfuel (Nat.not_lt_zero _)
  | succ fuel ih =>
    have hlength := h.indexed.length
    unfold OpenFdCache.makeRoom
    by_cases hover : c.open_fds_map_.entries.length + 1 > c.max_
    swap
    · rw [if_neg hover]
      exact ⟨.done c, h, rfl, fun hmax => by omega, fun _ => id⟩
    rw [if_pos hover]
    cases hevict : c.evict with
    | error e => exact evict_error hevict
    | ok res =>
      cases res with
      | none => exact ⟨.done c, h, rfl, fun _ => h.pos_of_evict hevict, fun _ => id⟩
      | some c₁ =>
        obtain ⟨it, ent, hmem, hpins, rfl⟩ := h.evict hevict
        -- each round takes a node away, and the fuel exceeds their number
        have hperm := (LRUList.perm_erase hmem).length_eq
        rw [List.length_cons] at hperm
        have hrest := ih (h.remove hmem) (by
          show (c.open_fds_.erase it).nodes.length < fuel
          omega)
        show match OpenFdCache.makeRoom fuel (c.remove it ent) with
          | .error e => _
          | .ok c' => _
        cases hrun : OpenFdCache.makeRoom fuel (c.remove it ent) with
        | error e =>
          rw [hrun] at hrest
          exact hrest
        | ok c' =>
          rw [hrun] at hrest
          obtain ⟨hevicts, hrep, hmax, hbusy, hnone⟩ := hrest
          refine ⟨.evict hmem hpins hevicts, hrep, hmax, hbusy, fun key hlookup => hnone key ?_⟩
          exact AList.lookup_erase_eq_none hlookup ent.key_

theorem Rep.putAndPin (h : Rep c pins accepted) {key : Key}
    (hnew : c.open_fds_map_.lookup key = none) (fd : Int) :
    match c.putAndPin key fd with
    | .error e => e = .assertFailed
    | .ok (res, c') => res = fd ∧ ∃ kept, Evicts pins c kept ∧ c' = kept.append key fd ∧
        Rep kept pins accepted ∧ kept.open_fds_map_.lookup key = none ∧
        (c'.max_ < c'.open_fds_.nodes.length → ∀ n ∈ kept.open_fds_.nodes, 0 < pins n.1) := by
  unfold OpenFdCache.putAndPin
  by_cases hfd : fd = -1
  · subst hfd
    rfl
  rw [decide_eq_true hfd, hnew]
  have hroom := h.makeRoom (Nat.lt_succ_self _)
  show match (OpenFdCache.makeRoom (c.open_fds_.nodes.length + 1) c >>= fun c =>
      pure (fd, c.append key fd)) with
    | .error e => _
    | .ok (res, c') => _
  cases hrun : OpenFdCache.makeRoom (c.open_fds_.nodes.length + 1) c with
  | error e =>
    rw [hrun] at hroom
    exact hroom
  | ok kept =>
    rw [hrun] at hroom
    obtain ⟨hevicts, hrep, -, hbusy, hnone⟩ := hroom
    refine ⟨rfl, kept, hevicts, rfl, hrep, hnone key hnew, fun hmax => hbusy ?_⟩
    have hlength : (kept.append key fd).open_fds_.nodes.length =
        kept.open_fds_.nodes.length + 1 := by
      simp [OpenFdCache.append, LRUList.pushBack]
    rw [← hlength]
    exact hmax

end Rep

/-! ### The run -/

section Run

variable {s s' : State Key}

theorem rep_new (max : Nat) : (State.new max : State Key).Rep where
  indexed := .of_nodes_eq_nil rfl
  pins _ _ hmem := nomatch hmem
  account := .nil
  once := .nil
  lt_next _ ha := nomatch ha

theorem rep_putAndPin (h : s.Rep) {key : Key} {fd : Int}
    (hexec : exec s (.putAndPin key fd) = .ok s') : s'.Rep := by
  obtain ⟨⟨res, cache⟩, hput, hrest⟩ := bind_eq_ok.1 hexec
  cases hlookup : s.cache.open_fds_map_.lookup key with
  | some it =>
    rw [hlookup] at hrest
    obtain rfl := Except.ok.inj hrest
    unfold OpenFdCache.putAndPin at hput
    rw [hlookup] at hput
    obtain ⟨-, -, hadd⟩ := bind_eq_ok.1 hput
    exact Rep.addPins h hadd (by simp)
  | none =>
    rw [hlookup] at hrest
    have hspec := Rep.putAndPin h hlookup fd
    rw [hput] at hspec
    obtain ⟨-, kept, -, rfl, hrep, hnew, -⟩ := hspec
    have hnode : (kept.append key fd).open_fds_map_.lookup key = some kept.open_fds_.next :=
      AList.lookup_insert _
    simp only [hnode] at hrest
    obtain rfl := Except.ok.inj hrest
    exact hrep.append hnew fd

theorem rep_exec {op : Op Key} (h : s.Rep) (hmatched : Matched s op)
    (hexec : exec s op = .ok s') : s'.Rep := by
  cases op with
  | putAndPin key fd => exact rep_putAndPin h hexec
  | getAndPin key =>
    obtain ⟨⟨res, cache⟩, hget, hrest⟩ := bind_eq_ok.1 hexec
    unfold OpenFdCache.getAndPin at hget
    split at hget
    · rename_i hlookup
      rw [hlookup] at hrest
      obtain ⟨rfl, rfl⟩ := Prod.mk.inj (Except.ok.inj hget)
      obtain rfl := Except.ok.inj hrest
      exact h
    · rename_i it hlookup
      rw [hlookup] at hrest
      obtain ⟨⟨fd, c⟩, hadd, hchecked⟩ := bind_eq_ok.1 hget
      obtain ⟨-, -, hdone⟩ := bind_eq_ok.1 hchecked
      obtain ⟨rfl, rfl⟩ := Prod.mk.inj (Except.ok.inj hdone)
      obtain rfl := Except.ok.inj hrest
      exact (Rep.moveToBack h it).addPins hadd (by simp)
  | unpin key =>
    obtain ⟨cache, hunpin, hrest⟩ := bind_eq_ok.1 hexec
    unfold OpenFdCache.unpin at hunpin
    split at hunpin
    · cases hunpin
    rename_i it hlookup
    rw [hlookup] at hrest
    obtain ⟨⟨fd, c⟩, hadd, rfl⟩ := map_eq_ok.1 hunpin
    obtain rfl := Except.ok.inj hrest
    have hpos := hmatched it hlookup
    apply Rep.addPins h hadd
    show ((s.pins it - 1 : Nat) : Int) = _
    omega
  | close key =>
    obtain ⟨cache, hclose, hrest⟩ := bind_eq_ok.1 hexec
    obtain rfl := Except.ok.inj hrest
    unfold OpenFdCache.close at hclose
    split at hclose
    · obtain rfl := Except.ok.inj hclose
      exact h
    rename_i it hlookup
    split at hclose
    · cases hclose
    rename_i ent hderef
    obtain ⟨-, -, hdone⟩ := bind_eq_ok.1 hclose
    obtain rfl := Except.ok.inj hdone
    have hmem := LRUList.deref_eq_some.1 hderef
    -- the node of the key is the one that carries it
    obtain ⟨ent', hmem', rfl⟩ := h.indexed.node hlookup
    obtain rfl := (Prod.mk.inj (LRUList.eq_of_fst_eq hmem hmem' rfl)).2
    exact Rep.remove h hmem
  | closeAll =>
    obtain rfl := Except.ok.inj hexec
    exact Rep.closeAll h

theorem Rep.sound (h : s.Rep) : Sound s where
  map key it := by
    rw [h.indexed key it]
    simp only [LRUList.deref_eq_some]
  nodup := h.indexed.nodup
  account := h.account
  once := h.once
  pins it ent hderef := h.pins it ent (LRUList.deref_eq_some.1 hderef)

/-- Where the cache and the records agree, an insertion does what it should. -/
theorem Rep.puts (h : s.Rep) (key : Key) (fd : Int) : Puts s key fd := by
  unfold Puts
  cases hlookup : s.cache.open_fds_map_.lookup key with
  | none =>
    have hspec := Rep.putAndPin h hlookup fd
    cases hput : s.cache.putAndPin key fd with
    | error e =>
      rw [hput] at hspec
      exact .inl hspec
    | ok res =>
      rw [hput] at hspec
      obtain ⟨hres, kept, hevicts, hkept, -, -, hbusy⟩ := hspec
      exact ⟨hres, kept, hevicts, hkept, hbusy⟩
  | some it =>
    obtain ⟨ent, hmem, -⟩ := h.indexed.node hlookup
    cases hput : s.cache.putAndPin key fd with
    | error e =>
      unfold OpenFdCache.putAndPin at hput
      rw [hlookup] at hput
      by_cases hfd : fd = -1
      · subst hfd
        exact .inl (Except.error.inj hput).symm
      rw [decide_eq_true hfd] at hput
      -- the entry is there, so only the range of `int` can stop the pin
      have hadd : s.cache.addPins it 1 = .error e := hput
      unfold OpenFdCache.addPins at hadd
      rw [LRUList.deref_eq_some.2 hmem] at hadd
      simp only at hadd
      split at hadd
      · cases hadd
      · exact .inr (Except.error.inj hadd).symm
    | ok res =>
      unfold OpenFdCache.putAndPin at hput
      rw [hlookup] at hput
      obtain ⟨-, -, hadd⟩ := bind_eq_ok.1 hput
      have hcached := cached_addPins hadd
      obtain ⟨ent', hmem', hres, hc⟩ := addPins_cases hadd
      refine ⟨List.mem_map.2 ⟨(it, ent'), hmem', ?_⟩, hcached, ?_⟩
      · rw [hres]
      · rw [hc]

end Run

/-- In every run whose unpins are matched, every descriptor has one owner, and an insertion
    does what it should. -/
theorem sound_of_matched {s : State Key} (hs : (system Key).ReachableWith Matched s) :
    Sound s ∧ ∀ key fd, Puts s key fd := by
  have hrep : s.Rep := by
    apply hs.invariant
    · rintro s ⟨max, rfl⟩
      exact rep_new max
    · intro s op s' h hmatched hstep
      exact rep_exec h hmatched hstep
  exact ⟨hrep.sound, hrep.puts⟩

/-- One descriptor has been closed to make room for another. -/
theorem sound_of_matched_put : ∃ s : State Nat, s.cache.closed = [(0, 3)] ∧
    cached s.cache = [(1, 4)] ∧ Sound s ∧ ∀ key fd, Puts s key fd := by
  have hput : (system Nat).ReachableWith Matched _ :=
    .step (a := .putAndPin 7 3) (.init ⟨1, rfl⟩) trivial rfl
  have hunpin : (system Nat).ReachableWith Matched _ :=
    .step (a := .unpin 7) hput (fun it hit => by
      obtain rfl := Option.some.inj hit
      decide) rfl
  have hput' : (system Nat).ReachableWith Matched _ :=
    .step (a := .putAndPin 8 4) hunpin trivial rfl
  exact ⟨_, rfl, rfl, sound_of_matched hput'⟩

end Oasys.OpenFdCache
