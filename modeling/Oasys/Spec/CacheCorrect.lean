import Oasys.ForStd.AssocList
import Oasys.ForStd.Transition
import Oasys.Spec.LRUListCorrect
import Oasys.Util.Cache

/-!
# Cache correctness

The map, the list, the count of the helper and the pin counts stay in step over every run.
Beside the cache a run keeps two records of its own: `pins`, the pins of each entry that
have not been undone, and `touched`, the time at which each entry was last touched. `Rep`
is the invariant that ties them to the cache; an operation is a change of one pin count,
the removal of an entry, an insertion, or a move to the back, and each of these keeps it.

What `put_and_pin` throws out is described by `Evicts`, in terms of the records alone.
-/

namespace Oasys.Cache

open LRUList (Iterator)

variable {Key Val : Type}

/-! ### The runs -/

/-- A cache and the records of its run. -/
structure State (Key Val : Type) where
  cache : Cache Key Val (CacheCapacityHelper Key Val)
  /-- The pins of an entry that no unpin has undone. -/
  pins : Iterator → Nat
  /-- When an entry was last touched. -/
  touched : Iterator → Nat
  clock : Nat

inductive Op (Key Val : Type) where
  | putAndPin (key : Key) (val : Val)
  | get (key : Key) (pin : Bool)
  | getAndPin (key : Key)
  | pin (key : Key)
  | pinHandle (itr_ : Iterator)
  | unpin (key : Key)
  | unpinHandle (itr_ : Iterator)
  | evict (key : Key)
  | evictAll
  deriving DecidableEq, Repr

/-- A new cache. -/
def State.new (capacity : Nat) (reorder_on_access : Bool) : State Key Val where
  cache := .new (.new capacity) reorder_on_access
  pins := fun _ => 0
  touched := fun _ => 0
  clock := 0

def State.book (s : State Key Val) (f : Nat → Nat) (it : Iterator) : State Key Val :=
  { s with pins := Function.update s.pins it (f (s.pins it)) }

def State.touch (s : State Key Val) (it : Iterator) : State Key Val :=
  { s with touched := Function.update s.touched it s.clock, clock := s.clock + 1 }

/-- The records after a `get` that found the entry at `it`. -/
def State.found (s : State Key Val) (pin : Bool) (it : Iterator) : State Key Val :=
  let s := if pin then s.book (· + 1) it else s
  if s.cache.reorder_on_access_ then s.touch it else s

variable [DecidableEq Key]

/-- A call, and what it leaves in the records. -/
def exec (s : State Key Val) : Op Key Val → Except Fault (State Key Val)
  | .putAndPin key val => do
    let (handle, cache) ← s.cache.putAndPin key val
    let s := { s with cache }
    pure (handle.elim s fun it => (s.book (fun _ => 1) it).touch it)
  | .get key pin => do
    let (res, cache) ← s.cache.get key pin
    let s := { s with cache }
    pure (res.elim s fun r => s.found pin r.2)
  | .getAndPin key => do
    let (res, cache) ← s.cache.getAndPin key
    let s := { s with cache }
    pure (res.elim s fun r => s.found true r.2)
  | .pin key => do
    let (_, cache) ← s.cache.pin key
    let s := { s with cache }
    pure ((s.cache.cache_map_.lookup key).elim s (s.book (· + 1)))
  | .pinHandle itr_ => do
    let (_, cache) ← s.cache.pinHandle itr_
    pure ({ s with cache }.book (· + 1) itr_)
  | .unpin key => do
    let (_, cache) ← s.cache.unpin key
    let s := { s with cache }
    pure ((s.cache.cache_map_.lookup key).elim s (s.book (· - 1)))
  | .unpinHandle itr_ => do
    let (_, cache) ← s.cache.unpinHandle itr_
    pure ({ s with cache }.book (· - 1) itr_)
  | .evict key => do
    let cache ← s.cache.evict key
    pure { s with cache }
  | .evictAll => pure { s with cache := s.cache.evictAll }

variable (Key Val) in
/-- A cache of any capacity, with or without reordering, under any sequence of calls. -/
def system : TransitionSystem (State Key Val) (Op Key Val) where
  init s := ∃ capacity reorder_on_access, s = .new capacity reorder_on_access
  step s op s' := exec s op = .ok s'

def Matched (s : State Key Val) : Op Key Val → Prop
  | .unpin key => ∀ it, s.cache.cache_map_.lookup key = some it → 0 < s.pins it
  | .unpinHandle itr_ => 0 < s.pins itr_
  | _ => True

/-! ### What a cache promises -/

/-- `c'` is what is left of `c` when entries go one after the other, each of them the one
    touched the longest time ago of those that no one has pinned. -/
inductive Evicts (pins touched : Iterator → Nat) :
    Cache Key Val (CacheCapacityHelper Key Val) →
      Cache Key Val (CacheCapacityHelper Key Val) → Prop
  | done (c) : Evicts pins touched c c
  | evict {c c' it ent} (hmem : (it, ent) ∈ c.cache_list_.nodes) (hpins : pins it = 0)
      (hleast : ∀ n ∈ c.cache_list_.nodes, pins n.1 = 0 → n.1 ≠ it → touched it < touched n.1)
      (hrest : Evicts pins touched (c.remove it ent) c') : Evicts pins touched c c'

/-- What `put_and_pin` does: nothing where the key is there; otherwise it evicts, and adds
    the new entry behind what is kept, exceeding the capacity only where all that it has
    kept is pinned. -/
def Puts (s : State Key Val) (key : Key) (val : Val) : Prop :=
  match s.cache.cache_map_.lookup key with
  | some _ => s.cache.putAndPin key val = .ok (none, s.cache)
  | none => ∃ kept, Evicts s.pins s.touched s.cache kept ∧
      s.cache.putAndPin key val = .ok (some kept.cache_list_.next, kept.append key val) ∧
      ((kept.append key val).helper_.capacity_ < (kept.append key val).helper_.count_ →
        ∀ n ∈ kept.cache_list_.nodes, 0 < s.pins n.1)

/-! ### The invariant -/

/-- The cache and the records agree. -/
structure Rep (c : Cache Key Val (CacheCapacityHelper Key Val)) (pins touched : Iterator → Nat)
    (clock : Nat) : Prop where
  indexed : c.cache_list_.Indexed LRUListEnt.key_ c.cache_map_
  count : c.helper_.count_ = c.cache_list_.nodes.length
  pins : ∀ it ent, (it, ent) ∈ c.cache_list_.nodes → ent.pin_count_ = pins it
  recent : c.cache_list_.Recent touched clock

/-- The invariant of a run. -/
abbrev State.Rep (s : State Key Val) : Prop := Cache.Rep s.cache s.pins s.touched s.clock

section Rep

variable {c c' : Cache Key Val (CacheCapacityHelper Key Val)} {pins touched : Iterator → Nat}
  {clock : Nat} {it : Iterator} {ent : LRUListEnt Key Val}

omit [DecidableEq Key] in
theorem addPins_cases {d count : Int} (hadd : c.addPins it d = .ok (count, c')) :
    ∃ ent, (it, ent) ∈ c.cache_list_.nodes ∧ c' = { c with
      cache_list_ := c.cache_list_.set it { ent with pin_count_ := ent.pin_count_ + d } } := by
  unfold Cache.addPins at hadd
  split at hadd
  · cases hadd
  rename_i ent hderef
  split at hadd
  · exact ⟨ent, LRUList.deref_eq_some.1 hderef, (Prod.mk.inj (Except.ok.inj hadd)).2.symm⟩
  · cases hadd

/-- `pin(key)` and `unpin(key)` change the pin count of the entry of the key. -/
theorem pin_cases {key : Key} {count : Int} (hpin : c.pin key = .ok (count, c')) :
    ∃ it, c.cache_map_.lookup key = some it ∧ c.addPins it 1 = .ok (count, c') := by
  unfold Cache.pin at hpin
  split at hpin
  · cases hpin
  · rename_i it hlookup
    exact ⟨it, hlookup, hpin⟩

@[inherit_doc pin_cases]
theorem unpin_cases {key : Key} {count : Int} (hunpin : c.unpin key = .ok (count, c')) :
    ∃ it, c.cache_map_.lookup key = some it ∧ c.addPins it (-1) = .ok (count, c') := by
  unfold Cache.unpin at hunpin
  split at hunpin
  · cases hunpin
  rename_i it hlookup
  split at hunpin
  · cases hunpin
  obtain ⟨-, -, hadd⟩ := bind_eq_ok.1 hunpin
  exact ⟨it, hlookup, hadd⟩

theorem Rep.addPins (h : Rep c pins touched clock) {d count : Int} {p : Nat}
    (hadd : c.addPins it d = .ok (count, c')) (hp : (p : Int) = pins it + d) :
    Rep c' (Function.update pins it p) touched clock := by
  obtain ⟨ent, hmem, rfl⟩ := addPins_cases hadd
  refine ⟨h.indexed.set hmem rfl, ?_, ?_, h.recent.set _ _⟩
  · rw [h.count]
    simp [LRUList.set]
  · intro it' ent' hmem'
    rw [LRUList.mem_set] at hmem'
    cases hmem' with
    | inl hother =>
      rw [Function.update_of_ne hother.2]
      exact h.pins it' ent' hother.1
    | inr hset =>
      obtain ⟨rfl, rfl⟩ := Prod.mk.inj hset.1
      rw [Function.update_self, hp, h.pins it' ent hmem]

theorem Rep.remove (h : Rep c pins touched clock) (hmem : (it, ent) ∈ c.cache_list_.nodes) :
    Rep (c.remove it ent) pins touched clock where
  indexed := h.indexed.erase hmem
  count := by
    have hlength := (LRUList.perm_erase hmem).length_eq
    have hcount := h.count
    rw [List.length_cons] at hlength
    show c.helper_.count_ - 1 = (c.cache_list_.erase it).nodes.length
    omega
  pins it' ent' hmem' := h.pins it' ent' (LRUList.mem_erase.1 hmem').1
  recent := h.recent.erase it

theorem Rep.append (h : Rep c pins touched clock) {key : Key}
    (hnew : c.cache_map_.lookup key = none) (val : Val) :
    Rep (c.append key val) (Function.update pins c.cache_list_.next 1)
      (Function.update touched c.cache_list_.next clock) (clock + 1) where
  indexed := h.indexed.pushBack { key_ := key, val_ := val, pin_count_ := 1 } hnew
  count := by
    show c.helper_.count_ + 1 = _
    rw [h.count]
    simp [Cache.append, LRUList.pushBack]
  pins it ent hmem := by
    cases LRUList.mem_pushBack.1 hmem with
    | inl hold =>
      rw [Function.update_of_ne (Nat.ne_of_lt (c.cache_list_.lt_next _ hold))]
      exact h.pins it ent hold
    | inr hlast =>
      obtain ⟨rfl, rfl⟩ := Prod.mk.inj hlast
      rw [Function.update_self]
      rfl
  recent := h.recent.pushBack _

theorem Rep.moveToBack (h : Rep c pins touched clock) (hmem : (it, ent) ∈ c.cache_list_.nodes) :
    Rep { c with cache_list_ := c.cache_list_.moveToBack it } pins
      (Function.update touched it clock) (clock + 1) where
  indexed := h.indexed.moveToBack it
  count := by
    rw [h.count]
    exact (LRUList.perm_moveToBack _ it).length_eq.symm
  pins it' ent' hmem' := h.pins it' ent' (LRUList.mem_moveToBack.1 hmem')
  recent := h.recent.moveToBack (LRUList.mem_iterators.2 ⟨ent, hmem⟩)

theorem Rep.access (h : Rep c pins touched clock) (hmem : (it, ent) ∈ c.cache_list_.nodes) :
    Rep (c.access it) pins
      (if c.reorder_on_access_ then Function.update touched it clock else touched)
      (if c.reorder_on_access_ then clock + 1 else clock) := by
  unfold Cache.access
  split
  · exact h.moveToBack hmem
  · exact h

theorem Rep.pinIf {pin : Bool} (h : Rep c pins touched clock)
    (hpin : c.pinIf it pin = .ok c') :
    Rep c' (if pin then Function.update pins it (pins it + 1) else pins) touched clock ∧
      c'.reorder_on_access_ = c.reorder_on_access_ := by
  unfold Cache.pinIf at hpin
  split at hpin
  · rename_i hasked
    obtain ⟨⟨count, c₁⟩, hadd, rfl⟩ := map_eq_ok.1 hpin
    rw [if_pos hasked]
    refine ⟨h.addPins hadd (by simp), ?_⟩
    obtain ⟨ent, -, rfl⟩ := addPins_cases hadd
    rfl
  · rename_i hasked
    obtain rfl := Except.ok.inj hpin
    rw [if_neg hasked]
    exact ⟨h, rfl⟩

theorem Rep.evictAll (h : Rep c pins touched clock) : Rep c.evictAll pins touched clock where
  indexed := .of_nodes_eq_nil rfl
  count := by
    -- the helper is told of each entry, and counts it off
    have hfold : ∀ (ents : List (LRUListEnt Key Val)) (helper : CacheCapacityHelper Key Val),
        (ents.foldl (fun helper ent => CacheHelper.cleanup helper ent.key_ ent.val_)
          helper).count_ = helper.count_ - ents.length := by
      intro ents
      induction ents with
      | nil => intro helper; rfl
      | cons ent ents ih =>
        intro helper
        rw [List.foldl_cons, ih]
        show helper.count_ - 1 - ents.length = _
        rw [List.length_cons]
        omega
    show (c.cache_list_.elts.foldl _ c.helper_).count_ = 0
    rw [hfold, h.count, LRUList.elts, List.length_map, Nat.sub_self]
  pins _ _ hmem := nomatch hmem
  recent := .of_nodes_eq_nil rfl

/-! ### Evictions -/

theorem Rep.evictLast (h : Rep c pins touched clock) (hevict : c.evictLast = some c') :
    ∃ it ent, (it, ent) ∈ c.cache_list_.nodes ∧ pins it = 0 ∧
      (∀ n ∈ c.cache_list_.nodes, pins n.1 = 0 → n.1 ≠ it → touched it < touched n.1) ∧
      c' = c.remove it ent := by
  unfold Cache.evictLast at hevict
  split at hevict
  · cases hevict
  rename_i it ent hfind
  obtain rfl := Option.some.inj hevict
  have hmem := List.mem_of_find?_eq_some hfind
  have hfree := List.find?_some hfind
  rw [decide_eq_true_iff] at hfree
  refine ⟨it, ent, hmem, ?_, ?_, rfl⟩
  · have hpins := h.pins it ent hmem
    simp only at hfree
    omega
  · intro n hn hpins hne
    -- the nodes stand in the order of their last touch, and `it` is the first that is free
    apply h.recent.find? hfind hn _ hne
    rw [decide_eq_true_iff, h.pins n.1 n.2 hn, hpins]
    rfl

theorem Rep.pos_of_evictLast (h : Rep c pins touched clock) (hevict : c.evictLast = none) :
    ∀ n ∈ c.cache_list_.nodes, 0 < pins n.1 := by
  unfold Cache.evictLast at hevict
  split at hevict
  swap
  · cases hevict
  rename_i hfind
  intro n hn
  have hbusy := List.find?_eq_none.1 hfind n hn
  rw [decide_eq_true_iff] at hbusy
  have hpins := h.pins n.1 n.2 hn
  omega

/-- The loop ends within as many rounds as the list has nodes and one, over the limit only
    where it leaves nothing but pinned entries. -/
theorem Rep.makeRoom (key : Key) (val : Val) {fuel : Nat} (h : Rep c pins touched clock)
    (hfuel : c.cache_list_.nodes.length < fuel) :
    ∃ c', Cache.makeRoom key val fuel c = .ok c' ∧ Evicts pins touched c c' ∧
      Rep c' pins touched clock ∧
      (CacheHelper.over_limit c'.helper_ key val = true →
        ∀ n ∈ c'.cache_list_.nodes, 0 < pins n.1) ∧
      (c.cache_map_.lookup key = none → c'.cache_map_.lookup key = none) := by
  induction fuel generalizing c with
  | zero => exact absurd hfuel (Nat.not_lt_zero _)
  | succ fuel ih =>
    unfold Cache.makeRoom
    split
    swap
    · rename_i hroom
      exact ⟨c, rfl, .done c, h, fun hover => absurd hover hroom, id⟩
    split
    · rename_i hbusy
      exact ⟨c, rfl, .done c, h, fun _ => h.pos_of_evictLast hbusy, id⟩
    · rename_i c₁ hevict
      obtain ⟨it, ent, hmem, hpins, hleast, rfl⟩ := h.evictLast hevict
      -- each round takes a node away, and the fuel exceeds their number
      have hlength : (c.remove it ent).cache_list_.nodes.length + 1 =
          c.cache_list_.nodes.length := (LRUList.perm_erase hmem).length_eq.symm
      obtain ⟨c', hrun, hevicts, hrep, hover, hnone⟩ := ih (h.remove hmem) (by omega)
      refine ⟨c', hrun, .evict hmem hpins hleast hevicts, hrep, hover, fun hlookup => hnone ?_⟩
      exact AList.lookup_erase_eq_none hlookup ent.key_

theorem Rep.putAndPin (h : Rep c pins touched clock) {key : Key}
    (hnew : c.cache_map_.lookup key = none) (val : Val) :
    ∃ kept, Evicts pins touched c kept ∧
      c.putAndPin key val = .ok (some kept.cache_list_.next, kept.append key val) ∧
      Rep kept pins touched clock ∧ kept.cache_map_.lookup key = none ∧
      (CacheHelper.over_limit kept.helper_ key val = true →
        ∀ n ∈ kept.cache_list_.nodes, 0 < pins n.1) := by
  obtain ⟨kept, hroom, hevicts, hrep, hover, hnone⟩ := h.makeRoom key val (Nat.lt_succ_self _)
  refine ⟨kept, hevicts, ?_, hrep, hnone hnew, hover⟩
  unfold Cache.putAndPin
  rw [hnew]
  show (Cache.makeRoom key val _ c >>= fun c => _) = _
  rw [hroom]
  rfl

end Rep

/-! ### The run -/

section Run

variable {s s' : State Key Val}

theorem rep_new (capacity : Nat) (reorder_on_access : Bool) :
    (State.new capacity reorder_on_access : State Key Val).Rep where
  indexed := .of_nodes_eq_nil rfl
  count := rfl
  pins _ _ hmem := nomatch hmem
  recent := .of_nodes_eq_nil rfl

theorem rep_get (h : s.Rep) {key : Key} {pin : Bool} {res : Option (Val × Iterator)}
    {cache : Cache Key Val (CacheCapacityHelper Key Val)}
    (hget : s.cache.get key pin = .ok (res, cache)) :
    (res.elim { s with cache } fun r => ({ s with cache } : State Key Val).found pin r.2).Rep := by
  unfold Cache.get at hget
  split at hget
  · obtain ⟨rfl, rfl⟩ := Prod.mk.inj (Except.ok.inj hget)
    exact h
  rename_i it hlookup
  obtain ⟨ent, hmem, -⟩ := h.indexed.node hlookup
  obtain ⟨c₂, hpin, hrest⟩ := bind_eq_ok.1 hget
  split at hrest
  · cases hrest
  obtain ⟨rfl, rfl⟩ := Prod.mk.inj (Except.ok.inj hrest)
  obtain ⟨hrep, hkeep⟩ := (h.access hmem).pinIf hpin
  have hreorder : (s.cache.access it).reorder_on_access_ = s.cache.reorder_on_access_ := by
    unfold Cache.access
    split <;> rfl
  rw [hreorder] at hkeep
  show (({ s with cache := c₂ } : State Key Val).found pin it).Rep
  unfold State.found
  -- with and without a pin, with and without reordering
  cases pin <;> cases hr : s.cache.reorder_on_access_ <;>
    simpa [State.book, State.touch, hkeep, hr] using hrep

theorem rep_putAndPin (h : s.Rep) {key : Key} {val : Val} {handle : Option Iterator}
    {cache : Cache Key Val (CacheCapacityHelper Key Val)}
    (hput : s.cache.putAndPin key val = .ok (handle, cache)) :
    (handle.elim { s with cache } fun it =>
      (({ s with cache } : State Key Val).book (fun _ => 1) it).touch it).Rep := by
  cases hlookup : s.cache.cache_map_.lookup key with
  | some it =>
    unfold Cache.putAndPin at hput
    rw [hlookup] at hput
    obtain ⟨rfl, rfl⟩ := Prod.mk.inj (Except.ok.inj hput)
    exact h
  | none =>
    obtain ⟨kept, -, hrun, hrep, hnew, -⟩ := h.putAndPin hlookup val
    rw [hrun] at hput
    obtain ⟨rfl, rfl⟩ := Prod.mk.inj (Except.ok.inj hput)
    exact hrep.append hnew val

theorem rep_book (h : s.Rep) {key : Key} {d count : Int} {f : Nat → Nat} {it : Iterator}
    {cache : Cache Key Val (CacheCapacityHelper Key Val)}
    (hlookup : s.cache.cache_map_.lookup key = some it)
    (hadd : s.cache.addPins it d = .ok (count, cache))
    (hf : (f (s.pins it) : Int) = s.pins it + d) :
    ((cache.cache_map_.lookup key).elim { s with cache }
      (({ s with cache } : State Key Val).book f)).Rep := by
  have hrep := h.addPins hadd hf
  -- a pin leaves the map alone
  obtain ⟨ent, -, rfl⟩ := addPins_cases hadd
  rw [show AList.lookup key _ = some it from hlookup]
  exact hrep

theorem rep_exec {op : Op Key Val} (h : s.Rep) (hmatched : Matched s op)
    (hexec : exec s op = .ok s') : s'.Rep := by
  -- a pin or an unpin books one record, the rest go by their own lemmas
  cases op with
  | putAndPin key val =>
    obtain ⟨⟨handle, cache⟩, hput, hrest⟩ := bind_eq_ok.1 hexec
    obtain rfl := Except.ok.inj hrest
    exact rep_putAndPin h hput
  | get key pin =>
    obtain ⟨⟨res, cache⟩, hget, hrest⟩ := bind_eq_ok.1 hexec
    obtain rfl := Except.ok.inj hrest
    exact rep_get h hget
  | getAndPin key =>
    obtain ⟨⟨res, cache⟩, hget, hrest⟩ := bind_eq_ok.1 hexec
    obtain rfl := Except.ok.inj hrest
    exact rep_get h hget
  | pin key =>
    obtain ⟨⟨count, cache⟩, hpin, hrest⟩ := bind_eq_ok.1 hexec
    obtain rfl := Except.ok.inj hrest
    obtain ⟨it, hlookup, hadd⟩ := pin_cases hpin
    exact rep_book h hlookup hadd (by simp)
  | pinHandle itr_ =>
    obtain ⟨⟨count, cache⟩, hpin, hrest⟩ := bind_eq_ok.1 hexec
    obtain rfl := Except.ok.inj hrest
    exact h.addPins hpin (by simp)
  | unpin key =>
    obtain ⟨⟨count, cache⟩, hunpin, hrest⟩ := bind_eq_ok.1 hexec
    obtain rfl := Except.ok.inj hrest
    obtain ⟨it, hlookup, hadd⟩ := unpin_cases hunpin
    have hpos := hmatched it hlookup
    apply rep_book h hlookup hadd
    show ((s.pins it - 1 : Nat) : Int) = _
    omega
  | unpinHandle itr_ =>
    obtain ⟨⟨count, cache⟩, hunpin, hrest⟩ := bind_eq_ok.1 hexec
    obtain rfl := Except.ok.inj hrest
    have hpos : 0 < s.pins itr_ := hmatched
    apply h.addPins hunpin
    show ((s.pins itr_ - 1 : Nat) : Int) = _
    omega
  | evict key =>
    obtain ⟨cache, hevict, hrest⟩ := bind_eq_ok.1 hexec
    obtain rfl := Except.ok.inj hrest
    unfold Cache.evict at hevict
    split at hevict
    · obtain rfl := Except.ok.inj hevict
      exact h
    split at hevict
    · cases hevict
    rename_i ent hderef
    obtain ⟨-, -, hdone⟩ := bind_eq_ok.1 hevict
    obtain rfl := Except.ok.inj hdone
    exact h.remove (LRUList.deref_eq_some.1 hderef)
  | evictAll =>
    obtain rfl := Except.ok.inj hexec
    exact h.evictAll

theorem Rep.puts (h : s.Rep) (key : Key) (val : Val) : Puts s key val := by
  unfold Puts
  split
  · rename_i it hlookup
    unfold Cache.putAndPin
    rw [hlookup]
    rfl
  · rename_i hlookup
    obtain ⟨kept, hevicts, hrun, -, -, hover⟩ := Rep.putAndPin h hlookup val
    refine ⟨kept, hevicts, hrun, fun hcount => hover ?_⟩
    exact decide_eq_true hcount

end Run

end Oasys.Cache
