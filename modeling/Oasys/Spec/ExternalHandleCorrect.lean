import Oasys.Spec.CacheCorrect
import Oasys.Util.ExternalHandle

/-!
# ExternalHandle correctness

Handles as reference counts: the pin count of an entry is the number of live handles that
refer to it and its explicit pins together. A handle pins what it is given without looking
whether that is valid, so the count holds in the runs in which no handle is made or
assigned from an empty one; `Careful` is that condition.

The caches are those of `Oasys.Cache`, whose records keep the explicit pins here. The
invariant is the one of a cache again, with the pins of the handles added to the records.
-/

namespace Oasys.ExternalHandle

open LRUList (Iterator)

variable {ι Key Val : Type}

/-! ### The runs -/

/-- The caches, and the handles that are alive. -/
structure State (ι Key Val : Type) where
  /-- The caches, the records of which count the explicit pins. -/
  caches : ι → Cache.State Key Val
  /-- The handles by their addresses, each with its `cache_handle_`. -/
  objs : AList fun _ : Nat => Handle ι
  /-- Why a member of a handle has not returned; the state is the one it was called in. -/
  fault : Option Fault

/-- The members of the handles, and the other calls of the clients of the caches. -/
inductive Op (ι Key Val : Type) where
  | new (obj : Nat)
  | create (obj : Nat) (cache_handle : Handle ι)
  | copy (obj other : Nat)
  | assign (obj other : Nat)
  | destroy (obj : Nat)
  | client (cache : ι) (op : Cache.Op Key Val)

def Op.isClient : Op ι Key Val → Bool
  | .client _ _ => true
  | _ => false

def State.cells (s : State ι Key Val) (i : ι) : Cache Key Val (CacheCapacityHelper Key Val) :=
  (s.caches i).cache

/-- The caches have been changed through handles. -/
def State.withCells (s : State ι Key Val)
    (cells : ι → Cache Key Val (CacheCapacityHelper Key Val)) : State ι Key Val :=
  { s with caches := fun i => { s.caches i with cache := cells i } }

def State.handle (s : State ι Key Val) (obj : Nat) : Handle ι := (s.objs.lookup obj).getD new

variable [DecidableEq ι] [DecidableEq Key]

/-- What a call leaves. -/
def exec (s : State ι Key Val) : Op ι Key Val → Except Fault (State ι Key Val)
  | .new obj => pure { s with objs := s.objs.insert obj new }
  | .create obj cache_handle => do
    let (h, cells) ← create s.cells cache_handle
    pure { s.withCells cells with objs := s.objs.insert obj h }
  | .copy obj other => do
    let (h, cells) ← create s.cells (s.handle other)
    pure { s.withCells cells with objs := s.objs.insert obj h }
  | .assign obj other => do
    let (h, cells) ← assign s.cells (obj = other) (s.handle obj) (s.handle other)
    pure { s.withCells cells with objs := s.objs.insert obj h }
  | .destroy obj => do
    let cells ← destroy s.cells (s.handle obj)
    pure { s.withCells cells with objs := s.objs.erase obj }
  | .client i op => do
    let c ← Cache.exec (s.caches i) op
    pure { s with caches := Function.update s.caches i c }

/-- How often a handle refers to the entry `p`. -/
def refs (h : Handle ι) (p : ι × Iterator) : Nat := if h = some p then 1 else 0

/-- The number of live handles that refer to the entry `p`. -/
def handlesTo (objs : AList fun _ : Nat => Handle ι) (p : ι × Iterator) : Nat :=
  objs.sumBy fun h => refs h p

/-- The call throws the entry at `it` out by force. -/
def Forces (c : Cache.State Key Val) (it : Iterator) : Cache.Op Key Val → Prop
  | .evict key => c.cache.cache_map_.lookup key = some it
  | .evictAll => True
  | _ => False

/-- A call the clients can make: a handle is made where there is none, from a `Handle` whose
    entry is there, and used while it lives; an explicit unpin undoes an explicit pin; no
    entry is thrown out by force while a handle refers to it. -/
def Enabled (s : State ι Key Val) : Op ι Key Val → Prop
  | .new obj => s.objs.lookup obj = none
  | .create obj cache_handle => s.objs.lookup obj = none ∧
      ∀ i it, cache_handle = some (i, it) → it ∈ (s.cells i).cache_list_.iterators
  | .copy obj other => s.objs.lookup obj = none ∧ (s.objs.lookup other).isSome
  | .assign obj other => (s.objs.lookup obj).isSome ∧ (s.objs.lookup other).isSome
  | .destroy obj => (s.objs.lookup obj).isSome
  | .client i op => Cache.Matched (s.caches i) op ∧
      ∀ it, Forces (s.caches i) it op → handlesTo s.objs (i, it) = 0

/-- A step: a member of a handle may fail, and ends the run; the other calls return. -/
def next (s : State ι Key Val) (op : Op ι Key Val) (s' : State ι Key Val) : Prop :=
  match exec s op with
  | .ok s₁ => s' = s₁
  | .error e => op.isClient = false ∧ s' = { s with fault := some e }

variable (ι Key Val) in
/-- New caches without handles, under any sequence of calls. -/
def system : TransitionSystem (State ι Key Val) (Op ι Key Val) where
  init s := (∀ i, ∃ capacity reorder_on_access, s.caches i = .new capacity reorder_on_access) ∧
    s.objs = ∅ ∧ s.fault = none
  step s op s' := s.fault = none ∧ Enabled s op ∧ next s op s'

/-- No handle is made from an empty one, or assigned one other than itself. -/
def Careful (s : State ι Key Val) : Op ι Key Val → Prop
  | .create _ cache_handle => cache_handle ≠ none
  | .copy _ other => s.handle other ≠ none
  | .assign obj other => obj = other ∨ s.handle other ≠ none
  | _ => True

/-! ### What the handles promise -/

/-- The pins are accounted for. -/
structure Accounted (s : State ι Key Val) : Prop where
  /-- A pin count is the number of handles that refer to the entry and its explicit pins. -/
  count : ∀ i it ent, (s.cells i).cache_list_.deref it = some ent →
    ent.pin_count_ = (handlesTo s.objs (i, it) + (s.caches i).pins it : Nat)
  /-- The entry a handle would unpin is there, and pinned. -/
  held : ∀ obj i it, s.objs.lookup obj = some (some (i, it)) →
    ∃ ent, (s.cells i).cache_list_.deref it = some ent ∧ 0 < ent.pin_count_
  /-- No member of a handle has used a null cache pointer or an entry that is gone. -/
  safe : s.fault ≠ some .nullDeref ∧ s.fault ≠ some .invalidIterator

/-! ### Calls that return unless a pin count overflows -/

/-- `x` returns a value with `P`, unless a pin count has left the range of `int`. -/
def Returns {α : Type} (x : Except Fault α) (P : α → Prop) : Prop :=
  match x with
  | .ok a => P a
  | .error e => e = .overflow

omit [DecidableEq ι] [DecidableEq Key] in
theorem Returns.bind {α β : Type} {x : Except Fault α} {f : α → Except Fault β}
    {P : α → Prop} {Q : β → Prop} (hx : Returns x P) (hf : ∀ a, P a → Returns (f a) Q) :
    Returns (x >>= f) Q := by
  cases x with
  | error e => exact hx
  | ok a => exact hf a hx

omit [DecidableEq ι] [DecidableEq Key] in
theorem Returns.map {α β : Type} {x : Except Fault α} {f : α → β} {P : β → Prop}
    (hx : Returns x fun a => P (f a)) : Returns (f <$> x) P := by
  cases x with
  | error e => exact hx
  | ok a => exact hx

/-! ### The cells and the references -/

/-- Each cache agrees with its part of `total`. -/
def Agree (cells : ι → Cache Key Val (CacheCapacityHelper Key Val))
    (total : ι × Iterator → Nat) (touched : ι → Iterator → Nat) (clock : ι → Nat) : Prop :=
  ∀ i, Cache.Rep (cells i) (fun it => total (i, it)) (touched i) (clock i)

def SameNodes (cells cells' : ι → Cache Key Val (CacheCapacityHelper Key Val)) : Prop :=
  ∀ i, (cells' i).cache_list_.iterators = (cells i).cache_list_.iterators

/-- The entry the handle refers to, if any, is there. -/
def Held (cells : ι → Cache Key Val (CacheCapacityHelper Key Val)) (h : Handle ι) : Prop :=
  ∀ i it, h = some (i, it) → it ∈ (cells i).cache_list_.iterators

section Cells

variable {cells cells' : ι → Cache Key Val (CacheCapacityHelper Key Val)}
  {total total' : ι × Iterator → Nat} {touched : ι → Iterator → Nat} {clock : ι → Nat}

omit [DecidableEq ι] [DecidableEq Key] in
theorem Held.sameNodes {h : Handle ι} (hheld : Held cells h) (hsame : SameNodes cells cells') :
    Held cells' h := by
  intro i it hh
  rw [hsame i]
  exact hheld i it hh

omit [DecidableEq ι] in
theorem addPins_returns {c : Cache Key Val (CacheCapacityHelper Key Val)}
    {pins touched : Iterator → Nat} {clock : Nat} (hc : c.Rep pins touched clock)
    {it : Iterator} (hit : it ∈ c.cache_list_.iterators) {d : Int} {n : Nat}
    (hn : (n : Int) = pins it + d) :
    Returns (c.addPins it d) fun r => r.2.Rep (Function.update pins it n) touched clock ∧
      r.2.cache_list_.iterators = c.cache_list_.iterators := by
  cases hadd : c.addPins it d with
  | ok r =>
    refine ⟨hc.addPins hadd hn, ?_⟩
    obtain ⟨ent, -, hr⟩ := Cache.addPins_cases hadd
    rw [hr, LRUList.iterators_set]
  | error e =>
    -- the entry is there, so only the range of `int` can stop the change
    obtain ⟨ent, hmem⟩ := LRUList.mem_iterators.1 hit
    unfold Cache.addPins at hadd
    rw [LRUList.deref_eq_some.2 hmem] at hadd
    simp only at hadd
    split at hadd
    · cases hadd
    · exact (Except.error.inj hadd).symm

theorem Agree.update (hagree : Agree cells total touched clock) {i : ι} {it : Iterator} {n : Nat}
    {c : Cache Key Val (CacheCapacityHelper Key Val)}
    (hc : c.Rep (Function.update (fun it => total (i, it)) it n) (touched i) (clock i))
    (htotal : ∀ q, total' q = Function.update total (i, it) n q) :
    Agree (Function.update cells i c) total' touched clock := by
  intro j
  -- in the other cells nothing has changed, and neither has their part of the total
  by_cases hj : j = i
  · subst hj
    rw [Function.update_self]
    convert hc using 1
    funext it'
    rw [htotal]
    by_cases hit : it' = it
    · rw [hit, Function.update_self, Function.update_self]
    · rw [Function.update_of_ne hit, Function.update_of_ne (by simp [hit])]
  · rw [Function.update_of_ne hj]
    convert hagree j using 1
    funext it'
    rw [htotal, Function.update_of_ne (by simp [hj])]

omit [DecidableEq Key] in
theorem sameNodes_update {i : ι} {c : Cache Key Val (CacheCapacityHelper Key Val)}
    (hc : c.cache_list_.iterators = (cells i).cache_list_.iterators) :
    SameNodes cells (Function.update cells i c) := by
  intro j
  by_cases hj : j = i
  · subst hj
    rw [Function.update_self, hc]
  · rw [Function.update_of_ne hj]

theorem pin_returns (hagree : Agree cells total touched clock) {h : Handle ι}
    (hvalid : h ≠ none) (hheld : Held cells h) (htotal : ∀ q, total' q = total q + refs h q) :
    Returns (h.pin cells) fun r => Agree r.2 total' touched clock ∧ SameNodes cells r.2 := by
  obtain ⟨⟨i, it⟩, rfl⟩ := Option.ne_none_iff_exists'.1 hvalid
  apply (addPins_returns (hagree i) (hheld i it rfl) (n := total (i, it) + 1) (by simp)).bind
  rintro ⟨count, c⟩ ⟨hrep, hsame⟩
  refine ⟨hagree.update hrep fun q => ?_, sameNodes_update hsame⟩
  -- the total grows by one where the handle refers to, and nowhere else
  rw [htotal, refs, Function.update_apply]
  by_cases hq : q = (i, it)
  · rw [if_pos (by rw [hq]), if_pos hq, hq]
  · rw [if_neg (by simpa using fun h => hq h.symm), if_neg hq, Nat.add_zero]

/-- A handle lets go of its entry, and its reference leaves the total. -/
theorem release_returns (hagree : Agree cells total touched clock) {h : Handle ι}
    (hheld : Held cells h) (htotal : ∀ q, total' q + refs h q = total q) :
    Returns (release cells h) fun cells' =>
      Agree cells' total' touched clock ∧ SameNodes cells cells' := by
  cases h with
  | none =>
    refine ⟨?_, fun _ => rfl⟩
    -- an empty handle has no reference
    have hsame : total' = total := by
      funext q
      simpa [refs] using htotal q
    rwa [hsame]
  | some p =>
    obtain ⟨i, it⟩ := p
    have hone := htotal (i, it)
    rw [refs, if_pos rfl] at hone
    have hrun : Returns (Handle.unpin cells (some (i, it))) fun r =>
        Agree r.2.2 total' touched clock ∧ SameNodes cells r.2.2 := by
      apply (addPins_returns (hagree i) (hheld i it rfl) (n := total' (i, it)) (d := -1)
        (by omega)).bind
      rintro ⟨count, c⟩ ⟨hrep, hsame⟩
      refine ⟨hagree.update hrep fun q => ?_, sameNodes_update hsame⟩
      have hq := htotal q
      rw [Function.update_apply]
      split
      · rename_i heq
        rw [heq]
      · rename_i hne
        rw [refs, if_neg (by simpa using fun h => hne h.symm)] at hq
        exact hq
    exact hrun.map

theorem create_returns (hagree : Agree cells total touched clock) {h : Handle ι}
    (hvalid : h ≠ none) (hheld : Held cells h) (htotal : ∀ q, total' q = total q + refs h q) :
    Returns (create cells h) fun r =>
      r.1 = h ∧ Agree r.2 total' touched clock ∧ SameNodes cells r.2 := by
  apply (pin_returns hagree hvalid hheld htotal).bind
  rintro ⟨count, cells₁⟩ hpinned
  exact ⟨rfl, hpinned⟩

/-- Assigning a valid handle: the new entry is pinned before the old one is let go, so it
    does not matter whether they are the same. -/
theorem assign_returns (hagree : Agree cells total touched clock) {old h : Handle ι}
    (hvalid : h ≠ none) (hold : Held cells old) (hheld : Held cells h)
    (htotal : ∀ q, total' q + refs old q = total q + refs h q) :
    Returns (assign cells false old h) fun r =>
      r.1 = h ∧ Agree r.2 total' touched clock ∧ SameNodes cells r.2 := by
  -- in between, the total has the references of both handles
  apply (pin_returns hagree hvalid hheld fun _ => rfl).bind
  rintro ⟨count, cells₁⟩ ⟨hpinned, hsame⟩
  apply (release_returns hpinned (hold.sameNodes hsame) htotal).bind
  rintro cells₂ ⟨hreleased, hsame'⟩
  exact ⟨rfl, hreleased, fun i => (hsame' i).trans (hsame i)⟩

end Cells

/-! ### The clients of a cache -/

section Client

variable {c c' : Cache.State Key Val} {op : Cache.Op Key Val}

theorem makeRoom_next {key : Key} {val : Val} {fuel : Nat}
    {c c' : Cache Key Val (CacheCapacityHelper Key Val)}
    (h : Cache.makeRoom key val fuel c = .ok c') : c'.cache_list_.next = c.cache_list_.next := by
  induction fuel generalizing c with
  | zero => cases h
  | succ fuel ih =>
    -- the induction is on the fuel, one round for each eviction
    unfold Cache.makeRoom at h
    split at h
    swap
    · rw [← Except.ok.inj h]
    split at h
    · rw [← Except.ok.inj h]
    · rename_i c₁ hevict
      rw [ih h]
      unfold Cache.evictLast at hevict
      split at hevict
      · cases hevict
      · rw [← Option.some.inj hevict]
        rfl

theorem next_of_putAndPin {key : Key} {val : Val} {it : Iterator}
    {c c' : Cache Key Val (CacheCapacityHelper Key Val)}
    (h : c.putAndPin key val = .ok (some it, c')) : it = c.cache_list_.next := by
  unfold Cache.putAndPin at h
  split at h
  · cases h
  · obtain ⟨kept, hroom, hrest⟩ := bind_eq_ok.1 h
    obtain ⟨hit, -⟩ := Prod.mk.inj (Except.ok.inj hrest)
    rw [← Option.some.inj hit, makeRoom_next hroom]

def shift (live : Iterator → Nat) (c : Cache.State Key Val) : Cache.State Key Val :=
  { c with pins := fun it => live it + c.pins it }

omit [DecidableEq Key] in
theorem shift_book (live : Iterator → Nat) (f : Nat → Nat) (it : Iterator)
    (hf : f (live it + c.pins it) = live it + f (c.pins it)) :
    (shift live c).book f it = shift live (c.book f it) := by
  have hpins : Function.update (fun it => live it + c.pins it) it (f (live it + c.pins it)) =
      fun it' => live it' + Function.update c.pins it (f (c.pins it)) it' := by
    funext it'
    by_cases hit : it' = it
    · rw [hit, Function.update_self, Function.update_self, hf]
    · rw [Function.update_of_ne hit, Function.update_of_ne hit]
  unfold Cache.State.book shift
  simp only [hpins]

omit [DecidableEq Key] in
theorem shift_found {live : Iterator → Nat} (pin : Bool) (it : Iterator) :
    (shift live c).found pin it = shift live (c.found pin it) := by
  have hbook := shift_book (c := c) live (· + 1) it (Nat.add_assoc _ _ 1)
  unfold Cache.State.found
  cases pin with
  | false =>
    simp only [Bool.false_eq_true, if_false]
    show (if c.cache.reorder_on_access_ then _ else _) = _
    split <;> rfl
  | true =>
    simp only [if_true, hbook]
    show (if c.cache.reorder_on_access_ then _ else _) =
      shift live (if c.cache.reorder_on_access_ then _ else _)
    split <;> rfl

omit [DecidableEq Key] in
theorem shift_bookAt {live : Iterator → Nat} {f : Nat → Nat} {res : Option Iterator}
    (hf : ∀ it, res = some it → f (live it + c.pins it) = live it + f (c.pins it)) :
    res.elim (shift live c) ((shift live c).book f) = shift live (res.elim c (c.book f)) := by
  cases res with
  | none => rfl
  | some it => exact shift_book live f it (hf it rfl)

omit [DecidableEq Key] in
theorem bookAt_cache (f : Nat → Nat) (res : Option Iterator) :
    (res.elim c (c.book f)).cache = c.cache := by
  cases res <;> rfl

omit [DecidableEq Key] in
theorem found_cache (pin : Bool) (res : Option (Val × Iterator)) :
    (res.elim c fun r => c.found pin r.2).cache = c.cache := by
  cases res with
  | none => rfl
  | some r =>
    show (c.found pin r.2).cache = c.cache
    unfold Cache.State.found
    cases pin <;> simp only [Bool.false_eq_true, if_false, if_true] <;> split <;> rfl

theorem get_shift {live : Iterator → Nat} {key : Key} {pin : Bool}
    (hexec : Cache.exec c (.get key pin) = .ok c') :
    Cache.exec (shift live c) (.get key pin) = .ok (shift live c') := by
  obtain ⟨⟨res, cache⟩, hget, hrest⟩ := bind_eq_ok.1 hexec
  obtain rfl := Except.ok.inj hrest
  show (c.cache.get key pin >>= _) = _
  rw [hget]
  cases res with
  | none => rfl
  | some r => exact congrArg Except.ok (shift_found (c := { c with cache }) pin r.2)

/-- The records may hold the pins of others too: the calls of a client leave them alone. -/
theorem exec_shift {live : Iterator → Nat}
    (hfresh : ∀ it, c.cache.cache_list_.next ≤ it → live it = 0)
    (hmatched : Cache.Matched c op) (hexec : Cache.exec c op = .ok c') :
    Cache.exec (shift live c) op = .ok (shift live c') := by
  cases op with
  | putAndPin key val =>
    obtain ⟨⟨handle, cache⟩, hput, hrest⟩ := bind_eq_ok.1 hexec
    obtain rfl := Except.ok.inj hrest
    show (c.cache.putAndPin key val >>= _) = _
    rw [hput]
    cases handle with
    | none => rfl
    | some it =>
      -- the entry is new: no handle refers to it yet, and the record starts from one pin
      have hzero := hfresh it (Nat.le_of_eq (next_of_putAndPin hput).symm)
      have hbook := shift_book (c := { c with cache }) live (fun _ => 1) it (by simp [hzero])
      show Except.ok (((shift live { c with cache }).book (fun _ => 1) it).touch it) = _
      rw [hbook]
      rfl
  | get key pin => exact get_shift hexec
  | getAndPin key =>
    have hget : Cache.exec c (.get key true) = .ok c' := hexec
    exact get_shift hget
  | pin key =>
    obtain ⟨⟨count, cache⟩, hpin, hrest⟩ := bind_eq_ok.1 hexec
    obtain rfl := Except.ok.inj hrest
    show (c.cache.pin key >>= _) = _
    rw [hpin]
    exact congrArg Except.ok (shift_bookAt (c := { c with cache }) (f := (· + 1))
      fun it _ => Nat.add_assoc _ _ 1)
  | pinHandle itr_ =>
    obtain ⟨⟨count, cache⟩, hpin, hrest⟩ := bind_eq_ok.1 hexec
    obtain rfl := Except.ok.inj hrest
    show (c.cache.pinHandle itr_ >>= _) = _
    rw [hpin]
    exact congrArg Except.ok (shift_book (c := { c with cache }) live (· + 1) _
        (Nat.add_assoc _ _ 1))
  | unpin key =>
    obtain ⟨⟨count, cache⟩, hunpin, hrest⟩ := bind_eq_ok.1 hexec
    obtain rfl := Except.ok.inj hrest
    show (c.cache.unpin key >>= _) = _
    rw [hunpin]
    -- the pin that is undone is one of the client's own, so the subtraction is a true one
    have hmap : cache.cache_map_ = c.cache.cache_map_ := by
      obtain ⟨it, -, hadd⟩ := Cache.unpin_cases hunpin
      obtain ⟨ent, -, rfl⟩ := Cache.addPins_cases hadd
      rfl
    exact congrArg Except.ok (shift_bookAt (c := { c with cache }) (f := (· - 1))
      fun it hit => Nat.add_sub_assoc (hmatched it (hmap ▸ hit)) _)
  | unpinHandle itr_ =>
    obtain ⟨⟨count, cache⟩, hunpin, hrest⟩ := bind_eq_ok.1 hexec
    obtain rfl := Except.ok.inj hrest
    show (c.cache.unpinHandle itr_ >>= _) = _
    rw [hunpin]
    have hpos : 0 < c.pins itr_ := hmatched
    exact congrArg Except.ok (shift_book (c := { c with cache }) live (· - 1) _
      (Nat.add_sub_assoc hpos _))
  | evict key =>
    obtain ⟨cache, hevict, hrest⟩ := bind_eq_ok.1 hexec
    obtain rfl := Except.ok.inj hrest
    show (c.cache.evict key >>= _) = _
    rw [hevict]
    rfl
  | evictAll =>
    obtain rfl := Except.ok.inj hexec
    rfl

theorem evicts_keep {pins touched : Iterator → Nat}
    {c c' : Cache Key Val (CacheCapacityHelper Key Val)} (h : Cache.Evicts pins touched c c')
    {it : Iterator} (hit : it ∈ c.cache_list_.iterators) (hpos : 0 < pins it) :
    it ∈ c'.cache_list_.iterators := by
  induction h with
  | done c => exact hit
  | @evict c c' it' ent hmem hpins hleast hrest ih =>
    -- what is evicted has no pins, and is another entry
    apply ih
    obtain ⟨elt, helt⟩ := LRUList.mem_iterators.1 hit
    apply LRUList.mem_iterators.2
    refine ⟨elt, LRUList.mem_erase.2 ⟨helt, fun hsame => ?_⟩⟩
    rw [show it = it' from hsame] at hpos
    omega

omit [DecidableEq Key] in
theorem addPins_keeps {c c' : Cache Key Val (CacheCapacityHelper Key Val)} {it : Iterator}
    {d count : Int} (h : c.addPins it d = .ok (count, c')) :
    c'.cache_list_.iterators = c.cache_list_.iterators := by
  obtain ⟨ent, -, rfl⟩ := Cache.addPins_cases h
  exact LRUList.iterators_set _ _ _

theorem get_keeps {c c' : Cache Key Val (CacheCapacityHelper Key Val)} {key : Key} {pin : Bool}
    {res : Option (Val × Iterator)} (h : c.get key pin = .ok (res, c')) {it : Iterator}
    (hit : it ∈ c.cache_list_.iterators) : it ∈ c'.cache_list_.iterators := by
  unfold Cache.get at h
  split at h
  · rw [← (Prod.mk.inj (Except.ok.inj h)).2]
    exact hit
  rename_i it' hlookup
  obtain ⟨c₁, hpin, hrest⟩ := bind_eq_ok.1 h
  have haccess : it ∈ (c.access it').cache_list_.iterators := by
    unfold Cache.access
    split
    · obtain ⟨elt, helt⟩ := LRUList.mem_iterators.1 hit
      exact LRUList.mem_iterators.2 ⟨elt, LRUList.mem_moveToBack.2 helt⟩
    · exact hit
  have hpinned : it ∈ c₁.cache_list_.iterators := by
    unfold Cache.pinIf at hpin
    split at hpin
    · obtain ⟨⟨count, c₂⟩, hadd, rfl⟩ := map_eq_ok.1 hpin
      rwa [show _ = _ from addPins_keeps hadd]
    · rwa [← Except.ok.inj hpin]
  split at hrest
  · cases hrest
  · rwa [← (Prod.mk.inj (Except.ok.inj hrest)).2]

theorem exec_keeps (h : c.Rep) {it : Iterator} (hit : it ∈ c.cache.cache_list_.iterators)
    (hpos : 0 < c.pins it) (hforce : ¬ Forces c it op) (hexec : Cache.exec c op = .ok c') :
    it ∈ c'.cache.cache_list_.iterators := by
  cases op with
  | putAndPin key val =>
    obtain ⟨⟨handle, cache⟩, hput, hrest⟩ := bind_eq_ok.1 hexec
    obtain rfl := Except.ok.inj hrest
    have hkeep : it ∈ cache.cache_list_.iterators := by
      cases hlookup : c.cache.cache_map_.lookup key with
      | some it' =>
        unfold Cache.putAndPin at hput
        rw [hlookup] at hput
        rwa [← (Prod.mk.inj (Except.ok.inj hput)).2]
      | none =>
        -- making room throws out entries without pins, and the new one joins what is left
        obtain ⟨kept, hevicts, hrun, -⟩ := Cache.Rep.putAndPin h hlookup val
        rw [hrun] at hput
        rw [← (Prod.mk.inj (Except.ok.inj hput)).2]
        obtain ⟨elt, helt⟩ := LRUList.mem_iterators.1 (evicts_keep hevicts hit hpos)
        exact LRUList.mem_iterators.2 ⟨elt, LRUList.mem_pushBack.2 (.inl helt)⟩
    cases handle <;> exact hkeep
  | get key pin =>
    obtain ⟨⟨res, cache⟩, hget, hrest⟩ := bind_eq_ok.1 hexec
    obtain rfl := Except.ok.inj hrest
    rw [found_cache]
    exact get_keeps hget hit
  | getAndPin key =>
    obtain ⟨⟨res, cache⟩, hget, hrest⟩ := bind_eq_ok.1 hexec
    obtain rfl := Except.ok.inj hrest
    rw [found_cache]
    exact get_keeps hget hit
  | pin key =>
    obtain ⟨⟨count, cache⟩, hpin, hrest⟩ := bind_eq_ok.1 hexec
    obtain rfl := Except.ok.inj hrest
    obtain ⟨it', -, hadd⟩ := Cache.pin_cases hpin
    rw [bookAt_cache]
    show it ∈ cache.cache_list_.iterators
    rwa [addPins_keeps hadd]
  | pinHandle itr_ =>
    obtain ⟨⟨count, cache⟩, hpin, hrest⟩ := bind_eq_ok.1 hexec
    obtain rfl := Except.ok.inj hrest
    show it ∈ cache.cache_list_.iterators
    rwa [addPins_keeps hpin]
  | unpin key =>
    obtain ⟨⟨count, cache⟩, hunpin, hrest⟩ := bind_eq_ok.1 hexec
    obtain rfl := Except.ok.inj hrest
    obtain ⟨it', -, hadd⟩ := Cache.unpin_cases hunpin
    rw [bookAt_cache]
    show it ∈ cache.cache_list_.iterators
    rwa [addPins_keeps hadd]
  | unpinHandle itr_ =>
    obtain ⟨⟨count, cache⟩, hunpin, hrest⟩ := bind_eq_ok.1 hexec
    obtain rfl := Except.ok.inj hrest
    show it ∈ cache.cache_list_.iterators
    rwa [addPins_keeps hunpin]
  | evict key =>
    obtain ⟨cache, hevict, hrest⟩ := bind_eq_ok.1 hexec
    obtain rfl := Except.ok.inj hrest
    -- the entry of the key goes, and that would be by force
    unfold Cache.evict at hevict
    split at hevict
    · obtain rfl := Except.ok.inj hevict
      exact hit
    rename_i it' hlookup
    split at hevict
    · cases hevict
    obtain ⟨-, -, hdone⟩ := bind_eq_ok.1 hevict
    obtain rfl := Except.ok.inj hdone
    obtain ⟨elt, helt⟩ := LRUList.mem_iterators.1 hit
    apply LRUList.mem_iterators.2
    refine ⟨elt, LRUList.mem_erase.2 ⟨helt, ?_⟩⟩
    rintro rfl
    exact hforce hlookup
  | evictAll => exact absurd trivial hforce

end Client

/-! ### The run -/

section Run

variable {s s' : State ι Key Val} {op : Op ι Key Val}

/-- The pins of an entry, those of the handles and the explicit ones. -/
def total (objs : AList fun _ : Nat => Handle ι) (caches : ι → Cache.State Key Val)
    (p : ι × Iterator) : Nat :=
  handlesTo objs p + (caches p.1).pins p.2

/-- The invariant. -/
structure Inv (s : State ι Key Val) : Prop where
  agree : Agree s.cells (total s.objs s.caches) (fun i => (s.caches i).touched)
    fun i => (s.caches i).clock
  held : ∀ obj h, s.objs.lookup obj = some h → Held s.cells h
  fault : s.fault = none ∨ s.fault = some .overflow

omit [DecidableEq Key] in
theorem total_insert_new {objs : AList fun _ : Nat => Handle ι} {obj : Nat}
    (hnew : objs.lookup obj = none) (h : Handle ι) (caches : ι → Cache.State Key Val)
    (p : ι × Iterator) : total (objs.insert obj h) caches p = total objs caches p + refs h p := by
  unfold total handlesTo
  rw [AList.sumBy_insert_of_notMem h hnew]
  omega

omit [DecidableEq Key] in
theorem total_insert {objs : AList fun _ : Nat => Handle ι} {obj : Nat} {old : Handle ι}
    (hold : objs.lookup obj = some old) (h : Handle ι) (caches : ι → Cache.State Key Val)
    (p : ι × Iterator) :
    total (objs.insert obj h) caches p + refs old p = total objs caches p + refs h p := by
  have hsum := AList.sumBy_insert (f := fun h => refs h p) h hold
  unfold total handlesTo
  omega

omit [DecidableEq Key] in
theorem total_erase {objs : AList fun _ : Nat => Handle ι} {obj : Nat} {old : Handle ι}
    (hold : objs.lookup obj = some old) (caches : ι → Cache.State Key Val) (p : ι × Iterator) :
    total (objs.erase obj) caches p + refs old p = total objs caches p := by
  have hsum := AList.sumBy_erase (f := fun h => refs h p) hold
  unfold total handlesTo
  omega

omit [DecidableEq ι] [DecidableEq Key] in
theorem handle_of_isSome {obj : Nat} (h : (s.objs.lookup obj).isSome) :
    s.objs.lookup obj = some (s.handle obj) := by
  obtain ⟨h', hlookup⟩ := Option.isSome_iff_exists.1 h
  rw [State.handle, hlookup]
  rfl

theorem Inv.members (h : Inv s) {objs : AList fun _ : Nat => Handle ι}
    (cells : ι → Cache Key Val (CacheCapacityHelper Key Val))
    (hagree : Agree cells (total objs s.caches) (fun i => (s.caches i).touched)
      fun i => (s.caches i).clock)
    (hsame : SameNodes s.cells cells)
    (hobjs : ∀ obj h, objs.lookup obj = some h → Held s.cells h) :
    Inv { s.withCells cells with objs } where
  agree := hagree
  held obj h hlookup := (hobjs obj h hlookup).sameNodes hsame
  fault := h.fault

theorem Inv.held_insert (h : Inv s) {obj : Nat} {hd : Handle ι} (hheld : Held s.cells hd) :
    ∀ obj' h', (s.objs.insert obj hd).lookup obj' = some h' → Held s.cells h' := by
  intro obj' h' hlookup
  by_cases hobj : obj' = obj
  · subst hobj
    rw [AList.lookup_insert] at hlookup
    rwa [← Option.some.inj hlookup]
  · rw [AList.lookup_insert_ne hobj] at hlookup
    exact h.held obj' h' hlookup

theorem Inv.create (h : Inv s) {obj : Nat} {hd : Handle ι} (hnew : s.objs.lookup obj = none)
    (hvalid : hd ≠ none) (hheld : Held s.cells hd) :
    Returns (ExternalHandle.create s.cells hd >>= fun r =>
      pure { s.withCells r.2 with objs := s.objs.insert obj r.1 }) Inv := by
  apply (create_returns h.agree hvalid hheld (total_insert_new hnew hd s.caches)).bind
  rintro ⟨hd', cells⟩ ⟨rfl, hagree, hsame⟩
  exact h.members cells hagree hsame (h.held_insert hheld)

/-- The members of the handles keep the invariant, in the runs that are careful. -/
theorem Inv.exec (h : Inv s) (henabled : Enabled s op) (hcareful : Careful s op)
    (hop : ∀ i c, op ≠ .client i c) : Returns (exec s op) Inv := by
  cases op with
  | new obj =>
    have hnew : s.objs.lookup obj = none := henabled
    have hsame : total (s.objs.insert obj none) s.caches = total s.objs s.caches := by
      funext p
      simpa [refs] using total_insert_new hnew none s.caches p
    exact h.members s.cells (hsame ▸ h.agree) (fun _ => rfl)
      (h.held_insert fun _ _ => nofun)
  | create obj hd => exact h.create henabled.1 hcareful henabled.2
  | copy obj other =>
    exact h.create henabled.1 hcareful (h.held other _ (handle_of_isSome henabled.2))
  | assign obj other =>
    have hold := handle_of_isSome henabled.1
    have hother := h.held other _ (handle_of_isSome henabled.2)
    by_cases hself : obj = other
    · -- the handle is put back where it was
      have hsame : total (s.objs.insert obj (s.handle obj)) s.caches = total s.objs s.caches := by
        funext p
        have hp := total_insert hold (s.handle obj) s.caches p
        omega
      show Returns (assign s.cells (decide (obj = other)) _ _ >>= _) _
      rw [decide_eq_true hself]
      exact h.members s.cells (hsame ▸ h.agree) (fun _ => rfl)
        (h.held_insert (h.held obj _ hold))
    · show Returns (assign s.cells (decide (obj = other)) _ _ >>= _) _
      rw [decide_eq_false hself]
      apply (assign_returns h.agree (hcareful.resolve_left hself) (h.held obj _ hold) hother
        (total_insert hold _ s.caches)).bind
      rintro ⟨hd, cells⟩ ⟨rfl, hagree, hsame⟩
      exact h.members cells hagree hsame (h.held_insert hother)
  | destroy obj =>
    have hold := handle_of_isSome henabled
    apply (release_returns h.agree (h.held obj _ hold) (total_erase hold s.caches)).bind
    rintro cells ⟨hagree, hsame⟩
    apply h.members cells hagree hsame
    intro obj' h' hlookup
    by_cases hobj : obj' = obj
    · rw [hobj, AList.lookup_erase] at hlookup
      cases hlookup
    · rw [AList.lookup_erase_ne hobj] at hlookup
      exact h.held obj' h' hlookup
  | client i c => exact absurd rfl (hop i c)

theorem Inv.client (h : Inv s) {i : ι} {c : Cache.Op Key Val} {c' : Cache.State Key Val}
    (hmatched : Cache.Matched (s.caches i) c)
    (hforce : ∀ it, Forces (s.caches i) it c → handlesTo s.objs (i, it) = 0)
    (hexec : Cache.exec (s.caches i) c = .ok c') :
    Inv { s with caches := Function.update s.caches i c' } := by
  -- the client works on a cache whose records hold the pins of the handles too
  let live := fun it => handlesTo s.objs (i, it)
  have hfresh : ∀ it, (s.cells i).cache_list_.next ≤ it → live it = 0 := by
    -- the entries that handles refer to are there, so their numbers are below the next one
    intro it hnext
    by_contra hne
    obtain ⟨obj, hd, hlookup, hrefs⟩ := AList.exists_lookup_of_sumBy_pos (Nat.pos_of_ne_zero hne)
    obtain ⟨hd', hmem⟩ := LRUList.mem_iterators.1 (h.held obj hd hlookup i it
      (by_contra fun hno => by rw [refs, if_neg hno] at hrefs; omega))
    exact Nat.not_lt.2 hnext ((s.cells i).cache_list_.lt_next _ hmem)
  have hrep : (shift live (s.caches i)).Rep := h.agree i
  have hshift := exec_shift hfresh hmatched hexec
  have hmatched' : Cache.Matched (shift live (s.caches i)) c := by
    cases c with
    | unpin key => exact fun it hit => Nat.add_pos_right _ (hmatched it hit)
    | unpinHandle itr_ => exact Nat.add_pos_right _ hmatched
    | _ => trivial
  refine ⟨?_, ?_, h.fault⟩
  · intro j
    by_cases hj : j = i
    · subst hj
      have hrep' := Cache.rep_exec hrep hmatched' hshift
      simpa [State.cells, total, shift, Cache.State.Rep] using hrep'
    · simpa [State.cells, total, hj] using h.agree j
  · rintro obj hd hlookup j it rfl
    have hit := h.held obj _ hlookup j it rfl
    by_cases hj : j = i
    · subst hj
      -- the handle itself is one of those that keep the entry
      have hlive : 0 < live it := by
        have hle := AList.le_sumBy (f := fun h => refs h (j, it)) hlookup
        rw [refs, if_pos rfl] at hle
        exact hle
      have hkeep := exec_keeps hrep hit (Nat.add_pos_left hlive _)
        (fun hforces => by
          have hzero := hforce it hforces
          exact Nat.ne_of_gt hlive hzero) hshift
      simpa [State.cells, shift] using hkeep
    · simpa [State.cells, hj] using hit

theorem Inv.next (h : Inv s) (henabled : Enabled s op) (hcareful : Careful s op)
    (hnext : next s op s') : Inv s' := by
  cases hop : op.isClient with
  | true =>
    -- the calls of the clients return
    obtain ⟨i, c, rfl⟩ : ∃ i c, op = .client i c := by
      cases op <;> first | exact ⟨_, _, rfl⟩ | cases hop
    unfold ExternalHandle.next at hnext
    split at hnext
    · rename_i s₁ hexec
      obtain ⟨c', hc', hrest⟩ := bind_eq_ok.1 hexec
      obtain rfl := hnext
      obtain rfl := Except.ok.inj hrest
      exact h.client henabled.1 henabled.2 hc'
    · cases hnext.1
  | false =>
    -- a member of a handle returns, or a pin count has left the range of `int`
    have hmember : ∀ i c, op ≠ .client i c := by
      rintro i c rfl
      cases hop
    have hret := h.exec henabled hcareful hmember
    unfold ExternalHandle.next at hnext
    split at hnext
    · rename_i s₁ hexec
      rw [hexec] at hret
      obtain rfl := hnext
      exact hret
    · rename_i e hexec
      rw [hexec] at hret
      obtain rfl := hnext.2
      exact ⟨h.agree, h.held, .inr (congrArg some hret)⟩

theorem inv_init (hs : (system ι Key Val).init s) : Inv s := by
  obtain ⟨hcaches, hobjs, hfault⟩ := hs
  refine ⟨?_, ?_, .inl hfault⟩
  · intro i
    obtain ⟨capacity, reorder_on_access, hi⟩ := hcaches i
    have hnew : (Cache.State.new capacity reorder_on_access : Cache.State Key Val).Rep :=
      Cache.rep_new capacity reorder_on_access
    simpa [State.cells, total, handlesTo, hobjs, hi, Cache.State.Rep, Cache.State.new] using hnew
  · intro obj h hlookup
    rw [hobjs, AList.lookup_empty] at hlookup
    cases hlookup

theorem Inv.accounted (h : Inv s) : Accounted s where
  count i it ent hderef := (h.agree i).pins it ent (LRUList.deref_eq_some.1 hderef)
  held obj i it hlookup := by
    obtain ⟨ent, hmem⟩ := LRUList.mem_iterators.1 (h.held obj _ hlookup i it rfl)
    refine ⟨ent, LRUList.deref_eq_some.2 hmem, ?_⟩
    have hcount := (h.agree i).pins it ent hmem
    -- the handle is one of those that are counted
    have hle := AList.le_sumBy (f := fun h => refs h (i, it)) hlookup
    rw [refs, if_pos rfl] at hle
    simp only [total, handlesTo] at hcount
    omega
  safe := by
    obtain hnone | hoverflow := h.fault
    · rw [hnone]
      exact ⟨nofun, nofun⟩
    · rw [hoverflow]
      exact ⟨nofun, nofun⟩

end Run

/-- In every run whose steps are careful, the pins are accounted for. -/
theorem accounted_of_careful {s : State ι Key Val}
    (hs : (system ι Key Val).ReachableWith Careful s) : Accounted s := by
  have hinv : Inv s := by
    apply hs.invariant
    · exact fun s hs => inv_init hs
    · intro s op s' h hcareful hstep
      exact h.next hstep.2.1 hcareful hstep.2.2
  exact hinv.accounted

def State.new (capacity : Nat) (reorder_on_access : Bool) : State ι Key Val where
  caches _ := .new capacity reorder_on_access
  objs := ∅
  fault := none

/-- Two handles of one entry, the second a copy of the first and then assigned to itself. -/
theorem accounted_of_careful_copy : ∃ s : State Unit Nat Nat,
    (s.cells ()).cache_list_.elts = [⟨7, 5, 3⟩] ∧ Accounted s := by
  have hput : (system Unit Nat Nat).ReachableWith Careful _ :=
    .step (a := .client () (.putAndPin 7 5))
      (.init ⟨fun _ => ⟨1, true, rfl⟩, rfl, rfl⟩ : (system Unit Nat Nat).ReachableWith Careful
        (.new 1 true)) trivial ⟨rfl, ⟨trivial, nofun⟩, rfl⟩
  have hcreate : (system Unit Nat Nat).ReachableWith Careful _ :=
    .step (a := .create 0 (some ((), 0))) hput nofun
      ⟨rfl, ⟨rfl, by rintro i it ⟨⟩; decide⟩, rfl⟩
  have hcopy : (system Unit Nat Nat).ReachableWith Careful _ :=
    .step (a := .copy 1 0) hcreate (Option.some_ne_none ((), 0)) ⟨rfl, ⟨rfl, rfl⟩, rfl⟩
  have hassign : (system Unit Nat Nat).ReachableWith Careful _ :=
    .step (a := .assign 1 1) hcopy (.inl rfl) ⟨rfl, ⟨rfl, rfl⟩, rfl⟩
  exact ⟨_, rfl, accounted_of_careful hassign⟩

/-- Without the condition they are not: a copy of an empty handle. -/
theorem not_accounted_copy_empty : ¬ ∀ (ι Key Val : Type) (_ : DecidableEq ι)
    (_ : DecidableEq Key) (s : State ι Key Val), (system ι Key Val).Reachable s → Accounted s := by
  intro h
  have hnew : (system Unit Nat Nat).Reachable _ :=
    .step (a := .new 0) (.init ⟨fun _ => ⟨1, true, rfl⟩, rfl, rfl⟩ :
      (system Unit Nat Nat).Reachable (.new 1 true)) trivial ⟨rfl, rfl, rfl⟩
  have hcopy : (system Unit Nat Nat).Reachable _ :=
    .step (a := .copy 1 0) hnew trivial ⟨rfl, ⟨rfl, rfl⟩, rfl, rfl⟩
  exact (h Unit Nat Nat inferInstance inferInstance _ hcopy).safe.1 rfl

theorem nullDeref_of_careless {s s' : State ι Key Val} {op : Op ι Key Val}
    (hno : ¬ Careful s op) (hnext : next s op s') : s'.fault = some .nullDeref := by
  have hfails : exec s op = .error .nullDeref := by
    cases op with
    | create obj hd =>
      obtain rfl : hd = none := not_not.1 hno
      rfl
    | copy obj other =>
      show (create s.cells (s.handle other) >>= _) = _
      rw [show s.handle other = none from not_not.1 hno]
      rfl
    | assign obj other =>
      obtain ⟨hself, hempty⟩ := not_or.1 hno
      show (assign s.cells (decide (obj = other)) _ (s.handle other) >>= _) = _
      rw [decide_eq_false hself, not_not.1 hempty]
      rfl
    | _ => exact absurd trivial hno
  unfold next at hnext
  rw [hfails] at hnext
  rw [hnext.2]

end Oasys.ExternalHandle
