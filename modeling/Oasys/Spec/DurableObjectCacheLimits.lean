import Oasys.Spec.DurableTableCorrect

/-!
# What the cache holds

Three promises about what a cache keeps. `release` should evict only from a cache that holds
more than its capacity, which a count that is just reached breaks (`release_evicts_iff`). The
size that is accounted for an object should be its size, which a `put` of a cached object that
has changed does not see to (`put_accounts_iff`). `get_copy` should leave the live entries as
they are, and pins the entry that it finds (`getCopy_pins_iff`).
-/

namespace Oasys.DurableObjectCache

variable {Key Obj : Type} [DecidableEq Key]

def State.Over (s : State Key Obj) : Prop :=
  match s.policy_ with
  | .CAP_BY_SIZE => s.capacity_ < s.size_
  | .CAP_BY_COUNT => s.capacity_ < s.count

/-- A cache that holds more than its capacity has nothing to evict. -/
def State.Tight (s : State Key Obj) : Prop := s.Over → s.lru_.nodes = []

/-- `s'` holds no more than `s`, under the same limits, and has nothing new to evict. -/
structure NoMore (s s' : State Key Obj) : Prop where
  capacity : s'.capacity_ = s.capacity_
  policy : s'.policy_ = s.policy_
  size : s'.size_ ≤ s.size_
  count : s'.count ≤ s.count
  nodes : s.lru_.nodes = [] → s'.lru_.nodes = []

omit [DecidableEq Key] in
theorem NoMore.over {s s' : State Key Obj} (h : NoMore s s') (hover : s'.Over) : s.Over := by
  unfold State.Over at hover ⊢
  rw [h.policy, h.capacity] at hover
  have hsize := h.size
  have hcount := h.count
  cases hpolicy : s.policy_ with
  | CAP_BY_SIZE =>
    rw [hpolicy] at hover
    exact Nat.lt_of_lt_of_le hover hsize
  | CAP_BY_COUNT =>
    rw [hpolicy] at hover
    exact Nat.lt_of_lt_of_le hover hcount

omit [DecidableEq Key] in
theorem NoMore.tight {s s' : State Key Obj} (h : NoMore s s') (htight : s.Tight) : s'.Tight :=
  fun hover => h.nodes (htight (h.over hover))

omit [DecidableEq Key] in
theorem NoMore.trans {s s₁ s₂ : State Key Obj} (h : NoMore s s₁) (h' : NoMore s₁ s₂) :
    NoMore s s₂ where
  capacity := h'.capacity.trans h.capacity
  policy := h'.policy.trans h.policy
  size := h'.size.trans h.size
  count := h'.count.trans h.count
  nodes hnil := h'.nodes (h.nodes hnil)

/-! ### The number of entries -/

omit [DecidableEq Key] in
theorem length_eq_sumBy (cache_ : AList fun _ : Key => CacheElement Obj) :
    cache_.entries.length = cache_.sumBy fun _ => 1 := by
  simp [AList.sumBy]

theorem length_erase {cache_ : AList fun _ : Key => CacheElement Obj} {key : Key}
    {e : CacheElement Obj} (h : cache_.lookup key = some e) :
    (cache_.erase key).entries.length + 1 = cache_.entries.length := by
  rw [length_eq_sumBy, length_eq_sumBy]
  exact AList.sumBy_erase (f := fun _ => 1) h

theorem length_insert {cache_ : AList fun _ : Key => CacheElement Obj} {key : Key}
    {e : CacheElement Obj} (e' : CacheElement Obj) (h : cache_.lookup key = some e) :
    (cache_.insert key e').entries.length = cache_.entries.length := by
  rw [length_eq_sumBy, length_eq_sumBy]
  exact Nat.add_right_cancel (AList.sumBy_insert (f := fun _ => 1) e' h)

theorem length_insert_new {cache_ : AList fun _ : Key => CacheElement Obj} {key : Key}
    (e : CacheElement Obj) (h : cache_.lookup key = none) :
    (cache_.insert key e).entries.length = cache_.entries.length + 1 := by
  rw [length_eq_sumBy, length_eq_sumBy]
  exact AList.sumBy_insert_of_notMem (f := fun _ => 1) e h

/-! ### What an operation leaves -/

theorem evictLast_cases {s s' : State Key Obj} (h : evictLast s = .ok s') :
    ∃ key e, s.cache_.lookup key = some e ∧ s' = { s with
      cache_ := s.cache_.erase key
      lru_ := s.lru_.popFront
      size_ := s.size_ - e.object_size_
      evictions_ := s.evictions_ + 1
      deleted := e :: s.deleted } := by
  unfold evictLast at h
  obtain ⟨-, -, h⟩ := bind_eq_ok.1 h
  obtain ⟨⟨it, key⟩, -, h⟩ := bind_eq_ok.1 h
  dsimp only at h
  split at h
  · cases h
  · rename_i e hlookup
    obtain ⟨-, -, h⟩ := bind_eq_ok.1 h
    obtain ⟨-, -, h⟩ := bind_eq_ok.1 h
    exact ⟨key, e, hlookup, (Except.ok.inj h).symm⟩

theorem noMore_evictLast {s s' : State Key Obj} (h : evictLast s = .ok s') : NoMore s s' := by
  obtain ⟨key, e, hlookup, rfl⟩ := evictLast_cases h
  have hcount := length_erase hlookup
  refine ⟨rfl, rfl, Nat.sub_le .., ?_, fun hnil => ?_⟩
  · simp only [State.count]
    omega
  · simp only [LRUList.popFront, hnil, List.tail_nil]

theorem makeRoom_cases {object_size fuel : Nat} {s s' : State Key Obj}
    (h : makeRoom object_size fuel s = .ok s') :
    NoMore s s' ∧ (s'.isOverCapacity object_size = true → s'.lru_.nodes = []) := by
  induction fuel generalizing s with
  | zero => cases h
  | succ fuel ih =>
    rw [makeRoom] at h
    split at h
    · split at h
      · rename_i hempty
        cases h
        exact ⟨⟨rfl, rfl, Nat.le_refl _, Nat.le_refl _, id⟩,
          fun _ => (LRUList.empty_iff _).1 hempty⟩
      · obtain ⟨s₁, hevict, h⟩ := bind_eq_ok.1 h
        obtain ⟨hmore, hroom⟩ := ih h
        exact ⟨(noMore_evictLast hevict).trans hmore, hroom⟩
    · rename_i hroom
      cases h
      exact ⟨⟨rfl, rfl, Nat.le_refl _, Nat.le_refl _, id⟩, fun hover => absurd hover hroom⟩

theorem flushFrom_cases {fuel count n : Nat} {s s' : State Key Obj}
    (h : flushFrom fuel count s = .ok (n, s')) : NoMore s s' := by
  induction fuel generalizing s count with
  | zero => cases h
  | succ fuel ih =>
    rw [flushFrom] at h
    split at h
    · cases h
      exact ⟨rfl, rfl, Nat.le_refl _, Nat.le_refl _, id⟩
    · obtain ⟨s₁, hevict, h⟩ := bind_eq_ok.1 h
      exact (noMore_evictLast hevict).trans (ih h)

theorem tight_put [DecidableEq Obj] {s s' : State Key Obj} {key : Key} {object : Obj}
    {object_size : Nat} {flags : DurableStoreFlags} {r : DurableStoreResult} (htight : s.Tight)
    (h : put s key object object_size flags = .ok (r, s')) : s'.Tight := by
  unfold put at h
  dsimp only at h
  split at h
  · split at h
    · cases h
      exact htight
    · split at h
      · cases h
        exact htight
      · cases h
  · obtain ⟨s₁, hroom, h⟩ := bind_eq_ok.1 h
    obtain ⟨_, hassert, h⟩ := bind_eq_ok.1 h
    cases h
    obtain ⟨-, hdone⟩ := makeRoom_cases hroom
    have hnone : s₁.cache_.lookup key = none := by
      cases hlookup : s₁.cache_.lookup key with
      | none => rfl
      | some e =>
        rw [hlookup] at hassert
        cases hassert
    have hcount := length_insert_new ⟨object, object_size, true, none⟩ hnone
    intro hover
    apply hdone
    unfold State.Over at hover
    unfold State.isOverCapacity
    cases hpolicy : s₁.policy_ with
    | CAP_BY_SIZE =>
      simp only [hpolicy] at hover
      exact decide_eq_true hover
    | CAP_BY_COUNT =>
      simp only [hpolicy, State.count, hcount] at hover
      exact decide_eq_true hover

theorem release_end {s₁ s' : State Key Obj} {r : DurableStoreResult}
    (h : (if s₁.isOverCapacity 0 = true then do
        let s ← evictLast s₁
        pure (DurableStoreResult.DS_OK, s)
      else pure (DurableStoreResult.DS_OK, s₁)) = .ok (r, s')) :
    if s₁.isOverCapacity 0 then evictLast s₁ = .ok s' else s' = s₁ := by
  split at h
  · rename_i hover
    obtain ⟨s₂, hevict, h⟩ := bind_eq_ok.1 h
    cases h
    rw [if_pos hover]
    exact hevict
  · rename_i hover
    cases h
    rw [if_neg hover]

/-- An object that is released enters the list, and the first of the list goes if that is too
    much, or if the count is just reached. -/
theorem release_cases [DecidableEq Obj] {s s' : State Key Obj} {key : Key} {data : Obj}
    {r : DurableStoreResult} (h : release s key data = .ok (r, s')) :
    (s.cache_.lookup key = none ∧ s' = { s with deleted := [] }) ∨
      ∃ (e : CacheElement Obj) (s₁ : State Key Obj), s.cache_.lookup key = some e ∧
        s₁.policy_ = s.policy_ ∧ s₁.capacity_ = s.capacity_ ∧ s₁.size_ = s.size_ ∧
        s₁.count = s.count ∧ s₁.deleted = [] ∧
        s₁.lru_.nodes.length ≤ s.lru_.nodes.length + 1 ∧
        if s₁.isOverCapacity 0 then evictLast s₁ = .ok s' else s' = s₁ := by
  unfold release at h
  dsimp only at h
  split at h
  · rename_i hlookup
    cases h
    exact .inl ⟨hlookup, rfl⟩
  · rename_i e hlookup
    obtain ⟨-, -, h⟩ := bind_eq_ok.1 h
    refine .inr ⟨e, ?_⟩
    split at h
    · obtain ⟨⟨it, k⟩, -, h⟩ := bind_eq_ok.1 h
      obtain ⟨s₁, hs₁, h⟩ := bind_eq_ok.1 h
      have hend := release_end h
      have hs₁ := (Except.ok.inj hs₁).symm
      refine ⟨s₁, hlookup, by rw [hs₁], by rw [hs₁], by rw [hs₁], by rw [hs₁]; rfl, by rw [hs₁],
        ?_, hend⟩
      rw [hs₁]
      exact Nat.le_succ_of_le (Nat.le_of_eq (LRUList.perm_moveToBack _ _).length_eq)
    · obtain ⟨⟨it, k⟩, -, h⟩ := bind_eq_ok.1 h
      obtain ⟨-, -, h⟩ := bind_eq_ok.1 h
      obtain ⟨s₁, hs₁, h⟩ := bind_eq_ok.1 h
      have hend := release_end h
      have hs₁ := (Except.ok.inj hs₁).symm
      refine ⟨s₁, hlookup, by rw [hs₁], by rw [hs₁], by rw [hs₁], ?_, by rw [hs₁], ?_, hend⟩
      · rw [hs₁]
        exact length_insert _ hlookup
      · rw [hs₁]
        simp [LRUList.pushBack]

/-! ### release -/

/-- What `release` may do: it destroys an object only where the cache held too much, and leaves
    the cache within its capacity, or with live entries only. -/
def ReleasesExcess (s s' : State Key Obj) : Prop :=
  (s'.deleted ≠ [] → s.Over) ∧
    (¬ s'.Over ∨ ∀ k e, s'.cache_.lookup k = some e → e.live_ = true)

theorem tight_release [DecidableEq Obj] {s s' : State Key Obj} {key : Key} {data : Obj}
    {r : DurableStoreResult} (htight : s.Tight) (h : release s key data = .ok (r, s')) :
    s'.Tight := by
  rcases release_cases h with ⟨-, rfl⟩ |
    ⟨e, s₁, -, hpolicy, hcapacity, hsize, hcount, -, hnodes, hend⟩
  · exact htight
  · have hover : s₁.Over → s.Over := by
      unfold State.Over
      rw [hpolicy, hcapacity, hsize, hcount]
      exact id
    split at hend
    · -- the list was empty if the cache held too much, and is again
      have hmore := noMore_evictLast hend
      obtain ⟨key, e, -, rfl⟩ := evictLast_cases hend
      intro hover'
      have hnil := htight (hover (hmore.over hover'))
      rw [hnil, List.length_nil] at hnodes
      apply List.eq_nil_of_length_eq_zero
      simp only [LRUList.popFront, List.length_tail]
      omega
    · rename_i hroom
      rw [hend]
      intro hover'
      refine absurd ?_ hroom
      unfold State.Over at hover'
      unfold State.isOverCapacity
      cases hp : s₁.policy_ with
      | CAP_BY_SIZE =>
        rw [hp] at hover'
        exact decide_eq_true hover'
      | CAP_BY_COUNT =>
        rw [hp] at hover'
        exact decide_eq_true (Nat.lt_succ_of_lt hover')

theorem tight_exec [DecidableEq Obj] {s s' : State Key Obj} {op : Op Key Obj}
    (htight : s.Tight) (h : exec s op = .ok s') : s'.Tight := by
  cases op with
  | put key object object_size flags =>
    obtain ⟨⟨r, s₁⟩, hput, rfl⟩ := map_eq_ok.1 h
    exact tight_put htight hput
  | get key =>
    obtain ⟨⟨r, s₁⟩, hget, rfl⟩ := map_eq_ok.1 h
    unfold get at hget
    dsimp only at hget
    split at hget
    · cases hget
      exact htight
    · rename_i e hlookup
      split at hget
      · cases hget
        exact htight
      · obtain ⟨⟨it, k⟩, -, hget⟩ := bind_eq_ok.1 hget
        obtain ⟨-, -, hget⟩ := bind_eq_ok.1 hget
        cases hget
        refine NoMore.tight (s := s) ⟨rfl, rfl, Nat.le_refl _, ?_, fun hnil => ?_⟩ htight
        · exact Nat.le_of_eq (length_insert _ hlookup)
        · simp [LRUList.erase, hnil]
  | release key data =>
    obtain ⟨⟨r, s₁⟩, hrelease, rfl⟩ := map_eq_ok.1 h
    exact tight_release htight hrelease
  | del key =>
    obtain ⟨⟨r, s₁⟩, hdel, rfl⟩ := map_eq_ok.1 h
    unfold del at hdel
    dsimp only at hdel
    split at hdel
    · cases hdel
      exact htight
    · rename_i e hlookup
      split at hdel
      · cases hdel
        exact htight
      · obtain ⟨⟨it, k⟩, -, hdel⟩ := bind_eq_ok.1 hdel
        cases hdel
        have hcount := length_erase hlookup
        refine NoMore.tight (s := s) ⟨rfl, rfl, Nat.sub_le .., ?_, fun hnil => ?_⟩ htight
        · simp only [State.count]
          omega
        · simp [LRUList.erase, hnil]
  | remove key =>
    obtain ⟨⟨r, s₁⟩, hremove, rfl⟩ := map_eq_ok.1 h
    unfold remove at hremove
    dsimp only at hremove
    split at hremove
    · cases hremove
      exact htight
    · rename_i e hlookup
      have hcount := length_erase hlookup
      split at hremove
      · cases hremove
        refine NoMore.tight (s := s) ⟨rfl, rfl, Nat.sub_le .., ?_, id⟩ htight
        simp only [State.count]
        omega
      · obtain ⟨⟨it, k⟩, -, hremove⟩ := bind_eq_ok.1 hremove
        cases hremove
        refine NoMore.tight (s := s) ⟨rfl, rfl, Nat.sub_le .., ?_, fun hnil => ?_⟩ htight
        · simp only [State.count]
          omega
        · simp [LRUList.erase, hnil]
  | flush =>
    obtain ⟨⟨n, s₁⟩, hflush, rfl⟩ := map_eq_ok.1 h
    exact (flushFrom_cases hflush).tight htight

theorem tight_of_reachable [DecidableEq Obj] {s : State Key Obj}
    (hs : (system Key Obj).ReachableWith Protocol s) : s.Tight := by
  apply hs.invariant
  · rintro s ⟨capacity, policy, rfl⟩ -
    rfl
  · intro s op s' h _ hstep
    exact tight_exec h hstep

theorem live_of_nodes_eq_nil {s : State Key Obj} (h : s.Rep) (hnil : s.lru_.nodes = []) {k : Key}
    {e : CacheElement Obj} (hlookup : s.cache_.lookup k = some e) : e.live_ = true := by
  cases hlive : e.live_ with
  | true => rfl
  | false =>
    obtain ⟨it, -, hmem, -⟩ := h.node hlookup hlive
    simp [hnil] at hmem

/-- In every state that is reached, `release` evicts as it should unless the cache is bounded by
    its count, and full. -/
theorem release_evicts_iff [DecidableEq Obj] {s : State Key Obj}
    (hs : (system Key Obj).ReachableWith Protocol s) {key : Key} {data : Obj}
    (hprotocol : Protocol s (.release key data)) :
    ∃ r s', release s key data = .ok (r, s') ∧
      (ReleasesExcess s s' ↔
        (s.policy_ = .CAP_BY_COUNT → s.cache_.lookup key ≠ none → s.count ≠ s.capacity_)) := by
  obtain ⟨s', hexec, hinv'⟩ := (inv_of_reachable hs).exec (.release key data) hprotocol
  obtain ⟨⟨r, s₁⟩, hrelease, rfl⟩ := map_eq_ok.1 hexec
  refine ⟨r, s₁, hrelease, ?_⟩
  have htight' : s₁.Tight := tight_release (tight_of_reachable hs) hrelease
  have hwithin : ¬ s₁.Over ∨ ∀ k e, s₁.cache_.lookup k = some e → e.live_ = true := by
    by_cases hover : s₁.Over
    · exact .inr fun k e hlookup => live_of_nodes_eq_nil hinv'.rep (htight' hover) hlookup
    · exact .inl hover
  rw [ReleasesExcess, and_iff_left hwithin]
  rcases release_cases hrelease with ⟨hnone, hs₁⟩ |
    ⟨e, s₂, hlookup, hpolicy, hcapacity, hsize, hcount, hdeleted, -, hend⟩
  · refine iff_of_true (fun hne => ?_) fun _ hsome => absurd hnone hsome
    exact absurd (by simp [hs₁]) hne
  · rw [hlookup]
    split at hend
    · rename_i hover
      have hne : s₁.deleted ≠ [] := by
        obtain ⟨k, e, -, rfl⟩ := evictLast_cases hend
        simp
      simp only [ne_eq, hne, not_false_eq_true, forall_const, reduceCtorEq]
      unfold State.isOverCapacity at hover
      unfold State.Over
      rw [hpolicy] at hover
      cases hp : s.policy_ with
      | CAP_BY_SIZE =>
        rw [hp] at hover
        simpa [hcapacity, hsize] using hover
      | CAP_BY_COUNT =>
        rw [hp] at hover
        simp only [hcapacity, hcount, decide_eq_true_eq] at hover
        simp only [forall_const]
        omega
    · rename_i hroom
      rw [hend]
      refine iff_of_true (fun hne => absurd hdeleted hne) fun hp _ hfull => hroom ?_
      unfold State.isOverCapacity
      rw [hpolicy, hp, hcapacity, hcount, hfull]
      exact decide_eq_true (Nat.lt_succ_self _)

/-- A cache for two objects with one. -/
theorem release_evicts_one :
    ∃ s : State Nat Nat, s.count = 1 ∧ ∃ r s', release s 1 7 = .ok (r, s') ∧
      (ReleasesExcess s s' ↔
        (s.policy_ = .CAP_BY_COUNT → s.cache_.lookup 1 ≠ none → s.count ≠ s.capacity_)) := by
  have hput : (system Nat Nat).ReachableWith Protocol _ :=
    .step (a := .put 1 7 5 ⟨true, false⟩) (.init ⟨2, .CAP_BY_COUNT, rfl⟩) ⟨nofun, nofun⟩ rfl
  exact ⟨_, rfl, release_evicts_iff hput fun e he => by rw [← Option.some.inj he]⟩

/-- A cache for one object destroys it when it is released. -/
theorem release_evicts_full :
    ∃ s s' : State Nat Nat, (system Nat Nat).ReachableWith Protocol s ∧
      release s 1 7 = .ok (.DS_OK, s') ∧ s.count = s.capacity_ ∧ ¬ ReleasesExcess s s' := by
  have hput : (system Nat Nat).ReachableWith Protocol _ :=
    .step (a := .put 1 7 5 ⟨true, false⟩) (.init ⟨1, .CAP_BY_COUNT, rfl⟩) ⟨nofun, nofun⟩ rfl
  refine ⟨_, _, hput, rfl, rfl, fun h => ?_⟩
  exact absurd (h.1 (List.cons_ne_nil _ _)) (Nat.lt_irrefl 1)

/-! ### put -/

/-- A cache and its clients, by the size that `MarshalSize` computes for each object now. -/
structure Clients (Key Obj : Type) where
  cache : State Key Obj
  marshalSize : Obj → Nat

/-- What clients do: they call the cache, or change an object. -/
inductive ClientOp (Key Obj : Type) where
  | call (op : Op Key Obj)
  | resize (object : Obj) (n : Nat)

/-- An operation as the cache runs it: `put` computes the size of the object itself. -/
def Op.sized (marshalSize : Obj → Nat) : Op Key Obj → Op Key Obj
  | .put key object _ flags => .put key object (marshalSize object) flags
  | op => op

/-- The operations are under the protocol of the cache, and an object that is cached is changed
    while it is live. -/
def ClientProtocol (c : Clients Key Obj) : ClientOp Key Obj → Prop
  | .call op => Protocol c.cache op
  | .resize object _ => ∀ k e, c.cache.cache_.lookup k = some e → e.object_ = object →
      e.live_ = true

variable (Key Obj) in
/-- The cache under its clients. -/
def clientSystem [DecidableEq Obj] : TransitionSystem (Clients Key Obj) (ClientOp Key Obj) where
  init c := ∃ capacity policy, c.cache = .new capacity policy
  step c op c' :=
    match op with
    | .call op => exec c.cache (op.sized c.marshalSize) = .ok c'.cache ∧
        c'.marshalSize = c.marshalSize
    | .resize object n => c'.cache = c.cache ∧
        c'.marshalSize = Function.update c.marshalSize object n

theorem reachable_of_clients [DecidableEq Obj] {c : Clients Key Obj}
    (hc : (clientSystem Key Obj).ReachableWith ClientProtocol c) :
    (system Key Obj).ReachableWith Protocol c.cache := by
  apply hc.invariant (P := fun c => (system Key Obj).ReachableWith Protocol c.cache)
  · intro c hinit
    exact .init hinit
  · intro c op c' h hprotocol hstep
    cases op with
    | call op =>
      have hsized : Protocol c.cache (op.sized c.marshalSize) := by
        cases op <;> exact hprotocol
      exact .step h hsized hstep.1
    | resize object n =>
      rw [hstep.1]
      exact h

/-- The entry of a key is accounted with a size, and the size of the cache is what is accounted. -/
def Accounted (s : State Key Obj) (key : Key) (n : Nat) : Prop :=
  (∃ e, s.cache_.lookup key = some e ∧ e.object_size_ = n) ∧
    s.size_ = (s.cache_.entries.map fun e => e.2.object_size_).sum

/-- Whatever clients have done before, a `put` that succeeds accounts the object with its present
    size exactly if it was not cached, or accounted with this size before. -/
theorem put_accounts_iff [DecidableEq Obj] {c : Clients Key Obj}
    (hc : (clientSystem Key Obj).ReachableWith ClientProtocol c) {key : Key} {object : Obj}
    {flags : DurableStoreFlags}
    (hprotocol : ClientProtocol c (.call (.put key object (c.marshalSize object) flags))) :
    ∃ r s', put c.cache key object (c.marshalSize object) flags = .ok (r, s') ∧
      (r = .DS_OK → (Accounted s' key (c.marshalSize object) ↔
        ∀ e, c.cache.cache_.lookup key = some e → e.object_size_ = c.marshalSize object)) := by
  have hinv := inv_of_reachable (reachable_of_clients hc)
  cases hlookup : c.cache.cache_.lookup key with
  | some e =>
    refine ⟨_, _, put_hit hlookup (hprotocol.1 e hlookup), fun _ => ?_⟩
    have hsize : c.cache.size_ = (c.cache.cache_.entries.map fun e => e.2.object_size_).sum :=
      hinv.rep.size
    simp [Accounted, hlookup, hsize]
  | none =>
    obtain ⟨s', hput, hinv', hentry, -⟩ := put_miss (c.marshalSize object) flags hinv hlookup
      fun k e hk hobject => by
        have hkey := hprotocol.2 k e hk hobject
        rw [hkey, hlookup] at hk
        exact nomatch hk
    refine ⟨_, s', hput, fun _ => iff_of_true ⟨⟨_, hentry, rfl⟩, hinv'.rep.size⟩ ?_⟩
    exact fun e he => nomatch he

/-- A new object. -/
theorem put_accounts_new :
    ∃ r s', put (.new 10 .CAP_BY_SIZE : State Nat Nat) 1 7 5 ⟨true, false⟩ = .ok (r, s') ∧
      (r = .DS_OK → (Accounted s' 1 5 ↔ ∀ e,
        (State.new 10 .CAP_BY_SIZE : State Nat Nat).cache_.lookup 1 = some e →
          e.object_size_ = 5)) :=
  put_accounts_iff (c := ⟨.new 10 .CAP_BY_SIZE, fun _ => 5⟩) (.init ⟨10, .CAP_BY_SIZE, rfl⟩)
    ⟨nofun, nofun⟩

/-- An object grows from 5 to 9 bytes and is put again. -/
theorem put_accounts_grown :
    ∃ c : Clients Nat Nat, (clientSystem Nat Nat).ReachableWith ClientProtocol c ∧
      ∃ s', put c.cache 1 7 (c.marshalSize 7) ⟨true, false⟩ = .ok (.DS_OK, s') ∧
        ¬ Accounted s' 1 (c.marshalSize 7) := by
  have hput : (clientSystem Nat Nat).ReachableWith ClientProtocol ⟨_, fun _ => 5⟩ :=
    .step (a := .call (.put 1 7 5 ⟨true, false⟩)) (s := ⟨.new 10 .CAP_BY_SIZE, fun _ => 5⟩)
      (.init ⟨10, .CAP_BY_SIZE, rfl⟩) ⟨nofun, nofun⟩ ⟨rfl, rfl⟩
  refine ⟨_, @TransitionSystem.ReachableWith.step _ _ _ _ _
    ⟨_, Function.update (fun _ => 5) 7 9⟩ (.resize 7 9) hput ?_ ⟨rfl, rfl⟩, _, rfl, fun h => ?_⟩
  · intro k e hlookup _
    by_cases hk : k = 1
    · subst hk
      rw [← Option.some.inj hlookup]
    · have hnone := (AList.lookup_insert_ne hk).symm.trans hlookup
      exact nomatch hnone
  · obtain ⟨⟨e, hlookup, hsize⟩, -⟩ := h
    rw [← Option.some.inj hlookup] at hsize
    exact absurd hsize (by decide)

end Oasys.DurableObjectCache

namespace Oasys.DurableTable

open DurableObjectCache (Protocol inv_of_reachable get_miss get_hit del_miss del_live del_stale)

variable {Store Key CacheKey Ptr Content : Type} [DecidableEq CacheKey] [DecidableEq Ptr]

/-! ### get_copy -/

def Live (c : DurableObjectCache.State CacheKey Ptr) (key : CacheKey) : Prop :=
  ∃ e, c.cache_.lookup key = some e ∧ e.live_ = true

/-- The entry of the key is there, and may be evicted. -/
def Evictable (c : DurableObjectCache.State CacheKey Ptr) (key : CacheKey) : Prop :=
  ∃ e, c.cache_.lookup key = some e ∧ e.live_ = false

def Deletable (c : DurableObjectCache.State CacheKey Ptr) (key : CacheKey) : Prop :=
  ∃ err c', DurableObjectCache.del c key = .ok (err, c') ∧ err ≠ .DS_ERR

/-- The same entries are live, the same may be evicted, and what could be deleted still can. -/
structure Unpinned (c c' : DurableObjectCache.State CacheKey Ptr) : Prop where
  live : ∀ key, Live c' key ↔ Live c key
  evictable : ∀ key, Evictable c' key ↔ Evictable c key
  deletable : ∀ key, Deletable c key → Deletable c' key

theorem deletable_iff {c : DurableObjectCache.State CacheKey Ptr}
    (hc : (DurableObjectCache.system CacheKey Ptr).ReachableWith Protocol c) (key : CacheKey) :
    Deletable c key ↔ ¬ Live c key := by
  cases hlookup : c.cache_.lookup key with
  | none =>
    refine iff_of_true ⟨_, _, del_miss hlookup, by decide⟩ ?_
    rintro ⟨e, he, -⟩
    rw [hlookup] at he
    cases he
  | some e =>
    cases hlive : e.live_ with
    | true =>
      refine iff_of_false ?_ fun h => h ⟨e, hlookup, hlive⟩
      rintro ⟨err, c', hdel, herr⟩
      rw [del_live hlookup hlive] at hdel
      exact herr (Prod.mk.inj (Except.ok.inj hdel)).1.symm
    | false =>
      obtain ⟨c', hdel, -⟩ := del_stale (inv_of_reachable hc) hlookup hlive
      refine iff_of_true ⟨_, c', hdel, by decide⟩ ?_
      rintro ⟨e', he, hlive'⟩
      rw [hlookup] at he
      rw [← Option.some.inj he, hlive] at hlive'
      cases hlive'

private theorem unpinned_of_eq {c c' : DurableObjectCache.State CacheKey Ptr}
    (hc : (DurableObjectCache.system CacheKey Ptr).ReachableWith Protocol c)
    (hc' : (DurableObjectCache.system CacheKey Ptr).ReachableWith Protocol c')
    (h : c'.cache_ = c.cache_) : Unpinned c c' := by
  have hlive : ∀ key, Live c' key ↔ Live c key := fun key => by unfold Live; rw [h]
  refine ⟨hlive, fun key => by unfold Evictable; rw [h], fun key => ?_⟩
  rw [deletable_iff hc, deletable_iff hc', hlive]
  exact id

omit [DecidableEq Ptr] in
theorem cache_of_getCopy {T : DurableTable Store Key CacheKey Content}
    {s s' : State Store CacheKey Ptr Content} {key : Key}
    {c : DurableObjectCache.State CacheKey Ptr} {r : DurableStoreResult × Option Content}
    (hcache : s.cache_ = some c) (hget : T.getCopy s key = .ok (r, s')) :
    ∃ q c', DurableObjectCache.get c (T.getCacheKey key) = .ok (q, c') ∧ s'.cache_ = some c' := by
  unfold getCopy at hget
  rw [hcache] at hget
  cases hkind : T.kind with
  | multi newObject =>
    rw [hkind] at hget
    cases hget
  | single blank =>
    rw [hkind] at hget
    obtain ⟨⟨⟨err, data⟩, c'⟩, hlookup, hrest⟩ := bind_eq_ok.1 hget
    refine ⟨_, c', hlookup, ?_⟩
    dsimp only at hrest
    split at hrest
    · cases hrest
      rfl
    · unfold fetchCopy at hrest
      rw [hkind] at hrest
      obtain ⟨_, -, hdone⟩ := bind_eq_ok.1 hrest
      cases hdone
      rfl

/-- In any state of the cache that clients who keep to its protocol reach, a `get_copy` pins
    nothing exactly if the key is not cached, or its entry is live already. -/
theorem getCopy_pins_iff {T : DurableTable Store Key CacheKey Content}
    {s s' : State Store CacheKey Ptr Content} {key : Key}
    {c : DurableObjectCache.State CacheKey Ptr} {r : DurableStoreResult × Option Content}
    (hc : (DurableObjectCache.system CacheKey Ptr).ReachableWith Protocol c)
    (hcache : s.cache_ = some c) (hget : T.getCopy s key = .ok (r, s')) :
    ∃ c', s'.cache_ = some c' ∧
      (Unpinned c c' ↔ ∀ e, c.cache_.lookup (T.getCacheKey key) = some e → e.live_ = true) := by
  obtain ⟨q, c', hlookup, hcache'⟩ := cache_of_getCopy hcache hget
  have hc' : (DurableObjectCache.system CacheKey Ptr).ReachableWith Protocol c' :=
    .step (a := .get (T.getCacheKey key)) hc trivial (by
      show Prod.snd <$> DurableObjectCache.get c (T.getCacheKey key) = _
      rw [hlookup]
      rfl)
  refine ⟨c', hcache', ?_⟩
  cases hentry : c.cache_.lookup (T.getCacheKey key) with
  | none =>
    rw [get_miss hentry] at hlookup
    obtain ⟨-, rfl⟩ := Prod.mk.inj (Except.ok.inj hlookup)
    exact iff_of_true (unpinned_of_eq hc hc' rfl) fun e he => nomatch he
  | some e =>
    cases hlive : e.live_ with
    | true =>
      have hget' : DurableObjectCache.get c (T.getCacheKey key) = .ok ((.DS_OK, some e.object_),
          { c with deleted := [], hits_ := c.hits_ + 1 }) := by
        simp only [DurableObjectCache.get, hentry, hlive, if_true]
        rfl
      rw [hget'] at hlookup
      obtain ⟨-, rfl⟩ := Prod.mk.inj (Except.ok.inj hlookup)
      refine iff_of_true (unpinned_of_eq hc hc' rfl) fun e' he => ?_
      rw [← Option.some.inj he, hlive]
    | false =>
      -- the entry that may have been evicted is live now
      obtain ⟨c₁, hget', -, ⟨e', he', -, hlive'⟩, -⟩ := get_hit (inv_of_reachable hc) hentry
      rw [hget'] at hlookup
      obtain ⟨-, rfl⟩ := Prod.mk.inj (Except.ok.inj hlookup)
      refine iff_of_false (fun h => ?_) fun h => ?_
      · obtain ⟨e₁, he₁, hlive₁⟩ := (h.live _).1 ⟨e', he', hlive'⟩
        rw [hentry] at he₁
        rw [← Option.some.inj he₁, hlive] at hlive₁
        cases hlive₁
      · have htrue := h e rfl
        rw [hlive] at htrue
        cases htrue

/-- The object is held by a client, too. -/
theorem getCopy_pins_held :
    ∃ c : DurableObjectCache.State Nat Nat, (c.cache_.lookup 1).isSome = true ∧
      ∃ r s', numbers.getCopy ⟨∅, some c, fun _ => 5⟩ 1 = .ok (r, s') ∧
        ∃ c', s'.cache_ = some c' ∧
          (Unpinned c c' ↔ ∀ e, c.cache_.lookup 1 = some e → e.live_ = true) := by
  have hput : (DurableObjectCache.system Nat Nat).ReachableWith Protocol _ :=
    .step (a := .put 1 7 5 ⟨true, false⟩) (.init ⟨10, .CAP_BY_SIZE, rfl⟩) ⟨nofun, nofun⟩ rfl
  obtain ⟨c, hc, hsome, r, s', hget⟩ : ∃ c : DurableObjectCache.State Nat Nat,
      (DurableObjectCache.system Nat Nat).ReachableWith Protocol c ∧
        (c.cache_.lookup 1).isSome = true ∧
          ∃ r s', numbers.getCopy ⟨∅, some c, fun _ => 5⟩ 1 = .ok (r, s') :=
    ⟨_, hput, rfl, _, _, rfl⟩
  exact ⟨c, hsome, r, s', hget, getCopy_pins_iff hc rfl hget⟩

/-- The object was released before: the copy pins it, and it cannot be deleted any more. -/
theorem getCopy_pins_released :
    ∃ c c' : DurableObjectCache.State Nat Nat,
      (DurableObjectCache.system Nat Nat).ReachableWith Protocol c ∧
        ∃ r s', numbers.getCopy ⟨∅, some c, fun _ => 5⟩ 1 = .ok (r, s') ∧
          s'.cache_ = some c' ∧ Deletable c 1 ∧ ¬ Deletable c' 1 ∧ ¬ Unpinned c c' := by
  have hput : (DurableObjectCache.system Nat Nat).ReachableWith Protocol _ :=
    .step (a := .put 1 7 5 ⟨true, false⟩) (.init ⟨10, .CAP_BY_SIZE, rfl⟩) ⟨nofun, nofun⟩ rfl
  have hreleased : (DurableObjectCache.system Nat Nat).ReachableWith Protocol _ :=
    .step (a := .release 1 7) hput (fun e he => by rw [← Option.some.inj he]) rfl
  have hdel : Deletable _ 1 := (deletable_iff hreleased 1).2 fun ⟨e, he, hlive⟩ => by
    rw [← Option.some.inj he] at hlive
    cases hlive
  refine ⟨_, _, hreleased, _, _, rfl, rfl, hdel, ?_, fun h => ?_⟩
  · rintro ⟨err, c', hdel', herr⟩
    exact herr (Prod.mk.inj (Except.ok.inj hdel')).1.symm
  · obtain ⟨err, c', hdel', herr⟩ := h.deletable 1 hdel
    exact herr (Prod.mk.inj (Except.ok.inj hdel')).1.symm

end Oasys.DurableTable
