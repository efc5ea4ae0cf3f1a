import Oasys.Storage.DurableObjectCache

/-!
# DurableObjectCache correctness

The cache table, the LRU list and the byte count stay in step: the list has one node for
each entry that is not live, the iterator of such an entry names that node, and `size_`
adds up the entries. `Rep` is that invariant; it is preserved by erasing, by inserting,
and by the two changes of liveness, and every operation is one of these after a number of
evictions. Under it no assertion fails.

`Inv` adds the capacity: under `CAP_BY_SIZE` a cache that holds more than its capacity has
nothing to evict.
-/

namespace Oasys.DurableObjectCache

variable {Key Obj : Type} [DecidableEq Key]

/-! ### What the cache promises -/

/-- The consistency of the table, the list and the byte count after an operation. -/
structure Good (s : State Key Obj) : Prop where
  /-- The list holds no key twice. -/
  nodup : s.lru_.elts.Nodup
  /-- The list holds exactly the keys of the entries that are not live. -/
  listed : ∀ k, k ∈ s.lru_.elts ↔ ∃ e, s.cache_.lookup k = some e ∧ e.live_ = false
  /-- The iterator of such an entry points at its own key. -/
  iterator : ∀ k e, s.cache_.lookup k = some e → e.live_ = false →
    ∃ it, e.lru_iter_ = some it ∧ s.lru_.deref it = some k
  size : s.size_ = (s.cache_.entries.map fun e => e.2.object_size_).sum
  /-- What the operation has deleted was not live, and no entry is left with it. -/
  deleted : ∀ d ∈ s.deleted, d.live_ = false ∧
    ∀ k e, s.cache_.lookup k = some e → e.object_ ≠ d.object_
  /-- Under `CAP_BY_SIZE` only live entries are left in a cache over its capacity. -/
  capacity : s.policy_ = .CAP_BY_SIZE → s.capacity_ < s.size_ →
    ∀ k e, s.cache_.lookup k = some e → e.live_ = true

/-- A call the clients make: the object of a key that is cached is the cached one, and no
    object is put under two keys. -/
def Protocol (s : State Key Obj) : Op Key Obj → Prop
  | .put key object _ _ =>
    (∀ e, s.cache_.lookup key = some e → e.object_ = object) ∧
      ∀ k e, s.cache_.lookup k = some e → e.object_ = object → k = key
  | .release key data => ∀ e, s.cache_.lookup key = some e → e.object_ = data
  | _ => True

/-! ### The representation -/

/-- The table, the list and the byte count agree. -/
structure Rep (lru_ : LRUList Key) (cache_ : AList fun _ : Key => CacheElement Obj)
    (size_ : Nat) (deleted : List (CacheElement Obj)) : Prop where
  lru : ∀ it k, (it, k) ∈ lru_.nodes ↔
    ∃ e, cache_.lookup k = some e ∧ e.live_ = false ∧ e.lru_iter_ = some it
  iter : ∀ k e, cache_.lookup k = some e → e.live_ = false → e.lru_iter_ ≠ none
  size : size_ = cache_.sumBy CacheElement.object_size_
  objects : ∀ k k' e e', cache_.lookup k = some e → cache_.lookup k' = some e' →
    e.object_ = e'.object_ → k = k'
  deleted : ∀ d ∈ deleted, d.live_ = false ∧
    ∀ k e, cache_.lookup k = some e → e.object_ ≠ d.object_

/-- The representation invariant of a state. -/
abbrev State.Rep (s : State Key Obj) : Prop :=
  DurableObjectCache.Rep s.lru_ s.cache_ s.size_ s.deleted

/-- The invariant of the cache between two operations. -/
structure Inv (s : State Key Obj) : Prop where
  rep : s.Rep
  capacity : s.policy_ = .CAP_BY_SIZE → s.capacity_ < s.size_ → s.lru_.nodes = []

section Rep

variable {lru_ lru_' : LRUList Key} {cache_ : AList fun _ : Key => CacheElement Obj}
  {size_ : Nat} {deleted : List (CacheElement Obj)} {k : Key} {e : CacheElement Obj}

theorem Rep.start (h : Rep lru_ cache_ size_ deleted) : Rep lru_ cache_ size_ [] where
  lru := h.lru
  iter := h.iter
  size := h.size
  objects := h.objects
  deleted _ hd := nomatch hd

theorem Rep.node (h : Rep lru_ cache_ size_ deleted) (hlookup : cache_.lookup k = some e)
    (hlive : e.live_ = false) :
    ∃ it, e.lru_iter_ = some it ∧ (it, k) ∈ lru_.nodes ∧
      DurableObjectCache.node lru_ e.lru_iter_ = .ok (it, k) := by
  cases hit : e.lru_iter_ with
  | none => exact absurd hit (h.iter k e hlookup hlive)
  | some it =>
    have hmem : (it, k) ∈ lru_.nodes := (h.lru it k).2 ⟨e, hlookup, hlive, hit⟩
    refine ⟨it, rfl, hmem, ?_⟩
    simp only [DurableObjectCache.node, LRUList.deref_eq_some.2 hmem]
    rfl

theorem Rep.fst_ne_iff (h : Rep lru_ cache_ size_ deleted) (hlookup : cache_.lookup k = some e)
    (hlive : e.live_ = false) {it : LRUList.Iterator} (hit : e.lru_iter_ = some it)
    {n : Nat × Key} (hn : n ∈ lru_.nodes) : n.1 ≠ it ↔ n.2 ≠ k := by
  have hmem : (it, k) ∈ lru_.nodes := (h.lru it k).2 ⟨e, hlookup, hlive, hit⟩
  obtain ⟨e', hlookup', hlive', hit'⟩ := (h.lru n.1 n.2).1 hn
  apply not_congr
  constructor
  · intro hfst
    exact congrArg Prod.snd (LRUList.eq_of_fst_eq hn hmem hfst)
  · intro hsnd
    rw [hsnd, hlookup] at hlookup'
    obtain rfl := Option.some.inj hlookup'
    rw [hit] at hit'
    exact (Option.some.inj hit').symm

theorem Rep.snd_ne_of_live (h : Rep lru_ cache_ size_ deleted)
    (hlookup : cache_.lookup k = some e) (hlive : e.live_ = true) {n : Nat × Key}
    (hn : n ∈ lru_.nodes) : n.2 ≠ k := by
  rintro rfl
  obtain ⟨e', hlookup', hlive', -⟩ := (h.lru n.1 n.2).1 hn
  rw [hlookup] at hlookup'
  obtain rfl := Option.some.inj hlookup'
  rw [hlive] at hlive'
  exact absurd hlive' (by decide)

theorem Rep.erase {deleted' : List (CacheElement Obj)} (h : Rep lru_ cache_ size_ deleted)
    (hlookup : cache_.lookup k = some e)
    (hnodes : ∀ n, n ∈ lru_'.nodes ↔ n ∈ lru_.nodes ∧ n.2 ≠ k)
    (hdeleted : ∀ d ∈ deleted', d ∈ deleted ∨ d = e ∧ e.live_ = false) :
    Rep lru_' (cache_.erase k) (size_ - e.object_size_) deleted' := by
  -- what is left in the table was there, under another key
  have hother : ∀ k' e', (cache_.erase k).lookup k' = some e' →
      k' ≠ k ∧ cache_.lookup k' = some e' := by
    intro k' e' hlookup'
    have hne : k' ≠ k := by
      rintro rfl
      rw [AList.lookup_erase] at hlookup'
      exact nomatch hlookup'
    exact ⟨hne, by rwa [AList.lookup_erase_ne hne] at hlookup'⟩
  exact
  { lru := fun it k' => by
      rw [hnodes, h.lru]
      constructor
      · rintro ⟨⟨e', hlookup', hrest⟩, hne⟩
        exact ⟨e', by rwa [AList.lookup_erase_ne hne], hrest⟩
      · rintro ⟨e', hlookup', hrest⟩
        obtain ⟨hne, hlookup'⟩ := hother k' e' hlookup'
        exact ⟨⟨e', hlookup', hrest⟩, hne⟩
    iter := fun k' e' hlookup' => h.iter k' e' (hother k' e' hlookup').2
    size := by
      have hsum := AList.sumBy_erase (f := CacheElement.object_size_) hlookup
      have hsize := h.size
      omega
    objects := fun k₁ k₂ e₁ e₂ h₁ h₂ =>
      h.objects k₁ k₂ e₁ e₂ (hother k₁ e₁ h₁).2 (hother k₂ e₂ h₂).2
    deleted := fun d hd => by
      cases hdeleted d hd with
      | inl hd =>
        exact ⟨(h.deleted d hd).1, fun k' e' h' => (h.deleted d hd).2 k' e' (hother k' e' h').2⟩
      | inr hd =>
        obtain ⟨rfl, hlive⟩ := hd
        refine ⟨hlive, fun k' e' h' hobj => ?_⟩
        obtain ⟨hne, h'⟩ := hother k' e' h'
        exact hne (h.objects k' k e' d h' hlookup hobj) }

/-- A live entry with a new key and a new object enters the table. -/
theorem Rep.insert (h : Rep lru_ cache_ size_ deleted) (hlookup : cache_.lookup k = none)
    (hlive : e.live_ = true) (hobj : ∀ k' e', cache_.lookup k' = some e' → e'.object_ ≠ e.object_)
    (hdeleted : ∀ d ∈ deleted, d.object_ ≠ e.object_) :
    Rep lru_ (cache_.insert k e) (size_ + e.object_size_) deleted := by
  -- an entry is the new one, or was there under another key
  have hcases : ∀ k' e', (cache_.insert k e).lookup k' = some e' →
      (k' = k ∧ e' = e) ∨ (k' ≠ k ∧ cache_.lookup k' = some e') := by
    intro k' e' hlookup'
    by_cases hk : k' = k
    · subst hk
      rw [AList.lookup_insert] at hlookup'
      exact .inl ⟨rfl, (Option.some.inj hlookup').symm⟩
    · rw [AList.lookup_insert_ne hk] at hlookup'
      exact .inr ⟨hk, hlookup'⟩
  exact
  { lru := fun it k' => by
      rw [h.lru]
      constructor
      · rintro ⟨e', hlookup', hrest⟩
        have hne : k' ≠ k := by
          rintro rfl
          rw [hlookup] at hlookup'
          exact nomatch hlookup'
        exact ⟨e', by rwa [AList.lookup_insert_ne hne], hrest⟩
      · rintro ⟨e', hlookup', hstale, hit⟩
        cases hcases k' e' hlookup' with
        | inl hnew =>
          rw [hnew.2, hlive] at hstale
          exact absurd hstale (by decide)
        | inr hold => exact ⟨e', hold.2, hstale, hit⟩
    iter := fun k' e' hlookup' hstale => by
      cases hcases k' e' hlookup' with
      | inl hnew =>
        rw [hnew.2, hlive] at hstale
        exact absurd hstale (by decide)
      | inr hold => exact h.iter k' e' hold.2 hstale
    size := by rw [AList.sumBy_insert_of_notMem e hlookup, h.size]
    objects := fun k₁ k₂ e₁ e₂ h₁ h₂ heq => by
      cases hcases k₁ e₁ h₁ with
      | inl h₁ =>
        cases hcases k₂ e₂ h₂ with
        | inl h₂ => rw [h₁.1, h₂.1]
        | inr h₂ => exact absurd (by rw [← heq, h₁.2]) (hobj k₂ e₂ h₂.2)
      | inr h₁ =>
        cases hcases k₂ e₂ h₂ with
        | inl h₂ => exact absurd (by rw [heq, h₂.2]) (hobj k₁ e₁ h₁.2)
        | inr h₂ => exact h.objects k₁ k₂ e₁ e₂ h₁.2 h₂.2 heq
    deleted := fun d hd => by
      refine ⟨(h.deleted d hd).1, fun k' e' hlookup' => ?_⟩
      cases hcases k' e' hlookup' with
      | inl hnew => rw [hnew.2]; exact (hdeleted d hd).symm
      | inr hold => exact (h.deleted d hd).2 k' e' hold.2 }

/-- An entry changes its liveness and its iterator, and the list follows. -/
theorem Rep.update (h : Rep lru_ cache_ size_ deleted) (e' : CacheElement Obj)
    (hlookup : cache_.lookup k = some e) (hobject : e'.object_ = e.object_)
    (hsize : e'.object_size_ = e.object_size_)
    (hnodes : ∀ n, n ∈ lru_'.nodes ↔ (n ∈ lru_.nodes ∧ n.2 ≠ k) ∨
      (n.2 = k ∧ e'.live_ = false ∧ e'.lru_iter_ = some n.1))
    (hiter : e'.live_ = false → e'.lru_iter_ ≠ none) :
    Rep lru_' (cache_.insert k e') size_ deleted := by
  -- seen through the object, an entry is the one it was
  have hsame : ∀ k' e₁, (cache_.insert k e').lookup k' = some e₁ →
      ∃ e₀, cache_.lookup k' = some e₀ ∧ e₁.object_ = e₀.object_ := by
    intro k' e₁ hlookup'
    by_cases hk : k' = k
    · subst hk
      rw [AList.lookup_insert] at hlookup'
      exact ⟨e, hlookup, by rw [← Option.some.inj hlookup', hobject]⟩
    · rw [AList.lookup_insert_ne hk] at hlookup'
      exact ⟨e₁, hlookup', rfl⟩
  exact
  { lru := fun it k' => by
      rw [hnodes]
      by_cases hk : k' = k
      · subst hk
        simp [AList.lookup_insert]
      · simp [AList.lookup_insert_ne hk, hk, h.lru]
    iter := fun k' e₁ hlookup' hstale => by
      by_cases hk : k' = k
      · subst hk
        rw [AList.lookup_insert] at hlookup'
        obtain rfl := Option.some.inj hlookup'
        exact hiter hstale
      · rw [AList.lookup_insert_ne hk] at hlookup'
        exact h.iter k' e₁ hlookup' hstale
    size := by
      have hsum := AList.sumBy_insert (f := CacheElement.object_size_) e' hlookup
      have := h.size
      omega
    objects := fun k₁ k₂ e₁ e₂ h₁ h₂ heq => by
      obtain ⟨e₁', h₁', heq₁⟩ := hsame k₁ e₁ h₁
      obtain ⟨e₂', h₂', heq₂⟩ := hsame k₂ e₂ h₂
      exact h.objects k₁ k₂ e₁' e₂' h₁' h₂' (by rw [← heq₁, heq, heq₂])
    deleted := fun d hd => by
      refine ⟨(h.deleted d hd).1, fun k' e₁ hlookup' => ?_⟩
      obtain ⟨e₀, h₀, heq⟩ := hsame k' e₁ hlookup'
      rw [heq]
      exact (h.deleted d hd).2 k' e₀ h₀ }

end Rep

/-! ### Evictions -/

/-- What evictions do: entries leave, live ones stay, and what is deleted was in the
    cache. -/
structure Shrinks (s s' : State Key Obj) : Prop where
  rep : s'.Rep
  capacity : s'.capacity_ = s.capacity_
  policy : s'.policy_ = s.policy_
  lookup : ∀ k e, s'.cache_.lookup k = some e → s.cache_.lookup k = some e
  live : ∀ k e, s.cache_.lookup k = some e → e.live_ = true → s'.cache_.lookup k = some e
  deleted : ∀ d ∈ s'.deleted, d ∈ s.deleted ∨ ∃ k, s.cache_.lookup k = some d

theorem Shrinks.refl {s : State Key Obj} (h : s.Rep) : Shrinks s s where
  rep := h
  capacity := rfl
  policy := rfl
  lookup _ _ hlookup := hlookup
  live _ _ hlookup _ := hlookup
  deleted _ hd := .inl hd

theorem Shrinks.trans {s s₁ s₂ : State Key Obj} (h : Shrinks s s₁) (h' : Shrinks s₁ s₂) :
    Shrinks s s₂ where
  rep := h'.rep
  capacity := h'.capacity.trans h.capacity
  policy := h'.policy.trans h.policy
  lookup k e hlookup := h.lookup k e (h'.lookup k e hlookup)
  live k e hlookup hlive := h'.live k e (h.live k e hlookup hlive) hlive
  deleted d hd := by
    cases h'.deleted d hd with
    | inl hd => exact h.deleted d hd
    | inr hd =>
      obtain ⟨k, hlookup⟩ := hd
      exact .inr ⟨k, h.lookup k d hlookup⟩

/-- `evict_last` on a list that is not empty: no assertion fails, and the first node goes
    with its entry. -/
theorem evictLast_spec {s : State Key Obj} (h : s.Rep) (hne : s.lru_.nodes ≠ []) :
    ∃ s', evictLast s = .ok s' ∧ Shrinks s s' ∧ s'.lru_.nodes = s.lru_.nodes.tail := by
  -- the front of the list, which names an entry that is not live
  obtain ⟨⟨it, k⟩, ns, hns⟩ := List.exists_cons_of_ne_nil hne
  have hmem : (it, k) ∈ s.lru_.nodes := by simp [hns]
  have hbegin : s.lru_.begin = some it := by simp [LRUList.begin, hns]
  obtain ⟨e, hlookup, hlive, hit⟩ := (h.lru it k).1 hmem
  have hnode : node s.lru_ s.lru_.begin = .ok (it, k) := by
    simp only [hbegin, node, LRUList.deref_eq_some.2 hmem]
    rfl
  have hempty : s.lru_.empty = false := by simp [LRUList.empty, hns]
  refine ⟨{ s with
      cache_ := s.cache_.erase k
      lru_ := s.lru_.popFront
      size_ := s.size_ - e.object_size_
      evictions_ := s.evictions_ + 1
      deleted := e :: s.deleted }, ?_, ⟨?_, rfl, rfl, ?_, ?_, ?_⟩, rfl⟩
  · simp [evictLast, hempty, hnode, hlookup, hit, hlive]
  · apply h.erase hlookup
    · intro n
      rw [LRUList.mem_popFront hbegin]
      exact and_congr_right fun hn => h.fst_ne_iff hlookup hlive hit hn
    · intro d hd
      cases List.mem_cons.1 hd with
      | inl hd => exact .inr ⟨hd, hd ▸ hlive⟩
      | inr hd => exact .inl hd
  · intro k' e' hlookup'
    by_cases hk : k' = k
    · rw [hk, AList.lookup_erase] at hlookup'
      exact nomatch hlookup'
    · rwa [AList.lookup_erase_ne hk] at hlookup'
  · intro k' e' hlookup' hlive'
    have hk : k' ≠ k := by
      rintro rfl
      rw [hlookup] at hlookup'
      rw [← Option.some.inj hlookup', hlive] at hlive'
      exact absurd hlive' (by decide)
    rwa [AList.lookup_erase_ne hk]
  · intro d hd
    cases List.mem_cons.1 hd with
    | inl hd => exact .inr ⟨k, hd ▸ hlookup⟩
    | inr hd => exact .inl hd

theorem makeRoom_spec (object_size : Nat) {fuel : Nat} {s : State Key Obj} (h : s.Rep)
    (hfuel : s.lru_.nodes.length < fuel) :
    ∃ s', makeRoom object_size fuel s = .ok s' ∧ Shrinks s s' ∧
      (s'.isOverCapacity object_size = true → s'.lru_.nodes = []) := by
  induction fuel generalizing s with
  | zero => omega
  | succ fuel ih =>
    rw [makeRoom]
    by_cases hover : s.isOverCapacity object_size = true
    · rw [if_pos hover]
      by_cases hempty : s.lru_.empty = true
      · rw [if_pos hempty]
        exact ⟨s, rfl, .refl h, fun _ => (LRUList.empty_iff _).1 hempty⟩
      · rw [if_neg hempty]
        have hne : s.lru_.nodes ≠ [] := fun hnil => hempty ((LRUList.empty_iff _).2 hnil)
        obtain ⟨s₁, hevict, hshrinks, htail⟩ := evictLast_spec h hne
        have hfuel₁ : s₁.lru_.nodes.length < fuel := by
          have := List.length_pos_iff.2 hne
          rw [htail, List.length_tail]
          omega
        obtain ⟨s', hroom, hshrinks', hdone⟩ := ih hshrinks.rep hfuel₁
        exact ⟨s', by rw [hevict]; exact hroom, hshrinks.trans hshrinks', hdone⟩
    · rw [if_neg hover]
      exact ⟨s, rfl, .refl h, fun hover' => absurd hover' hover⟩

theorem flushFrom_spec (count : Nat) {fuel : Nat} {s : State Key Obj} (h : s.Rep)
    (hfuel : s.lru_.nodes.length < fuel) :
    ∃ s', flushFrom fuel count s = .ok (count + s.lru_.nodes.length, s') ∧ Shrinks s s' ∧
      s'.lru_.nodes = [] := by
  induction fuel generalizing s count with
  | zero => omega
  | succ fuel ih =>
    rw [flushFrom]
    by_cases hempty : s.lru_.empty = true
    · have hnil := (LRUList.empty_iff _).1 hempty
      rw [if_pos hempty, hnil]
      exact ⟨s, rfl, .refl h, hnil⟩
    · rw [if_neg hempty]
      have hne : s.lru_.nodes ≠ [] := fun hnil => hempty ((LRUList.empty_iff _).2 hnil)
      have hpos := List.length_pos_iff.2 hne
      obtain ⟨s₁, hevict, hshrinks, htail⟩ := evictLast_spec h hne
      have hlength : s₁.lru_.nodes.length + 1 = s.lru_.nodes.length := by
        rw [htail, List.length_tail]
        omega
      obtain ⟨s', hflush, hshrinks', hdone⟩ := ih (count + 1) hshrinks.rep (by omega)
      refine ⟨s', ?_, hshrinks.trans hshrinks', hdone⟩
      rw [hevict, show count + s.lru_.nodes.length = count + 1 + s₁.lru_.nodes.length by omega]
      exact hflush

/-! ### Operations -/

/-- What an operation on `key` does to the entries of other keys: they may leave, unless
    they are live. -/
structure Frame (key : Key) (s s' : State Key Obj) : Prop where
  lookup : ∀ k e, k ≠ key → s'.cache_.lookup k = some e → s.cache_.lookup k = some e
  live : ∀ k e, k ≠ key → s.cache_.lookup k = some e → e.live_ = true →
    s'.cache_.lookup k = some e

private theorem Frame.of_eq {key : Key} {s s' : State Key Obj}
    (h : ∀ k, k ≠ key → s'.cache_.lookup k = s.cache_.lookup k) : Frame key s s' where
  lookup k e hk hlookup := by rwa [h k hk] at hlookup
  live k e hk hlookup _ := by rwa [h k hk]

private theorem Shrinks.frame {key : Key} {s s₁ s₂ : State Key Obj} (h' : Shrinks s₁ s₂)
    (h : Frame key s s₁) : Frame key s s₂ where
  lookup k e hk hlookup := h.lookup k e hk (h'.lookup k e hlookup)
  live k e hk hlookup hlive := h'.live k e (h.live k e hk hlookup hlive) hlive

section Operations

variable {s : State Key Obj} {key : Key} {e : CacheElement Obj}

theorem put_hit [DecidableEq Obj] {object : Obj} {object_size : Nat} {flags : DurableStoreFlags}
    (hlookup : s.cache_.lookup key = some e) (hobject : e.object_ = object) :
    put s key object object_size flags =
      .ok (if flags.DS_EXCL then .DS_EXISTS else .DS_OK, { s with deleted := [] }) := by
  simp only [put, hlookup, hobject, if_true]
  split <;> rfl

/-- `put` of a key that is not cached, with an object that no other key has. -/
theorem put_miss [DecidableEq Obj] {object : Obj} (object_size : Nat)
    (flags : DurableStoreFlags) (h : Inv s) (hlookup : s.cache_.lookup key = none)
    (hobject : ∀ k e, s.cache_.lookup k = some e → e.object_ ≠ object) :
    ∃ s', put s key object object_size flags = .ok (.DS_OK, s') ∧ Inv s' ∧
      s'.cache_.lookup key = some ⟨object, object_size, true, none⟩ ∧ Frame key s s' := by
  obtain ⟨s₁, hroom, hshrinks, hdone⟩ := makeRoom_spec object_size
    (s := { s with deleted := [] }) h.rep.start (Nat.lt_succ_self _)
  have hnone : s₁.cache_.lookup key = none := by
    cases hsome : s₁.cache_.lookup key with
    | none => rfl
    | some e =>
      have := hshrinks.lookup key e hsome
      simp [hlookup] at this
  refine ⟨{ s₁ with
      cache_ := s₁.cache_.insert key ⟨object, object_size, true, none⟩
      size_ := s₁.size_ + object_size }, ?_, ⟨?_, ?_⟩, AList.lookup_insert _, ⟨?_, ?_⟩⟩
  · simp only [put, hlookup]
    rw [hroom]
    simp [hnone]
  · apply hshrinks.rep.insert hnone rfl
    · intro k' e' hlookup'
      exact hobject k' e' (hshrinks.lookup k' e' hlookup')
    · intro d hd
      cases hshrinks.deleted d hd with
      | inl hd => exact nomatch hd
      | inr hd =>
        obtain ⟨k', hlookup'⟩ := hd
        exact hobject k' d hlookup'
  · intro hpolicy hover
    apply hdone
    have hpolicy' : s₁.policy_ = .CAP_BY_SIZE := hpolicy
    simpa [State.isOverCapacity, hpolicy'] using hover
  · intro k' e' hk hlookup'
    rw [AList.lookup_insert_ne hk] at hlookup'
    exact hshrinks.lookup k' e' hlookup'
  · intro k' e' hk hlookup' hlive'
    rw [AList.lookup_insert_ne hk]
    exact hshrinks.live k' e' hlookup' hlive'

theorem get_miss (hlookup : s.cache_.lookup key = none) :
    get s key = .ok ((.DS_NOTFOUND, none),
      { s with deleted := [], misses_ := s.misses_ + 1 }) := by
  simp only [get, hlookup]
  rfl

theorem get_hit (h : Inv s) (hlookup : s.cache_.lookup key = some e) :
    ∃ s', get s key = .ok ((.DS_OK, some e.object_), s') ∧ Inv s' ∧
      (∃ e', s'.cache_.lookup key = some e' ∧ e'.object_ = e.object_ ∧ e'.live_ = true) ∧
      Frame key s s' ∧ s'.deleted = [] := by
  cases hlive : e.live_ with
  | true =>
    refine ⟨{ s with deleted := [], hits_ := s.hits_ + 1 }, ?_, ⟨h.rep.start, h.capacity⟩,
      ⟨e, hlookup, rfl, hlive⟩, .of_eq fun _ _ => rfl, rfl⟩
    simp only [get, hlookup, hlive, if_true]
    rfl
  | false =>
    obtain ⟨it, hit, hmem, hnode⟩ := h.rep.node hlookup hlive
    refine ⟨{ s with
        deleted := []
        hits_ := s.hits_ + 1
        cache_ := s.cache_.insert key { e with live_ := true }
        lru_ := s.lru_.erase it }, ?_, ⟨?_, ?_⟩,
      ⟨{ e with live_ := true }, AList.lookup_insert _, rfl, rfl⟩,
      .of_eq fun _ hk => AList.lookup_insert_ne hk, rfl⟩
    · simp [get, hlookup, hlive, hnode]
    · apply h.rep.start.update { e with live_ := true } hlookup rfl rfl
      · intro n
        rw [LRUList.mem_erase]
        simpa using fun hn => h.rep.fst_ne_iff hlookup hlive hit hn
      · exact nofun
    · intro hpolicy hover
      have hnil := h.capacity hpolicy hover
      simp [hnil] at hmem

private theorem release_evict (s₁ : State Key Obj) (hrep : s₁.Rep) (hmem : s₁.lru_.nodes ≠ [])
    (hcapacity : s₁.policy_ = .CAP_BY_SIZE → s₁.capacity_ < s₁.size_ →
      s₁.lru_.nodes.length = 1) :
    ∃ s', (if s₁.isOverCapacity 0 = true then do
        let s ← evictLast s₁
        pure (DurableStoreResult.DS_OK, s)
      else pure (DurableStoreResult.DS_OK, s₁)) = .ok (.DS_OK, s') ∧ Inv s' ∧ Shrinks s₁ s' := by
  by_cases hover : s₁.isOverCapacity 0 = true
  · rw [if_pos hover]
    obtain ⟨s', hevict, hshrinks, htail⟩ := evictLast_spec hrep hmem
    refine ⟨s', by rw [hevict]; rfl, ⟨hshrinks.rep, fun hpolicy _ => ?_⟩, hshrinks⟩
    -- the list was empty before the object was released
    rw [hshrinks.policy] at hpolicy
    have hlength := hcapacity hpolicy (by simpa [State.isOverCapacity, hpolicy] using hover)
    rw [htail]
    apply List.eq_nil_of_length_eq_zero
    rw [List.length_tail, hlength]
  · rw [if_neg hover]
    refine ⟨s₁, rfl, ⟨hrep, fun hpolicy hsize => ?_⟩, .refl hrep⟩
    exact absurd (by simpa [State.isOverCapacity, hpolicy] using hsize) hover

theorem release_miss [DecidableEq Obj] {data : Obj} (hlookup : s.cache_.lookup key = none) :
    release s key data = .ok (.DS_ERR, { s with deleted := [] }) := by
  simp only [release, hlookup]
  rfl

/-- `release` of a key that is cached, with its object: the entry is not live afterwards,
    if it is there at all. -/
theorem release_hit [DecidableEq Obj] {data : Obj} (h : Inv s)
    (hlookup : s.cache_.lookup key = some e) (hdata : e.object_ = data) :
    ∃ s', release s key data = .ok (.DS_OK, s') ∧ Inv s' ∧
      (∀ e', s'.cache_.lookup key = some e' → e'.object_ = e.object_ ∧ e'.live_ = false) ∧
      Frame key s s' := by
  cases hlive : e.live_ with
  | false =>
    -- the entry is in the list already, and moves to its back
    obtain ⟨it, hit, hmem, hnode⟩ := h.rep.node hlookup hlive
    have hrep : Rep (s.lru_.moveToBack it) s.cache_ s.size_ [] :=
      { h.rep.start with lru := fun it' k => by rw [LRUList.mem_moveToBack, h.rep.lru] }
    have hne : (s.lru_.moveToBack it).nodes ≠ [] :=
      List.ne_nil_of_mem (LRUList.mem_moveToBack.2 hmem)
    obtain ⟨s', hevict, hinv, hshrinks⟩ := release_evict
      { s with deleted := [], lru_ := s.lru_.moveToBack it } hrep hne
      (fun hpolicy hover => by simp [h.capacity hpolicy hover] at hmem)
    refine ⟨s', ?_, hinv, fun e' hlookup' => ?_, hshrinks.frame (.of_eq fun _ _ => rfl)⟩
    · simp only [release, hlookup, hdata, hlive, hnode]
      exact hevict
    · have hsame := hshrinks.lookup key e' hlookup'
      rw [show s.cache_.lookup key = some e from hlookup] at hsame
      rw [← Option.some.inj hsame]
      exact ⟨rfl, hlive⟩
  | true =>
    -- the entry enters the list at its back
    have hlast : (s.lru_.pushBack key).last = some s.lru_.next := LRUList.last_pushBack ..
    have hnode : node (s.lru_.pushBack key) (s.lru_.pushBack key).last =
        .ok (s.lru_.next, key) := by
      have hderef : (s.lru_.pushBack key).deref s.lru_.next = some key :=
        LRUList.deref_eq_some.2 (LRUList.mem_pushBack.2 (.inr rfl))
      rw [hlast]
      simp only [node, hderef]
      rfl
    have hrep : Rep (s.lru_.pushBack key)
        (s.cache_.insert key { e with live_ := false, lru_iter_ := some s.lru_.next })
        s.size_ [] := by
      apply h.rep.start.update { e with live_ := false, lru_iter_ := some s.lru_.next }
        hlookup rfl rfl
      · rintro ⟨it, k⟩
        rw [LRUList.mem_pushBack]
        constructor
        · rintro (hn | hn)
          · exact .inl ⟨hn, h.rep.snd_ne_of_live hlookup hlive hn⟩
          · obtain ⟨rfl, rfl⟩ := Prod.mk.inj hn
            exact .inr ⟨rfl, rfl, rfl⟩
        · rintro (⟨hn, -⟩ | ⟨hk, -, hit⟩)
          · exact .inl hn
          · have hit' : s.lru_.next = it := Option.some.inj hit
            have hk' : k = key := hk
            exact .inr (by rw [hit', hk'])
      · exact nofun
    have hne : (s.lru_.pushBack key).nodes ≠ [] :=
      List.ne_nil_of_mem (LRUList.mem_pushBack.2 (.inr rfl))
    obtain ⟨s', hevict, hinv, hshrinks⟩ := release_evict
      { s with
        deleted := []
        lru_ := s.lru_.pushBack key
        cache_ := s.cache_.insert key
          { e with live_ := false, lru_iter_ := some s.lru_.next } } hrep hne
      (fun hpolicy hover => by simp [LRUList.pushBack, h.capacity hpolicy hover])
    refine ⟨s', ?_, hinv, fun e' hlookup' => ?_,
      hshrinks.frame (.of_eq fun _ hk => AList.lookup_insert_ne hk)⟩
    · subst hdata
      rw [hlast] at hnode
      simp only [release, hlookup, hlive, hlast, hnode]
      simpa using hevict
    · have hsame := hshrinks.lookup key e' hlookup'
      rw [AList.lookup_insert] at hsame
      rw [← Option.some.inj hsame]
      exact ⟨rfl, rfl⟩

theorem del_miss (hlookup : s.cache_.lookup key = none) :
    del s key = .ok (.DS_NOTFOUND, { s with deleted := [] }) := by
  simp only [del, hlookup]
  rfl

theorem del_live (hlookup : s.cache_.lookup key = some e) (hlive : e.live_ = true) :
    del s key = .ok (.DS_ERR, { s with deleted := [] }) := by
  simp only [del, hlookup, hlive, if_true]
  rfl

private theorem Inv.erase {lru_ : LRUList Key} {deleted : List (CacheElement Obj)} (h : Inv s)
    (hlookup : s.cache_.lookup key = some e)
    (hnodes : ∀ n, n ∈ lru_.nodes ↔ n ∈ s.lru_.nodes ∧ n.2 ≠ key)
    (hdeleted : ∀ d ∈ deleted, d = e ∧ e.live_ = false) :
    Inv { s with
      lru_ := lru_
      cache_ := s.cache_.erase key
      size_ := s.size_ - e.object_size_
      deleted := deleted } where
  rep := h.rep.start.erase hlookup hnodes fun d hd => .inr (hdeleted d hd)
  capacity hpolicy hover := by
    have hnil := h.capacity hpolicy (by
      have hover' : s.capacity_ < s.size_ - e.object_size_ := hover
      omega)
    apply List.eq_nil_iff_forall_not_mem.2
    intro n hn
    have := (hnodes n).1 hn
    simp [hnil] at this

theorem del_stale (h : Inv s) (hlookup : s.cache_.lookup key = some e)
    (hlive : e.live_ = false) :
    ∃ s', del s key = .ok (.DS_OK, s') ∧ Inv s' ∧ s'.cache_.lookup key = none ∧
      Frame key s s' := by
  obtain ⟨it, hit, hmem, hnode⟩ := h.rep.node hlookup hlive
  refine ⟨{ s with
      lru_ := s.lru_.erase it
      cache_ := s.cache_.erase key
      size_ := s.size_ - e.object_size_
      deleted := [e] }, ?_, ?_, AList.lookup_erase .., .of_eq fun _ hk => AList.lookup_erase_ne hk⟩
  · simp [del, hlookup, hlive, hnode]
  · apply h.erase hlookup
    · intro n
      rw [LRUList.mem_erase]
      exact and_congr_right fun hn => h.rep.fst_ne_iff hlookup hlive hit hn
    · intro d hd
      exact ⟨List.mem_singleton.1 hd, hlive⟩

theorem remove_spec (h : Inv s) (key : Key) :
    ∃ code s', remove s key = .ok (code, s') ∧ Inv s' ∧ s'.cache_.lookup key = none ∧
      Frame key s s' ∧ s'.deleted = [] := by
  cases hlookup : s.cache_.lookup key with
  | none =>
    refine ⟨.DS_NOTFOUND, { s with deleted := [] }, ?_, ⟨h.rep.start, h.capacity⟩, hlookup,
      .of_eq fun _ _ => rfl, rfl⟩
    simp only [remove, hlookup]
    rfl
  | some e =>
    have hrest : ∀ lru_ : LRUList Key,
        (∀ n, n ∈ lru_.nodes ↔ n ∈ s.lru_.nodes ∧ n.2 ≠ key) →
        remove s key = .ok (.DS_OK, { s with
          lru_ := lru_
          cache_ := s.cache_.erase key
          size_ := s.size_ - e.object_size_
          deleted := [] }) →
        ∃ code s', remove s key = .ok (code, s') ∧ Inv s' ∧ s'.cache_.lookup key = none ∧
          Frame key s s' ∧ s'.deleted = [] := fun lru_ hnodes hremove =>
      ⟨_, _, hremove, h.erase hlookup hnodes nofun, AList.lookup_erase ..,
        .of_eq fun _ hk => AList.lookup_erase_ne hk, rfl⟩
    cases hlive : e.live_ with
    | true =>
      apply hrest s.lru_
      · intro n
        simpa using fun hn => h.rep.snd_ne_of_live hlookup hlive hn
      · simp [remove, hlookup, hlive]
    | false =>
      obtain ⟨it, hit, hmem, hnode⟩ := h.rep.node hlookup hlive
      apply hrest (s.lru_.erase it)
      · intro n
        rw [LRUList.mem_erase]
        exact and_congr_right fun hn => h.rep.fst_ne_iff hlookup hlive hit hn
      · simp [remove, hlookup, hlive, hnode]

theorem flush_spec (h : Inv s) :
    ∃ s', flush s = .ok (s.lru_.nodes.length, s') ∧ Inv s' ∧
      Shrinks { s with deleted := [] } s' := by
  obtain ⟨s', hflush, hshrinks, hnil⟩ := flushFrom_spec 0
    (s := { s with deleted := [] }) h.rep.start (Nat.lt_succ_self _)
  refine ⟨s', ?_, ⟨hshrinks.rep, fun _ _ => hnil⟩, hshrinks⟩
  rw [flush, hflush, Nat.zero_add]

end Operations

/-! ### Runs -/

theorem inv_new (capacity : Nat) (policy : CachePolicy) :
    Inv (.new capacity policy : State Key Obj) where
  rep :=
  { lru := fun it k => by simp [State.new]
    iter := fun k e hlookup => by simp [State.new] at hlookup
    size := rfl
    objects := fun k k' e e' hlookup => by simp [State.new] at hlookup
    deleted := nofun }
  capacity _ _ := rfl

/-- The step lemma: a call the clients make returns, and keeps the invariant. -/
theorem Inv.exec [DecidableEq Obj] {s : State Key Obj} (h : Inv s) (op : Op Key Obj)
    (hprotocol : Protocol s op) : ∃ s', exec s op = .ok s' ∧ Inv s' := by
  have hstart : Inv { s with deleted := [] } := ⟨h.rep.start, h.capacity⟩
  -- a call that finds nothing to do leaves the cache as it is
  cases op with
  | put key object object_size flags =>
    cases hlookup : s.cache_.lookup key with
    | some e =>
      refine ⟨_, ?_, hstart⟩
      rw [DurableObjectCache.exec, put_hit hlookup (hprotocol.1 e hlookup)]
      rfl
    | none =>
      obtain ⟨s', hput, hinv, -⟩ := put_miss object_size flags h hlookup
        (fun k e hk hobject => by
          have hkey := hprotocol.2 k e hk hobject
          rw [hkey, hlookup] at hk
          exact nomatch hk)
      exact ⟨s', by rw [DurableObjectCache.exec, hput]; rfl, hinv⟩
  | get key =>
    cases hlookup : s.cache_.lookup key with
    | none =>
      refine ⟨{ s with deleted := [], misses_ := s.misses_ + 1 }, ?_, ⟨h.rep.start, h.capacity⟩⟩
      rw [DurableObjectCache.exec, get_miss hlookup]
      rfl
    | some e =>
      obtain ⟨s', hget, hinv, -⟩ := get_hit h hlookup
      exact ⟨s', by rw [DurableObjectCache.exec, hget]; rfl, hinv⟩
  | release key data =>
    cases hlookup : s.cache_.lookup key with
    | none =>
      refine ⟨_, ?_, hstart⟩
      rw [DurableObjectCache.exec, release_miss hlookup]
      rfl
    | some e =>
      obtain ⟨s', hrelease, hinv, -⟩ := release_hit h hlookup (hprotocol e hlookup)
      exact ⟨s', by rw [DurableObjectCache.exec, hrelease]; rfl, hinv⟩
  | del key =>
    cases hlookup : s.cache_.lookup key with
    | none =>
      refine ⟨_, ?_, hstart⟩
      rw [DurableObjectCache.exec, del_miss hlookup]
      rfl
    | some e =>
      cases hlive : e.live_ with
      | true =>
        refine ⟨_, ?_, hstart⟩
        rw [DurableObjectCache.exec, del_live hlookup hlive]
        rfl
      | false =>
        obtain ⟨s', hdel, hinv, -⟩ := del_stale h hlookup hlive
        exact ⟨s', by rw [DurableObjectCache.exec, hdel]; rfl, hinv⟩
  | remove key =>
    obtain ⟨code, s', hremove, hinv, -⟩ := remove_spec h key
    exact ⟨s', by rw [DurableObjectCache.exec, hremove]; rfl, hinv⟩
  | flush =>
    obtain ⟨s', hflush, hinv, -⟩ := flush_spec h
    exact ⟨s', by rw [DurableObjectCache.exec, hflush]; rfl, hinv⟩

theorem Inv.good {s : State Key Obj} (h : Inv s) : Good s where
  nodup := by
    refine List.Nodup.map_on (fun m hm n hn heq => ?_) (List.Nodup.of_map _ s.lru_.nodup)
    -- two nodes with one key are both the node of its entry
    obtain ⟨e, hlookup, hlive, hit⟩ := (h.rep.lru m.1 m.2).1 hm
    have hfst : n.1 = m.1 := by
      by_contra hne
      exact (h.rep.fst_ne_iff hlookup hlive hit hn).1 hne heq.symm
    exact LRUList.eq_of_fst_eq hm hn hfst.symm
  listed k := by
    constructor
    · intro hk
      obtain ⟨n, hn, rfl⟩ := List.mem_map.1 hk
      obtain ⟨e, hlookup, hlive, -⟩ := (h.rep.lru n.1 n.2).1 hn
      exact ⟨e, hlookup, hlive⟩
    · rintro ⟨e, hlookup, hlive⟩
      obtain ⟨it, -, hmem, -⟩ := h.rep.node hlookup hlive
      exact List.mem_map_of_mem hmem
  iterator k e hlookup hlive := by
    obtain ⟨it, hit, hmem, -⟩ := h.rep.node hlookup hlive
    exact ⟨it, hit, LRUList.deref_eq_some.2 hmem⟩
  size := h.rep.size
  deleted := h.rep.deleted
  capacity hpolicy hover k e hlookup := by
    cases hlive : e.live_ with
    | true => rfl
    | false =>
      obtain ⟨it, -, hmem, -⟩ := h.rep.node hlookup hlive
      simp [h.capacity hpolicy hover] at hmem

theorem inv_of_reachable [DecidableEq Obj] {s : State Key Obj}
    (hs : (system Key Obj).ReachableWith Protocol s) : Inv s := by
  apply hs.invariant
  · rintro s ⟨capacity, policy, rfl⟩
    exact inv_new capacity policy
  · intro s op s' h hprotocol hstep
    obtain ⟨s'', hexec, hinv⟩ := h.exec op hprotocol
    rw [show DurableObjectCache.exec s op = .ok s' from hstep] at hexec
    rwa [Except.ok.inj hexec]

/-- After any sequence of operations that keeps to the protocol the cache is consistent,
    and the next operation fails no assertion. -/
theorem good_of_reachable [DecidableEq Obj] {s : State Key Obj}
    (hs : (system Key Obj).ReachableWith Protocol s) :
    Good s ∧ ∀ op, Protocol s op → ∃ s', exec s op = .ok s' := by
  have hinv := inv_of_reachable hs
  refine ⟨hinv.good, fun op hprotocol => ?_⟩
  obtain ⟨s', hexec, -⟩ := hinv.exec op hprotocol
  exact ⟨s', hexec⟩

/-- An object put and released. -/
theorem good_of_reachable_released : ∃ s : State Nat Nat, s.lru_.elts = [1] ∧ Good s ∧
    ∀ op, Protocol s op → ∃ s', exec s op = .ok s' := by
  have hput : (system Nat Nat).ReachableWith Protocol _ :=
    .step (a := .put 1 7 5 ⟨true, false⟩) (.init ⟨10, .CAP_BY_SIZE, rfl⟩) ⟨nofun, nofun⟩ rfl
  have hreleased : (system Nat Nat).ReachableWith Protocol _ :=
    .step (a := .release 1 7) hput (fun e he => by rw [← Option.some.inj he]) rfl
  exact ⟨_, rfl, good_of_reachable hreleased⟩

end Oasys.DurableObjectCache
