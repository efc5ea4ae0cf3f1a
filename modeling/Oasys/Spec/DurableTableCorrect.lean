import Oasys.Spec.DurableObjectCacheCorrect
import Oasys.Storage.DurableTable

/-!
# DurableTable correctness

A table with an object cache against the same table without one. `Sim` relates their
states: the data behind them is the same, and an object in the cache has the content that
the data of its key reads back as. Under it each call of a client returns the same on
both, and the relation is kept.

The cache does show in three ways, all of them refused or assumed by its design. A second
object for a key that is cached is a panic, a key whose entry is live is not deleted, and
an object that is cached is returned with the content its owner has given it, whether or
not it was stored. `Careful` is the protocol that keeps clear of them.
-/

namespace Oasys.DurableTable

open DurableObjectCache (Inv Frame CachePolicy)

variable {Store Key CacheKey Ptr Content : Type} {T : DurableTable Store Key CacheKey Content}

/-! ### The implementation behind a table -/

/-- What a table relies on: a `put` or `del` changes what is read back for its own key
    only, a `put` that fails changes nothing, an exclusive one fails on a key that is there,
    and the cache tells the keys of the table apart. -/
structure Lawful (T : DurableTable Store Key CacheKey Content) : Prop where
  load_put_other : ∀ {store store' key k type content flags ret},
    T.impl_.put store key type content flags = (ret, store') → k ≠ key →
      T.load store' k = T.load store k
  load_put_failed : ∀ {store store' key type content flags ret},
    T.impl_.put store key type content flags = (ret, store') → ret ≠ .DS_OK →
      T.load store' key = T.load store key
  put_excl : ∀ {store store' key type content flags},
    T.impl_.put store key type content flags = (.DS_OK, store') → flags.DS_EXCL = true →
      ∀ d, T.load store key ≠ .ok (.DS_OK, some d)
  load_del_other : ∀ {store store' key k err},
    T.impl_.del store key = (err, store') → k ≠ key → T.load store' k = T.load store k
  cacheKey_injective : Function.Injective T.getCacheKey

/-- An object stored under this type code is read back as it was. -/
def Readable (T : DurableTable Store Key CacheKey Content) (type : Nat) (content : Content) :
    Prop :=
  ∀ {store store' key flags}, T.impl_.put store key type content flags = (.DS_OK, store') →
    T.load store' key = .ok (.DS_OK, some content)

private theorem load_some {store : Store} {key : Key} {err : DurableStoreResult} {d : Content}
    (h : T.load store key = .ok (err, some d)) : err = .DS_OK := by
  unfold load at h
  cases hkind : T.kind with
  | single builder =>
    rw [hkind] at h
    obtain ⟨⟨err', d'⟩, -, h⟩ := bind_eq_ok.1 h
    obtain ⟨rfl, hd⟩ := Prod.mk.inj (Except.ok.inj h)
    by_contra hne
    rw [if_neg hne] at hd
    exact nomatch hd
  | multi newObject =>
    rw [hkind] at h
    obtain ⟨⟨err', d'⟩, -, h⟩ := bind_eq_ok.1 h
    dsimp only at h
    split at h
    · exact nomatch (Prod.mk.inj (Except.ok.inj h)).2
    · obtain ⟨-, -, h⟩ := bind_eq_ok.1 h
      exact (Prod.mk.inj (Except.ok.inj h)).1.symm

private theorem fetchCopy_of_load [DecidableEq CacheKey] [DecidableEq Ptr]
    {s : State Store CacheKey Ptr Content} {key : Key} {builder : Content}
    (hkind : T.kind = .single builder) :
    T.fetchCopy s key = (T.load s.store key).map fun r => (r, s) := by
  simp only [fetchCopy, load, hkind]
  cases T.impl_.get s.store key builder with
  | error f => rfl
  | ok r => rfl

variable [DecidableEq CacheKey]

/-! ### The protocol -/

/-- A call under the protocol of the cache. The object put for a key that is cached is the
    cached one, and is not cached for another key; it changes only with a `put` that
    succeeds, and is read back as it was stored. An object is released for its own key, and
    a key is deleted while its entry is not live. A new object is not at an address in use. -/
def Careful (T : DurableTable Store Key CacheKey Content) (s : State Store CacheKey Ptr Content) :
    Call Key Ptr Content → Prop
  | .put key type data content flags =>
    Readable T (T.typecode type) content ∧ ∀ c, s.cache_ = some c →
      (∀ e, c.cache_.lookup (T.getCacheKey key) = some e → e.object_ = data ∧
        (content = s.heap data ∨ (T.impl_.put s.store key (T.typecode type) content
          (cleanupPutFlags flags)).1 = .DS_OK)) ∧
      ∀ k e, c.cache_.lookup k = some e → e.object_ = data → k = T.getCacheKey key
  | .get _ address => ∀ c, s.cache_ = some c →
      ∀ k e, c.cache_.lookup k = some e → e.object_ ≠ address
  | .getCopy _ => True
  | .del key => ∀ c, s.cache_ = some c →
      ∀ e, c.cache_.lookup (T.getCacheKey key) = some e → e.live_ = false
  | .release key data => ∀ c, s.cache_ = some c →
      ∀ e, c.cache_.lookup (T.getCacheKey key) = some e → e.object_ = data

/-! ### The simulation -/

/-- Every object in the cache has the content its key reads back as. -/
def Coherent (T : DurableTable Store Key CacheKey Content) (store : Store) (heap : Ptr → Content)
    (c : DurableObjectCache.State CacheKey Ptr) : Prop :=
  ∀ key e, c.cache_.lookup (T.getCacheKey key) = some e →
    T.load store key = .ok (.DS_OK, some (heap e.object_))

/-- The state `s` of a table with a cache matches the state `u` of one without. -/
structure Sim (T : DurableTable Store Key CacheKey Content)
    (s u : State Store CacheKey Ptr Content) : Prop where
  store : u.store = s.store
  uncached : u.cache_ = none
  cached : ∃ c, s.cache_ = some c ∧ Inv c ∧ Coherent T s.store s.heap c

section Step

variable {s u : State Store CacheKey Ptr Content} {c c' : DurableObjectCache.State CacheKey Ptr}
  {key : Key}

private theorem Coherent.frame (hT : Lawful T) (h : Coherent T s.store s.heap c)
    (hframe : Frame (T.getCacheKey key) c c')
    (hkey : ∀ e', c'.cache_.lookup (T.getCacheKey key) = some e' →
      T.load s.store key = .ok (.DS_OK, some (s.heap e'.object_))) :
    Coherent T s.store s.heap c' := by
  intro k e' hlookup
  by_cases hk : k = key
  · subst hk
    exact hkey e' hlookup
  · -- another key has another entry
    have hne : T.getCacheKey k ≠ T.getCacheKey key := fun heq => hk (hT.cacheKey_injective heq)
    exact h k e' (hframe.lookup _ e' hne hlookup)

variable [DecidableEq Ptr]

/-- A call returns the same in `s` and `u` and leaves matching states, or fails alike. -/
def Matches (T : DurableTable Store Key CacheKey Content)
    (s u : State Store CacheKey Ptr Content) (call : Call Key Ptr Content) : Prop :=
  (∃ f, T.exec s call = .error f ∧ T.exec u call = .error f) ∨
    ∃ outcome s' u', T.exec s call = .ok (outcome, s') ∧ T.exec u call = .ok (outcome, u') ∧
      Sim T s' u'

variable {address data : Ptr}

private theorem fetch_uncached (hnone : u.cache_ = none) {d : Content}
    (hload : T.load u.store key = .ok (.DS_OK, some d)) :
    T.fetch u key address = .ok ((.DS_OK, some address),
      { u with heap := Function.update u.heap address d }) := by
  simp only [fetch, hload, hnone]
  rfl

private theorem Sim.get_hit {e : DurableObjectCache.CacheElement Ptr}
    (hT : Lawful T) (h : Sim T s u) (hc : s.cache_ = some c) (hinv : Inv c)
    (hcoherent : Coherent T s.store s.heap c)
    (hlookup : c.cache_.lookup (T.getCacheKey key) = some e) :
    Matches T s u (.get key address) := by
  obtain ⟨c', hget, hinv', ⟨e', hlookup', hobject, -⟩, hframe, -⟩ :=
    DurableObjectCache.get_hit hinv hlookup
  have hload := hcoherent key e hlookup
  refine .inr ⟨.returned .DS_OK (some (s.heap e.object_)), { s with cache_ := some c' },
    { u with heap := Function.update u.heap address (s.heap e.object_) }, ?_, ?_,
    h.store, h.uncached, c', rfl, hinv', ?_⟩
  · simp only [exec, DurableTable.get, hc, hget]
    rfl
  · rw [← h.store] at hload
    simp only [exec, DurableTable.get, h.uncached, fetch_uncached h.uncached hload]
    simp
  · apply hcoherent.frame hT hframe
    intro e₁ hlookup₁
    rw [hlookup'] at hlookup₁
    rw [← Option.some.inj hlookup₁, hobject]
    exact hload

private theorem Sim.get_miss (hT : Lawful T) (h : Sim T s u)
    (hc : s.cache_ = some c) (hinv : Inv c) (hcoherent : Coherent T s.store s.heap c)
    (hlookup : c.cache_.lookup (T.getCacheKey key) = none)
    (hfresh : ∀ k e, c.cache_.lookup k = some e → e.object_ ≠ address) :
    Matches T s u (.get key address) := by
  have hinv₁ : Inv { c with deleted := [], misses_ := c.misses_ + 1 } :=
    ⟨hinv.rep.start, hinv.capacity⟩
  have hget : T.get s key address =
      T.fetch { s with cache_ := some { c with deleted := [], misses_ := c.misses_ + 1 } } key
        address := by
    simp only [DurableTable.get, hc, DurableObjectCache.get_miss hlookup]
    rfl
  have hget' : T.get u key address = T.fetch u key address := by
    simp only [DurableTable.get, h.uncached]
  -- both tables load the same from the store
  cases hload : T.load s.store key with
  | error f =>
    have hload' : T.load u.store key = .error f := by rw [h.store, hload]
    refine .inl ⟨f, ?_, ?_⟩
    · simp only [exec, hget, fetch, hload]
      rfl
    · simp only [exec, hget', fetch, hload']
      rfl
  | ok r =>
    obtain ⟨err, d⟩ := r
    have hload' : T.load u.store key = .ok (err, d) := by rw [h.store, hload]
    cases d with
    | none =>
      refine .inr ⟨.returned err none,
        { s with cache_ := some { c with deleted := [], misses_ := c.misses_ + 1 } }, u, ?_, ?_,
        h.store, h.uncached, _, rfl, hinv₁, hcoherent⟩
      · simp only [exec, hget, fetch, hload]
        rfl
      · simp only [exec, hget', fetch, hload']
        rfl
    | some d =>
      obtain rfl := load_some hload
      obtain ⟨c', hput, hinv', hlookup', hframe⟩ := DurableObjectCache.put_miss
        (T.marshalSize d) { DS_CREATE := true, DS_EXCL := true } hinv₁ hlookup hfresh
      refine .inr ⟨.returned .DS_OK (some d),
        { s with heap := Function.update s.heap address d, cache_ := some c' },
        { u with heap := Function.update u.heap address d }, ?_, ?_,
        h.store, h.uncached, c', rfl, hinv', ?_⟩
      · simp only [exec, hget, fetch, hload]
        simp [hput]
      · simp only [exec, hget', fetch_uncached h.uncached hload']
        simp
      · intro k e hlookup₁
        by_cases hk : k = key
        · subst hk
          rw [hlookup'] at hlookup₁
          rw [← Option.some.inj hlookup₁]
          simpa using hload
        · have hne : T.getCacheKey k ≠ T.getCacheKey key :=
            fun heq => hk (hT.cacheKey_injective heq)
          have hold := hframe.lookup _ e hne hlookup₁
          have hobject : e.object_ ≠ address := hfresh _ e hold
          simpa [hobject] using hcoherent k e hold

private theorem Sim.get (hT : Lawful T) (h : Sim T s u)
    (hcareful : Careful T s (.get key address)) : Matches T s u (.get key address) := by
  obtain ⟨c, hc, hinv, hcoherent⟩ := h.cached
  cases hlookup : c.cache_.lookup (T.getCacheKey key) with
  | none => exact h.get_miss hT hc hinv hcoherent hlookup (hcareful c hc)
  | some e => exact h.get_hit hT hc hinv hcoherent hlookup

private theorem Sim.getCopy (hT : Lawful T) (h : Sim T s u) :
    Matches T s u (.getCopy key) := by
  obtain ⟨c, hc, hinv, hcoherent⟩ := h.cached
  cases hkind : T.kind with
  | multi newObject =>
    refine .inl ⟨.panic, ?_, ?_⟩
    · simp only [exec, DurableTable.getCopy, hkind]
      rfl
    · simp only [exec, DurableTable.getCopy, hkind]
      rfl
  | single builder =>
    -- without a cache the copy is made of what is loaded
    have hcopy' : T.getCopy u key = (T.load s.store key).map fun r => (r, u) := by
      simp only [DurableTable.getCopy, hkind, h.uncached, fetchCopy_of_load hkind, h.store]
    cases hlookup : c.cache_.lookup (T.getCacheKey key) with
    | some e =>
      obtain ⟨c', hget, hinv', ⟨e', hlookup', hobject, -⟩, hframe, -⟩ :=
        DurableObjectCache.get_hit hinv hlookup
      have hload := hcoherent key e hlookup
      refine .inr ⟨.returned .DS_OK (some (s.heap e.object_)), { s with cache_ := some c' }, u,
        ?_, ?_, h.store, h.uncached, c', rfl, hinv', ?_⟩
      · simp only [exec, DurableTable.getCopy, hkind, hc, hget]
        rfl
      · simp only [exec, hcopy', hload]
        rfl
      · apply hcoherent.frame hT hframe
        intro e₁ hlookup₁
        rw [hlookup'] at hlookup₁
        rw [← Option.some.inj hlookup₁, hobject]
        exact hload
    | none =>
      have hcopy : T.getCopy s key = (T.load s.store key).map fun r => (r,
          { s with cache_ := some { c with deleted := [], misses_ := c.misses_ + 1 } }) := by
        simp only [DurableTable.getCopy, hkind, hc, DurableObjectCache.get_miss hlookup]
        exact fetchCopy_of_load hkind
      cases hload : T.load s.store key with
      | error f =>
        refine .inl ⟨f, ?_, ?_⟩
        · simp only [exec, hcopy, hload]
          rfl
        · simp only [exec, hcopy', hload]
          rfl
      | ok r =>
        refine .inr ⟨.returned r.1 r.2,
          { s with cache_ := some { c with deleted := [], misses_ := c.misses_ + 1 } }, u, ?_, ?_,
          h.store, h.uncached, _, rfl, ⟨hinv.rep.start, hinv.capacity⟩, hcoherent⟩
        · simp only [exec, hcopy, hload]
          rfl
        · simp only [exec, hcopy', hload]
          rfl

variable {content : Content} {flags : DurableStoreFlags} {store' : Store} {type : Nat}

private theorem Coherent.put {ret : DurableStoreResult} (hT : Lawful T)
    (h : Coherent T s.store s.heap c) (hframe : Frame (T.getCacheKey key) c c')
    (himpl : T.impl_.put s.store key (T.typecode type) content flags = (ret, store'))
    (hother : ∀ k e, c.cache_.lookup k = some e → e.object_ = data → k = T.getCacheKey key)
    (hkey : ∀ e', c'.cache_.lookup (T.getCacheKey key) = some e' →
      T.load store' key =
        .ok (.DS_OK, some (Function.update s.heap data content e'.object_))) :
    Coherent T store' (Function.update s.heap data content) c' := by
  intro k e' hlookup
  by_cases hk : k = key
  · subst hk
    exact hkey e' hlookup
  · have hne : T.getCacheKey k ≠ T.getCacheKey key := fun heq => hk (hT.cacheKey_injective heq)
    have hold := hframe.lookup _ e' hne hlookup
    have hobject : e'.object_ ≠ data := fun heq => hne (hother _ e' hold heq)
    rw [hT.load_put_other himpl hk, Function.update_of_ne hobject]
    exact h k e' hold

private theorem Sim.put_failed {ret : DurableStoreResult} (hT : Lawful T) (h : Sim T s u)
    (hcareful : Careful T s (.put key type data content flags))
    (himpl : T.impl_.put s.store key (T.typecode type) content (cleanupPutFlags flags) =
      (ret, store')) (hret : ret ≠ .DS_OK) :
    Matches T s u (.put key type data content flags) := by
  obtain ⟨c, hc, hinv, hcoherent⟩ := h.cached
  obtain ⟨hobject, hother⟩ := hcareful.2 c hc
  refine .inr ⟨.returned ret none,
    { s with store := store', heap := Function.update s.heap data content },
    { u with store := store', heap := Function.update u.heap data content }, ?_, ?_,
    rfl, h.uncached, c, hc, hinv, ?_⟩
  · simp only [exec, DurableTable.put, Function.update_self, himpl]
    rw [if_pos hret]
    rfl
  · simp only [exec, DurableTable.put, Function.update_self, h.store, himpl]
    rw [if_pos hret]
    rfl
  · apply hcoherent.put hT ⟨fun _ _ _ => id, fun _ _ _ hl _ => hl⟩ himpl hother
    intro e hlookup
    -- the object is the cached one, and keeps its content
    obtain ⟨heq, hcontent⟩ := hobject e hlookup
    have hsame : content = s.heap data := by
      rcases hcontent with hcontent | hcontent
      · exact hcontent
      · rw [himpl] at hcontent
        exact absurd hcontent hret
    rw [hT.load_put_failed himpl hret, heq, Function.update_self, hsame, ← heq]
    exact hcoherent key e hlookup

private theorem Sim.put_stored (hT : Lawful T) (h : Sim T s u)
    (hcareful : Careful T s (.put key type data content flags))
    (himpl : T.impl_.put s.store key (T.typecode type) content (cleanupPutFlags flags) =
      (.DS_OK, store')) :
    Matches T s u (.put key type data content flags) := by
  obtain ⟨c, hc, hinv, hcoherent⟩ := h.cached
  obtain ⟨hreadable, hcareful⟩ := hcareful
  obtain ⟨hobject, hother⟩ := hcareful c hc
  have hload := hreadable himpl
  have huncached : T.exec u (.put key type data content flags) = .ok (.returned .DS_OK none,
      { u with store := store', heap := Function.update u.heap data content }) := by
    simp only [exec, DurableTable.put, Function.update_self, h.store, himpl, h.uncached]
    rfl
  -- the cache takes the object, or has it
  have hput : ∃ c', DurableObjectCache.put c (T.getCacheKey key) data (T.marshalSize content)
      (cleanupPutFlags flags) = .ok (.DS_OK, c') ∧ Inv c' ∧ Frame (T.getCacheKey key) c c' ∧
      ∀ e', c'.cache_.lookup (T.getCacheKey key) = some e' → e'.object_ = data := by
    cases hlookup : c.cache_.lookup (T.getCacheKey key) with
    | none =>
      obtain ⟨c', hput, hinv', hlookup', hframe⟩ := DurableObjectCache.put_miss
        (T.marshalSize content) (cleanupPutFlags flags) hinv hlookup (fun k e hk heq => by
          rw [hother k e hk heq, hlookup] at hk
          exact nomatch hk)
      refine ⟨c', hput, hinv', hframe, fun e' he' => ?_⟩
      rw [hlookup'] at he'
      rw [← Option.some.inj he']
    | some e =>
      have heq := (hobject e hlookup).1
      have hexcl : (cleanupPutFlags flags).DS_EXCL = false := by
        by_contra hexcl
        exact hT.put_excl himpl (by simpa using hexcl) _ (hcoherent key e hlookup)
      refine ⟨{ c with deleted := [] }, ?_, ⟨hinv.rep.start, hinv.capacity⟩,
        ⟨fun _ _ _ => id, fun _ _ _ hl _ => hl⟩, fun e' he' => ?_⟩
      · rw [DurableObjectCache.put_hit hlookup heq, hexcl]
        rfl
      · rw [show c.cache_.lookup (T.getCacheKey key) = some e from hlookup] at he'
        rw [← Option.some.inj he', heq]
  obtain ⟨c', hput, hinv', hframe, hsame⟩ := hput
  refine .inr ⟨.returned .DS_OK none,
    { store := store', heap := Function.update s.heap data content, cache_ := some c' }, _, ?_,
    huncached, rfl, h.uncached, c', rfl, hinv', ?_⟩
  · simp only [exec, DurableTable.put, Function.update_self, himpl, hc]
    simp [hput]
  · apply hcoherent.put hT hframe himpl hother
    intro e' he'
    rw [hsame e' he', Function.update_self]
    exact hload

private theorem Sim.put (hT : Lawful T) (h : Sim T s u)
    (hcareful : Careful T s (.put key type data content flags)) :
    Matches T s u (.put key type data content flags) := by
  cases himpl : T.impl_.put s.store key (T.typecode type) content (cleanupPutFlags flags) with
  | mk ret store' =>
    by_cases hret : ret = .DS_OK
    · subst hret
      exact h.put_stored hT hcareful himpl
    · exact h.put_failed hT hcareful himpl hret

private theorem Sim.del (hT : Lawful T) (h : Sim T s u) (hcareful : Careful T s (.del key)) :
    Matches T s u (.del key) := by
  obtain ⟨c, hc, hinv, hcoherent⟩ := h.cached
  cases himpl : T.impl_.del s.store key with
  | mk err store' =>
    -- the entry of the key is gone, if there was one, and the other keys are as they were
    have hdel : ∃ code c', DurableObjectCache.del c (T.getCacheKey key) = .ok (code, c') ∧
        code ≠ .DS_ERR ∧ Inv c' ∧ c'.cache_.lookup (T.getCacheKey key) = none ∧
        Frame (T.getCacheKey key) c c' := by
      cases hlookup : c.cache_.lookup (T.getCacheKey key) with
      | none =>
        exact ⟨.DS_NOTFOUND, _, DurableObjectCache.del_miss hlookup, by decide,
          ⟨hinv.rep.start, hinv.capacity⟩, hlookup, fun _ _ _ => id, fun _ _ _ hl _ => hl⟩
      | some e =>
        obtain ⟨c', hdel, hinv', hnone, hframe⟩ :=
          DurableObjectCache.del_stale hinv hlookup (hcareful c hc e hlookup)
        exact ⟨.DS_OK, c', hdel, by decide, hinv', hnone, hframe⟩
    obtain ⟨code, c', hdel, hcode, hinv', hnone, hframe⟩ := hdel
    refine .inr ⟨.returned err none, { s with store := store', cache_ := some c' },
      { u with store := store' }, ?_, ?_, rfl, h.uncached, c', rfl, hinv', ?_⟩
    · simp only [exec, DurableTable.del, hc]
      rw [hdel]
      simp [hcode, himpl]
    · simp only [exec, DurableTable.del, h.uncached, h.store, himpl]
      rfl
    · intro k e hlookup
      have hk : k ≠ key := by
        rintro rfl
        rw [hnone] at hlookup
        exact nomatch hlookup
      have hne : T.getCacheKey k ≠ T.getCacheKey key :=
        fun heq => hk (hT.cacheKey_injective heq)
      rw [hT.load_del_other himpl hk]
      exact hcoherent k e (hframe.lookup _ e hne hlookup)

private theorem Sim.release (hT : Lawful T) (h : Sim T s u)
    (hcareful : Careful T s (.release key data)) : Matches T s u (.release key data) := by
  obtain ⟨c, hc, hinv, hcoherent⟩ := h.cached
  have hrelease : ∃ code c', DurableObjectCache.release c (T.getCacheKey key) data =
      .ok (code, c') ∧ Inv c' ∧ Coherent T s.store s.heap c' := by
    cases hlookup : c.cache_.lookup (T.getCacheKey key) with
    | none =>
      exact ⟨.DS_ERR, _, DurableObjectCache.release_miss hlookup,
        ⟨hinv.rep.start, hinv.capacity⟩, hcoherent⟩
    | some e =>
      obtain ⟨c', hrelease, hinv', hentry, hframe⟩ :=
        DurableObjectCache.release_hit hinv hlookup (hcareful c hc e hlookup)
      refine ⟨.DS_OK, c', hrelease, hinv', hcoherent.frame hT hframe fun e' he' => ?_⟩
      rw [(hentry e' he').1]
      exact hcoherent key e hlookup
  obtain ⟨code, c', hrelease, hinv', hcoherent'⟩ := hrelease
  refine .inr ⟨.released, { s with cache_ := some c' }, u, ?_, ?_, h.store, h.uncached, c', rfl,
    hinv', hcoherent'⟩
  · simp only [exec, hc]
    rw [hrelease]
    rfl
  · simp only [exec, h.uncached]
    rfl

theorem Sim.exec (hT : Lawful T) (h : Sim T s u) (call : Call Key Ptr Content)
    (hcareful : Careful T s call) : Matches T s u call := by
  cases call with
  | put key type data content flags => exact h.put hT hcareful
  | get key address => exact h.get hT hcareful
  | getCopy key => exact h.getCopy hT
  | del key => exact h.del hT hcareful
  | release key data => exact h.release hT hcareful

end Step

/-! ### Transparency -/

/-- In every run under the protocol, each call returns the same on the table with a cache of
    any capacity as on the table without one, or fails on both. -/
theorem transparent_of_careful [DecidableEq Ptr] (hT : Lawful T)
    {p : State Store CacheKey Ptr Content × State Store CacheKey Ptr Content}
    (hp : T.system.ReachableWith (fun p call => Careful T p.1 call) p)
    (call : Call Key Ptr Content) (hcareful : Careful T p.1 call) :
    (∃ f, T.exec p.1 call = .error f ∧ T.exec p.2 call = .error f) ∨
      ∃ outcome s' u', T.exec p.1 call = .ok (outcome, s') ∧
        T.exec p.2 call = .ok (outcome, u') := by
  have hsim : Sim T p.1 p.2 := by
    apply hp.invariant
    · rintro p ⟨store, heap, capacity, policy, rfl⟩
      exact ⟨rfl, rfl, _, rfl, DurableObjectCache.inv_new capacity policy, fun key e hlookup => by
        simp [DurableObjectCache.State.new] at hlookup⟩
    · rintro ⟨s, u⟩ call ⟨s', u'⟩ h hcareful ⟨outcome, outcome', hs, hu⟩
      rcases h.exec hT call hcareful with ⟨f, hf, -⟩ | ⟨outcome₁, s₁, u₁, hs₁, hu₁, h'⟩
      · dsimp only at hs hf
        rw [hs] at hf
        cases hf
      · dsimp only at hs hu hs₁ hu₁
        rw [hs] at hs₁
        rw [hu] at hu₁
        rwa [(Prod.mk.inj (Except.ok.inj hs₁)).2, (Prod.mk.inj (Except.ok.inj hu₁)).2]
  rcases hsim.exec hT call hcareful with h | ⟨outcome, s', u', hs, hu, -⟩
  · exact .inl h
  · exact .inr ⟨outcome, s', u', hs, hu⟩

/-! ### Memory tables -/

section MemoryTable

open MemoryTable (Codec ItemMap)

variable {Bytes : Type} [DecidableEq Key] {C : Codec Content Bytes} {kind : TableKind Content}
  {marshalSize : Content → Nat}

omit [DecidableEq CacheKey] in
private theorem load_memory {items items' : ItemMap Key Bytes} {key : Key}
    (h : items.lookup key = items'.lookup key) :
    (MemoryTable.table C kind marshalSize).load items key =
      (MemoryTable.table C kind marshalSize).load items' key := by
  cases kind with
  | single builder =>
    simp only [load, MemoryTable.table, MemoryTable.impl, MemoryTable.get, h]
  | multi newObject =>
    simp only [load, MemoryTable.table, MemoryTable.impl, MemoryTable.getTyped, h]

omit [DecidableEq CacheKey] in
theorem lawful_memory :
    Lawful (MemoryTable.table C kind marshalSize : DurableTable (ItemMap Key Bytes) Key Key _) where
  load_put_other {store store' key k type content flags ret} hput hk := by
    apply load_memory
    have hput' : MemoryTable.put C store key type content flags = (ret, store') := hput
    simp only [MemoryTable.put] at hput'
    split at hput' <;> split at hput' <;> obtain ⟨-, rfl⟩ := Prod.mk.inj hput' <;>
      first | rfl | exact AList.lookup_insert_ne hk
  load_put_failed {store store' key type content flags ret} hput hret := by
    apply load_memory
    have hput' : MemoryTable.put C store key type content flags = (ret, store') := hput
    simp only [MemoryTable.put] at hput'
    split at hput' <;> split at hput' <;> obtain ⟨rfl, rfl⟩ := Prod.mk.inj hput' <;>
      first | rfl | exact absurd rfl hret
  put_excl {store store' key type content flags} hput hexcl d hload := by
    have hput' : MemoryTable.put C store key type content flags = (.DS_OK, store') := hput
    simp only [MemoryTable.put, hexcl, if_true] at hput'
    cases hlookup : store.lookup key with
    | some item =>
      rw [hlookup] at hput'
      exact nomatch (Prod.mk.inj hput').1
    | none =>
      -- a key without an item reads back nothing
      cases kind with
      | single builder =>
        simp [load, MemoryTable.table, MemoryTable.impl, MemoryTable.get, hlookup] at hload
      | multi newObject =>
        simp [load, MemoryTable.table, MemoryTable.impl, MemoryTable.getTyped, hlookup] at hload
  load_del_other {store store' key k err} hdel hk := by
    apply load_memory
    have hdel' : MemoryTable.del store key = (err, store') := hdel
    simp only [MemoryTable.del] at hdel'
    split at hdel' <;> obtain ⟨-, rfl⟩ := Prod.mk.inj hdel' <;>
      first | rfl | exact AList.lookup_erase_ne hk
  cacheKey_injective := Function.injective_id

omit [DecidableEq CacheKey] in
/-- An object of a single-type memory table is readable where `Unmarshal` undoes
    `Marshal`. -/
theorem readable_memory {builder content : Content} {type : Nat}
    (h : C.unmarshal builder (C.marshal content) = (true, content)) :
    Readable (MemoryTable.table C (.single builder) marshalSize :
      DurableTable (ItemMap Key Bytes) Key Key _) type content := by
  intro store store' key flags hput
  have hput' : MemoryTable.put C store key type content flags = (.DS_OK, store') := hput
  have hlookup : store'.lookup key = some ⟨C.marshal content, type⟩ := by
    simp only [MemoryTable.put] at hput'
    split at hput' <;> split at hput' <;> obtain ⟨hret, rfl⟩ := Prod.mk.inj hput' <;>
      first | exact AList.lookup_insert _ | exact nomatch hret
  simp [load, MemoryTable.table, MemoryTable.impl, MemoryTable.get, hlookup, h]

end MemoryTable

def numbers : DurableTable (MemoryTable.ItemMap Nat Nat) Nat Nat Nat :=
  MemoryTable.table ⟨id, fun _ bytes => (true, bytes)⟩ (.single 0) id

/-- The table with a cache for `capacity` objects. -/
def cached (capacity : Nat) : State (MemoryTable.ItemMap Nat Nat) Nat Nat Nat :=
  { store := ∅, cache_ := some (.new capacity .CAP_BY_COUNT), heap := fun _ => 0 }

def uncached : State (MemoryTable.ItemMap Nat Nat) Nat Nat Nat :=
  { store := ∅, cache_ := none, heap := fun _ => 0 }

/-- An object put, and read again from the cache. -/
theorem transparent_of_careful_numbers :
    ∃ p : State (MemoryTable.ItemMap Nat Nat) Nat Nat Nat × State _ _ _ _,
      p.1.heap 10 = 5 ∧
      ((∃ f, numbers.exec p.1 (.get 1 11) = .error f ∧ numbers.exec p.2 (.get 1 11) = .error f) ∨
        ∃ outcome s' u', numbers.exec p.1 (.get 1 11) = .ok (outcome, s') ∧
          numbers.exec p.2 (.get 1 11) = .ok (outcome, u')) := by
  have hput : numbers.system.ReachableWith (fun p call => Careful numbers p.1 call) (_, _) :=
    .step (a := .put 1 0 10 5 ⟨true, false⟩) (.init ⟨∅, fun _ => 0, 2, .CAP_BY_COUNT, rfl⟩)
      ⟨readable_memory rfl, fun c hc => by
        obtain rfl := Option.some.inj hc
        exact ⟨nofun, nofun⟩⟩
      ⟨_, _, rfl, rfl⟩
  refine ⟨_, rfl, transparent_of_careful lawful_memory hput (.get 1 11) fun c hc k e hlookup => ?_⟩
  -- the one object in the cache is the one that was put
  obtain rfl := Option.some.inj hc
  by_cases hk : k = 1
  · subst hk
    rw [← Option.some.inj hlookup]
    decide
  · have hnone := (AList.lookup_insert_ne hk).symm.trans hlookup
    exact nomatch hnone

/-- Without the protocol the cache shows. A new object for a key that is still cached is a
    panic; a key whose object is held is not deleted; an object that a refused `put` was to
    store is returned with its new content. -/
theorem cache_shows :
    (numbers.run (cached 2) [.put 1 0 10 5 ⟨true, false⟩, .release 1 10,
        .put 1 0 11 6 ⟨true, false⟩] = .error .panic ∧
      numbers.run uncached [.put 1 0 10 5 ⟨true, false⟩, .release 1 10,
        .put 1 0 11 6 ⟨true, false⟩] =
          .ok [.returned .DS_OK none, .released, .returned .DS_OK none]) ∧
    (numbers.run (cached 2) [.put 1 0 10 5 ⟨true, false⟩, .del 1] =
        .ok [.returned .DS_OK none, .returned .DS_ERR none] ∧
      numbers.run uncached [.put 1 0 10 5 ⟨true, false⟩, .del 1] =
        .ok [.returned .DS_OK none, .returned .DS_OK none]) ∧
    (numbers.run (cached 2) [.put 1 0 10 5 ⟨true, false⟩, .put 1 0 10 6 ⟨true, true⟩,
        .get 1 11] =
        .ok [.returned .DS_OK none, .returned .DS_EXISTS none, .returned .DS_OK (some 6)] ∧
      numbers.run uncached [.put 1 0 10 5 ⟨true, false⟩, .put 1 0 10 6 ⟨true, true⟩,
        .get 1 11] =
        .ok [.returned .DS_OK none, .returned .DS_EXISTS none, .returned .DS_OK (some 5)]) :=
  ⟨⟨rfl, rfl⟩, ⟨rfl, rfl⟩, rfl, rfl⟩

end Oasys.DurableTable
