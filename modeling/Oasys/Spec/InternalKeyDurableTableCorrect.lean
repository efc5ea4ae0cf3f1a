import Oasys.ForStd.Answering
import Oasys.Storage.InternalKeyDurableTable

/-!
# InternalKeyDurableTable correctness

A table of this kind over a `MemoryTable` against a map from keys to objects: every sequence of
calls returns from all of them, and with the answers of the map. So no call panics, and what
`get` returns has the key that was asked for.
-/

namespace Oasys.InternalKeyDurableTable

open DurableTable (State UNKNOWN_TYPE)
open MemoryTable (Codec Item ItemMap)

variable {Key Ptr Content Id Bytes : Type} [DecidableEq Key] [DecidableEq Id]

/-- A call on a map from keys to objects. -/
def spec (durableKey : Content → Id) (m : Id → Option Content) :
    Call Ptr Content Id → Outcome Content × (Id → Option Content)
  | .add _ content =>
    match m (durableKey content) with
    | none => (.done true, Function.update m (durableKey content) (some content))
    | some _ => (.done false, m)
  | .get key _ => (.got (m key), m)
  | .update _ content =>
    match m (durableKey content) with
    | none => (.done false, m)
    | some _ => (.done true, Function.update m (durableKey content) (some content))
  | .del key =>
    match m key with
    | none => (.done false, m)
    | some _ => (.done true, Function.update m key none)

def onMemory (C : Codec Content Bytes) (builder : Content) (marshalSize : Content → Nat)
    (durableKey : Content → Id) (shim : Id → Key) :
    InternalKeyDurableTable (ItemMap Key Bytes) Key Key Content Id :=
  ⟨MemoryTable.table C (.single builder) marshalSize, durableKey, shim⟩

/-- The items are the objects of the map, each under the key it has in itself. -/
structure Holds (C : Codec Content Bytes) (durableKey : Content → Id) (shim : Id → Key)
    (m : Id → Option Content) (items : ItemMap Key Bytes) : Prop where
  lookup : ∀ key, items.lookup (shim key) = (m key).map fun c => ⟨C.marshal c, UNKNOWN_TYPE⟩
  keyed : ∀ key c, m key = some c → durableKey c = key

variable {C : Codec Content Bytes} {builder : Content} {marshalSize : Content → Nat}
  {durableKey : Content → Id} {shim : Id → Key} {m : Id → Option Content}
  {items : ItemMap Key Bytes}

omit [DecidableEq Id] in
theorem Holds.empty : Holds C durableKey shim (fun _ => none) (∅ : ItemMap Key Bytes) where
  lookup _ := AList.lookup_empty _
  keyed _ _ hc := by cases hc

theorem Holds.insert (h : Holds C durableKey shim m items) (hshim : Function.Injective shim)
    (content : Content) :
    Holds C durableKey shim (Function.update m (durableKey content) (some content))
      (items.insert (shim (durableKey content)) ⟨C.marshal content, UNKNOWN_TYPE⟩) where
  lookup key := by
    by_cases hkey : key = durableKey content
    · rw [hkey, AList.lookup_insert, Function.update_self]
      rfl
    · rw [AList.lookup_insert_ne (hshim.ne hkey), Function.update_of_ne hkey]
      exact h.lookup key
  keyed key c hc := by
    by_cases hkey : key = durableKey content
    · rw [hkey, Function.update_self] at hc
      obtain rfl := Option.some.inj hc
      exact hkey.symm
    · rw [Function.update_of_ne hkey] at hc
      exact h.keyed key c hc

theorem Holds.erase (h : Holds C durableKey shim m items) (hshim : Function.Injective shim)
    (key : Id) :
    Holds C durableKey shim (Function.update m key none) (items.erase (shim key)) where
  lookup other := by
    by_cases hkey : other = key
    · rw [hkey, AList.lookup_erase, Function.update_self]
      rfl
    · rw [AList.lookup_erase_ne (hshim.ne hkey), Function.update_of_ne hkey]
      exact h.lookup other
  keyed other c hc := by
    by_cases hkey : other = key
    · rw [hkey, Function.update_self] at hc
      cases hc
    · rw [Function.update_of_ne hkey] at hc
      exact h.keyed other c hc

/-- The map and the state of the table. -/
structure Sim (C : Codec Content Bytes) (durableKey : Content → Id) (shim : Id → Key)
    (m : Id → Option Content) (s : State (ItemMap Key Bytes) Key Ptr Content) : Prop where
  uncached : s.cache_ = none
  holds : Holds C durableKey shim m s.store

theorem put_eq [DecidableEq Ptr] (heap : Ptr → Content) (key : Key) (type : Nat) (data : Ptr)
    (flags : DurableStoreFlags) :
    (MemoryTable.table C (.single builder) marshalSize).put ⟨items, none, heap⟩ key type data flags =
      .ok ((MemoryTable.put C items key UNKNOWN_TYPE (heap data)
          (DurableTable.cleanupPutFlags flags)).1,
        ⟨(MemoryTable.put C items key UNKNOWN_TYPE (heap data)
          (DurableTable.cleanupPutFlags flags)).2, none, heap⟩) := by
  unfold DurableTable.put
  dsimp only
  split <;> rfl

theorem Sim.exec [DecidableEq Ptr] {s : State (ItemMap Key Bytes) Key Ptr Content}
    (h : Sim C durableKey shim m s) (hshim : Function.Injective shim)
    (hC : ∀ c, C.unmarshal builder (C.marshal c) = (true, c)) (call : Call Ptr Content Id) :
    ∃ r s', (onMemory C builder marshalSize durableKey shim).exec s call = .ok (r, s') ∧
      (spec durableKey m call).1 = r ∧ Sim C durableKey shim (spec durableKey m call).2 s' := by
  obtain ⟨items, cache_, heap⟩ := s
  obtain ⟨rfl, h⟩ := h
  cases call with
  | add data content =>
    have hlookup := h.lookup (durableKey content)
    cases hm : m (durableKey content) with
    | none =>
      rw [hm] at hlookup
      simp only [spec, hm]
      refine ⟨_, ⟨items.insert (shim (durableKey content)) ⟨C.marshal content, UNKNOWN_TYPE⟩, none,
        Function.update heap data content⟩, ?_, rfl, rfl, h.insert hshim content⟩
      simp [InternalKeyDurableTable.exec, add, onMemory, put_eq, MemoryTable.put, hlookup,
        DurableTable.cleanupPutFlags]
    | some c =>
      rw [hm] at hlookup
      simp only [spec, hm]
      refine ⟨_, ⟨_, none, Function.update heap data content⟩, ?_, rfl, rfl, h⟩
      simp [InternalKeyDurableTable.exec, add, onMemory, put_eq, MemoryTable.put, hlookup,
        DurableTable.cleanupPutFlags]
  | get key address =>
    have hlookup := h.lookup key
    cases hm : m key with
    | none =>
      rw [hm] at hlookup
      simp only [spec, hm]
      refine ⟨_, ⟨_, none, heap⟩, ?_, rfl, rfl, h⟩
      simp [InternalKeyDurableTable.exec, get, onMemory, DurableTable.get, DurableTable.fetch,
        DurableTable.load, MemoryTable.table, MemoryTable.impl, MemoryTable.get, hlookup]
    | some c =>
      rw [hm] at hlookup
      simp only [spec, hm]
      refine ⟨_, ⟨_, none, Function.update heap address c⟩, ?_, rfl, rfl, h⟩
      simp [InternalKeyDurableTable.exec, get, onMemory, DurableTable.get, DurableTable.fetch,
        DurableTable.load, MemoryTable.table, MemoryTable.impl, MemoryTable.get, hlookup, hC,
        h.keyed key c hm]
  | update data content =>
    have hlookup := h.lookup (durableKey content)
    cases hm : m (durableKey content) with
    | none =>
      rw [hm] at hlookup
      simp only [spec, hm]
      refine ⟨_, ⟨_, none, Function.update heap data content⟩, ?_, rfl, rfl, h⟩
      simp [InternalKeyDurableTable.exec, update, onMemory, put_eq, MemoryTable.put, hlookup,
        DurableTable.cleanupPutFlags]
    | some c =>
      rw [hm] at hlookup
      simp only [spec, hm]
      refine ⟨_, ⟨items.insert (shim (durableKey content)) ⟨C.marshal content, UNKNOWN_TYPE⟩, none,
        Function.update heap data content⟩, ?_, rfl, rfl, h.insert hshim content⟩
      simp [InternalKeyDurableTable.exec, update, onMemory, put_eq, MemoryTable.put, hlookup,
        DurableTable.cleanupPutFlags]
  | del key =>
    have hlookup := h.lookup key
    cases hm : m key with
    | none =>
      rw [hm] at hlookup
      simp only [spec, hm]
      refine ⟨_, ⟨_, none, heap⟩, ?_, rfl, rfl, h⟩
      simp [InternalKeyDurableTable.exec, del, onMemory, DurableTable.del, MemoryTable.table,
        MemoryTable.impl, MemoryTable.del, hlookup]
    | some c =>
      rw [hm] at hlookup
      simp only [spec, hm]
      refine ⟨_, ⟨items.erase (shim key), none, heap⟩, ?_, rfl, rfl, h.erase hshim key⟩
      simp [InternalKeyDurableTable.exec, del, onMemory, DurableTable.del, MemoryTable.table,
        MemoryTable.impl, MemoryTable.del, hlookup]

theorem refines_map [DecidableEq Ptr] (hshim : Function.Injective shim)
    (hC : ∀ c, C.unmarshal builder (C.marshal c) = (true, c)) (heap : Ptr → Content)
    (calls : List (Call Ptr Content Id)) :
    Answering.Refines (spec durableKey) (onMemory C builder marshalSize durableKey shim).exec
      (fun r r' => r = r') (fun _ => none) ⟨∅, none, heap⟩ calls := by
  have hsim : Sim C durableKey shim (fun _ => none) ⟨∅, none, heap⟩ := ⟨rfl, .empty⟩
  revert hsim
  generalize (fun _ => none : Id → Option Content) = m
  generalize (⟨∅, none, heap⟩ : State (ItemMap Key Bytes) Key Ptr Content) = s
  intro hsim
  induction calls generalizing m s with
  | nil => exact ⟨[], s, rfl, .nil⟩
  | cons call calls ih =>
    obtain ⟨r, s', hexec, hr, hsim'⟩ := hsim.exec hshim hC call
    exact Answering.refines_cons.2 ⟨r, s', hexec, hr, ih _ _ hsim'⟩

/-- Pairs of a key and a number, of which one is added, changed, and added again. -/
theorem refines_map_pairs :
    Answering.Refines (spec Prod.fst) (onMemory (⟨id, fun _ bytes => (true, bytes)⟩ :
        Codec (Nat × Nat) (Nat × Nat)) (0, 0) (fun _ => 2) Prod.fst fun key : Nat => key).exec
      (fun r r' => r = r') (fun _ => none) ⟨∅, none, fun _ : Nat => (0, 0)⟩
      [.add 10 (1, 5), .update 10 (1, 6), .get 1 11, .add 12 (1, 7), .del 2] :=
  refines_map (fun _ _ h => h) (fun _ => rfl) _ _

end Oasys.InternalKeyDurableTable
