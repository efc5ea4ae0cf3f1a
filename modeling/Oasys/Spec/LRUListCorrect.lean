import Mathlib.Data.List.AList
import Mathlib.Logic.Function.Basic
import Oasys.Util.LRUList

/-!
# LRUList: index and order

Two things a cache keeps beside its list. `Indexed` says that a map from keys to iterators
and the list are in bijection, each key at the iterator of its own node. `Recent` says that
the list is in the order in which its nodes were last touched, `touched` giving the time at
which each of them was, and `clock` the time of the next touch; the first node of any kind
is then the one of that kind that was touched the longest time ago.
-/

namespace Oasys.LRUList

variable {Elt Key : Type}

/-! ### The index -/

/-- The map sends each key to the iterator of the one node that has it. -/
def Indexed [DecidableEq Key] (l : LRUList Elt) (key : Elt → Key)
    (m : AList fun _ : Key => Iterator) : Prop :=
  ∀ k it, m.lookup k = some it ↔ ∃ elt, (it, elt) ∈ l.nodes ∧ key elt = k

namespace Indexed

variable [DecidableEq Key] {l : LRUList Elt} {key : Elt → Key}
  {m : AList fun _ : Key => Iterator} {it : Iterator} {elt : Elt}

theorem of_nodes_eq_nil (h : l.nodes = []) : Indexed l key ∅ := by
  intro k it
  simp [h]

theorem lookup (h : Indexed l key m) (hmem : (it, elt) ∈ l.nodes) :
    m.lookup (key elt) = some it :=
  (h _ _).2 ⟨elt, hmem, rfl⟩

theorem node (h : Indexed l key m) {k : Key} (hlookup : m.lookup k = some it) :
    ∃ elt, (it, elt) ∈ l.nodes ∧ key elt = k :=
  (h k it).1 hlookup

theorem key_ne (h : Indexed l key m) {k : Key} (hlookup : m.lookup k = none)
    {n : Nat × Elt} (hn : n ∈ l.nodes) : key n.2 ≠ k := by
  rintro rfl
  rw [h.lookup hn] at hlookup
  cases hlookup

theorem pushBack (h : Indexed l key m) (elt : Elt) (hnew : m.lookup (key elt) = none) :
    Indexed (l.pushBack elt) key (m.insert (key elt) l.next) := by
  intro k it
  by_cases hk : k = key elt
  · subst hk
    rw [AList.lookup_insert]
    constructor
    · intro hit
      obtain rfl := Option.some.inj hit
      exact ⟨elt, mem_pushBack.2 (.inr rfl), rfl⟩
    · rintro ⟨elt', hmem, hkey⟩
      cases mem_pushBack.1 hmem with
      | inl hold => exact absurd hkey (h.key_ne hnew hold)
      | inr hlast => rw [(Prod.mk.inj hlast).1]
  · rw [AList.lookup_insert_ne hk, h k it]
    apply exists_congr
    intro elt'
    rw [mem_pushBack]
    constructor
    · rintro ⟨hmem, hkey⟩
      exact ⟨.inl hmem, hkey⟩
    · rintro ⟨hmem | hlast, hkey⟩
      · exact ⟨hmem, hkey⟩
      · obtain rfl := (Prod.mk.inj hlast).2
        exact absurd hkey.symm hk

theorem erase (h : Indexed l key m) (hmem : (it, elt) ∈ l.nodes) :
    Indexed (l.erase it) key (m.erase (key elt)) := by
  intro k it'
  by_cases hk : k = key elt
  · subst hk
    rw [AList.lookup_erase]
    constructor
    · exact nofun
    · rintro ⟨elt', hmem', hkey⟩
      rw [mem_erase] at hmem'
      have hsame := h.lookup hmem'.1
      rw [hkey, h.lookup hmem] at hsame
      exact absurd (Option.some.inj hsame).symm hmem'.2
  · rw [AList.lookup_erase_ne hk, h k it']
    apply exists_congr
    intro elt'
    rw [mem_erase]
    constructor
    · rintro ⟨hmem', hkey⟩
      refine ⟨⟨hmem', ?_⟩, hkey⟩
      rintro rfl
      have hsame := eq_of_fst_eq hmem' hmem rfl
      exact hk (by rw [← hkey, (Prod.mk.inj hsame).2])
    · rintro ⟨⟨hmem', -⟩, hkey⟩
      exact ⟨hmem', hkey⟩

theorem congr {l' : LRUList Elt} (h : Indexed l key m)
    (hkeys : ∀ it k, (∃ elt, (it, elt) ∈ l'.nodes ∧ key elt = k) ↔
      ∃ elt, (it, elt) ∈ l.nodes ∧ key elt = k) : Indexed l' key m := by
  intro k it
  rw [h k it, hkeys]

theorem moveToBack (h : Indexed l key m) (it : Iterator) :
    Indexed (l.moveToBack it) key m :=
  h.congr fun _ _ => by simp only [mem_moveToBack]

theorem set (h : Indexed l key m) (hmem : (it, elt) ∈ l.nodes) {elt' : Elt}
    (hkey : key elt' = key elt) : Indexed (l.set it elt') key m := by
  apply h.congr
  intro it' k
  by_cases hit : it' = it
  · subst hit
    constructor
    · rintro ⟨e, hmem', rfl⟩
      rw [mem_set] at hmem'
      cases hmem' with
      | inl hother => exact absurd rfl hother.2
      | inr hset =>
        obtain rfl := (Prod.mk.inj hset.1).2
        exact ⟨elt, hmem, hkey.symm⟩
    · rintro ⟨e, hmem', rfl⟩
      obtain rfl := (Prod.mk.inj (eq_of_fst_eq hmem' hmem rfl)).2
      exact ⟨elt', mem_set.2 (.inr ⟨rfl, e, hmem'⟩), hkey⟩
  · apply exists_congr
    intro e
    simp [hit]

theorem nodup (h : Indexed l key m) : (l.elts.map key).Nodup := by
  rw [elts, List.map_map]
  apply List.Nodup.map_on
  · intro n hn n' hn' hkey
    have hit := h.lookup hn
    rw [show key n.2 = key n'.2 from hkey, h.lookup hn'] at hit
    exact eq_of_fst_eq hn hn' (Option.some.inj hit).symm
  · exact .of_map Prod.fst l.nodup

theorem mem_keys (h : Indexed l key m) {k : Key} : k ∈ m.keys ↔ k ∈ l.elts.map key := by
  have hkeys : k ∈ m.keys ↔ ∃ it, m.lookup k = some it := by
    rw [← Option.isSome_iff_exists, AList.lookup_isSome]
    rfl
  simp only [hkeys, h k, elts, List.map_map, List.mem_map, Prod.exists, Function.comp]

theorem length (h : Indexed l key m) : m.entries.length = l.nodes.length := by
  have hperm : m.keys.Perm (l.elts.map key) :=
    (List.perm_ext_iff_of_nodup m.nodupKeys h.nodup).2 fun _ => h.mem_keys
  have hlength := hperm.length_eq
  simpa [AList.keys, List.keys, elts] using hlength

end Indexed

/-! ### The order -/

/-- The nodes stand in the order in which they were last touched. -/
structure Recent (l : LRUList Elt) (touched : Iterator → Nat) (clock : Nat) : Prop where
  sorted : l.iterators.Pairwise fun a b => touched a < touched b
  lt_clock : ∀ it ∈ l.iterators, touched it < clock

namespace Recent

variable {l l' : LRUList Elt} {touched : Iterator → Nat} {clock : Nat} {it : Iterator}

theorem of_nodes_eq_nil (h : l.nodes = []) : Recent l touched clock := by
  constructor <;> simp [iterators, h]

theorem sublist (h : Recent l touched clock) (hsub : l'.iterators.Sublist l.iterators) :
    Recent l' touched clock where
  sorted := h.sorted.sublist hsub
  lt_clock it hit := h.lt_clock it (hsub.subset hit)

theorem erase (h : Recent l touched clock) (it : Iterator) :
    Recent (l.erase it) touched clock :=
  h.sublist (List.filter_sublist.map _)

theorem set (h : Recent l touched clock) (it : Iterator) (elt : Elt) :
    Recent (l.set it elt) touched clock :=
  h.sublist (by rw [iterators_set])

private theorem append {its : List Iterator} (h : Recent l touched clock)
    (hsub : its.Sublist l.iterators) (hnot : it ∉ its) (hl' : l'.iterators = its ++ [it]) :
    Recent l' (Function.update touched it clock) (clock + 1) := by
  have hother : ∀ a ∈ its, Function.update touched it clock a = touched a := by
    intro a ha
    apply Function.update_of_ne
    rintro rfl
    exact hnot ha
  constructor
  · -- the clock is later than every touch so far
    rw [hl', List.pairwise_append]
    refine ⟨?_, List.pairwise_singleton _ _, ?_⟩
    · apply (h.sorted.sublist hsub).imp_of_mem
      intro a b ha hb hlt
      rwa [hother a ha, hother b hb]
    · intro a ha b hb
      obtain rfl := List.mem_singleton.1 hb
      rw [hother a ha, Function.update_self]
      exact h.lt_clock a (hsub.subset ha)
  · intro a ha
    rw [hl', List.mem_append, List.mem_singleton] at ha
    cases ha with
    | inl ha =>
      have := h.lt_clock a (hsub.subset ha)
      rw [hother a ha]
      omega
    | inr ha =>
      rw [ha, Function.update_self]
      omega

theorem moveToBack (h : Recent l touched clock) (hit : it ∈ l.iterators) :
    Recent (l.moveToBack it) (Function.update touched it clock) (clock + 1) :=
  h.append List.filter_sublist (by simp) (iterators_moveToBack hit)

theorem pushBack (h : Recent l touched clock) (elt : Elt) :
    Recent (l.pushBack elt) (Function.update touched l.next clock) (clock + 1) := by
  apply h.append (List.Sublist.refl _)
  · intro hmem
    obtain ⟨e, he⟩ := mem_iterators.1 hmem
    exact Nat.lt_irrefl _ (l.lt_next _ he)
  · simp [iterators, LRUList.pushBack]

theorem find? (h : Recent l touched clock) {p : Nat × Elt → Bool} {n : Nat × Elt}
    (hfind : l.nodes.find? p = some n) {m : Nat × Elt} (hm : m ∈ l.nodes) (hp : p m = true)
    (hne : m.1 ≠ n.1) : touched n.1 < touched m.1 := by
  obtain ⟨-, before, after, hnodes, hbefore⟩ := List.find?_eq_some_iff_append.1 hfind
  rw [hnodes, List.mem_append, List.mem_cons] at hm
  obtain hm | rfl | hm := hm
  · have hnp := hbefore m hm
    rw [hp] at hnp
    cases hnp
  · exact absurd rfl hne
  · have hsorted := h.sorted
    rw [iterators, hnodes, List.map_append, List.map_cons, List.pairwise_append,
      List.pairwise_cons] at hsorted
    exact hsorted.2.1.1 m.1 (List.mem_map_of_mem hm)

end Recent

end Oasys.LRUList
