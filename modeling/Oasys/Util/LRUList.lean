import Mathlib.Data.List.Nodup

/-!
# LRUList

`LRUList` of `util/LRUList.h`, a `std::list` with `move_to_back`. An iterator of a
`std::list` names a node and stays valid until that node is erased, wherever the node
moves, so a node carries a number that no other node of the list has had, and an iterator
is that number.
-/

namespace Oasys

/-- A list whose nodes keep their identity. -/
structure LRUList (Elt : Type) where
  nodes : List (Nat × Elt)
  /-- The number of the next node. -/
  next : Nat
  nodup : (nodes.map Prod.fst).Nodup
  lt_next : ∀ n ∈ nodes, n.1 < next

namespace LRUList

variable {Elt : Type}

/-- An iterator, other than `end()`. -/
abbrev Iterator := Nat

/-- The empty list. -/
def new : LRUList Elt where
  nodes := []
  next := 0
  nodup := .nil
  lt_next _ h := nomatch h

def empty (l : LRUList Elt) : Bool := l.nodes.isEmpty

/-- `begin()`, `none` standing for `end()`. -/
def begin (l : LRUList Elt) : Option Iterator := l.nodes.head?.map Prod.fst

/-- `--end()`. -/
def last (l : LRUList Elt) : Option Iterator := l.nodes.getLast?.map Prod.fst

/-- `*it`, `none` for an iterator whose node is no longer there. -/
def deref (l : LRUList Elt) (it : Iterator) : Option Elt :=
  (l.nodes.find? (·.1 = it)).map Prod.snd

def popFront (l : LRUList Elt) : LRUList Elt where
  nodes := l.nodes.tail
  next := l.next
  nodup := by
    rw [List.map_tail]
    exact l.nodup.tail
  lt_next n hn := l.lt_next n (List.mem_of_mem_tail hn)

def pushBack (l : LRUList Elt) (elt : Elt) : LRUList Elt where
  nodes := l.nodes ++ [(l.next, elt)]
  next := l.next + 1
  nodup := by
    rw [List.map_append, List.nodup_append]
    refine ⟨l.nodup, List.nodup_singleton _, fun a ha b hb hab => ?_⟩
    obtain ⟨n, hn, rfl⟩ := List.mem_map.1 ha
    have hlt := l.lt_next n hn
    simp only [List.map_cons, List.map_nil, List.mem_singleton] at hb
    omega
  lt_next n hn := by
    rw [List.mem_append, List.mem_singleton] at hn
    cases hn with
    | inl hn => exact Nat.lt_succ_of_lt (l.lt_next n hn)
    | inr hn => exact hn ▸ Nat.lt_succ_self _

def erase (l : LRUList Elt) (it : Iterator) : LRUList Elt where
  nodes := l.nodes.filter (·.1 ≠ it)
  next := l.next
  nodup := l.nodup.sublist (List.filter_sublist.map _)
  lt_next n hn := l.lt_next n (List.mem_of_mem_filter hn)

/-- `move_to_back(it)`, which splices the node of `it` behind the others. -/
def moveToBack (l : LRUList Elt) (it : Iterator) : LRUList Elt where
  nodes := l.nodes.filter (·.1 ≠ it) ++ l.nodes.filter (·.1 = it)
  next := l.next
  nodup := by
    have hperm := (List.filter_append_perm (fun n : Nat × Elt => decide (n.1 ≠ it)) l.nodes)
    have hsame : (l.nodes.filter fun n => !decide (n.1 ≠ it)) = l.nodes.filter (·.1 = it) := by
      simp
    rw [hsame] at hperm
    exact (hperm.map Prod.fst).nodup_iff.2 l.nodup
  lt_next n hn := by
    rw [List.mem_append] at hn
    cases hn with
    | inl hn => exact l.lt_next n (List.mem_of_mem_filter hn)
    | inr hn => exact l.lt_next n (List.mem_of_mem_filter hn)

private theorem map_fst_assign (nodes : List (Nat × Elt)) (it : Iterator) (elt : Elt) :
    (nodes.map fun n => if n.1 = it then (it, elt) else n).map Prod.fst =
      nodes.map Prod.fst := by
  rw [List.map_map]
  apply List.map_congr_left
  intro n _
  show (if n.1 = it then (it, elt) else n).1 = n.1
  split
  · exact Eq.symm ‹_›
  · rfl

/-- `*it = elt`. -/
def set (l : LRUList Elt) (it : Iterator) (elt : Elt) : LRUList Elt where
  nodes := l.nodes.map fun n => if n.1 = it then (it, elt) else n
  next := l.next
  nodup := by
    rw [map_fst_assign]
    exact l.nodup
  lt_next n hn := by
    obtain ⟨m, hm, rfl⟩ := List.mem_map.1 hn
    have hlt := l.lt_next m hm
    split
    · rename_i hfst
      exact hfst ▸ hlt
    · exact hlt

def clear (l : LRUList Elt) : LRUList Elt where
  nodes := []
  next := l.next
  nodup := .nil
  lt_next _ h := nomatch h

/-- The iterators in the order of the list. -/
def iterators (l : LRUList Elt) : List Iterator := l.nodes.map Prod.fst

/-- The values in the order of the list. -/
def elts (l : LRUList Elt) : List Elt := l.nodes.map Prod.snd

@[simp] theorem nodes_new : (new : LRUList Elt).nodes = [] := rfl

theorem empty_iff (l : LRUList Elt) : l.empty = true ↔ l.nodes = [] := List.isEmpty_iff

variable {l : LRUList Elt} {n : Nat × Elt}

theorem eq_of_fst_eq {m : Nat × Elt} (hm : m ∈ l.nodes) (hn : n ∈ l.nodes)
    (h : m.1 = n.1) : m = n :=
  List.inj_on_of_nodup_map l.nodup hm hn h

variable {elt : Elt} {it : Iterator}

/-- An iterator of a node gives the value of the node. -/
theorem deref_eq_some : l.deref it = some elt ↔ (it, elt) ∈ l.nodes := by
  constructor
  · intro h
    obtain ⟨n, hn, rfl⟩ := Option.map_eq_some_iff.1 h
    have hmem := List.mem_of_find?_eq_some hn
    have hfst := List.find?_some hn
    rw [decide_eq_true_iff] at hfst
    rwa [← hfst]
  · intro h
    cases hfind : l.nodes.find? (·.1 = it) with
    | none => exact absurd (List.find?_eq_none.1 hfind _ h) (by simp)
    | some n =>
      have hfst := List.find?_some hfind
      rw [decide_eq_true_iff] at hfst
      have := eq_of_fst_eq (List.mem_of_find?_eq_some hfind) h hfst
      simp [deref, hfind, this]

/-- The nodes left by `pop_front()`. -/
theorem mem_popFront (h : l.begin = some it)
    {n : Nat × Elt} : n ∈ l.popFront.nodes ↔ n ∈ l.nodes ∧ n.1 ≠ it := by
  obtain ⟨m, hm, rfl⟩ := Option.map_eq_some_iff.1 h
  obtain ⟨ns, hns⟩ := List.head?_eq_some_iff.1 hm
  have hnodup := l.nodup
  simp only [popFront, hns, List.tail_cons, List.mem_cons]
  rw [hns, List.map_cons, List.nodup_cons, List.mem_map] at hnodup
  constructor
  · intro hn
    exact ⟨.inr hn, fun heq => hnodup.1 ⟨n, hn, heq⟩⟩
  · rintro ⟨rfl | hn, hne⟩
    · exact absurd rfl hne
    · exact hn

@[simp] theorem mem_erase : n ∈ (l.erase it).nodes ↔ n ∈ l.nodes ∧ n.1 ≠ it := by
  simp [erase]

@[simp] theorem mem_pushBack : n ∈ (l.pushBack elt).nodes ↔ n ∈ l.nodes ∨ n = (l.next, elt) := by
  simp [pushBack]

@[simp] theorem last_pushBack (l : LRUList Elt) (elt : Elt) :
    (l.pushBack elt).last = some l.next := by
  simp [last, pushBack]

@[simp] theorem mem_moveToBack : n ∈ (l.moveToBack it).nodes ↔ n ∈ l.nodes := by
  by_cases h : n.1 = it <;> simp [moveToBack, h]

/-- Assignment changes the value of one node. -/
@[simp] theorem mem_set : n ∈ (l.set it elt).nodes ↔
      (n ∈ l.nodes ∧ n.1 ≠ it) ∨ (n = (it, elt) ∧ ∃ old, (it, old) ∈ l.nodes) := by
  simp only [set, List.mem_map]
  constructor
  · rintro ⟨m, hm, rfl⟩
    by_cases h : m.1 = it
    · rw [if_pos h]
      exact .inr ⟨rfl, m.2, h ▸ hm⟩
    · rw [if_neg h]
      exact .inl ⟨hm, h⟩
  · rintro (⟨hn, h⟩ | ⟨rfl, old, hold⟩)
    · exact ⟨n, hn, if_neg h⟩
    · exact ⟨(it, old), hold, if_pos rfl⟩

@[simp] theorem iterators_set (l : LRUList Elt) (it : Iterator) (elt : Elt) :
    (l.set it elt).iterators = l.iterators :=
  map_fst_assign l.nodes it elt

/-- `move_to_back` puts the node it moves last. -/
theorem iterators_moveToBack (h : it ∈ l.iterators) :
    (l.moveToBack it).iterators = l.iterators.filter (· ≠ it) ++ [it] := by
  have hkept : (l.nodes.filter (·.1 ≠ it)).map Prod.fst = l.iterators.filter (· ≠ it) := by
    rw [iterators, List.filter_map]
    rfl
  have hmoved : (l.nodes.filter (·.1 = it)).map Prod.fst = l.iterators.filter (· = it) := by
    rw [iterators, List.filter_map]
    rfl
  have hone : l.iterators.filter (· = it) = [it] := by
    have hcount : l.iterators.count it = 1 := List.count_eq_one_of_mem l.nodup h
    rw [List.filter_eq, hcount, List.replicate_one]
  rw [iterators, moveToBack, List.map_append, hkept, hmoved, hone]

/-- `erase(it)` takes one node out. -/
theorem perm_erase (h : (it, elt) ∈ l.nodes) : l.nodes.Perm ((it, elt) :: (l.erase it).nodes) := by
  have hnodup : ∀ l : LRUList Elt, l.nodes.Nodup := fun l => .of_map Prod.fst l.nodup
  apply (List.perm_ext_iff_of_nodup (hnodup l) _).2
  · intro n
    rw [List.mem_cons, mem_erase]
    constructor
    · intro hn
      by_cases hit : n.1 = it
      · exact .inl (eq_of_fst_eq hn h hit)
      · exact .inr ⟨hn, hit⟩
    · rintro (rfl | hn)
      · exact h
      · exact hn.1
  · rw [List.nodup_cons]
    exact ⟨fun hmem => (mem_erase.1 hmem).2 rfl, hnodup _⟩

theorem perm_moveToBack (l : LRUList Elt) (it : Iterator) :
    (l.moveToBack it).nodes.Perm l.nodes := by
  have hperm := List.filter_append_perm (fun n : Nat × Elt => decide (n.1 ≠ it)) l.nodes
  simpa [moveToBack] using hperm

/-- An assignment that keeps what `f` sees of a node keeps what it sees of all. -/
theorem map_set {β : Type} {elt' : Elt}
    (h : (it, elt) ∈ l.nodes) {f : Nat × Elt → β} (hf : f (it, elt') = f (it, elt)) :
    (l.set it elt').nodes.map f = l.nodes.map f := by
  rw [set, List.map_map]
  apply List.map_congr_left
  intro n hn
  show f (if n.1 = it then (it, elt') else n) = f n
  split
  · rename_i hit
    rw [hf, eq_of_fst_eq hn h hit]
  · rfl

theorem mem_iterators : it ∈ l.iterators ↔ ∃ elt, (it, elt) ∈ l.nodes := by
  simp [iterators]

end LRUList

end Oasys
