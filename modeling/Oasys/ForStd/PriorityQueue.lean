import Mathlib.Data.List.Sort

/-!
# Priority queues

The element that a priority queue hands out, where the queue is the list of its elements in
any order and `after a b` says that `a` is to come out after `b`. What a queue holds
determines it only up to elements of which neither is after the other.
-/

namespace PriorityQueue

/-- `after` compares the way a priority queue relies on. -/
structure StrictWeak {α : Type u} (after : α → α → Bool) : Prop where
  asymm : ∀ {a b}, after a b = true → after b a = false
  trans : ∀ {a b c}, after a b = false → after b c = false → after a c = false

/-- The element to come out next. -/
def top {α : Type u} (after : α → α → Bool) : List α → Option α
  | [] => none
  | a :: as =>
    match top after as with
    | none => some a
    | some b => if after a b then some b else some a

variable {α : Type u} {after : α → α → Bool} {a b : α} {as : List α}

theorem StrictWeak.irrefl (h : StrictWeak after) (a : α) : after a a = false := by
  cases haa : after a a with
  | false => rfl
  | true =>
    rw [← haa]
    exact h.asymm haa

theorem top_eq_none : top after as = none ↔ as = [] := by
  cases as with
  | nil => simp [top]
  | cons a as =>
    simp only [top, reduceCtorEq, iff_false]
    split
    · simp
    · split <;> simp

/-- What comes out is in the queue. -/
theorem top_mem (h : top after as = some a) : a ∈ as := by
  induction as generalizing a with
  | nil => cases h
  | cons x as ih =>
    unfold top at h
    split at h
    · obtain rfl := Option.some.inj h
      exact List.mem_cons_self
    · rename_i b hb
      split at h
      · obtain rfl := Option.some.inj h
        exact List.mem_cons_of_mem _ (ih hb)
      · obtain rfl := Option.some.inj h
        exact List.mem_cons_self

/-- What comes out is after nothing that is in the queue. -/
theorem top_first (hw : StrictWeak after) (h : top after as = some a) (hb : b ∈ as) :
    after a b = false := by
  induction as generalizing a b with
  | nil => cases hb
  | cons x as ih =>
    unfold top at h
    split at h
    · rename_i hnone
      obtain rfl := Option.some.inj h
      rw [top_eq_none.1 hnone, List.mem_singleton] at hb
      rw [hb]
      exact hw.irrefl x
    · rename_i y hy
      cases hxy : after x y with
      | true =>
        rw [hxy, if_pos rfl] at h
        obtain rfl := Option.some.inj h
        cases hb with
        | head => exact hw.asymm hxy
        | tail _ hmem => exact ih hy hmem
      | false =>
        rw [hxy, if_neg Bool.false_ne_true] at h
        obtain rfl := Option.some.inj h
        cases hb with
        | head => exact hw.irrefl x
        | tail _ hmem => exact hw.trans hxy (ih hy hmem)

/-!
### Heaps

A queue whose first element is one to come out next, with the others below it: no element is
after one of the two that it stands over. The algorithms of `<algorithm>` are given by what
they promise.
-/

/-- Each element but the first is after none that stands over it. -/
def IsHeap (after : α → α → Bool) (as : List α) : Prop :=
  ∀ i a b, 0 < i → as[(i - 1) / 2]? = some a → as[i]? = some b → after a b = false

/-- The first element of a heap is after no other. -/
theorem IsHeap.root (hw : StrictWeak after) (h : IsHeap after (a :: as)) (hb : b ∈ a :: as) :
    after a b = false := by
  obtain ⟨i, hi⟩ := List.getElem?_of_mem hb
  induction i using Nat.strongRecOn generalizing b with
  | ind i ih =>
    by_cases hzero : i = 0
    · subst hzero
      obtain rfl := Option.some.inj hi
      exact hw.irrefl a
    · -- from the element over it
      have hlen : i < (a :: as).length := (List.getElem?_eq_some_iff.1 hi).1
      have hparent : (i - 1) / 2 < i := by omega
      obtain ⟨c, hc⟩ : ∃ c, (a :: as)[(i - 1) / 2]? = some c :=
        ⟨_, List.getElem?_eq_getElem (by omega)⟩
      have hac := ih _ hparent (List.mem_of_getElem? hc) hc
      exact hw.trans hac (h i c b (by omega) hc hi)

theorem isHeap_of_pairwise (h : as.Pairwise fun a b => after a b = false) :
    IsHeap after as := by
  intro i a b hi ha hb
  obtain ⟨hlt, rfl⟩ := List.getElem?_eq_some_iff.1 ha
  obtain ⟨hlt', rfl⟩ := List.getElem?_eq_some_iff.1 hb
  exact List.pairwise_iff_getElem.1 h _ _ hlt hlt' (by omega)

/-- What the heap algorithms of `<algorithm>` promise. -/
structure HeapAlgorithms (after : α → α → Bool) where
  pushHeap : List α → List α
  popHeap : List α → List α
  makeHeap : List α → List α
  /-- The last element is put where it belongs. -/
  pushHeap_spec : ∀ as a, IsHeap after as →
    List.Perm (pushHeap (as ++ [a])) (as ++ [a]) ∧ IsHeap after (pushHeap (as ++ [a]))
  /-- The first element goes to the end, and the others are a heap. -/
  popHeap_spec : ∀ a as, IsHeap after (a :: as) →
    ∃ rest, popHeap (a :: as) = rest ++ [a] ∧ List.Perm rest as ∧ IsHeap after rest
  makeHeap_spec : ∀ as, List.Perm (makeHeap as) as ∧ IsHeap after (makeHeap as)

/-- The elements in the order in which they are to come out. -/
def sorted (after : α → α → Bool) (as : List α) : List α :=
  as.insertionSort fun a b => after a b = false

theorem sorted_perm (as : List α) : List.Perm (sorted after as) as :=
  List.perm_insertionSort _ as

theorem sorted_isHeap (hw : StrictWeak after) (as : List α) : IsHeap after (sorted after as) := by
  apply isHeap_of_pairwise
  have : Std.Total fun a b => after a b = false := by
    constructor
    intro a b
    cases hab : after a b with
    | false => exact Or.inl rfl
    | true => exact Or.inr (hw.asymm hab)
  have : IsTrans α fun a b => after a b = false := ⟨fun _ _ _ => hw.trans⟩
  exact List.pairwise_insertionSort _ as

/-- Heaps that are in order altogether. -/
def HeapAlgorithms.sorting (hw : StrictWeak after) : HeapAlgorithms after where
  pushHeap := sorted after
  popHeap as := sorted after as.tail ++ as.take 1
  makeHeap := sorted after
  pushHeap_spec _ _ _ := ⟨sorted_perm _, sorted_isHeap hw _⟩
  popHeap_spec _ as _ := ⟨sorted after as, rfl, sorted_perm as, sorted_isHeap hw as⟩
  makeHeap_spec as := ⟨sorted_perm as, sorted_isHeap hw as⟩

/-! ### The least element -/

/-- The loop of `std::min_element`, from the position `i` on, with the least element so far. -/
def minElementFrom (after : α → α → Bool) (least : α) (pos i : Nat) : List α → Nat
  | [] => pos
  | a :: as =>
    if after a least then minElementFrom after a i (i + 1) as
    else minElementFrom after least pos (i + 1) as

/-- `std::min_element`: the first position of an element that none is after, or the end. -/
def minElement (after : α → α → Bool) : List α → Nat
  | [] => 0
  | a :: as => minElementFrom after a 0 1 as

theorem minElementFrom_spec (hw : StrictWeak after) {front : List α} {least : α} {pos : Nat}
    (hpos : front[pos]? = some least) (hleast : ∀ b ∈ front, after b least = false) :
    ∃ a, (front ++ as)[minElementFrom after least pos front.length as]? = some a ∧
      ∀ b ∈ front ++ as, after b a = false := by
  induction as generalizing front least pos with
  | nil =>
    refine ⟨least, ?_, ?_⟩
    · rw [List.append_nil]
      exact hpos
    · rw [List.append_nil]
      exact hleast
  | cons x as ih =>
    have hlen : front.length + 1 = (front ++ [x]).length := by rw [List.length_append]; rfl
    have hsplit : front ++ x :: as = front ++ [x] ++ as := by rw [List.append_assoc]; rfl
    rw [minElementFrom, hlen, hsplit]
    cases hx : after x least with
    | true =>
      rw [if_pos rfl]
      apply ih
      · rw [List.getElem?_append_right (Nat.le_refl _), Nat.sub_self]
        rfl
      · intro b hb
        rcases List.mem_append.1 hb with hb | hb
        · exact hw.trans (hleast b hb) (hw.asymm hx)
        · rw [List.mem_singleton.1 hb]
          exact hw.irrefl x
    | false =>
      rw [if_neg Bool.false_ne_true]
      apply ih
      · have hlt : pos < front.length := (List.getElem?_eq_some_iff.1 hpos).1
        rw [List.getElem?_append_left hlt]
        exact hpos
      · intro b hb
        rcases List.mem_append.1 hb with hb | hb
        · exact hleast b hb
        · rw [List.mem_singleton.1 hb]
          exact hx

/-- Where there is an element, one is found that no other is after. -/
theorem minElement_spec (hw : StrictWeak after) (h : as ≠ []) :
    ∃ a, as[minElement after as]? = some a ∧ ∀ b ∈ as, after b a = false := by
  cases as with
  | nil => exact absurd rfl h
  | cons x as =>
    have hleast : ∀ b ∈ [x], after b x = false := by
      intro b hb
      rw [List.mem_singleton.1 hb]
      exact hw.irrefl x
    have hscan : ∃ a, ([x] ++ as)[minElementFrom after x 0 [x].length as]? = some a ∧
        ∀ b ∈ [x] ++ as, after b a = false := minElementFrom_spec hw rfl hleast
    exact hscan

end PriorityQueue
