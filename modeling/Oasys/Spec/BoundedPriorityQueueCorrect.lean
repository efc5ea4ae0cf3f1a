import Mathlib.Algebra.BigOperators.Group.Multiset.Basic
import Mathlib.Data.List.Perm.Basic
import Oasys.ForStd.Transition
import Oasys.Util.BoundedPriorityQueue

/-!
# What a bounded priority queue holds

A bag of elements with a bound on the sum of their sizes: what goes in may push out least
elements, one after another and no more than it takes, and what comes out is a greatest one.
The queue is such a bag, in every state that a run reaches whose sizes fit the counter.
-/

namespace Oasys

namespace BoundedPriorityQueue

open PriorityQueue

variable {T : Type} {comp : T → T → Bool} {size : T → Nat}

/-! ### Bags with a bound -/

def total (size : T → Nat) (s : Multiset T) : Nat := (s.map size).sum

/-- Least elements are removed one by one, as long as the bound is exceeded. -/
inductive Trimmed (comp : T → T → Bool) (size : T → Nat) (max : Nat) :
    Multiset T → Multiset T → Prop
  | done {s : Multiset T} (h : total size s ≤ max) : Trimmed comp size max s s
  | drop {s s' : Multiset T} {minObj : T} (h : max < total size (minObj ::ₘ s))
      (hleast : ∀ b ∈ minObj ::ₘ s, comp b minObj = false) (hrest : Trimmed comp size max s s') :
      Trimmed comp size max (minObj ::ₘ s) s'

/-- What a call makes of a bag, and of the bound. -/
def Changed (comp : T → T → Bool) (size : T → Nat) (q : BoundedPriorityQueue T) (a : Call T)
    (q' : BoundedPriorityQueue T) : Prop :=
  match a with
  | .push obj => Trimmed comp size q.max.toNat (obj ::ₘ q.c) q'.c ∧ q'.max = q.max
  | .pop => (∃ t, (q.c : Multiset T) = t ::ₘ q'.c ∧ ∀ b ∈ q.c, comp t b = false) ∧
      q'.max = q.max
  | .setMax max_size => Trimmed comp size max_size.toNat q.c q'.c ∧ q'.max = max_size

theorem total_cons (a : T) (s : Multiset T) : total size (a ::ₘ s) = size a + total size s := by
  rw [total, Multiset.map_cons, Multiset.sum_cons, total]

theorem Trimmed.total_le {max : Nat} {s s' : Multiset T} (h : Trimmed comp size max s s') :
    total size s' ≤ max := by
  induction h with
  | done h => exact h
  | drop _ _ _ ih => exact ih

/-! ### The queue -/

/-- The counter is right and within the bound, and `top` is a greatest element. -/
structure Correct (comp : T → T → Bool) (size : T → Nat) (q : BoundedPriorityQueue T) :
    Prop where
  current : q.current.toNat = total size q.c
  bounded : q.current ≤ q.max
  top : q.c ≠ [] → ∃ t, q.top = .ok t ∧ t ∈ q.c ∧ ∀ b ∈ q.c, comp t b = false

/-- What is kept: a queue that is counted, bounded and a heap. -/
structure Sound (comp : T → T → Bool) (size : T → Nat) (q : BoundedPriorityQueue T) :
    Prop where
  counted : q.cur_size_.toNat = total size q.c
  bounded : total size q.c ≤ q.max_size_.toNat
  heap : IsHeap comp q.c

variable {heaps : HeapAlgorithms comp} {q q' : BoundedPriorityQueue T}

theorem Sound.correct (hw : StrictWeak comp) (h : Sound comp size q) : Correct comp size q where
  current := h.counted
  bounded := by
    rw [UInt32.le_iff_toNat_le]
    exact h.counted.trans_le h.bounded
  top := by
    intro hne
    obtain ⟨c, cur_size_, max_size_⟩ := q
    cases c with
    | nil => exact absurd rfl hne
    | cons t as => exact ⟨t, rfl, List.mem_cons_self, fun b hb => h.heap.root hw hb⟩

theorem coe_eraseIdx {as : List T} {i : Nat} {a : T} (h : as[i]? = some a) :
    (as : Multiset T) = a ::ₘ (as.eraseIdx i : List T) := by
  obtain ⟨hlt, rfl⟩ := List.getElem?_eq_some_iff.1 h
  rw [Multiset.cons_coe]
  exact Multiset.coe_eq_coe.2 (List.getElem_cons_eraseIdx_perm hlt).symm

theorem toNat_sub_size {cur : UInt32} {n rest : Nat} (h : cur.toNat = n + rest) :
    (cur - .ofNat n).toNat = rest := by
  have hlt := cur.toNat_lt
  have hn : (UInt32.ofNat n).toNat = n := UInt32.toNat_ofNat_of_lt' (by
    rw [UInt32.size]
    omega)
  rw [UInt32.toNat_sub_of_le, hn]
  · omega
  · rw [UInt32.le_iff_toNat_le, hn]
    omega

theorem dropLeast_spec (hw : StrictWeak comp) (q : BoundedPriorityQueue T)
    (hcur : q.cur_size_.toNat = total size q.c) :
    ∃ q', dropLeast comp size q = .ok q' ∧ q'.max_size_ = q.max_size_ ∧
      q'.cur_size_.toNat = total size q'.c ∧
      Trimmed comp size q.max_size_.toNat q.c q'.c := by
  induction hlen : q.c.length generalizing q with
  | zero =>
    have hnil : q.c = [] := List.length_eq_zero_iff.1 hlen
    have hzero : ¬ q.max_size_ < q.cur_size_ := by
      rw [UInt32.lt_iff_toNat_lt, hcur, hnil]
      exact Nat.not_lt_zero _
    have hdrop : dropLeast comp size q = .ok q := by
      unfold dropLeast
      rw [if_neg hzero]
      rfl
    refine ⟨q, hdrop, rfl, hcur, .done ?_⟩
    rw [hnil]
    exact Nat.zero_le _
  | succ n ih =>
    by_cases hexceeded : q.max_size_ < q.cur_size_
    · have hne : q.c ≠ [] := by
        rw [← List.length_pos_iff]
        omega
      obtain ⟨minObj, hmin, hleast⟩ := minElement_spec hw hne
      have hlt := (List.getElem?_eq_some_iff.1 hmin).1
      have hbag := coe_eraseIdx hmin
      let q₁ : BoundedPriorityQueue T :=
        { q with
          cur_size_ := q.cur_size_ - .ofNat (size minObj)
          c := q.c.eraseIdx (minElement comp q.c) }
      have hstep : dropLeast comp size q = dropLeast comp size q₁ := by
        rw [dropLeast, if_pos hexceeded]
        simp only
        split
        · rename_i hnone
          rw [hmin] at hnone
          cases hnone
        · rename_i minObj' hsome
          rw [hmin] at hsome
          obtain rfl := Option.some.inj hsome
          rfl
      have hcur₁ : q₁.cur_size_.toNat = total size q₁.c := by
        apply toNat_sub_size
        rw [hcur, hbag, total_cons]
      have hlen₁ : q₁.c.length = n := by
        rw [List.length_eraseIdx_of_lt hlt]
        omega
      obtain ⟨q', hrun, hmax, hcur', htrim⟩ := ih q₁ hcur₁ hlen₁
      refine ⟨q', hstep.trans hrun, hmax, hcur', ?_⟩
      have hover : q.max_size_.toNat < total size q.c := by
        rw [← hcur]
        exact UInt32.lt_iff_toNat_lt.1 hexceeded
      rw [hbag] at hover ⊢
      refine .drop hover ?_ htrim
      intro b hb
      rw [← hbag] at hb
      exact hleast b hb
    · have hdrop : dropLeast comp size q = .ok q := by
        rw [dropLeast, if_neg hexceeded]
        rfl
      refine ⟨q, hdrop, rfl, hcur, .done ?_⟩
      rw [← hcur]
      rw [UInt32.lt_iff_toNat_lt] at hexceeded
      omega

theorem enforceBound_spec (heaps : HeapAlgorithms comp) (hw : StrictWeak comp)
    (q : BoundedPriorityQueue T) (hcur : q.cur_size_.toNat = total size q.c) :
    ∃ q', q.enforceBound size heaps = .ok q' ∧ q'.max_size_ = q.max_size_ ∧
      Trimmed comp size q.max_size_.toNat q.c q'.c ∧ Sound comp size q' := by
  obtain ⟨q₁, hrun, hmax, hcur₁, htrim⟩ := dropLeast_spec hw q hcur
  obtain ⟨hperm, hheap⟩ := heaps.makeHeap_spec q₁.c
  have hbag : (heaps.makeHeap q₁.c : Multiset T) = q₁.c := Multiset.coe_eq_coe.2 hperm
  refine ⟨{ q₁ with c := heaps.makeHeap q₁.c }, ?_, hmax, ?_, ?_, ?_, hheap⟩
  · rw [enforceBound, hrun]
    rfl
  · rwa [hbag]
  · simp only
    rwa [hbag]
  · simp only
    rw [hbag, hmax]
    exact htrim.total_le

/-! ### Runs -/

/-- The sizes fit the counter, and there is something to take out. -/
def Ready (size : T → Nat) (q : BoundedPriorityQueue T) : Call T → Prop
  | .push obj => total size q.c + size obj < 2 ^ 32
  | .pop => q.c ≠ []
  | .setMax _ => True

theorem Sound.call (heaps : HeapAlgorithms comp) (hw : StrictWeak comp)
    (h : Sound comp size q) (a : Call T) (ha : Ready size q a) :
    ∃ q', q.call size heaps a = .ok q' ∧ Changed comp size q a q' ∧ Sound comp size q' := by
  cases a with
  | push obj =>
    obtain ⟨hperm, -⟩ := heaps.pushHeap_spec q.c obj h.heap
    have hbag : (heaps.pushHeap (q.c ++ [obj]) : Multiset T) = obj ::ₘ q.c := by
      rw [Multiset.coe_eq_coe.2 hperm, ← Multiset.coe_add, Multiset.coe_singleton,
        Multiset.add_comm, Multiset.singleton_add]
    have hroom : total size q.c + size obj < 2 ^ 32 := ha
    have hcur : (q.cur_size_ + .ofNat (size obj)).toNat
        = total size (heaps.pushHeap (q.c ++ [obj]) : Multiset T) := by
      have hobj : (UInt32.ofNat (size obj)).toNat = size obj :=
        UInt32.toNat_ofNat_of_lt' (by
          rw [UInt32.size]
          omega)
      rw [UInt32.toNat_add, hobj, h.counted, hbag, total_cons, Nat.mod_eq_of_lt hroom,
        Nat.add_comm]
    obtain ⟨q', hrun, hmax, htrim, hsound⟩ := enforceBound_spec heaps hw
      { q with c := heaps.pushHeap (q.c ++ [obj]), cur_size_ := q.cur_size_ + .ofNat (size obj) }
      hcur
    simp only [hbag] at htrim
    exact ⟨q', hrun, ⟨htrim, hmax⟩, hsound⟩
  | setMax max_size =>
    obtain ⟨q', hrun, hmax, htrim, hsound⟩ := enforceBound_spec heaps hw
      { q with max_size_ := max_size } h.counted
    exact ⟨q', hrun, ⟨htrim, hmax⟩, hsound⟩
  | pop =>
    obtain ⟨c, cur_size_, max_size_⟩ := q
    cases c with
    | nil => exact absurd rfl ha
    | cons front as =>
      obtain ⟨rest, hpop, hperm, hheap⟩ := heaps.popHeap_spec front as h.heap
      have hbag : (rest : Multiset T) = as := Multiset.coe_eq_coe.2 hperm
      have hrun : call size heaps ⟨front :: as, cur_size_, max_size_⟩ .pop
          = .ok ⟨rest, cur_size_ - .ofNat (size front), max_size_⟩ := by
        simp only [call, pop, List.head?_cons, hpop, List.dropLast_concat, pure_eq_ok]
      have hcount := h.counted
      have hbound := h.bounded
      simp only [← Multiset.cons_coe, total_cons] at hcount hbound
      refine ⟨_, hrun, ⟨⟨front, ?_, fun b hb => h.heap.root hw hb⟩, rfl⟩, ?_, ?_, hheap⟩
      · rw [hbag, Multiset.cons_coe]
      · simp only [hbag]
        exact toNat_sub_size hcount
      · simp only [hbag]
        omega

def system (size : T → Nat) (heaps : HeapAlgorithms comp) :
    TransitionSystem (BoundedPriorityQueue T) (Call T) where
  init q := ∃ max_size, new size heaps max_size = .ok q
  step q a q' := q.call size heaps a = .ok q'

theorem new_spec (size : T → Nat) (heaps : HeapAlgorithms comp) (hw : StrictWeak comp)
    (max_size : UInt32) :
    ∃ q, new size heaps max_size = .ok q ∧ q.max = max_size ∧ Sound comp size q := by
  have hcur : (0 : UInt32).toNat = total size (([] : List T) : Multiset T) := rfl
  obtain ⟨q, hrun, hmax, -, hsound⟩ :=
    enforceBound_spec heaps hw ⟨[], 0, max_size⟩ hcur
  exact ⟨q, hrun, hmax, hsound⟩

/-- Every queue that is reached is counted, bounded and has a greatest element on top, and
    every call from there drops least elements while the bound is exceeded. -/
theorem queue_bounded (size : T → Nat) (hw : StrictWeak comp) (heaps : HeapAlgorithms comp) :
    (∀ max_size, ∃ q, new size heaps max_size = .ok q ∧ q.max = max_size) ∧
      ∀ q, (system size heaps).ReachableWith (Ready size) q →
        Correct comp size q ∧
          ∀ a, Ready size q a → ∃ q', q.call size heaps a = .ok q' ∧ Changed comp size q a q' := by
  constructor
  · intro max_size
    obtain ⟨q, hnew, hmax, -⟩ := new_spec size heaps hw max_size
    exact ⟨q, hnew, hmax⟩
  · intro q hq
    have hsound : Sound comp size q := by
      apply hq.invariant
      · rintro q ⟨max_size, hnew⟩
        obtain ⟨q', hnew', -, hsound⟩ := new_spec size heaps hw max_size
        rw [hnew] at hnew'
        obtain rfl := Except.ok.inj hnew'
        exact hsound
      · intro q a q' h ha hstep
        obtain ⟨q₁, hrun, -, hsound⟩ := h.call heaps hw a ha
        rw [hstep] at hrun
        obtain rfl := Except.ok.inj hrun
        exact hsound
    refine ⟨hsound.correct hw, ?_⟩
    intro a ha
    obtain ⟨q', hrun, hchanged, -⟩ := hsound.call heaps hw a ha
    exact ⟨q', hrun, hchanged⟩

private theorem strictWeak_lt : StrictWeak fun a b : Nat => decide (a < b) where
  asymm h := by
    simp only [decide_eq_true_eq, decide_eq_false_iff_not] at *
    omega
  trans h h' := by
    simp only [decide_eq_false_iff_not] at *
    omega

/-- A 3 is dropped for a 9 where there is room for 10. -/
theorem queue_bounded_nine :
    Correct (fun a b : Nat => decide (a < b)) id ⟨[9], 9, 10⟩ := by
  let heaps := HeapAlgorithms.sorting strictWeak_lt
  have hnew : (system id heaps).ReachableWith (Ready id) ⟨[], 0, 10⟩ :=
    .init ⟨10, by decide +kernel⟩
  have hthree : (system id heaps).ReachableWith (Ready id) ⟨[3], 3, 10⟩ := by
    refine .step (a := .push 3) hnew (by decide : 0 + 3 < 2 ^ 32) ?_
    have hpush : call id heaps ⟨[], 0, 10⟩ (.push 3) = .ok ⟨[3], 3, 10⟩ := by decide +kernel
    exact hpush
  have hnine : (system id heaps).ReachableWith (Ready id) ⟨[9], 9, 10⟩ := by
    refine .step (a := .push 9) hthree (by decide : 3 + 9 < 2 ^ 32) ?_
    have hpush : call id heaps ⟨[3], 3, 10⟩ (.push 9) = .ok ⟨[9], 9, 10⟩ := by decide +kernel
    exact hpush
  exact ((queue_bounded id strictWeak_lt heaps).2 _ hnine).1

end BoundedPriorityQueue

end Oasys
