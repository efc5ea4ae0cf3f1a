import Mathlib.Data.List.Infix

/-!
# Cursors over an input that can run out

A cursor stands in front of what is left of an input. Once a read has found too little
left, the input has run out: every later read fails, and the cursor stays where it is.
A reader that wants to know more about what happened on the way can set a mark.

`Advances` is what a reader built from these operations does to a cursor. It is a
preorder, so a property of one read is a property of any sequence of reads.
-/

/-- A place in an input, and what was noticed on the way to it. -/
structure Cursor (α : Type) where
  left : List α
  out : Bool
  marked : Bool
  deriving DecidableEq, Repr

namespace Cursor

variable {α : Type}

/-- In front of a whole input. -/
def start (input : List α) : Cursor α := ⟨input, false, false⟩

@[simp] theorem start_left (input : List α) : (start input).left = input := rfl

@[simp] theorem start_marked (input : List α) : (start input).marked = false := rfl

/-- The next `n` items, or nothing when the input has run out or does so now. -/
def take (s : Cursor α) (n : Nat) : Cursor α × Option (List α) :=
  if s.out then (s, none)
  else if n ≤ s.left.length then ({ s with left := s.left.drop n }, some (s.left.take n))
  else ({ s with out := true }, none)

/-- Sets the mark. -/
def mark (s : Cursor α) : Cursor α := { s with marked := true }

/-- Everything up to and including the first item that `p` holds of, or nothing; then
    the rest of the input is lost. -/
def takeThrough (s : Cursor α) (p : α → Bool) : Cursor α × Option (List α) :=
  if s.out then (s, none)
  else
    match s.left.findIdx? p with
    | some k => ({ s with left := s.left.drop (k + 1) }, some (s.left.take (k + 1)))
    | none => ({ s with left := [], out := true }, none)

/-- What a reader does to a cursor: it only goes forward, the flags stay set, a cursor
    whose input has run out stays in place, and the mark is set only once the input has
    run out. -/
structure Advances (s s' : Cursor α) : Prop where
  suffix : s'.left <:+ s.left
  out : s.out = true → s'.out = true ∧ s'.left = s.left
  marked : s.marked = true → s'.marked = true
  marked_out : s'.marked = true → s.marked = true ∨ s'.out = true

namespace Advances

variable {s s' s'' : Cursor α}

theorem refl (s : Cursor α) : s.Advances s :=
  ⟨List.suffix_refl _, fun h => ⟨h, rfl⟩, id, Or.inl⟩

theorem trans (h : s.Advances s') (h' : s'.Advances s'') : s.Advances s'' where
  suffix := h'.suffix.trans h.suffix
  out ho := ⟨(h'.out (h.out ho).1).1, (h'.out (h.out ho).1).2.trans (h.out ho).2⟩
  marked hm := h'.marked (h.marked hm)
  marked_out hm := by
    cases h'.marked_out hm with
    | inl hm' =>
      cases h.marked_out hm' with
      | inl hs => exact .inl hs
      | inr ho => exact .inr (h'.out ho).1
    | inr ho => exact .inr ho

theorem length_le (h : s.Advances s') : s'.left.length ≤ s.left.length := h.suffix.length_le

theorem out_eq_false (h : s.Advances s') (ho : s'.out = false) : s.out = false := by
  cases hs : s.out with
  | false => rfl
  | true => rw [(h.out hs).1] at ho; cases ho

theorem not_marked (h : s.Advances s') (hm : s.marked = false) (ho : s'.out = false) :
    s'.marked = false := by
  cases hs : s'.marked with
  | false => rfl
  | true =>
    cases h.marked_out hs with
    | inl h' => rw [hm] at h'; cases h'
    | inr h' => rw [ho] at h'; cases h'

end Advances

/-! ### The operations -/

variable {s s' : Cursor α}

theorem take_of_out (h : s.out = true) (n : Nat) : s.take n = (s, none) := by
  simp [take, h]

variable {n : Nat}

theorem take_of_le (h : s.out = false) (hn : n ≤ s.left.length) :
    s.take n = ({ s with left := s.left.drop n }, some (s.left.take n)) := by
  simp [take, h, hn]

theorem take_of_lt (h : s.out = false) (hn : s.left.length < n) :
    s.take n = ({ s with out := true }, none) := by
  simp [take, h, Nat.not_le.mpr hn]

@[simp] theorem take_zero (s : Cursor α) : (s.take 0).1 = s := by
  unfold take
  split
  · rfl
  · simp

variable {xs : List α}

/-- A read that succeeds. -/
theorem take_eq_some (h : s.take n = (s', some xs)) :
    s.out = false ∧ n ≤ s.left.length ∧ xs = s.left.take n ∧
      s' = { s with left := s.left.drop n } := by
  unfold take at h
  split at h
  · cases h
  · split at h
    · rename_i hout hn
      cases h
      exact ⟨Bool.eq_false_iff.mpr hout, hn, rfl, rfl⟩
    · cases h

/-- A read that fails. -/
theorem take_eq_none (h : s.take n = (s', none)) :
    s' = { s with out := true } ∧ (s.out = true ∨ s.left.length < n) := by
  unfold take at h
  split at h
  · rename_i hout
    cases h
    exact ⟨by cases s; simp_all, .inl hout⟩
  · split at h
    · cases h
    · rename_i hn
      cases h
      exact ⟨rfl, .inr (Nat.lt_of_not_le hn)⟩

theorem take_advances (s : Cursor α) (n : Nat) : s.Advances (s.take n).1 := by
  unfold take
  split
  · exact .refl s
  · rename_i hout
    split
    · exact ⟨List.drop_suffix .., fun h => absurd h hout, id, Or.inl⟩
    · exact ⟨List.suffix_refl _, fun h => absurd h hout, id, fun _ => .inr rfl⟩

@[simp] theorem take_marked (s : Cursor α) (n : Nat) : (s.take n).1.marked = s.marked := by
  unfold take
  split
  · rfl
  · split <;> rfl

@[simp] theorem takeThrough_marked (s : Cursor α) (p : α → Bool) :
    (s.takeThrough p).1.marked = s.marked := by
  unfold takeThrough
  split
  · rfl
  · split <;> rfl

theorem mark_advances (h : s.out = true) : s.Advances s.mark :=
  ⟨List.suffix_refl _, fun h => ⟨h, rfl⟩, fun _ => rfl, fun _ => .inr h⟩

theorem takeThrough_advances (s : Cursor α) (p : α → Bool) :
    s.Advances (s.takeThrough p).1 := by
  unfold takeThrough
  split
  · exact .refl s
  · rename_i hout
    split
    · exact ⟨List.drop_suffix .., fun h => absurd h hout, id, Or.inl⟩
    · exact ⟨List.nil_suffix, fun h => absurd h hout, id, fun _ => .inr rfl⟩

theorem takeThrough_of_out (h : s.out = true) (p : α → Bool) : s.takeThrough p = (s, none) := by
  simp [takeThrough, h]

theorem takeThrough_nil (h : s.out = false) (hl : s.left = []) (p : α → Bool) :
    s.takeThrough p = ({ s with out := true }, none) := by
  simp [takeThrough, h, hl]

variable {p : α → Bool}

theorem takeThrough_cons_of_pos {x : α}
    (h : s.out = false) (hl : s.left = x :: xs) (hx : p x = true) :
    s.takeThrough p = ({ s with left := xs }, some [x]) := by
  simp [takeThrough, h, hl, List.findIdx?_cons, hx]

theorem takeThrough_cons_of_neg {x : α}
    (h : s.out = false) (hl : s.left = x :: xs) (hx : p x = false) :
    s.takeThrough p = ((takeThrough { s with left := xs } p).1,
      (takeThrough { s with left := xs } p).2.map (x :: ·)) := by
  simp only [takeThrough, h, hl, List.findIdx?_cons, hx]
  cases xs.findIdx? p with
  | none => rfl
  | some k => rfl

theorem takeThrough_eq_some (h : s.takeThrough p = (s', some xs)) :
    ∃ k, s.left.findIdx? p = some k ∧ xs = s.left.take (k + 1) := by
  unfold takeThrough at h
  split at h
  · cases h
  · split at h
    · rename_i k hk
      cases h
      exact ⟨k, hk, rfl⟩
    · cases h

theorem out_of_takeThrough_eq_none (h : s.takeThrough p = (s', none)) : s'.out = true := by
  unfold takeThrough at h
  split at h
  · rename_i hout
    cases h
    exact hout
  · split at h
    · cases h
    · cases h
      rfl

theorem out_of_take_eq_none (h : s.take n = (s', none)) : s'.out = true := by
  rw [(take_eq_none h).1]

/-! ### A longer input -/

/-- The cursor, with more input behind what is left. -/
def extend (s : Cursor α) (more : List α) : Cursor α := { s with left := s.left ++ more }

@[simp] theorem extend_left (s : Cursor α) (more : List α) :
    (s.extend more).left = s.left ++ more := rfl

@[simp] theorem extend_out (s : Cursor α) (more : List α) : (s.extend more).out = s.out := rfl

/-- A read that leaves the added input alone does not notice it. -/
theorem take_extend {more : List α} (h : more.length ≤ ((s.extend more).take n).1.left.length) :
    (s.extend more).take n = ((s.take n).1.extend more, (s.take n).2) := by
  cases hout : s.out with
  | true => rw [take_of_out hout, take_of_out (s := s.extend more) hout]
  | false =>
    by_cases hn : n ≤ (s.extend more).left.length
    · rw [take_of_le (s := s.extend more) hout hn] at h ⊢
      simp only [extend_left, List.length_drop, List.length_append] at h hn
      have hle : n ≤ s.left.length := by omega
      rw [take_of_le hout hle]
      simp only [extend, List.drop_append_of_le_length hle, List.take_append_of_le_length hle]
    · have hlt := Nat.lt_of_not_le hn
      rw [take_of_lt (s := s.extend more) hout hlt]
      rw [extend_left, List.length_append] at hlt
      rw [take_of_lt hout (by omega)]
      rfl

/-- The same for a read up to an item. -/
theorem takeThrough_extend {more : List α}
    (h : more.length ≤ ((s.extend more).takeThrough p).1.left.length) :
    (s.extend more).takeThrough p = ((s.takeThrough p).1.extend more, (s.takeThrough p).2) := by
  cases hout : s.out with
  | true => rw [takeThrough_of_out hout, takeThrough_of_out (s := s.extend more) hout]
  | false =>
    simp only [takeThrough, extend_out, hout, extend_left, List.findIdx?_append] at h ⊢
    cases hleft : s.left.findIdx? p with
    | some k =>
      obtain ⟨hk, _⟩ := List.findIdx?_eq_some_iff_findIdx_eq.mp hleft
      have hle : k + 1 ≤ s.left.length := hk
      simp [extend, List.drop_append_of_le_length hle, List.take_append_of_le_length hle]
    | none =>
      cases hmore : more.findIdx? p with
      | some k =>
        -- the item found would be one of those added
        simp only [hleft, hmore, Option.none_or, Option.map_some, List.length_drop,
          List.length_append, Bool.false_eq_true, if_false] at h
        obtain ⟨hk, _⟩ := List.findIdx?_eq_some_iff_findIdx_eq.mp hmore
        omega
      | none =>
        simp only [hleft, hmore, Option.none_or, Option.map_none, List.length_nil,
          Bool.false_eq_true, if_false, Nat.le_zero, List.length_eq_zero_iff] at h
        subst h
        simp [extend]

end Cursor
