import Mathlib.Data.List.Induction
import Mathlib.Data.List.Infix
import Mathlib.Data.List.TakeWhile

/-!
# Searching a list from a position

The first and the last position whose element has a property, counted from a position on or
back from one. A list is given as what lies before the position, a part without such elements
and what follows; then the search ends where the part does.
-/

namespace Find

variable {α : Type*}

/-- The first position from `pos` on whose element has the property. -/
def first (p : α → Bool) (text : List α) (pos : Nat) : Option Nat :=
  ((text.drop pos).findIdx? p).map (pos + ·)

/-- The last position up to `pos` whose element has the property. -/
def last (p : α → Bool) (text : List α) : Nat → Option Nat
  | 0 => if (text[0]?).any p then some 0 else none
  | pos + 1 => if (text[pos + 1]?).any p then some (pos + 1) else last p text pos

/-- Where a list has `sub` in it first. -/
def occurrence [BEq α] (sub : List α) : List α → Option Nat
  | [] => if sub.isEmpty then some 0 else none
  | a :: l => if sub.isPrefixOf (a :: l) then some 0 else (occurrence sub l).map (· + 1)

/-- The first position from `pos` on where `sub` stands. -/
def firstSub [BEq α] (sub text : List α) (pos : Nat) : Option Nat :=
  (occurrence sub (text.drop pos)).map (pos + ·)

/-- The list is empty, or its first element has the property. -/
def Starts (p : α → Bool) (rest : List α) : Prop := ∀ c ∈ rest.head?, p c = true

variable {p : α → Bool} {front mid rest : List α}

@[simp] theorem starts_cons {c : α} : Starts p (c :: rest) ↔ p c = true := by
  simp [Starts]

theorem first_eq_some {c : α} (hmid : ∀ a ∈ mid, p a = false) (hc : p c = true) :
    first p (front ++ (mid ++ c :: rest)) front.length = some (front.length + mid.length) := by
  have hidx : (mid ++ c :: rest).findIdx? p = some mid.length := by
    induction mid with
    | nil => simp [List.findIdx?_cons, hc]
    | cons a mid ih =>
      have htail := ih fun b hb => hmid b (List.mem_cons_of_mem a hb)
      rw [List.cons_append, List.findIdx?_cons, hmid a List.mem_cons_self, htail]
      simp
  simp [first, hidx]

theorem first_eq_none (hmid : ∀ a ∈ mid, p a = false) :
    first p (front ++ mid) front.length = none := by
  simpa [first, List.findIdx?_eq_none_iff] using hmid

theorem getD_first (hmid : ∀ a ∈ mid, p a = false) (hrest : Starts p rest) :
    (first p (front ++ (mid ++ rest)) front.length).getD (front ++ (mid ++ rest)).length =
      front.length + mid.length := by
  cases rest with
  | nil => simp [first_eq_none hmid]
  | cons c rest => simp [first_eq_some hmid (starts_cons.1 hrest)]

theorem exists_split (p : α → Bool) (l : List α) :
    ∃ mid rest, l = mid ++ rest ∧ (∀ a ∈ mid, p a = false) ∧ Starts p rest := by
  refine ⟨l.takeWhile fun a => !p a, l.dropWhile fun a => !p a, ?_, ?_, ?_⟩
  · exact List.takeWhile_append_dropWhile.symm
  · intro a ha
    simpa using List.mem_takeWhile_imp ha
  · intro c hc
    have hhead := List.head?_dropWhile_not (fun a => !p a) l
    rw [Option.mem_def.1 hc] at hhead
    simpa using hhead

/-- What a search finds is not in the part that it goes over. -/
theorem le_of_first {pos : Nat} (hmid : ∀ a ∈ mid, p a = false)
    (h : first p (front ++ (mid ++ rest)) front.length = some pos) :
    front.length + mid.length ≤ pos := by
  obtain ⟨mid', rest', rfl, hmid', hrest'⟩ := exists_split p rest
  have hall : ∀ a ∈ mid ++ mid', p a = false := by
    intro a ha
    rcases List.mem_append.1 ha with ha | ha
    · exact hmid a ha
    · exact hmid' a ha
  rw [← List.append_assoc mid] at h
  cases rest' with
  | nil =>
    rw [List.append_nil, first_eq_none hall] at h
    cases h
  | cons c rest' =>
    rw [first_eq_some hall (starts_cons.1 hrest'), Option.some.injEq] at h
    simp only [List.length_append] at h
    omega

/-! ### Backwards -/

/-- A search backwards goes over the part behind what it finds. -/
theorem last_eq_some (front rest : List α) {c : α} (hc : p c = true)
    (hmid : ∀ a ∈ mid, p a = false) :
    last p (front ++ c :: (mid ++ rest)) (front.length + mid.length) = some front.length := by
  induction mid using List.reverseRecOn generalizing rest with
  | nil =>
    cases front with
    | nil => simp [last, hc]
    | cons d front => simp [last, hc]
  | append_singleton mid a ih =>
    have htail := ih (a :: rest) fun b hb => hmid b (List.mem_append_left _ hb)
    have ha : p a = false := hmid a (by simp)
    have hat : (front ++ c :: (mid ++ [a] ++ rest))[front.length + mid.length + 1]? = some a := by
      simp [Nat.add_assoc]
    have hsame : front ++ c :: (mid ++ a :: rest) = front ++ c :: (mid ++ [a] ++ rest) := by simp
    rw [List.length_append, List.length_singleton, ← Nat.add_assoc, last, hat]
    rw [hsame] at htail
    simpa [ha] using htail

/-- A search backwards to the start finds nothing in such a part. -/
theorem last_eq_none (rest : List α) {a : α} (hmid : ∀ b ∈ mid ++ [a], p b = false) :
    last p (mid ++ a :: rest) mid.length = none := by
  induction mid using List.reverseRecOn generalizing a rest with
  | nil => simpa [last] using hmid a (by simp)
  | append_singleton mid b ih =>
    have htail := ih (a :: rest) fun d hd => hmid d (List.mem_append_left _ hd)
    have ha : p a = false := hmid a (by simp)
    have hat : (mid ++ [b] ++ a :: rest)[mid.length + 1]? = some a := by
      simp
    have hsame : mid ++ b :: a :: rest = mid ++ [b] ++ a :: rest := by simp
    rw [List.length_append, List.length_singleton, last, hat]
    rw [hsame] at htail
    simpa [ha] using htail

/-! ### Pairs -/

section

variable {a b : α}

/-- A pair does not occur where its second element is missing. -/
theorem not_infix_append (hmid : b ∉ mid) (h : ¬[a, b] <:+: front) : ¬[a, b] <:+: front ++ mid := by
  induction mid using List.reverseRecOn with
  | nil => simpa using h
  | append_singleton mid c ih =>
    rw [← List.append_assoc, List.infix_concat_iff]
    rintro (hsuffix | hinfix)
    · -- the last element is not the second one
      obtain ⟨l, hl⟩ := hsuffix
      have hlast := congrArg List.getLast? hl
      simp at hlast
      exact hmid (by simp [hlast])
    · exact ih (fun hb => hmid (by simp [hb])) hinfix

/-- Behind another element than its first one, the second one does not complete a pair. -/
theorem not_infix_concat (hlast : front.getLast? ≠ some a) (h : ¬[a, b] <:+: front) :
    ¬[a, b] <:+: front ++ [b] := by
  rw [List.infix_concat_iff]
  rintro (hsuffix | hinfix)
  · obtain ⟨l, hl⟩ := hsuffix
    have hfront : l ++ [a] = front := by
      have hconcat : (l ++ [a]) ++ [b] = front ++ [b] := by simpa using hl
      exact (List.append_left_inj [b]).1 hconcat
    apply hlast
    simp [← hfront]
  · exact h hinfix

variable [BEq α] [LawfulBEq α]

/-- A pair is found behind a part in which it does not occur. -/
theorem occurrence_append (hab : a ≠ b) (h : ¬[a, b] <:+: front) :
    occurrence [a, b] (front ++ a :: b :: rest) = some front.length := by
  induction front with
  | nil => simp [occurrence]
  | cons c front ih =>
    rw [List.infix_cons_iff] at h
    have htail := ih fun hinfix => h (Or.inr hinfix)
    have hhead : [a, b].isPrefixOf (c :: (front ++ a :: b :: rest)) = false := by
      rw [Bool.eq_false_iff, ne_eq, List.isPrefixOf_iff_prefix]
      intro hp
      cases front with
      | nil =>
        -- the pair would overlap with itself
        simp only [List.nil_append, List.cons_prefix_cons] at hp
        exact hab hp.2.1.symm
      | cons d front =>
        apply h
        left
        simpa [List.cons_prefix_cons] using hp
    rw [List.cons_append, occurrence, hhead, htail]
    simp

/-- A pair is not found where it does not occur. -/
theorem occurrence_eq_none {l : List α} (h : ¬[a, b] <:+: l) : occurrence [a, b] l = none := by
  induction l with
  | nil => simp [occurrence]
  | cons c l ih =>
    rw [List.infix_cons_iff] at h
    have htail := ih fun hinfix => h (Or.inr hinfix)
    have hhead : [a, b].isPrefixOf (c :: l) = false := by
      rw [Bool.eq_false_iff, ne_eq, List.isPrefixOf_iff_prefix]
      exact fun hp => h (Or.inl hp)
    rw [occurrence, hhead, htail]
    simp

theorem firstSub_eq_some {pos : Nat} (hab : a ≠ b) (hpos : pos ≤ front.length)
    (h : ¬[a, b] <:+: front.drop pos) :
    firstSub [a, b] (front ++ a :: b :: rest) pos = some front.length := by
  rw [firstSub, List.drop_append_of_le_length hpos, occurrence_append hab h]
  simp only [List.length_drop, Option.map_some, Option.some.injEq]
  omega

theorem firstSub_eq_none {text : List α} {pos : Nat} (h : ¬[a, b] <:+: text.drop pos) :
    firstSub [a, b] text pos = none := by
  rw [firstSub, occurrence_eq_none h, Option.map_none]

end

end Find
