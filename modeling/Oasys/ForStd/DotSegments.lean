import Mathlib.Data.List.Flatten
import Mathlib.Data.List.Infix
import Mathlib.Data.List.TakeWhile

/-!
# Dot segments

A path is cut into segments at its slashes. A segment of one dot stands for the place where it
is, and one of two dots for the place above: `remove` goes over the segments with a stack of
those it keeps, and `removeBuffers` is the algorithm with an input and an output buffer of
RFC 3986, section 5.2.4. They agree on every path that starts with a slash.
-/

namespace DotSegments

variable {α : Type*} [DecidableEq α] (slash dot : α)

/-! ### With a stack -/

/-- The segment stands for a place. -/
def IsDots (seg : List α) : Prop := seg = [dot] ∨ seg = [dot, dot]

instance : DecidablePred (IsDots dot) := fun _ => inferInstanceAs (Decidable (_ ∨ _))

/-- The place above; above the first segment is the root. -/
def pop : List (List α) → List (List α)
  | [] => []
  | [_] => [[]]
  | _ :: below => below

/-- What is kept behind a further segment. -/
def step (kept : List (List α)) (seg : List α) : List (List α) :=
  if seg = [dot] then kept else if seg = [dot, dot] then pop kept else seg :: kept

/-- The text of the segments that are kept, a slash behind each. -/
def keptText : List (List α) → List α
  | [] => []
  | seg :: kept => keptText kept ++ (seg ++ [slash])

/-- The path that the segments leave behind those that are kept. There is no slash behind the
    last one. -/
def removeFrom (kept : List (List α)) : List (List α) → List α
  | [] => keptText slash kept
  | [last] =>
    if IsDots dot last then keptText slash (step dot kept last) else keptText slash kept ++ last
  | seg :: seg' :: segs => removeFrom (step dot kept seg) (seg' :: segs)

/-- The path without its dot segments. -/
def remove (path : List α) : List α := removeFrom slash dot [] (path.splitOn slash)

/-! ### With two buffers -/

/-- The output without its last segment and the slash before it. -/
def removeLast (output : List α) : List α :=
  (output.reverse.dropWhile (· ≠ slash)).tail.reverse

omit [DecidableEq α] in
theorem length_drop_lt {input : List α} (hnil : input ≠ []) (n : Nat) :
    (input.drop (n + 1)).length < input.length := by
  have hpos := List.length_pos_iff.2 hnil
  rw [List.length_drop]
  omega

omit [DecidableEq α] in
theorem length_singleton_lt {input text : List α} {c d : α} (e : α) (h : input = c :: d :: text) :
    [e].length < input.length := by
  rw [h]
  exact Nat.succ_lt_succ (Nat.succ_pos text.length)

theorem length_dropWhile_tail_lt {input : List α} (hnil : input ≠ []) (slash : α) :
    (input.tail.dropWhile (· ≠ slash)).length < input.length := by
  have hpos := List.length_pos_iff.2 hnil
  have hle := (List.dropWhile_sublist (l := input.tail) (· ≠ slash)).length_le
  rw [List.length_tail] at hle
  omega

/-- The steps A to E of the algorithm, from an input and an output buffer. -/
def removeBuffers (input output : List α) : List α :=
  if hnil : input = [] then output
  -- A
  else if [dot, dot, slash] <+: input then removeBuffers (input.drop 3) output
  else if [dot, slash] <+: input then removeBuffers (input.drop 2) output
  -- B
  else if [slash, dot, slash] <+: input then removeBuffers (input.drop 2) output
  else if input = [slash, dot] then removeBuffers [slash] output
  -- C
  else if [slash, dot, dot, slash] <+: input then
    removeBuffers (input.drop 3) (removeLast slash output)
  else if input = [slash, dot, dot] then removeBuffers [slash] (removeLast slash output)
  -- D
  else if input = [dot] ∨ input = [dot, dot] then removeBuffers [] output
  -- E
  else
    removeBuffers (input.tail.dropWhile (· ≠ slash))
      (output ++ input.head hnil :: input.tail.takeWhile (· ≠ slash))
termination_by input.length
decreasing_by
  · exact length_drop_lt hnil 2
  · exact length_drop_lt hnil 1
  · exact length_drop_lt hnil 1
  · exact length_singleton_lt slash ‹input = [slash, dot]›
  · exact length_drop_lt hnil 2
  · exact length_singleton_lt slash ‹input = [slash, dot, dot]›
  · exact List.length_pos_iff.2 hnil
  · exact length_dropWhile_tail_lt hnil slash

omit [DecidableEq α] in
@[simp] theorem keptText_eq_nil {slash : α} {kept : List (List α)} :
    keptText slash kept = [] ↔ kept = [] := by
  cases kept with
  | nil => simp [keptText]
  | cons seg kept => simp [keptText]

/-! ### What is kept -/

/-- The segments are ones that are kept. -/
def Kept (kept : List (List α)) : Prop := ∀ seg ∈ kept, slash ∉ seg ∧ ¬IsDots dot seg

variable {slash dot} {kept : List (List α)} {seg last path : List α}

omit [DecidableEq α] in
theorem not_isDots_nil : ¬IsDots dot [] := by
  simp [IsDots]

omit [DecidableEq α] in
@[simp] theorem kept_nil : Kept slash dot [] := by
  simp [Kept]

omit [DecidableEq α] in
@[simp] theorem kept_cons :
    Kept slash dot (seg :: kept) ↔ (slash ∉ seg ∧ ¬IsDots dot seg) ∧ Kept slash dot kept := by
  simp [Kept]

omit [DecidableEq α] in
theorem kept_pop (h : Kept slash dot kept) : Kept slash dot (pop kept) := by
  match kept, h with
  | [], h => exact h
  | [_], _ => simp [pop, not_isDots_nil]
  | _ :: _ :: _, h => exact (kept_cons.1 h).2

theorem kept_step (h : Kept slash dot kept) (hseg : slash ∉ seg) :
    Kept slash dot (step dot kept seg) := by
  unfold step
  split
  · exact h
  · rename_i hdot
    split
    · exact kept_pop h
    · rename_i hdots
      exact kept_cons.2 ⟨⟨hseg, not_or.2 ⟨hdot, hdots⟩⟩, h⟩

theorem kept_foldl {segs : List (List α)} (h : Kept slash dot kept)
    (hsegs : ∀ seg ∈ segs, slash ∉ seg) : Kept slash dot (segs.foldl (step dot) kept) := by
  induction segs generalizing kept with
  | nil => exact h
  | cons seg segs ih =>
    obtain ⟨hseg, hsegs⟩ := List.forall_mem_cons.1 hsegs
    exact ih (kept_step h hseg) hsegs

theorem step_of_not_isDots (h : ¬IsDots dot seg) : step dot kept seg = seg :: kept := by
  obtain ⟨hdot, hdots⟩ := not_or.1 h
  rw [step, if_neg hdot, if_neg hdots]

variable (slash) in
/-- What a list is cut into at a separator has none. -/
theorem not_mem_of_mem_splitOn (path : List α) : ∀ seg ∈ path.splitOn slash, slash ∉ seg := by
  induction path with
  | nil => simp
  | cons c path ih =>
    rw [List.splitOn_cons_eq_if_modifyHead]
    split
    · intro seg hseg
      cases List.mem_cons.1 hseg with
      | inl h => simp [h]
      | inr h => exact ih seg h
    · rename_i hne
      cases hsplit : path.splitOn slash with
      | nil => simp
      | cons seg segs =>
        rw [hsplit] at ih
        intro seg' hseg'
        rw [List.modifyHead_cons, List.mem_cons] at hseg'
        cases hseg' with
        | inl h =>
          rw [h, List.mem_cons, not_or]
          exact ⟨fun h => hne (by simp [h]), ih seg List.mem_cons_self⟩
        | inr h => exact ih seg' (List.mem_cons_of_mem seg h)

/-- The result is a text of segments that are kept, and one more. -/
theorem exists_removeFrom {segs : List (List α)} (h : Kept slash dot kept)
    (hsegs : ∀ seg ∈ segs, slash ∉ seg) :
    ∃ kept' last, Kept slash dot kept' ∧ slash ∉ last ∧ ¬IsDots dot last ∧
      removeFrom slash dot kept segs = keptText slash kept' ++ last := by
  fun_induction removeFrom slash dot kept segs with
  | case1 kept => exact ⟨kept, [], h, by simp, not_isDots_nil, by simp⟩
  | case2 kept last hdots =>
    exact ⟨_, [], kept_step h (hsegs last (by simp)), by simp, not_isDots_nil, by simp⟩
  | case3 kept last hdots => exact ⟨kept, last, h, hsegs last (by simp), hdots, rfl⟩
  | case4 kept seg seg' segs ih =>
    apply ih
    · exact kept_step h (hsegs seg (by simp))
    · exact fun s hs => hsegs s (List.mem_cons_of_mem seg hs)

variable (slash dot) in
theorem exists_remove (path : List α) :
    ∃ kept last, Kept slash dot kept ∧ slash ∉ last ∧ ¬IsDots dot last ∧
      remove slash dot path = keptText slash kept ++ last :=
  exists_removeFrom kept_nil (not_mem_of_mem_splitOn slash path)

variable (dot) in
/-- The segments of the path that is left are segments of the path, or empty. -/
theorem exists_remove_of {P : List α → Prop} (hnil : P [])
    (hpath : ∀ seg ∈ path.splitOn slash, P seg) :
    ∃ kept last, (∀ seg ∈ kept, P seg) ∧ P last ∧
      remove slash dot path = keptText slash kept ++ last := by
  have hpop : ∀ {kept : List (List α)}, (∀ seg ∈ kept, P seg) → ∀ seg ∈ pop kept, P seg := by
    intro kept hkept
    match kept, hkept with
    | [], hkept => exact hkept
    | [_], _ => simpa [pop] using hnil
    | _ :: _ :: _, hkept => exact fun seg hseg => hkept seg (List.mem_cons_of_mem _ hseg)
  have hstep : ∀ {kept : List (List α)} {seg}, (∀ seg ∈ kept, P seg) → P seg →
      ∀ s ∈ step dot kept seg, P s := by
    intro kept seg hkept hseg
    unfold step
    split
    · exact hkept
    · split
      · exact hpop hkept
      · exact List.forall_mem_cons.2 ⟨hseg, hkept⟩
  have hfrom : ∀ (kept segs : List (List α)), (∀ seg ∈ kept, P seg) → (∀ seg ∈ segs, P seg) →
      ∃ kept' last, (∀ seg ∈ kept', P seg) ∧ P last ∧
        removeFrom slash dot kept segs = keptText slash kept' ++ last := by
    intro kept segs hkept hsegs
    fun_induction removeFrom slash dot kept segs with
    | case1 kept => exact ⟨kept, [], hkept, hnil, by simp⟩
    | case2 kept last hdots =>
      exact ⟨_, [], hstep hkept (hsegs last (by simp)), hnil, by simp⟩
    | case3 kept last hdots => exact ⟨kept, last, hkept, hsegs last (by simp), rfl⟩
    | case4 kept seg seg' segs ih =>
      apply ih
      · exact hstep hkept (hsegs seg (by simp))
      · exact fun s hs => hsegs s (List.mem_cons_of_mem seg hs)
  exact hfrom [] _ (by simp) hpath

theorem splitOn_keptText (h : Kept slash dot kept) (hlast : slash ∉ last) :
    (keptText slash kept ++ last).splitOn slash = kept.reverse ++ [last] := by
  induction kept generalizing last with
  | nil => simp [keptText, List.splitOn_eq_singleton hlast]
  | cons seg kept ih =>
    obtain ⟨⟨hseg, -⟩, hkept⟩ := kept_cons.1 h
    have htext : keptText slash (seg :: kept) ++ last =
        (keptText slash kept ++ seg) ++ slash :: last := by simp [keptText]
    rw [htext, List.splitOn_append_cons_self, ih hkept hseg, List.splitOn_eq_singleton hlast,
      List.reverse_cons]

/-- The segments but the last one go through `step`. -/
theorem removeFrom_concat {segs : List (List α)} :
    removeFrom slash dot kept (segs ++ [last]) =
      if IsDots dot last then keptText slash (step dot (segs.foldl (step dot) kept) last)
      else keptText slash (segs.foldl (step dot) kept) ++ last := by
  induction segs generalizing kept with
  | nil => rfl
  | cons seg segs ih =>
    have htail := @ih (step dot kept seg)
    cases segs with
    | nil => exact htail
    | cons seg' segs => exact htail

theorem foldl_step {segs : List (List α)} (hsegs : Kept slash dot segs) :
    segs.foldl (step dot) kept = segs.reverse ++ kept := by
  induction segs generalizing kept with
  | nil => rfl
  | cons seg segs ih =>
    obtain ⟨⟨-, hseg⟩, hsegs⟩ := kept_cons.1 hsegs
    rw [List.foldl_cons, step_of_not_isDots hseg, ih hsegs]
    simp

theorem remove_keptText (h : Kept slash dot kept) (hlast : slash ∉ last)
    (hdots : ¬IsDots dot last) :
    remove slash dot (keptText slash kept ++ last) = keptText slash kept ++ last := by
  have hreverse : Kept slash dot kept.reverse := fun seg hseg => h seg (List.mem_reverse.1 hseg)
  rw [remove, splitOn_keptText h hlast, removeFrom_concat, if_neg hdots, foldl_step hreverse,
    List.reverse_reverse, List.append_nil]

theorem remove_remove (path : List α) :
    remove slash dot (remove slash dot path) = remove slash dot path := by
  obtain ⟨kept, last, hkept, hlast, hdots, heq⟩ := exists_remove slash dot path
  rw [heq, remove_keptText hkept hlast hdots]

/-! ### The two agree -/

variable {rest output : List α}

theorem removeBuffers_nil : removeBuffers slash dot [] output = output := by
  rw [removeBuffers, dif_pos rfl]

theorem removeBuffers_dot (hne : slash ≠ dot) :
    removeBuffers slash dot (slash :: dot :: slash :: rest) output =
      removeBuffers slash dot (slash :: rest) output := by
  rw [removeBuffers]
  simp [hne, hne.symm]

theorem removeBuffers_dot_last (hne : slash ≠ dot) :
    removeBuffers slash dot [slash, dot] output = removeBuffers slash dot [slash] output := by
  rw [removeBuffers]
  simp [hne, hne.symm]

theorem removeBuffers_dots (hne : slash ≠ dot) :
    removeBuffers slash dot (slash :: dot :: dot :: slash :: rest) output =
      removeBuffers slash dot (slash :: rest) (removeLast slash output) := by
  rw [removeBuffers]
  simp [hne, hne.symm]

theorem removeBuffers_dots_last (hne : slash ≠ dot) :
    removeBuffers slash dot [slash, dot, dot] output =
      removeBuffers slash dot [slash] (removeLast slash output) := by
  rw [removeBuffers]
  simp [hne, hne.symm]

variable (rest output) in
/-- Step E. -/
theorem removeBuffers_seg (hne : slash ≠ dot) (hseg : slash ∉ seg) (hdots : ¬IsDots dot seg)
    (hrest : ∀ c ∈ rest.head?, c = slash) :
    removeBuffers slash dot (slash :: (seg ++ rest)) output =
      removeBuffers slash dot rest (output ++ slash :: seg) := by
  have hpos : ∀ c ∈ seg, decide (c ≠ slash) = true := by
    intro c hc
    exact decide_eq_true fun h => hseg (h ▸ hc)
  have htake : (seg ++ rest).takeWhile (· ≠ slash) = seg := by
    rw [List.takeWhile_append_of_pos hpos]
    cases rest with
    | nil => simp
    | cons c rest => simp [hrest c rfl]
  have hdrop : (seg ++ rest).dropWhile (· ≠ slash) = rest := by
    rw [List.dropWhile_append_of_pos hpos]
    cases rest with
    | nil => simp
    | cons c rest => simp [hrest c rfl]
  -- a dot segment at the start of the input would be the segment
  have hstart : ∀ dots t, IsDots dot dots → (∀ c ∈ t.head?, c = slash) →
      slash :: (seg ++ rest) ≠ slash :: (dots ++ t) := by
    intro dots t h ht heq
    have hseg' := congrArg (List.takeWhile (· ≠ slash)) (List.cons.inj heq).2
    rw [htake] at hseg'
    apply hdots
    cases t with
    | nil => rcases h with rfl | rfl <;> simp_all [IsDots, hne.symm]
    | cons c t => rcases h with rfl | rfl <;> simp_all [IsDots, hne.symm]
  have hB : ¬[slash, dot, slash] <+: slash :: (seg ++ rest) := by
    rintro ⟨t, ht⟩
    exact hstart [dot] (slash :: t) (.inl rfl) (by simp) ht.symm
  have hC : ¬[slash, dot, dot, slash] <+: slash :: (seg ++ rest) := by
    rintro ⟨t, ht⟩
    exact hstart [dot, dot] (slash :: t) (.inr rfl) (by simp) ht.symm
  have hB' : slash :: (seg ++ rest) ≠ [slash, dot] := hstart [dot] [] (.inl rfl) (by simp)
  have hC' : slash :: (seg ++ rest) ≠ [slash, dot, dot] := hstart [dot, dot] [] (.inr rfl) (by simp)
  rw [removeBuffers, dif_neg (List.cons_ne_nil _ _), if_neg (by simp [hne.symm]),
    if_neg (by simp [hne.symm]), if_neg hB, if_neg hB', if_neg hC, if_neg hC',
    if_neg (by simp [hne]), List.tail_cons, htake, hdrop, List.head_cons]

omit [DecidableEq α] in
variable (slash) in
theorem exists_keptText (h : kept ≠ []) : ∃ output, keptText slash kept = output ++ [slash] := by
  cases kept with
  | nil => exact absurd rfl h
  | cons seg kept => exact ⟨keptText slash kept ++ seg, by simp [keptText]⟩

theorem removeLast_append (hseg : slash ∉ seg) :
    removeLast slash (output ++ slash :: seg) = output := by
  have hpos : ∀ c ∈ seg.reverse, decide (c ≠ slash) = true := by
    intro c hc
    exact decide_eq_true fun h => hseg (h ▸ List.mem_reverse.1 hc)
  have hreverse : (output ++ slash :: seg).reverse = seg.reverse ++ slash :: output.reverse := by
    simp
  rw [removeLast, hreverse, List.dropWhile_append_of_pos hpos]
  simp

theorem removeLast_of_not_mem (hseg : slash ∉ seg) : removeLast slash seg = [] := by
  have hpos : ∀ c ∈ seg.reverse, decide (c ≠ slash) = true := by
    intro c hc
    exact decide_eq_true fun h => hseg (h ▸ List.mem_reverse.1 hc)
  have hnil : seg.reverse.dropWhile (· ≠ slash) = [] := List.dropWhile_eq_nil_iff.2 hpos
  rw [removeLast, hnil]
  rfl

/-- Going up is removing the last segment from the output. -/
theorem keptText_pop (hkept : ∀ seg ∈ kept, slash ∉ seg)
    (h : keptText slash kept = output ++ [slash]) :
    keptText slash (pop kept) = removeLast slash output ++ [slash] := by
  match kept with
  | [] => simp [keptText] at h
  | [seg] =>
    have houtput : seg = output := by simpa [keptText] using h
    rw [← houtput, removeLast_of_not_mem (hkept seg (by simp))]
    rfl
  | seg :: seg' :: below =>
    obtain ⟨front, hfront⟩ := exists_keptText slash (List.cons_ne_nil seg' below)
    have houtput : output = front ++ slash :: seg := by
      rw [keptText, hfront, ← List.append_assoc] at h
      have h := List.append_cancel_right h
      simp [← h]
    rw [houtput, removeLast_append (hkept seg (by simp))]
    exact hfront

omit [DecidableEq α] in
theorem not_mem_pop (h : ∀ seg ∈ kept, slash ∉ seg) : ∀ seg ∈ pop kept, slash ∉ seg := by
  match kept, h with
  | [], h => exact h
  | [_], _ => simp [pop]
  | _ :: _ :: _, h => exact fun seg hseg => h seg (List.mem_cons_of_mem _ hseg)

/-- From an output that holds the segments kept so far. -/
theorem removeBuffers_eq {segs : List (List α)} (hne : slash ≠ dot) (hnil : segs ≠ [])
    (hsegs : ∀ seg ∈ segs, slash ∉ seg) (hkept : ∀ seg ∈ kept, slash ∉ seg)
    (h : keptText slash kept = output ++ [slash]) :
    removeBuffers slash dot (slash :: [slash].intercalate segs) output =
      removeFrom slash dot kept segs := by
  induction segs generalizing kept output with
  | nil => exact absurd rfl hnil
  | cons seg segs ih =>
    have hseg := hsegs seg List.mem_cons_self
    have hpop := keptText_pop hkept h
    have hroot : ∀ output, removeBuffers slash dot [slash] output = output ++ [slash] := by
      intro output
      have hstep := removeBuffers_seg [] output hne List.not_mem_nil
        not_isDots_nil (by simp)
      rw [removeBuffers_nil] at hstep
      exact hstep
    cases segs with
    | nil =>
      rw [List.intercalate_singleton, removeFrom, step]
      by_cases hdot : seg = [dot]
      · rw [hdot, removeBuffers_dot_last hne, hroot]
        simp [IsDots, h]
      · by_cases hdots : seg = [dot, dot]
        · rw [hdots, removeBuffers_dots_last hne, hroot]
          simp [IsDots, hpop]
        · have hstep := removeBuffers_seg [] output hne hseg
            (not_or.2 ⟨hdot, hdots⟩) (by simp)
          rw [List.append_nil, removeBuffers_nil] at hstep
          rw [hstep, h]
          simp [IsDots, hdot, hdots]
    | cons seg' segs =>
      have hsegs' := fun s hs => hsegs s (List.mem_cons_of_mem seg hs)
      have hcons := List.cons_ne_nil seg' segs
      rw [List.intercalate_cons_cons, removeFrom, step]
      by_cases hdot : seg = [dot]
      · rw [if_pos hdot, hdot]
        exact (removeBuffers_dot hne).trans (ih hcons hsegs' hkept h)
      · by_cases hdots : seg = [dot, dot]
        · rw [if_neg hdot, if_pos hdots, hdots]
          exact (removeBuffers_dots hne).trans (ih hcons hsegs' (not_mem_pop hkept) hpop)
        · have htext : keptText slash (seg :: kept) = (output ++ slash :: seg) ++ [slash] := by
            simp [keptText, h]
          have hkept' : ∀ s ∈ seg :: kept, slash ∉ s := List.forall_mem_cons.2 ⟨hseg, hkept⟩
          rw [if_neg hdot, if_neg hdots, List.append_assoc, List.singleton_append,
            removeBuffers_seg _ _ hne hseg (not_or.2 ⟨hdot, hdots⟩) (by simp)]
          exact ih hcons hsegs' hkept' htext

/-- The two agree on a path that starts with a slash. -/
theorem removeBuffers_eq_remove (hne : slash ≠ dot) (path : List α) :
    removeBuffers slash dot (slash :: path) [] = remove slash dot (slash :: path) := by
  have hsplit : (slash :: path).splitOn slash = [] :: path.splitOn slash := by
    simp [List.splitOn_cons_eq_if_modifyHead]
  have hroot : keptText slash [[]] = [] ++ [slash] := rfl
  have hbuffers := removeBuffers_eq hne (List.splitOn_ne_nil slash path)
    (not_mem_of_mem_splitOn slash path) (by simp) hroot
  rw [List.intercalate_splitOn] at hbuffers
  rw [hbuffers, remove, hsplit]
  cases hsegs : path.splitOn slash with
  | nil => exact absurd hsegs (List.splitOn_ne_nil slash path)
  | cons seg segs => rw [removeFrom, step_of_not_isDots not_isDots_nil]

end DotSegments

/-!
### Levels of a path

When the path that is left of another one starts with two slashes, told from the segments: it
needs one behind the root that is empty, and none behind it that leads back to the root.
-/

namespace DotSegments

/-- What a segment is for. -/
inductive Kind where
  | here
  | up
  | empty
  | name
  deriving DecidableEq, Repr

namespace Kind

/-- How many segments are above the root behind one more. -/
def level : Nat → Kind → Nat
  | n, here => n
  | n, up => n - 1
  | n, empty => n + 1
  | n, name => n + 1

/-- Behind further ones. -/
def levels (n : Nat) (kinds : List Kind) : Nat := kinds.foldl level n

/-- The segments go up where nothing is above the root. -/
def GoesUp (kinds : List Kind) : Prop := ∃ pre post, kinds = pre ++ up :: post ∧ levels 0 pre = 0

/-- What is above the root stays there. -/
def Stays (kinds : List Kind) : Prop := ∀ pre, pre <+: kinds → levels 1 pre ≠ 0

/-- Behind a root that is empty, if `root` holds, or becomes it, is an empty segment that
    stays. -/
def DoubledBehind (root : Prop) (kinds : List Kind) : Prop :=
  ∃ pre post, kinds = pre ++ empty :: post ∧ (root ∨ GoesUp pre) ∧ levels 0 pre = 0 ∧ Stays post

/-- The first segment that is kept is the root of such ones. -/
def Doubled (kinds : List Kind) : Prop :=
  ∃ dots first behind, kinds = dots ++ first :: behind ∧ (∀ k ∈ dots, k = here ∨ k = up) ∧
    (first = empty ∨ first = name) ∧ DoubledBehind (first = empty) behind

/-- The kinds of the segments that are gone over: the last one only if it is a dot segment. -/
def resolved (kinds : List Kind) : List Kind :=
  if kinds.getLast? = some here ∨ kinds.getLast? = some up then kinds else kinds.dropLast

variable {n : Nat} {kinds pre post : List Kind} {k x : Kind}

@[simp] theorem levels_nil : levels n [] = n := rfl

@[simp] theorem levels_concat : levels n (kinds ++ [k]) = level (levels n kinds) k := by
  simp [levels]

@[simp] theorem levels_append : levels n (pre ++ post) = levels (levels n pre) post := by
  simp [levels]

/-- A segment in a list with one more is in front of that one, or is it. -/
theorem concat_eq_append_cons :
    kinds ++ [k] = pre ++ x :: post ↔
      (∃ rest, post = rest ++ [k] ∧ kinds = pre ++ x :: rest) ∨
        (post = [] ∧ x = k ∧ kinds = pre) := by
  cases post using List.reverseRecOn with
  | nil =>
    rw [List.append_singleton_inj]
    constructor
    · rintro ⟨rfl, rfl⟩
      exact .inr ⟨rfl, rfl, rfl⟩
    · rintro (⟨rest, hrest, -⟩ | ⟨-, rfl, rfl⟩)
      · simp at hrest
      · exact ⟨rfl, rfl⟩
  | append_singleton post y =>
    have hassoc : pre ++ x :: (post ++ [y]) = (pre ++ x :: post) ++ [y] := by simp
    rw [hassoc, List.append_singleton_inj]
    constructor
    · rintro ⟨hkinds, rfl⟩
      exact .inl ⟨post, rfl, hkinds⟩
    · rintro (⟨rest, hpost, hkinds⟩ | ⟨hpost, -⟩)
      · obtain ⟨rfl, rfl⟩ := List.append_singleton_inj.1 hpost
        exact ⟨hkinds, rfl⟩
      · simp at hpost

theorem goesUp_concat :
    GoesUp (kinds ++ [k]) ↔ GoesUp kinds ∨ (k = up ∧ levels 0 kinds = 0) := by
  simp only [GoesUp, concat_eq_append_cons]
  constructor
  · rintro ⟨pre, post, ⟨rest, rfl, rfl⟩ | ⟨rfl, rfl, rfl⟩, hlevel⟩
    · exact .inl ⟨pre, rest, rfl, hlevel⟩
    · exact .inr ⟨rfl, hlevel⟩
  · rintro (⟨pre, post, rfl, hlevel⟩ | ⟨rfl, hlevel⟩)
    · exact ⟨pre, _, .inl ⟨post, rfl, rfl⟩, hlevel⟩
    · exact ⟨kinds, [], .inr ⟨rfl, rfl, rfl⟩, hlevel⟩

@[simp] theorem stays_nil : Stays [] := by
  intro pre hpre
  simp [List.prefix_nil.1 hpre]

theorem stays_concat : Stays (kinds ++ [k]) ↔ Stays kinds ∧ levels 1 (kinds ++ [k]) ≠ 0 := by
  simp only [Stays, List.prefix_concat_iff]
  constructor
  · intro h
    exact ⟨fun pre hpre => h pre (.inr hpre), h _ (.inl rfl)⟩
  · rintro ⟨h, hlevel⟩ pre (rfl | hpre)
    · exact hlevel
    · exact h pre hpre

/-- With one more, it is that one, or the level stays above the root. -/
theorem doubledBehind_concat {root : Prop} :
    DoubledBehind root (kinds ++ [k]) ↔
      (DoubledBehind root kinds ∧ level (levels 0 kinds) k ≠ 0) ∨
        (k = empty ∧ (root ∨ GoesUp kinds) ∧ levels 0 kinds = 0) := by
  have hlevel : ∀ {pre post}, levels 0 pre = 0 →
      levels 0 (pre ++ empty :: post) = levels 1 post := by
    intro pre post hzero
    rw [levels_append, hzero]
    rfl
  simp only [DoubledBehind, concat_eq_append_cons]
  constructor
  · rintro ⟨pre, post, ⟨rest, rfl, rfl⟩ | ⟨rfl, rfl, rfl⟩, hroot, hzero, hstays⟩
    · rw [stays_concat, levels_concat] at hstays
      rw [hlevel hzero]
      exact .inl ⟨⟨pre, rest, rfl, hroot, hzero, hstays.1⟩, hstays.2⟩
    · exact .inr ⟨rfl, hroot, hzero⟩
  · rintro (⟨⟨pre, post, rfl, hroot, hzero, hstays⟩, hne⟩ | ⟨rfl, hroot, hzero⟩)
    · rw [hlevel hzero] at hne
      refine ⟨pre, _, .inl ⟨post, rfl, rfl⟩, hroot, hzero, ?_⟩
      rw [stays_concat, levels_concat]
      exact ⟨hstays, hne⟩
    · exact ⟨kinds, [], .inr ⟨rfl, rfl, rfl⟩, hroot, hzero, stays_nil⟩

/-- The first segment that is kept is told from the dot segments in front of it. -/
theorem first_unique {dots dots' behind behind' : List Kind} {first first' : Kind}
    (hdots : ∀ k ∈ dots, k = here ∨ k = up) (hfirst : first = empty ∨ first = name)
    (hdots' : ∀ k ∈ dots', k = here ∨ k = up) (hfirst' : first' = empty ∨ first' = name)
    (h : dots ++ first :: behind = dots' ++ first' :: behind') :
    first = first' ∧ behind = behind' := by
  induction dots generalizing dots' with
  | nil =>
    cases dots' with
    | nil => simpa using h
    | cons k dots' =>
      obtain ⟨rfl, -⟩ := List.cons.inj h
      have hk := hdots' first List.mem_cons_self
      rcases hfirst with rfl | rfl <;> simp at hk
  | cons k dots ih =>
    cases dots' with
    | nil =>
      obtain ⟨rfl, -⟩ := List.cons.inj h
      have hk := hdots k List.mem_cons_self
      rcases hfirst' with rfl | rfl <;> simp at hk
    | cons k' dots' =>
      exact ih (fun x hx => hdots x (List.mem_cons_of_mem k hx))
        (fun x hx => hdots' x (List.mem_cons_of_mem k' hx)) (List.cons.inj h).2

end Kind

open Kind

section

variable {α : Type*} [DecidableEq α] {slash dot : α}

variable (dot) in
/-- The kind of a segment. -/
def kind (seg : List α) : Kind :=
  if seg = [dot] then .here else if seg = [dot, dot] then .up
  else if seg = [] then .empty else .name

variable {kept : List (List α)} {seg first last : List α} {segs : List (List α)}

theorem step_of_kind (seg : List α) :
    step dot kept seg = match kind dot seg with
      | .here => kept
      | .up => pop kept
      | .empty => [] :: kept
      | .name => seg :: kept := by
  by_cases hdot : seg = [dot]
  · simp [step, kind, hdot]
  by_cases hdots : seg = [dot, dot]
  · simp [step, kind, hdots]
  by_cases hnil : seg = []
  · simp [step, kind, hnil]
  · simp [step, kind, hdot, hdots, hnil]

theorem isDots_of_kind : IsDots dot seg ↔ kind dot seg = .here ∨ kind dot seg = .up := by
  unfold kind IsDots
  by_cases hdot : seg = [dot]
  · simp [hdot]
  by_cases hdots : seg = [dot, dot]
  · simp [hdots]
  by_cases hnil : seg = [] <;> simp [hdot, hdots, hnil]

variable (dot) in
theorem kind_eq_empty : kind dot seg = .empty ↔ seg = [] := by
  unfold kind
  by_cases hdot : seg = [dot]
  · simp [hdot]
  by_cases hdots : seg = [dot, dot]
  · simp [hdots]
  by_cases hnil : seg = [] <;> simp [hdot, hdots, hnil]

variable (dot first) in
/-- The kinds of segments behind the first one that is kept. -/
theorem foldl_root (segs : List (List α)) :
    ∃ top root, segs.foldl (step dot) [first] = top ++ [root] ∧
      top.length = levels 0 (segs.map (kind dot)) ∧
      (root = [] ↔ first = [] ∨ GoesUp (segs.map (kind dot))) := by
  induction segs using List.reverseRecOn with
  | nil => exact ⟨[], first, rfl, rfl, by simp [GoesUp]⟩
  | append_singleton segs seg ih =>
    obtain ⟨top, root, hfold, hlevel, hroot⟩ := ih
    rw [List.foldl_concat, hfold, List.map_append, List.map_singleton, levels_concat, ← hlevel,
      goesUp_concat, step_of_kind, ← hlevel]
    cases kind dot seg with
    | here => exact ⟨top, root, rfl, rfl, by simpa using hroot⟩
    | up =>
      cases top with
      | nil => exact ⟨[], [], rfl, rfl, by simp⟩
      | cons s top =>
        refine ⟨top, root, ?_, by simp [level], by simpa using hroot⟩
        cases top <;> rfl
    | empty => exact ⟨[] :: top, root, rfl, by simp [level], by simpa using hroot⟩
    | name => exact ⟨seg :: top, root, rfl, by simp [level], by simpa using hroot⟩

/-- The two segments at the root are empty. -/
def EmptyTwice (kept : List (List α)) : Prop := ∃ top, kept = top ++ [[], []]

omit [DecidableEq α] in
theorem emptyTwice_cons :
    EmptyTwice (seg :: kept) ↔ EmptyTwice kept ∨ (seg = [] ∧ kept = [[]]) := by
  simp only [EmptyTwice, List.cons_eq_append_iff]
  constructor
  · rintro ⟨top, ⟨-, hcons⟩ | ⟨rest, -, hkept⟩⟩
    · simp only [List.cons.injEq] at hcons
      exact .inr ⟨hcons.1.symm, hcons.2.symm⟩
    · exact .inl ⟨rest, hkept⟩
  · rintro (⟨rest, hkept⟩ | ⟨rfl, rfl⟩)
    · exact ⟨seg :: rest, .inr ⟨rest, rfl, hkept⟩⟩
    · exact ⟨[], .inl ⟨rfl, rfl⟩⟩

omit [DecidableEq α] in
theorem EmptyTwice.two_le (h : EmptyTwice kept) : 2 ≤ kept.length := by
  obtain ⟨top, rfl⟩ := h
  simp

omit [DecidableEq α] in
theorem emptyTwice_pop : EmptyTwice (pop kept) ↔ EmptyTwice kept ∧ 2 < kept.length := by
  match kept with
  | [] => simp [pop, EmptyTwice]
  | [seg] =>
    have hnot : ¬EmptyTwice [([] : List α)] := by
      simp [EmptyTwice, List.cons_eq_append_iff]
    simp [pop, hnot]
  | seg :: seg' :: below =>
    have hpop : pop (seg :: seg' :: below) = seg' :: below := rfl
    rw [hpop, @emptyTwice_cons _ (seg' :: below)]
    constructor
    · intro h
      have htwo := h.two_le
      refine ⟨.inl h, ?_⟩
      simp only [List.length_cons] at htwo ⊢
      omega
    · rintro ⟨h | ⟨-, hone⟩, hlength⟩
      · exact h
      · rw [hone] at hlength
        simp at hlength

/-- Behind segments that are kept the two at the root are empty if and only if one of them
    doubles the slash of the root. -/
theorem foldl_doubled (segs : List (List α)) :
    EmptyTwice (segs.foldl (step dot) [first]) ↔
      DoubledBehind (first = []) (segs.map (kind dot)) := by
  induction segs using List.reverseRecOn with
  | nil => simp [EmptyTwice, DoubledBehind, List.cons_eq_append_iff]
  | append_singleton segs seg ih =>
    obtain ⟨top, root, hfold, hlevel, hroot⟩ := foldl_root dot first segs
    have htop : levels 0 (segs.map (kind dot)) = 0 ↔ top = [] := by
      rw [← hlevel, List.length_eq_zero_iff]
    have hone : segs.foldl (step dot) [first] = [[]] ↔ root = [] ∧ top = [] := by
      rw [hfold, List.append_eq_singleton_iff]
      simp [and_comm]
    have hlength : (segs.foldl (step dot) [first]).length = top.length + 1 := by
      simp [hfold]
    rw [List.map_append, List.map_singleton, doubledBehind_concat, ← ih, ← hroot, htop,
      List.foldl_concat, step_of_kind, ← hlevel]
    cases hk : kind dot seg with
    | here =>
      have habove : EmptyTwice (segs.foldl (step dot) [first]) → top.length ≠ 0 := by
        intro h
        have htwo := h.two_le
        omega
      simpa [level] using habove
    | up =>
      have hlevels : 2 < top.length + 1 ↔ level top.length up ≠ 0 := by
        simp only [level]
        omega
      simp only [emptyTwice_pop, hlength, hlevels]
      simp
    | empty => simp [emptyTwice_cons, hone, level]
    | name =>
      have hne : seg ≠ [] := by
        intro hnil
        rw [(kind_eq_empty dot).2 hnil] at hk
        cases hk
      simp [emptyTwice_cons, hne, level]

/-! ### The path -/

omit [DecidableEq α] in
theorem keptText_append (top below : List (List α)) :
    keptText slash (top ++ below) = keptText slash below ++ keptText slash top := by
  induction top with
  | nil => simp [keptText]
  | cons seg top ih => simp [keptText, ih]

omit [DecidableEq α] in
/-- The text starts with two slashes if the two segments at the root are empty. -/
theorem slashes_prefix_iff (hkept : ∀ seg ∈ kept, slash ∉ seg) (hlast : slash ∉ last) :
    [slash, slash] <+: keptText slash kept ++ last ↔ EmptyTwice kept := by
  -- no segment starts with a slash
  have hstart : ∀ {seg text : List α}, slash ∉ seg →
      ([slash] <+: seg ++ slash :: text ↔ seg = []) := by
    intro seg text hseg
    cases seg with
    | nil => simp [List.cons_prefix_cons]
    | cons c seg =>
      have hc : slash ≠ c := by
        rintro rfl
        exact hseg List.mem_cons_self
      simp [List.cons_prefix_cons, hc]
  have hboth : ∀ {seg text : List α}, slash ∉ seg →
      ([slash, slash] <+: seg ++ slash :: text ↔ seg = [] ∧ [slash] <+: text) := by
    intro seg text hseg
    cases seg with
    | nil => simp [List.cons_prefix_cons]
    | cons c seg =>
      have hc : slash ≠ c := by
        rintro rfl
        exact hseg List.mem_cons_self
      simp [List.cons_prefix_cons, hc]
  have hnot : ∀ text : List α, slash ∉ text → ¬[slash] <+: text := by
    rintro text htext ⟨rest, rfl⟩
    simp at htext
  cases kept using List.reverseRecOn with
  | nil =>
    have hprefix : ¬[slash, slash] <+: last := fun h =>
      hnot last hlast (List.IsPrefix.trans (by simp) h)
    simp [keptText, EmptyTwice, hprefix]
  | append_singleton kept root =>
    have hroot : slash ∉ root := hkept root (by simp)
    cases kept using List.reverseRecOn with
    | nil =>
      have htext : keptText slash ([] ++ [root]) ++ last = root ++ slash :: last := by
        simp [keptText]
      rw [htext, hboth hroot]
      simp [EmptyTwice, hnot last hlast, List.cons_eq_append_iff]
    | append_singleton kept seg =>
      have hseg : slash ∉ seg := hkept seg (by simp)
      have htext : keptText slash (kept ++ [seg] ++ [root]) ++ last =
          root ++ slash :: (seg ++ slash :: (keptText slash kept ++ last)) := by
        simp [keptText_append, keptText]
      have hkept : kept ++ [seg] ++ [root] = kept ++ [seg, root] := by simp
      rw [htext, hboth hroot, hstart hseg, hkept]
      constructor
      · rintro ⟨rfl, rfl⟩
        exact ⟨kept, rfl⟩
      · rintro ⟨top, htop⟩
        have htwo := (List.append_inj' htop rfl).2
        simp only [List.cons.injEq, and_true] at htwo
        exact htwo.symm

variable (dot) in
/-- Segments with a first one that is kept, or none. -/
theorem exists_first (segs : List (List α)) :
    (∀ seg ∈ segs, IsDots dot seg) ∨ ∃ dots first behind, segs = dots ++ first :: behind ∧
      (∀ seg ∈ dots, IsDots dot seg) ∧ ¬IsDots dot first := by
  induction segs with
  | nil => simp
  | cons seg segs ih =>
    by_cases hseg : IsDots dot seg
    · rcases ih with hall | ⟨dots, first, behind, rfl, hdots, hfirst⟩
      · exact .inl (List.forall_mem_cons.2 ⟨hseg, hall⟩)
      · exact .inr ⟨seg :: dots, first, behind, rfl, List.forall_mem_cons.2 ⟨hseg, hdots⟩, hfirst⟩
    · exact .inr ⟨[], seg, segs, rfl, by simp, hseg⟩

theorem foldl_isDots (hsegs : ∀ seg ∈ segs, IsDots dot seg) :
    segs.foldl (step dot) [] = [] := by
  induction segs with
  | nil => rfl
  | cons seg segs ih =>
    obtain ⟨hseg, hsegs⟩ := List.forall_mem_cons.1 hsegs
    have hstep : step dot [] seg = [] := by
      rcases hseg with rfl | rfl <;> simp [step, pop]
    rw [List.foldl_cons, hstep, ih hsegs]

theorem kind_of_not_isDots (h : ¬IsDots dot seg) :
    kind dot seg = .empty ∨ kind dot seg = .name := by
  rw [isDots_of_kind, not_or] at h
  cases hk : kind dot seg <;> simp_all

theorem foldl_doubled_nil (segs : List (List α)) :
    EmptyTwice (segs.foldl (step dot) []) ↔ Doubled (segs.map (kind dot)) := by
  rcases exists_first dot segs with hall | ⟨dots, first, behind, rfl, hdots, hfirst⟩
  · rw [foldl_isDots hall]
    constructor
    · intro h
      have htwo := h.two_le
      simp at htwo
    · rintro ⟨dots, first, behind, hkinds, -, hfirst, -⟩
      have hmem : first ∈ segs.map (kind dot) := by simp [hkinds]
      obtain ⟨seg, hseg, rfl⟩ := List.mem_map.1 hmem
      have hdots := isDots_of_kind.1 (hall seg hseg)
      rcases hdots with hk | hk <;> simp [hk] at hfirst
  · have hkind := kind_of_not_isDots hfirst
    have hkinds : ∀ k ∈ dots.map (kind dot), k = here ∨ k = up := by
      intro k hk
      obtain ⟨seg, hseg, rfl⟩ := List.mem_map.1 hk
      exact isDots_of_kind.1 (hdots seg hseg)
    rw [List.foldl_append, foldl_isDots hdots, List.foldl_cons, step_of_not_isDots hfirst,
      foldl_doubled, ← kind_eq_empty dot, List.map_append, List.map_cons]
    constructor
    · intro h
      exact ⟨_, _, _, rfl, hkinds, hkind, h⟩
    · rintro ⟨dots', first', behind', heq, hdots', hfirst', h⟩
      obtain ⟨hf, hb⟩ := first_unique hkinds hkind hdots' hfirst' heq
      rwa [hf, hb]

/-- The path that is left starts with two slashes if and only if a segment that is gone over
    doubles the slash of the root. -/
theorem slashes_prefix_remove (path : List α) :
    [slash, slash] <+: remove slash dot path ↔
      Doubled (resolved ((path.splitOn slash).map (kind dot))) := by
  have hmem := not_mem_of_mem_splitOn slash path
  cases hsplit : path.splitOn slash using List.reverseRecOn with
  | nil => exact absurd hsplit (List.splitOn_ne_nil slash path)
  | append_singleton segs last =>
    rw [hsplit] at hmem
    have hlast : slash ∉ last := hmem last (by simp)
    have hkept : ∀ seg ∈ segs.foldl (step dot) [], slash ∉ seg := by
      have hall : Kept slash dot (segs.foldl (step dot) []) :=
        kept_foldl kept_nil fun seg hseg => hmem seg (List.mem_append_left _ hseg)
      exact fun seg hseg => (hall seg hseg).1
    have hlevel : resolved ((segs ++ [last]).map (kind dot)) =
        (if IsDots dot last then segs ++ [last] else segs).map (kind dot) := by
      by_cases hdots : IsDots dot last
      · rw [if_pos hdots, resolved, if_pos]
        simpa using isDots_of_kind.1 hdots
      · rw [if_neg hdots, resolved, if_neg]
        · simp
        · simpa using mt isDots_of_kind.2 hdots
    rw [remove, hsplit, removeFrom_concat, hlevel, ← foldl_doubled_nil]
    by_cases hdots : IsDots dot last
    · have hstep : ∀ seg ∈ step dot (segs.foldl (step dot) []) last, slash ∉ seg := by
        rcases hdots with rfl | rfl
        · rwa [step, if_pos rfl]
        · rw [step]
          split
          · exact hkept
          · rw [if_pos rfl]
            exact not_mem_pop hkept
      have htext := slashes_prefix_iff hstep (List.not_mem_nil : slash ∉ [])
      rw [List.append_nil] at htext
      rw [if_pos hdots, if_pos hdots, htext, List.foldl_concat]
    · rw [if_neg hdots, if_neg hdots, slashes_prefix_iff hkept hlast]

/-- The path that is left of one with a slash in front has one. -/
theorem head_remove {path : List α} : (remove slash dot (slash :: path)).head? = some slash := by
  have hsplit : (slash :: path).splitOn slash = [] :: path.splitOn slash := by
    rw [List.splitOn_cons_eq_if_modifyHead, if_pos (by simp)]
  -- the root is empty
  have htext : ∀ segs : List (List α),
      (keptText slash (segs.foldl (step dot) [[]])).head? = some slash := by
    intro segs
    obtain ⟨top, root, hfold, -, hroot⟩ := foldl_root dot [] segs
    rw [hfold, keptText_append, hroot.2 (.inl rfl)]
    simp [keptText]
  cases hsegs : path.splitOn slash using List.reverseRecOn with
  | nil => exact absurd hsegs (List.splitOn_ne_nil slash path)
  | append_singleton segs last =>
    rw [remove, hsplit, hsegs, ← List.cons_append, removeFrom_concat, List.foldl_cons,
      step_of_not_isDots not_isDots_nil]
    split
    · have hlast := htext (segs ++ [last])
      rwa [List.foldl_concat] at hlast
    · rw [List.head?_append, htext segs]
      rfl

end

end DotSegments
