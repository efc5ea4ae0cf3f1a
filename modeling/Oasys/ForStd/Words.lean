import Mathlib.Data.List.DropRight
import Mathlib.Data.List.TakeWhile

/-!
# Words

The words of a text are its pieces between separators, without the empty ones. A reader that
takes one word after another from the front sees each of them with what is behind it
(`wordsWith`), which are the words (`map_wordsWith`).
-/

universe u

variable {α : Type u} {p : α → Bool} {w rest : List α}

namespace List

theorem takeWhile_append_of_stop (hw : ∀ c ∈ w, p c = true)
    (hrest : ∀ c ∈ rest.head?, p c = false) : (w ++ rest).takeWhile p = w := by
  rw [takeWhile_append_of_pos hw]
  cases rest with
  | nil => simp
  | cons c rest => simp [hrest c rfl]

theorem takeWhile_append_cons {c : α} (hc : p c = false) (l rest : List α) :
    (l ++ c :: rest).takeWhile p = l.takeWhile p := by
  induction l with
  | nil => simp [hc]
  | cons d l ih => simp only [cons_append, takeWhile_cons, ih]

theorem dropWhile_append_of_stop (hw : ∀ c ∈ w, p c = true)
    (hrest : ∀ c ∈ rest.head?, p c = false) : (w ++ rest).dropWhile p = rest := by
  rw [dropWhile_append_of_pos hw]
  cases rest with
  | nil => simp
  | cons c rest => simp [hrest c rfl]

theorem head?_dropWhile_stop {text : List α} {c : α} (hc : c ∈ (text.dropWhile p).head?) :
    p c = false := by
  have hnot := head?_dropWhile_not p text
  rw [Option.mem_def] at hc
  simpa [hc] using hnot

end List

/-- The words of a text whose separators are given. -/
def words (p : α → Bool) (text : List α) : List (List α) :=
  (text.splitOnP p).filter fun w => !w.isEmpty

/-- The words of a text from the front, each with what is behind it. -/
def wordsWith (p : α → Bool) (text : List α) : List (List α × List α) :=
  let front := text.dropWhile p
  if _h : front = [] then []
  else
    (front.takeWhile (! p ·), front.dropWhile (! p ·)) :: wordsWith p (front.dropWhile (! p ·))
termination_by text.length
decreasing_by
  have hle : front.length ≤ text.length := (List.dropWhile_suffix p).length_le
  have hlt : (front.dropWhile (! p ·)).length < front.length := by
    obtain ⟨c, rest, hfront⟩ := List.exists_cons_of_ne_nil _h
    have hhead : c ∈ (text.dropWhile p).head? := by
      rw [show text.dropWhile p = c :: rest from hfront]
      rfl
    have hc : p c = false := List.head?_dropWhile_stop hhead
    have hrest := (List.dropWhile_suffix (l := rest) (! p ·)).length_le
    rw [hfront, List.dropWhile_cons_of_pos (by simp [hc]), List.length_cons]
    omega
  exact Nat.lt_of_lt_of_le hlt hle

namespace Words

@[simp] theorem words_nil : words p [] = [] := by simp [words, List.splitOnP_nil]

theorem words_cons_sep {c : α} (hc : p c = true) (text : List α) :
    words p (c :: text) = words p text := by
  simp [words, List.splitOnP_cons_eq_if_modifyHead, hc]

theorem words_append (hne : w ≠ []) (hw : ∀ c ∈ w, p c = false)
    (hrest : ∀ c ∈ rest.head?, p c = true) : words p (w ++ rest) = w :: words p rest := by
  cases rest with
  | nil =>
    rw [List.append_nil, words_nil, words, List.splitOnP_eq_singleton hw]
    simp [hne]
  | cons c rest =>
    have hc := hrest c rfl
    rw [words_cons_sep hc, words, List.splitOnP_append_cons_of_forall_mem hw c hc]
    simp [words, hne]

theorem words_dropWhile (text : List α) : words p (text.dropWhile p) = words p text := by
  induction text with
  | nil => rfl
  | cons c text ih =>
    rw [List.dropWhile_cons]
    split
    · rename_i hc
      rw [ih, words_cons_sep hc]
    · rfl

@[simp] theorem wordsWith_nil : wordsWith p [] = [] := by
  rw [wordsWith]
  simp

theorem wordsWith_dropWhile (text : List α) :
    wordsWith p (text.dropWhile p) = wordsWith p text := by
  rw [wordsWith, wordsWith.eq_1 p text]
  simp only [List.dropWhile_idempotent]

theorem wordsWith_append (hne : w ≠ []) (hw : ∀ c ∈ w, p c = false)
    (hrest : ∀ c ∈ rest.head?, p c = true) :
    wordsWith p (w ++ rest) = (w, rest) :: wordsWith p rest := by
  have hfront : (w ++ rest).dropWhile p = w ++ rest := by
    obtain ⟨c, w, rfl⟩ := List.exists_cons_of_ne_nil hne
    rw [List.cons_append, List.dropWhile_cons_of_neg]
    simp [hw c List.mem_cons_self]
  have hnot : ∀ c ∈ w, (!p c) = true := fun c hc => by simp [hw c hc]
  have hstop : ∀ c ∈ rest.head?, (!p c) = false := fun c hc => by simp [hrest c hc]
  rw [wordsWith]
  simp only [hfront, List.takeWhile_append_of_stop hnot hstop,
    List.dropWhile_append_of_stop hnot hstop]
  rw [dif_neg (by simp [hne])]

theorem split_word {text : List α} (hne : text ≠ []) (hhead : ∀ c ∈ text.head?, p c = false) :
    ∃ w rest, text = w ++ rest ∧ w ≠ [] ∧ (∀ c ∈ w, p c = false) ∧
      ∀ c ∈ rest.head?, p c = true := by
  refine ⟨text.takeWhile (! p ·), text.dropWhile (! p ·), List.takeWhile_append_dropWhile.symm,
    ?_, fun c hc => by simpa using List.mem_takeWhile_imp hc, fun c hc => ?_⟩
  · obtain ⟨c, text, rfl⟩ := List.exists_cons_of_ne_nil hne
    have hc := hhead c rfl
    simp [hc]
  · simpa using List.head?_dropWhile_stop hc

/-- Induction over the words of a text. -/
theorem wordsInduction {motive : List α → Prop} (nil : ∀ text, text.dropWhile p = [] → motive text)
    (word : ∀ text w rest, text.dropWhile p = w ++ rest → w ≠ [] → (∀ c ∈ w, p c = false) →
      (∀ c ∈ rest.head?, p c = true) → motive rest → motive text) (text : List α) :
    motive text := by
  by_cases hfront : text.dropWhile p = []
  · exact nil text hfront
  · have hhead : ∀ c ∈ (text.dropWhile p).head?, p c = false :=
      fun _ hc => List.head?_dropWhile_stop hc
    obtain ⟨w, rest, heq, hne, hw, hrest⟩ := split_word hfront hhead
    have hlt : rest.length < text.length := by
      have hle := (List.dropWhile_suffix (l := text) p).length_le
      have hpos := List.length_pos_iff.2 hne
      rw [heq, List.length_append] at hle
      omega
    exact word text w rest heq hne hw hrest (wordsInduction nil word rest)
termination_by text.length

/-- A word and what is behind it are an end of the text. -/
theorem of_mem_wordsWith {text : List α} : ∀ x ∈ wordsWith p text,
    x.1 ≠ [] ∧ (∀ c ∈ x.1, p c = false) ∧ (∀ c ∈ x.2.head?, p c = true) ∧
      x.1 ++ x.2 <:+ text := by
  induction text using wordsInduction (p := p) with
  | nil text h =>
    rw [← wordsWith_dropWhile, h, wordsWith_nil]
    exact fun x hx => nomatch hx
  | word text w rest h hne hw hrest ih =>
    have hsuffix : w ++ rest <:+ text := h ▸ List.dropWhile_suffix p
    rw [← wordsWith_dropWhile, h, wordsWith_append hne hw hrest, List.forall_mem_cons]
    refine ⟨⟨hne, hw, hrest, hsuffix⟩, fun x hx => ?_⟩
    obtain ⟨hne', hw', hrest', hend⟩ := ih x hx
    exact ⟨hne', hw', hrest', (hend.trans (List.suffix_append w rest)).trans hsuffix⟩

theorem map_wordsWith (text : List α) : (wordsWith p text).map Prod.fst = words p text := by
  induction text using wordsInduction (p := p) with
  | nil text h => rw [← wordsWith_dropWhile, ← words_dropWhile, h, wordsWith_nil, words_nil]; rfl
  | word text w rest h hne hw hrest ih =>
    rw [← wordsWith_dropWhile, ← words_dropWhile, h, wordsWith_append hne hw hrest,
      words_append hne hw hrest, List.map_cons, ih]

end Words
