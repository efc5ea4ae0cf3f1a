import Mathlib.Data.List.Flatten

/-!
# Joined lists

Lists that are joined with a separator between them, where they may hold the separator
themselves. What can be told from the result is what the lists are cut at the separators
into: two sequences of lists join to the same one exactly when these segments agree, and where
no list holds the separator, the segments are the lists.
-/

namespace Joined

variable {α : Type*} (sep : α)

/-- A separator behind every list is one more than stands between them. -/
theorem flatMap_concat_eq {pieces : List (List α)} (h : pieces ≠ []) :
    pieces.flatMap (· ++ [sep]) = [sep].intercalate pieces ++ [sep] := by
  induction pieces with
  | nil => exact absurd rfl h
  | cons piece pieces ih =>
    cases pieces with
    | nil => simp
    | cons piece' pieces =>
      have htail := ih (List.cons_ne_nil piece' pieces)
      rw [List.flatMap_cons, htail, List.intercalate_cons_cons]
      simp

variable [BEq α]

/-- What the lists are cut into at their separators, one after another. -/
def segments (pieces : List (List α)) : List (List α) := pieces.flatMap (List.splitOn sep)

@[simp] theorem segments_nil : segments sep [] = [] := rfl

@[simp] theorem segments_cons (piece : List α) (pieces : List (List α)) :
    segments sep (piece :: pieces) = piece.splitOn sep ++ segments sep pieces :=
  List.flatMap_cons

variable [LawfulBEq α]

/-- A joined list is cut into the segments of what was joined. -/
theorem splitOn_intercalate {pieces : List (List α)} (h : pieces ≠ []) :
    ([sep].intercalate pieces).splitOn sep = segments sep pieces := by
  induction pieces with
  | nil => exact absurd rfl h
  | cons piece pieces ih =>
    cases pieces with
    | nil => simp [segments]
    | cons piece' pieces =>
      have htail := ih (List.cons_ne_nil piece' pieces)
      rw [List.intercalate_cons_cons, List.append_assoc, List.singleton_append,
        List.splitOn_append_cons_self, htail]
      exact (segments_cons sep piece (piece' :: pieces)).symm

/-- Two sequences join to the same list when they are cut into the same segments. -/
theorem intercalate_inj {pieces pieces' : List (List α)} (h : pieces = [] ↔ pieces' = []) :
    [sep].intercalate pieces = [sep].intercalate pieces' ↔
      segments sep pieces = segments sep pieces' := by
  by_cases hnil : pieces = []
  · rw [hnil, h.1 hnil]
    simp
  · rw [← splitOn_intercalate sep hnil, ← splitOn_intercalate sep (fun h' => hnil (h.2 h'))]
    constructor
    · intro heq
      rw [heq]
    · intro heq
      -- a list is what joins its own segments
      have hjoin := congrArg [sep].intercalate heq
      rwa [List.intercalate_splitOn, List.intercalate_splitOn] at hjoin

theorem segments_eq_self {pieces : List (List α)} (h : ∀ piece ∈ pieces, sep ∉ piece) :
    segments sep pieces = pieces := by
  induction pieces with
  | nil => rfl
  | cons piece pieces ih =>
    have htail := ih fun p hp => h p (List.mem_cons_of_mem piece hp)
    have hhead : piece.splitOn sep = [piece] :=
      List.splitOn_eq_singleton (h piece List.mem_cons_self)
    rw [segments_cons, htail, hhead, List.singleton_append]

end Joined
