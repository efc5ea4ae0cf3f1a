import Oasys.ForStd.DotSegments
import Oasys.ForStd.Joined
import Oasys.Spec.URIParseCorrect

/-!
# Dot segments in the path of a URI

The loop of `normalize_path` erases in place what `./` shows to be a dot segment, and looks at
the last segment behind the loop. It is run here along the segments of the path: in front of
the position that is found stand the segments that are kept, in whose text no `./` is left to
be found.
-/

namespace Oasys.URI

open StdString DotSegments

/-- A slash. -/
abbrev slash : UInt8 := '/'

/-- A dot. -/
abbrev dot : UInt8 := '.'

/-- Segments with a slash behind each, and a last one. -/
def joined (segs : List (List UInt8)) (last : List UInt8) : List UInt8 :=
  segs.flatMap (· ++ [slash]) ++ last

/-- The loop searches from a position in the text of the kept segments, and no `./` is left
    in there behind it. -/
structure Ahead (kept : List (List UInt8)) (checkpoint : Nat) : Prop where
  le : checkpoint ≤ (keptText slash kept).length
  infix_free : ¬[dot, slash] <:+: (keptText slash kept).drop checkpoint

section

variable {fuel checkpoint : Nat} {modified : Bool} {kept : List (List UInt8)}
  {seg last rest : List UInt8}

theorem erase_append (front mid rest : List UInt8) :
    erase (front ++ (mid ++ rest)) front.length mid.length = .ok (front ++ rest) :=
  replace_append front []

theorem findStr_eq (mid rest : List UInt8) (h : Ahead kept checkpoint) (hmid : slash ∉ mid) :
    findStr (keptText slash kept ++ mid ++ dot :: slash :: rest) [dot, slash] checkpoint =
      some (keptText slash kept ++ mid).length := by
  have hle := h.le
  apply Find.firstSub_eq_some (by decide)
  · rw [List.length_append]
    omega
  · rw [List.drop_append_of_le_length hle]
    exact Find.not_infix_append hmid h.infix_free

theorem getLast?_keptText : (keptText slash kept).getLast? ≠ some dot := by
  cases kept with
  | nil => simp [keptText]
  | cons seg kept =>
    rw [keptText, ← List.append_assoc, List.getLast?_concat]
    decide

theorem Ahead.cons (h : Ahead kept checkpoint) (hseg : slash ∉ seg)
    (hend : seg.getLast? ≠ some dot) : Ahead (seg :: kept) checkpoint := by
  have hle := h.le
  refine ⟨?_, ?_⟩
  · rw [keptText, List.length_append]
    omega
  · rw [keptText, List.drop_append_of_le_length hle, ← List.append_assoc]
    apply Find.not_infix_concat
    · cases seg using List.reverseRecOn with
      | nil =>
        rw [List.append_nil, List.getLast?_drop]
        split
        · simp
        · exact getLast?_keptText
      | append_singleton seg c => simpa using hend
    · exact Find.not_infix_append hseg h.infix_free

theorem resolveDots_dot (h : Ahead kept checkpoint) :
    resolveDots (fuel + 1) (keptText slash kept ++ dot :: slash :: rest) checkpoint modified =
      resolveDots fuel (keptText slash kept ++ rest) checkpoint true := by
  have hfind := findStr_eq [] rest h List.not_mem_nil
  have herase : erase (keptText slash kept ++ dot :: slash :: rest) (keptText slash kept).length 2 =
      .ok (keptText slash kept ++ rest) := erase_append _ [dot, slash] rest
  rw [List.append_nil] at hfind
  simp only [resolveDots, hfind, herase, ok_bind]
  cases kept with
  | nil => rfl
  | cons seg kept =>
    obtain ⟨front, hfront⟩ := exists_keptText slash (List.cons_ne_nil seg kept)
    have hbefore : charAt (front ++ [slash] ++ dot :: slash :: rest) front.length = .ok slash := by
      rw [List.append_assoc]
      exact charAt_append front slash
    have hlength : (front ++ [slash]).length - 1 = front.length := by simp
    rw [hfront, hlength, hbefore, ok_bind, if_neg (by simp), if_pos rfl]

theorem findLastOf_eq {below : List (List UInt8)} {front : List UInt8} (tail : List UInt8)
    (hfront : front = keptText slash below ++ seg) (hseg : slash ∉ seg) (hne : front ≠ []) :
    ∃ before mid, front = before ++ mid ∧ keptText slash (pop (seg :: below)) = before ++ [slash] ∧
      (findLastOf (front ++ tail) slash (front.length - 1)).getD 0 = before.length := by
  have hpos : ∀ c ∈ seg, (c == slash) = false := by
    intro c hc
    exact beq_eq_false_iff_ne.2 fun h => hseg (h ▸ hc)
  cases below with
  | nil =>
    rw [keptText, List.nil_append] at hfront
    subst hfront
    refine ⟨[], front, rfl, rfl, ?_⟩
    cases front using List.reverseRecOn with
    | nil => exact absurd rfl hne
    | append_singleton front c =>
      have hlast := Find.last_eq_none tail hpos
      simp [findLastOf, hlast]
  | cons seg' below =>
    obtain ⟨before, hbefore⟩ := exists_keptText slash (List.cons_ne_nil seg' below)
    have hsplit : front = before ++ slash :: seg := by simp [hfront, hbefore]
    have hlength : front.length - 1 = before.length + seg.length := by simp [hsplit]
    have hfound : Find.last (· == slash) (before ++ slash :: (seg ++ tail))
        (before.length + seg.length) = some before.length :=
      Find.last_eq_some before tail (by simp) hpos
    refine ⟨before, slash :: seg, hsplit, hbefore, ?_⟩
    rw [hlength, hsplit, List.append_assoc, List.cons_append, findLastOf, hfound]
    rfl

/-- Where two dots stand behind the kept segments, the last of these goes with them. The search
    goes on from the slash that is left. -/
theorem resolveDots_dots (h : Ahead kept checkpoint) (hkept : ∀ seg ∈ kept, slash ∉ seg) :
    ∃ checkpoint', Ahead (pop kept) checkpoint' ∧
      resolveDots (fuel + 1) (keptText slash kept ++ dot :: dot :: slash :: rest) checkpoint
        modified = resolveDots fuel (keptText slash (pop kept) ++ rest) checkpoint' true := by
  have hfind := findStr_eq [dot] rest h (by decide)
  rw [List.append_assoc, List.singleton_append] at hfind
  have hdot : charAt (keptText slash kept ++ dot :: dot :: slash :: rest)
      (keptText slash kept).length = .ok dot := charAt_append _ dot
  have hlength : (keptText slash kept ++ [dot]).length - 1 = (keptText slash kept).length := by simp
  have hne : (keptText slash kept ++ [dot]).length ≠ 0 := by simp
  have hdots : dot ≠ slash := by decide
  simp only [resolveDots, hfind, if_neg hne, hlength, hdot, ok_bind, if_neg hdots, if_true]
  cases kept with
  | nil =>
    have herase : erase ([] ++ dot :: dot :: slash :: rest) 0 3 = .ok rest :=
      erase_append [] [dot, dot, slash] rest
    refine ⟨checkpoint, h, ?_⟩
    rw [keptText, List.nil_append, if_pos (by rfl), List.length_nil, herase]
    rfl
  | cons seg below =>
    obtain ⟨front, hfront⟩ : ∃ front, front = keptText slash below ++ seg := ⟨_, rfl⟩
    have htext : keptText slash (seg :: below) = front ++ [slash] := by simp [keptText, hfront]
    have hslash : charAt (front ++ [slash] ++ dot :: dot :: slash :: rest) front.length =
        .ok slash := by
      rw [List.append_assoc]
      exact charAt_append front slash
    have hlength : (front ++ [slash] ++ [dot]).length = front.length + 2 := by simp
    rw [htext, hlength, if_neg (by omega), Nat.add_sub_cancel, hslash, ok_bind, if_pos rfl]
    by_cases hroot : front = []
    · -- the root stays
      subst hroot
      obtain ⟨hbelow, rfl⟩ := List.append_eq_nil_iff.1 hfront.symm
      obtain rfl := keptText_eq_nil.1 hbelow
      have herase : erase ([] ++ [slash] ++ dot :: dot :: slash :: rest) ([] ++ [slash]).length 3 =
          .ok (slash :: rest) := erase_append [slash] [dot, dot, slash] rest
      refine ⟨checkpoint, h, ?_⟩
      rw [List.length_nil, if_pos rfl, herase]
      rfl
    · obtain ⟨before, mid, hsplit, hpop, hlast⟩ := findLastOf_eq
        ([slash] ++ dot :: dot :: slash :: rest) hfront (hkept seg List.mem_cons_self) hroot
      have herase := erase_append before (mid ++ [slash, dot, dot]) (slash :: rest)
      have hpath : front ++ [slash] ++ dot :: dot :: slash :: rest =
          before ++ ((mid ++ [slash, dot, dot]) ++ slash :: rest) := by simp [hsplit]
      have hcount : front.length + 2 + 1 - before.length = (mid ++ [slash, dot, dot]).length := by
        simp only [hsplit, List.length_append, List.length_cons, List.length_nil]
        omega
      have hat : front.length + 2 - 3 = front.length - 1 := by omega
      have hlen : front.length + 2 ≠ 2 := by simpa using hroot
      refine ⟨before.length, ⟨by simp [hpop], ?_⟩, ?_⟩
      · rw [hpop, List.drop_left]
        decide
      · rw [if_neg hlen, hat, List.append_assoc, hlast, hcount, ← List.append_assoc, hpath, herase,
          hpop, List.append_assoc]
        rfl

/-- A segment that only ends with a dot is kept, and the search goes on behind it. -/
theorem resolveDots_skip (h : Ahead kept checkpoint) (hseg : slash ∉ seg ++ [dot])
    (hdots : ¬IsDots dot (seg ++ [dot])) :
    resolveDots (fuel + 1) (keptText slash ((seg ++ [dot]) :: kept) ++ rest) checkpoint modified =
      resolveDots fuel (keptText slash ((seg ++ [dot]) :: kept) ++ rest)
        (keptText slash ((seg ++ [dot]) :: kept)).length true := by
  have htext : keptText slash ((seg ++ [dot]) :: kept) ++ rest =
      keptText slash kept ++ seg ++ dot :: slash :: rest := by simp [keptText]
  have hfind := findStr_eq seg rest h
    fun h => hseg (List.mem_append_left [dot] h)
  have hlength : (keptText slash ((seg ++ [dot]) :: kept)).length =
      (keptText slash kept ++ seg).length + 2 := by simp [keptText, Nat.add_assoc]
  rw [htext, hlength]
  simp only [resolveDots, hfind]
  cases seg using List.reverseRecOn with
  | nil => exact absurd (.inl rfl) hdots
  | append_singleton seg b =>
    have hb : b ≠ slash := fun h => hseg (by simp [h])
    have hfront : keptText slash kept ++ (seg ++ [b]) ++ dot :: slash :: rest =
        (keptText slash kept ++ seg) ++ b :: dot :: slash :: rest := by simp
    have hbefore : charAt ((keptText slash kept ++ seg) ++ b :: dot :: slash :: rest)
        (keptText slash kept ++ seg).length = .ok b := charAt_append _ b
    have hlast : (keptText slash kept ++ (seg ++ [b])).length =
        (keptText slash kept ++ seg).length + 1 := by simp [Nat.add_assoc]
    rw [hfront, hlast, if_neg (by omega), Nat.add_sub_cancel, hbefore, ok_bind, if_neg hb]
    by_cases hdot : b = dot
    · -- before two dots that are no segment of their own stands a character of it
      rw [if_pos hdot]
      cases seg using List.reverseRecOn with
      | nil => exact absurd (.inr (by simp [hdot])) hdots
      | append_singleton seg a =>
        have ha : a ≠ slash := fun h => hseg (by simp [h])
        have hfront' : (keptText slash kept ++ (seg ++ [a])) ++ b :: dot :: slash :: rest =
            (keptText slash kept ++ seg) ++ a :: b :: dot :: slash :: rest := by simp
        have hbefore' : charAt ((keptText slash kept ++ seg) ++ a :: b :: dot :: slash :: rest)
            (keptText slash kept ++ seg).length = .ok a := charAt_append _ a
        have hlast' : (keptText slash kept ++ (seg ++ [a])).length =
            (keptText slash kept ++ seg).length + 1 := by simp [Nat.add_assoc]
        have hat : (keptText slash kept ++ seg).length + 1 + 1 - 2 =
            (keptText slash kept ++ seg).length := by omega
        rw [hfront', hlast', if_neg (by omega), hat, hbefore', ok_bind, if_neg ha]
    · rw [if_neg hdot]

theorem modified_of_resolveDots {path path' : List UInt8} {modified' : Bool}
    (h : resolveDots fuel path checkpoint true = .ok (path', modified')) : modified' = true := by
  induction fuel generalizing path checkpoint with
  | zero => cases h
  | succ fuel ih =>
    simp only [resolveDots] at h
    split at h
    · cases h
      rfl
    · split at h
      · obtain ⟨_, -, h⟩ := bind_eq_ok.1 h
        exact ih h
      · obtain ⟨before, -, h⟩ := bind_eq_ok.1 h
        split at h
        · obtain ⟨_, -, h⟩ := bind_eq_ok.1 h
          exact ih h
        · split at h
          · split at h
            · obtain ⟨_, -, h⟩ := bind_eq_ok.1 h
              exact ih h
            · obtain ⟨before, -, h⟩ := bind_eq_ok.1 h
              split at h
              · split at h
                · obtain ⟨_, -, h⟩ := bind_eq_ok.1 h
                  exact ih h
                · obtain ⟨_, -, h⟩ := bind_eq_ok.1 h
                  exact ih h
              · exact ih h
          · exact ih h

/-- The loop resolves all segments but the last. If it has found nothing, there was none to
    resolve. -/
theorem resolveDots_eq {segs : List (List UInt8)} (modified : Bool) (hfuel : segs.length < fuel)
    (hahead : Ahead kept checkpoint) (hkept : ∀ seg ∈ kept, slash ∉ seg)
    (hsegs : ∀ seg ∈ segs, slash ∉ seg) (hlast : slash ∉ last) :
    ∃ modified', resolveDots fuel (keptText slash kept ++ joined segs last) checkpoint modified =
        .ok (keptText slash (segs.foldl (step dot) kept) ++ last, modified') ∧
      (modified' = false → keptText slash (segs.foldl (step dot) kept) ++ last =
        keptText slash kept ++ joined segs last) := by
  induction segs generalizing fuel kept checkpoint modified with
  | nil =>
    have hle := hahead.le
    have hinfix : ¬[dot, slash] <:+: (keptText slash kept ++ last).drop checkpoint := by
      rw [List.drop_append_of_le_length hle]
      exact Find.not_infix_append hlast hahead.infix_free
    obtain ⟨fuel, rfl⟩ : ∃ n, fuel = n + 1 := Nat.exists_eq_add_one.2 hfuel
    refine ⟨modified, ?_, fun _ => rfl⟩
    simp only [resolveDots, joined, List.flatMap_nil, List.nil_append, findStr,
      Find.firstSub_eq_none hinfix]
    rfl
  | cons seg segs ih =>
    obtain ⟨hseg, htail⟩ := List.forall_mem_cons.1 hsegs
    have hjoined : joined (seg :: segs) last = seg ++ slash :: joined segs last := by simp [joined]
    have htext : keptText slash kept ++ joined (seg :: segs) last =
        keptText slash (seg :: kept) ++ joined segs last := by simp [joined, keptText]
    have hcons : ∀ s ∈ seg :: kept, slash ∉ s := List.forall_mem_cons.2 ⟨hseg, hkept⟩
    obtain ⟨fuel, rfl⟩ : ∃ n, fuel = n + 1 := Nat.exists_eq_add_one.2 (by omega)
    have hfuel' : segs.length < fuel := by simpa using hfuel
    rw [List.foldl_cons]
    by_cases hdots : IsDots dot seg
    · -- a round resolves the segment
      have hround : ∃ checkpoint', Ahead (step dot kept seg) checkpoint' ∧
          (∀ s ∈ step dot kept seg, slash ∉ s) ∧
          resolveDots (fuel + 1) (keptText slash kept ++ joined (seg :: segs) last) checkpoint
            modified = resolveDots fuel (keptText slash (step dot kept seg) ++ joined segs last)
              checkpoint' true := by
        rw [hjoined]
        rcases hdots with rfl | rfl
        · exact ⟨checkpoint, hahead, hkept, resolveDots_dot hahead⟩
        · obtain ⟨checkpoint', hahead', heq⟩ := resolveDots_dots hahead hkept
          exact ⟨checkpoint', hahead', not_mem_pop hkept, heq⟩
      obtain ⟨checkpoint', hahead', hkept', heq⟩ := hround
      obtain ⟨modified', hrun, -⟩ := ih true hfuel' hahead' hkept' htail
      have htrue := modified_of_resolveDots hrun
      exact ⟨modified', heq.trans hrun, fun h => by simp [htrue] at h⟩
    · rw [step_of_not_isDots hdots]
      by_cases hend : seg.getLast? = some dot
      · -- a round goes over the segment
        obtain ⟨x, rfl⟩ := List.getLast?_eq_some_iff.1 hend
        have hahead' : Ahead ((x ++ [dot]) :: kept)
            (keptText slash ((x ++ [dot]) :: kept)).length := ⟨le_refl _, by simp⟩
        obtain ⟨modified', hrun, -⟩ := ih true hfuel' hahead' hcons htail
        have htrue := modified_of_resolveDots hrun
        refine ⟨modified', ?_, fun h => by simp [htrue] at h⟩
        rw [htext, resolveDots_skip hahead hseg hdots, hrun]
      · rw [htext]
        exact ih modified (Nat.lt_succ_of_lt hfuel') (hahead.cons hseg hend) hcons htail

theorem takeWhile_reverse_eq {path : List UInt8} (front : List UInt8) (hlast : slash ∉ last)
    (h : path = last ∨ path = front ++ slash :: last) :
    path.reverse.takeWhile (· ≠ slash) = last.reverse := by
  have hpos : ∀ c ∈ last.reverse, decide (c ≠ slash) = true := by
    intro c hc
    exact decide_eq_true fun h => hlast (h ▸ List.mem_reverse.1 hc)
  rcases h with rfl | rfl
  · exact List.takeWhile_eq_self_iff.2 hpos
  · rw [List.reverse_append, List.reverse_cons, List.append_assoc,
      List.takeWhile_append_of_pos hpos]
    simp

theorem resolveLast_dot (front : List UInt8) :
    resolveLast (front ++ [slash] ++ [dot]) = .ok (some (front ++ [slash])) := by
  obtain ⟨path, hpath⟩ : ∃ path, path = front ++ [slash] ++ [dot] := ⟨_, rfl⟩
  have hsub : substr path front.length 2 = .ok [slash, dot] := by
    have h : substr (front ++ ([slash, dot] ++ [])) front.length 2 = .ok [slash, dot] :=
      substr_append front
    simpa [hpath] using h
  have herase : erase path (front.length + 1) 1 = .ok (front ++ [slash]) := by
    have h := erase_append (front ++ [slash]) [dot] []
    simpa [hpath] using h
  have hlength : path.length = front.length + 2 := by simp [hpath]
  have hmem : slash ∈ path := by simp [hpath]
  have hne : ∀ dots, slash ∉ dots → path ≠ dots := fun dots hdots h => hdots (h ▸ hmem)
  rw [← hpath]
  simp only [resolveLast, if_neg (hne [dot] (by decide)), if_neg (hne [dot, dot] (by decide)),
    hlength]
  rw [if_pos (by omega), Nat.add_sub_cancel, hsub, ok_bind, if_pos rfl, Nat.add_succ_sub_one,
    herase]
  rfl

theorem resolveLast_dots {below : List (List UInt8)} {front : List UInt8}
    (hfront : front = keptText slash below ++ seg) (hseg : slash ∉ seg) :
    resolveLast (front ++ [slash] ++ [dot, dot]) =
      .ok (some (keptText slash (pop (seg :: below)))) := by
  obtain ⟨path, hpath⟩ : ∃ path, path = front ++ [slash] ++ [dot, dot] := ⟨_, rfl⟩
  have hlength : path.length = front.length + 3 := by simp [hpath]
  have hmem : slash ∈ path := by simp [hpath]
  have hne : ∀ dots, slash ∉ dots → path ≠ dots := fun dots hdots h => hdots (h ▸ hmem)
  have hlast2 : substr path (front.length + 1) 2 = .ok [dot, dot] := by
    have h : substr ((front ++ [slash]) ++ ([dot, dot] ++ [])) (front ++ [slash]).length 2 =
        .ok [dot, dot] := substr_append (front ++ [slash])
    simpa [hpath] using h
  have hlast3 : substr path front.length 3 = .ok [slash, dot, dot] := by
    have h : substr (front ++ ([slash, dot, dot] ++ [])) front.length 3 = .ok [slash, dot, dot] :=
      substr_append front
    simpa [hpath] using h
  rw [← hpath]
  simp only [resolveLast, if_neg (hne [dot] (by decide)), if_neg (hne [dot, dot] (by decide)),
    hlength]
  have hat : front.length + 3 - 2 = front.length + 1 := by omega
  have hne2 : [dot, dot] ≠ [slash, dot] := by decide
  rw [if_pos (by omega), hat, hlast2, ok_bind, if_neg hne2, if_pos (by omega), Nat.add_sub_cancel,
    hlast3, ok_bind, if_pos rfl]
  by_cases hroot : front = []
  · -- the root stays
    subst hroot
    obtain ⟨hbelow, rfl⟩ := List.append_eq_nil_iff.1 hfront.symm
    rw [hpath, keptText_eq_nil.1 hbelow]
    rfl
  · obtain ⟨before, mid, hsplit, hpop, hlast⟩ := findLastOf_eq ([slash] ++ [dot, dot]) hfront hseg
      hroot
    have herase := erase_append before (mid ++ [slash, dot, dot]) []
    have hpath' : path = before ++ ((mid ++ [slash, dot, dot]) ++ []) := by simp [hpath, hsplit]
    have hcount : front.length + 3 - before.length = (mid ++ [slash, dot, dot]).length := by
      simp only [hsplit, List.length_append, List.length_cons, List.length_nil]
      omega
    have hat : front.length + 3 - 4 = front.length - 1 := by omega
    have hlen : front.length + 3 ≠ 3 := by simpa using hroot
    rw [← List.append_assoc, ← hpath] at hlast
    rw [if_neg hlen, hat, hlast, hcount, hpath', herase, hpop, List.append_nil]
    rfl

theorem resolveLast_eq (hkept : ∀ seg ∈ kept, slash ∉ seg) (hlast : slash ∉ last) :
    resolveLast (keptText slash kept ++ last) =
      .ok (if IsDots dot last then some (keptText slash (step dot kept last)) else none) := by
  by_cases hdots : IsDots dot last
  · rw [if_pos hdots]
    rcases hdots with rfl | rfl
    · cases kept with
      | nil => rfl
      | cons seg kept =>
        obtain ⟨front, hfront⟩ := exists_keptText slash (List.cons_ne_nil seg kept)
        exact hfront ▸ resolveLast_dot front
    · cases kept with
      | nil => rfl
      | cons seg below =>
        have htext : keptText slash (seg :: below) = (keptText slash below ++ seg) ++ [slash] := by
          simp [keptText]
        rw [htext]
        exact resolveLast_dots rfl (hkept seg List.mem_cons_self)
  have hown : (keptText slash kept ++ last).reverse.takeWhile (· ≠ slash) = last.reverse := by
    cases kept with
    | nil => exact takeWhile_reverse_eq [] hlast (.inl rfl)
    | cons seg kept =>
      obtain ⟨front, hfront⟩ := exists_keptText slash (List.cons_ne_nil seg kept)
      exact takeWhile_reverse_eq front hlast (.inr (by simp [hfront]))
  · -- the path ends with its last segment only
    have hends : ∀ dots front, IsDots dot dots → keptText slash kept ++ last ≠ dots ∧
        keptText slash kept ++ last ≠ front ++ slash :: dots := by
      intro dots front h
      have hslash : slash ∉ dots := by rcases h with rfl | rfl <;> decide
      have hne : ∀ path, path.reverse.takeWhile (· ≠ slash) = dots.reverse →
          keptText slash kept ++ last ≠ path := by
        intro path hpath heq
        rw [heq, hpath, List.reverse_inj] at hown
        exact hdots (hown ▸ h)
      exact ⟨hne _ (takeWhile_reverse_eq [] hslash (.inl rfl)),
        hne _ (takeWhile_reverse_eq _ hslash (.inr rfl))⟩
    generalize keptText slash kept ++ last = path at hends
    have hsub : ∀ {n}, n ≤ path.length → substr path (path.length - n) n =
        .ok (path.drop (path.length - n)) := by
      intro n hn
      simp [substr]
      omega
    have hdrop : ∀ {n dots}, IsDots dot dots → path.drop (path.length - n) ≠ slash :: dots := by
      intro n dots h heq
      apply (hends dots (path.take (path.length - n)) h).2
      rw [← heq, List.take_append_drop]
    simp only [resolveLast, if_neg (hends [dot] [] (.inl rfl)).1,
      if_neg (hends [dot, dot] [] (.inr rfl)).1, if_neg hdots]
    split
    · rename_i h2
      rw [hsub h2, ok_bind, if_neg (hdrop (.inl rfl))]
      split
      · rename_i h3
        rw [hsub h3, ok_bind, if_neg (hdrop (.inr rfl))]
        rfl
      · rfl
    · rename_i h2
      rw [if_neg (by omega)]
      rfl

end

/-! ### The path -/

theorem joined_eq {path last : List UInt8} {segs : List (List UInt8)}
    (h : path.splitOn slash = segs ++ [last]) : joined segs last = path := by
  have hjoin := Joined.flatMap_concat_eq slash (List.splitOn_ne_nil slash path)
  rw [List.intercalate_splitOn, h, List.flatMap_append, List.flatMap_singleton] at hjoin
  rw [← List.append_assoc] at hjoin
  exact List.append_cancel_right hjoin

theorem length_le_joined (segs : List (List UInt8)) (last : List UInt8) :
    segs.length ≤ (joined segs last).length := by
  induction segs with
  | nil => simp
  | cons seg segs ih =>
    simp only [joined, List.flatMap_cons, List.length_append, List.length_cons,
      List.length_nil] at ih ⊢
    omega

/-- The loop and the look at the last segment remove the dot segments of the path. If they
    find none, there is none. -/
theorem exists_resolve (path : List UInt8) :
    ∃ path' modified last, resolveDots (path.length + 1) path 0 false = .ok (path', modified) ∧
      resolveLast path' = .ok last ∧
      match last with
      | some path' => path' = remove slash dot path
      | none => path' = remove slash dot path ∧ (modified = false → path' = path) := by
  cases hsplit : path.splitOn slash using List.reverseRecOn with
  | nil => exact absurd hsplit (List.splitOn_ne_nil slash path)
  | append_singleton segs last =>
    have hall := not_mem_of_mem_splitOn slash path
    rw [hsplit] at hall
    have hsegs : ∀ seg ∈ segs, slash ∉ seg := fun seg h => hall seg (List.mem_append_left _ h)
    have hlast : slash ∉ last := hall last (by simp)
    have hpath := joined_eq hsplit
    have hfuel := length_le_joined segs last
    rw [hpath] at hfuel
    have hahead : Ahead [] 0 := ⟨le_refl _, by decide⟩
    obtain ⟨modified, hrun, hsame⟩ := resolveDots_eq false (Nat.lt_succ_of_le hfuel)
      hahead (by simp) hsegs hlast
    rw [keptText, List.nil_append, hpath] at hrun hsame
    have hnil : Kept slash dot [] := kept_nil
    have hkept := kept_foldl hnil hsegs
    refine ⟨_, modified, _, hrun, resolveLast_eq (fun seg h => (hkept seg h).1) hlast, ?_⟩
    rw [remove, hsplit, removeFrom_concat]
    by_cases hdots : IsDots dot last
    · simp only [if_pos hdots]
    · simp only [if_neg hdots, true_and]
      exact hsame

namespace Parts

theorem normalizePath_eq {p : Parts} {path : List UInt8} (v n : Bool)
    (h : (p.toURI v n).decodePath = .ok (toURI { p with path } v n)) :
    (p.toURI v n).normalizePath = .ok (toURI { p with path := remove slash dot path } v n) := by
  obtain ⟨path', modified, last, hrun, hlast, hpath⟩ := exists_resolve path
  simp only [normalizePath, h, toURI_path, ok_bind, hrun, hlast]
  cases last with
  | some path' =>
    simp only at hpath ⊢
    rw [setPath_eq, hpath]
  | none =>
    obtain ⟨rfl, hsame⟩ := hpath
    cases modified with
    | true => simp [setPath_eq]
    | false => simp [hsame]

theorem decodePath_eq_self {p : Parts} (v n : Bool) (h : '%'.toUInt8 ∉ p.path) :
    (p.toURI v n).decodePath = .ok (p.toURI v n) := by
  simp [decodePath, decode, h]

/-- `normalize_path` leaves what the algorithm of RFC 3986, section 5.2.4, does. -/
theorem normalizePath_eq_removeBuffers {p : Parts} (v n : Bool)
    (hstart : ∀ c ∈ p.path.head?, c = slash) (hpercent : '%'.toUInt8 ∉ p.path) :
    (p.toURI v n).normalizePath =
      .ok (toURI { p with path := removeBuffers slash dot p.path [] } v n) := by
  have hremove : removeBuffers slash dot p.path [] = remove slash dot p.path := by
    cases hpath : p.path with
    | nil => rw [removeBuffers_nil]; rfl
    | cons c path =>
      rw [hpath] at hstart
      rw [hstart c rfl]
      exact removeBuffers_eq_remove (by decide) path
  rw [hremove]
  exact normalizePath_eq v n (decodePath_eq_self v n hpercent)

/-- An empty segment is one, and two dots go up over it. -/
theorem normalizePath_eq_removeBuffers_empty :
    (toURI ⟨[97], none, [47, 97, 47, 47, 46, 46, 47, 98], [], []⟩ true true).normalizePath =
      .ok (toURI ⟨[97], none, removeBuffers 47 46 [47, 97, 47, 47, 46, 46, 47, 98] [], [], []⟩
        true true) :=
  normalizePath_eq_removeBuffers true true (by decide +kernel) (by decide)

end Parts

end Oasys.URI
