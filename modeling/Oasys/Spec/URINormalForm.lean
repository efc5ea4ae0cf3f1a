import Oasys.Spec.URINormalizeCorrect

/-!
# Texts that are normal

What decoding leaves of a valid text is valid, and there is nothing left to decode: its escapes
have digits in upper case, and stand for characters that are not allowed.
-/

namespace Oasys.URI

open StdString DotSegments

/-! ### Escapes -/

def hexDigits : List UInt8 :=
  [48, 49, 50, 51, 52, 53, 54, 55, 56, 57, 65, 66, 67, 68, 69, 70, 97, 98, 99, 100, 101, 102]

theorem mem_hexDigits {c : UInt8} (h : isHexdig c = true) : c ∈ hexDigits := by
  obtain ⟨n, rfl⟩ := exists_byte c
  revert n
  decide +kernel

theorem toupper_digit {c : UInt8} (h : isHexdig c = true) :
    isHexdig (toupper c) = true ∧ toupper (toupper c) = toupper c := by
  obtain ⟨n, rfl⟩ := exists_byte c
  revert n
  decide +kernel

theorem hexValue_toupper {h l : UInt8} (hh : isHexdig h = true) (hl : isHexdig l = true) :
    hexValue (toupper h) (toupper l) = hexValue h l := by
  have hall : ∀ h ∈ hexDigits, ∀ l ∈ hexDigits,
      hexValue (toupper h) (toupper l) = hexValue h l := by decide +kernel
  exact hall h (mem_hexDigits hh) l (mem_hexDigits hl)

/-- An escape that decoding leaves as it is. -/
structure IsNormalEscape (allowed : UInt8 → Bool) (h l : UInt8) : Prop where
  digits : isHexdig h = true ∧ isHexdig l = true
  upper : toupper h = h ∧ toupper l = l
  value : ∀ c, hexValue h l = .ok c → allowed c = false

def Normal (plain : UInt8 → Prop) (allowed : UInt8 → Bool) (text : List UInt8) : Prop :=
  Escaped plain (IsNormalEscape allowed) text

section

variable {plain plain' : UInt8 → Prop} {allowed : UInt8 → Bool} {text text' : List UInt8}

theorem normal_decoded (hplain : ∀ c, plain c → c ≠ '%'.toUInt8)
    (hallowed : ∀ c, allowed c = true → plain c)
    (h : Escaped plain (fun h l => isHexdig h = true ∧ isHexdig l = true) text) :
    Normal plain allowed (decoded allowed text) := by
  induction h with
  | nil => exact .nil
  | char hc _ ih =>
    rw [decoded_char (hplain _ hc)]
    exact .char hc ih
  | @escape h l rest hpair _ ih =>
    obtain ⟨c, hc⟩ := hexValue_eq_ok.2 (.inl (by rw [← isHexdig_eq]; exact hpair.1) : IsNumber h l)
    rw [decoded_escape, decodedEscape, hc]
    simp only
    split
    · rename_i hallow
      exact .char (hallowed c hallow) ih
    · rename_i hnot
      refine .escape ⟨⟨(toupper_digit hpair.1).1, (toupper_digit hpair.2).1⟩,
        ⟨(toupper_digit hpair.1).2, (toupper_digit hpair.2).2⟩, ?_⟩ ih
      intro d hd
      rw [hexValue_toupper hpair.1 hpair.2, hc] at hd
      obtain rfl := Except.ok.inj hd
      simpa using hnot

theorem Normal.decoded_eq (hplain : ∀ c, plain c → c ≠ '%'.toUInt8)
    (h : Normal plain allowed text) : decoded allowed text = text := by
  induction h with
  | nil => rfl
  | char hc _ ih => rw [decoded_char (hplain _ hc), ih]
  | @escape h l rest hpair _ ih =>
    obtain ⟨c, hc⟩ := hexValue_eq_ok.2
      (.inl (by rw [← isHexdig_eq]; exact hpair.digits.1) : IsNumber h l)
    simp [decodedEscape, hc, hpair.value c hc, hpair.upper.1, hpair.upper.2, ih]

theorem Normal.validText {plain : UInt8 → Bool} (h : Normal (plain · = true) allowed text) :
    ValidText plain text :=
  h.mono (fun _ hc => hc) fun _ _ hpair => hpair.digits

theorem Escaped.chars {pair : UInt8 → UInt8 → Prop}
    (hpair : ∀ h l, pair h l → isHexdig h = true ∧ isHexdig l = true)
    (h : Escaped plain pair text) :
    ∀ c ∈ text, plain c ∨ c = '%'.toUInt8 ∨ isHexdig c = true := by
  induction h with
  | nil => simp
  | char hc _ ih => exact List.forall_mem_cons.2 ⟨.inl hc, ih⟩
  | escape hp _ ih =>
    have hdigits := hpair _ _ hp
    refine List.forall_mem_cons.2 ⟨.inr (.inl rfl), List.forall_mem_cons.2
      ⟨.inr (.inr hdigits.1), List.forall_mem_cons.2 ⟨.inr (.inr hdigits.2), ih⟩⟩⟩

end

/-! ### Segments -/

section

variable {plain : UInt8 → Prop} {allowed : UInt8 → Bool} {pair : UInt8 → UInt8 → Prop}
  {text : List UInt8}

theorem splitOn_append {front : List UInt8} (h : slash ∉ front) (text : List UInt8) :
    (front ++ text).splitOn slash = (text.splitOn slash).modifyHead (front ++ ·) := by
  induction front with
  | nil => cases hsplit : text.splitOn slash <;> simp [hsplit]
  | cons c front ih =>
    obtain ⟨hc, hfront⟩ := not_or.1 fun h' => h (List.mem_cons.2 h')
    rw [List.cons_append, List.splitOn_cons_eq_if_modifyHead, if_neg (by simpa using Ne.symm hc),
      ih hfront]
    cases hsplit : text.splitOn slash <;> simp

theorem splitOn_slash (text : List UInt8) :
    (slash :: text).splitOn slash = [] :: text.splitOn slash := by
  rw [List.splitOn_cons_eq_if_modifyHead, if_pos (by simp)]

theorem slash_notMem_escape {h l : UInt8} (hdigits : isHexdig h = true ∧ isHexdig l = true) :
    slash ∉ ['%'.toUInt8, h, l] := by
  have hne : ∀ c, isHexdig c = true → slash ≠ c := by
    rintro c hc rfl
    exact absurd hc (by decide)
  have hpercent : slash ≠ '%'.toUInt8 := by decide
  simp [hne h hdigits.1, hne l hdigits.2, hpercent]

theorem forall_splitOn_append {P : List UInt8 → Prop} {front : List UInt8} (h : slash ∉ front)
    (hP : ∀ seg, P seg → P (front ++ seg)) (hall : ∀ seg ∈ text.splitOn slash, P seg) :
    ∀ seg ∈ (front ++ text).splitOn slash, P seg := by
  rw [splitOn_append h]
  cases hsplit : text.splitOn slash with
  | nil => simp
  | cons seg segs =>
    rw [hsplit] at hall
    obtain ⟨hseg, hsegs⟩ := List.forall_mem_cons.1 hall
    exact List.forall_mem_cons.2 ⟨hP seg hseg, hsegs⟩

theorem Escaped.segments (hpair : ∀ h l, pair h l → isHexdig h = true ∧ isHexdig l = true)
    (h : Escaped plain pair text) : ∀ seg ∈ text.splitOn slash, Escaped plain pair seg := by
  induction h with
  | nil => simpa using Escaped.nil
  | @char c rest hc _ ih =>
    by_cases hslash : c = slash
    · rw [hslash, splitOn_slash]
      exact List.forall_mem_cons.2 ⟨.nil, ih⟩
    · have hfront : slash ∉ [c] := by simpa using Ne.symm hslash
      exact forall_splitOn_append hfront (fun seg hseg => .char hc hseg) ih
  | @escape h l rest hp _ ih =>
    exact forall_splitOn_append (slash_notMem_escape (hpair h l hp))
      (fun seg hseg => .escape hp hseg) ih

theorem slash_notMem_decodedEscape (hallowed : allowed slash = false) {h l : UInt8}
    (hdigits : isHexdig h = true ∧ isHexdig l = true) : slash ∉ decodedEscape allowed h l := by
  obtain ⟨c, hc⟩ := hexValue_eq_ok.2
    (.inl (by rw [← isHexdig_eq]; exact hdigits.1) : IsNumber h l)
  rw [decodedEscape, hc]
  simp only
  split
  · rename_i hallow
    simp only [List.mem_singleton]
    rintro rfl
    simp [hallowed] at hallow
  · exact slash_notMem_escape ⟨(toupper_digit hdigits.1).1, (toupper_digit hdigits.2).1⟩

theorem splitOn_decoded (hallowed : allowed slash = false)
    (hplain : ∀ c, plain c → c ≠ '%'.toUInt8)
    (h : Escaped plain (fun h l => isHexdig h = true ∧ isHexdig l = true) text) :
    (decoded allowed text).splitOn slash = (text.splitOn slash).map (decoded allowed) := by
  -- a piece with no slash in it
  have hpiece : ∀ front front' rest, slash ∉ front → slash ∉ front' →
      (∀ seg, decoded allowed (front ++ seg) = front' ++ decoded allowed seg) →
      (decoded allowed rest).splitOn slash = (rest.splitOn slash).map (decoded allowed) →
      (decoded allowed (front ++ rest)).splitOn slash =
        ((front ++ rest).splitOn slash).map (decoded allowed) := by
    intro front front' rest hfront hfront' hdecoded ih
    rw [hdecoded, splitOn_append hfront', splitOn_append hfront, ih]
    cases rest.splitOn slash with
    | nil => rfl
    | cons seg segs => simp [hdecoded]
  induction h with
  | nil => simp [decoded]
  | @char c rest hc _ ih =>
    have hpercent := hplain c hc
    by_cases hslash : c = slash
    · rw [hslash, decoded_char (by decide), splitOn_slash, splitOn_slash, ih]
      simp [decoded]
    · apply hpiece [c] [c] rest _ _ _ ih
      · simpa using Ne.symm hslash
      · simpa using Ne.symm hslash
      · exact fun seg => decoded_char hpercent
  | @escape h l rest hp _ ih =>
    apply hpiece ['%'.toUInt8, h, l] (decodedEscape allowed h l) rest _ _ _ ih
    · exact slash_notMem_escape hp
    · exact slash_notMem_decodedEscape hallowed hp
    · exact fun seg => decoded_escape

end

/-! ### Dots -/

def dots : List (List UInt8) := [['.'], ['%', '2', 'E'], ['%', '2', 'e']]

/-- The kind of a segment that has not been decoded. -/
def segKind (seg : List UInt8) : Kind :=
  if seg ∈ dots then .here
  else if ∃ x ∈ dots, ∃ y ∈ dots, seg = x ++ y then .up
  else if seg = [] then .empty else .name

section

/-- An escaped text of a path. -/
abbrev PathText (text : List UInt8) : Prop := ValidText pathChar text

variable {seg t : List UInt8}

theorem decodedEscape_cases {h l : UInt8} (hdigits : isHexdig h = true ∧ isHexdig l = true) :
    (['%'.toUInt8, h, l] ∈ dots ∧ decodedEscape segmentChar h l = [dot]) ∨
      (['%'.toUInt8, h, l] ∉ dots ∧ (decodedEscape segmentChar h l).head? ≠ some dot ∧
        decodedEscape segmentChar h l ≠ []) := by
  have hall : ∀ h ∈ hexDigits, ∀ l ∈ hexDigits,
      (['%'.toUInt8, h, l] ∈ dots ∧ decodedEscape segmentChar h l = [dot]) ∨
        (['%'.toUInt8, h, l] ∉ dots ∧ (decodedEscape segmentChar h l).head? ≠ some dot ∧
          decodedEscape segmentChar h l ≠ []) := by
    decide +kernel
  exact hall h (mem_hexDigits hdigits.1) l (mem_hexDigits hdigits.2)

theorem pathChar_ne_percent {c : UInt8} (h : pathChar c = true) : c ≠ '%'.toUInt8 := by
  rintro rfl
  exact absurd h (by decide)

theorem decoded_eq_nil (h : PathText seg) : decoded segmentChar seg = [] ↔ seg = [] := by
  cases h with
  | nil => simp [decoded]
  | char hc _ => simp [decoded_char (pathChar_ne_percent hc)]
  | escape hp _ =>
    rcases decodedEscape_cases hp with ⟨-, heq⟩ | ⟨-, -, hne⟩
    · simp [heq]
    · simp [hne]

theorem decoded_eq_cons (h : PathText seg) :
    decoded segmentChar seg = dot :: t ↔
      ∃ x ∈ dots, ∃ rest, seg = x ++ rest ∧ PathText rest ∧ decoded segmentChar rest = t := by
  cases h with
  | nil => simp [decoded, dots]
  | @char c rest hc hrest =>
    have hpercent := pathChar_ne_percent hc
    rw [decoded_char hpercent, List.cons.injEq]
    simp only [dots, List.mem_cons, List.not_mem_nil, or_false, exists_eq_or_imp,
      exists_eq_left, List.cons_append, List.nil_append, List.cons.injEq, hpercent, false_and,
      exists_false, or_false]
    constructor
    · rintro ⟨rfl, rfl⟩
      exact ⟨rest, ⟨rfl, rfl⟩, hrest, rfl⟩
    · rintro ⟨rest', ⟨rfl, rfl⟩, -, rfl⟩
      exact ⟨rfl, rfl⟩
  | @escape h l rest hp hrest =>
    rw [decoded_escape]
    have hmem : (∃ x ∈ dots, ∃ rest', '%'.toUInt8 :: h :: l :: rest = x ++ rest' ∧ PathText rest' ∧
        decoded segmentChar rest' = t) ↔
        ['%'.toUInt8, h, l] ∈ dots ∧ decoded segmentChar rest = t := by
      have hdot : '%'.toUInt8 ≠ '.'.toUInt8 := by decide
      simp only [dots, List.mem_cons, List.not_mem_nil, or_false, exists_eq_or_imp, exists_eq_left,
        List.cons_append, List.nil_append, List.cons.injEq, hdot, false_and, exists_false,
        false_or, true_and, and_true]
      constructor
      · rintro (⟨rest', ⟨rfl, rfl, rfl⟩, -, rfl⟩ | ⟨rest', ⟨rfl, rfl, rfl⟩, -, rfl⟩) <;> simp
      · have htext : PathText rest := hrest
        rintro ⟨⟨rfl, rfl⟩ | ⟨rfl, rfl⟩, rfl⟩ <;> simp [htext]
    rw [hmem]
    rcases decodedEscape_cases hp with ⟨hdots, heq⟩ | ⟨hdots, hhead, hne⟩
    · simp [heq, hdots]
    · simp only [hdots, false_and, iff_false]
      intro heq
      obtain ⟨c, rest', hcons⟩ := List.exists_cons_of_ne_nil hne
      rw [hcons] at heq hhead
      exact hhead (by simpa using (List.cons.inj heq).1)

theorem kind_decoded (h : PathText seg) : kind dot (decoded segmentChar seg) = segKind seg := by
  have hone : decoded segmentChar seg = [dot] ↔ seg ∈ dots := by
    rw [decoded_eq_cons h]
    constructor
    · rintro ⟨x, hx, rest, rfl, hrest, hnil⟩
      rw [(decoded_eq_nil hrest).1 hnil, List.append_nil]
      exact hx
    · intro hmem
      exact ⟨seg, hmem, [], by simp, .nil, rfl⟩
  have htwo : decoded segmentChar seg = [dot, dot] ↔ ∃ x ∈ dots, ∃ y ∈ dots, seg = x ++ y := by
    rw [decoded_eq_cons h]
    constructor
    · rintro ⟨x, hx, rest, rfl, hrest, heq⟩
      obtain ⟨y, hy, rest', rfl, hrest', hnil⟩ := (decoded_eq_cons hrest).1 heq
      rw [(decoded_eq_nil hrest').1 hnil, List.append_nil]
      exact ⟨x, hx, y, hy, rfl⟩
    · rintro ⟨x, hx, y, hy, rfl⟩
      have hvalid : ∀ z ∈ dots, PathText z ∧ decoded segmentChar z = [dot] := by
        simp only [dots, List.forall_mem_cons, List.not_mem_nil, false_imp_iff, implies_true,
          and_true]
        refine ⟨⟨.char (by decide) .nil, by decide⟩, ⟨.escape (by decide) .nil, by decide⟩,
          ⟨.escape (by decide) .nil, by decide⟩⟩
      exact ⟨x, hx, y, rfl, hvalid y hy⟩
  unfold kind segKind
  simp only [hone, htwo, decoded_eq_nil h]

theorem slashes_prefix_iff_doubled {path : List UInt8} (h : PathText path) :
    slashes <+: remove slash dot (decoded segmentChar path) ↔
      Kind.Doubled (Kind.resolved ((path.splitOn slash).map segKind)) := by
  have hkinds : ((decoded segmentChar path).splitOn slash).map (kind dot) =
      (path.splitOn slash).map segKind := by
    rw [splitOn_decoded (by decide) (fun c => pathChar_ne_percent) h, List.map_map]
    apply List.map_congr_left
    intro seg hseg
    exact kind_decoded (h.segments (fun _ _ hp => hp) seg hseg)
  rw [← hkinds]
  exact slashes_prefix_remove (decoded segmentChar path)

end

/-! ### Lower case -/

section

variable {plain plain' : UInt8 → Prop} {allowed : UInt8 → Bool}
  {pair : UInt8 → UInt8 → Prop} {text : List UInt8}

theorem tolower_tolower (c : UInt8) : tolower (tolower c) = tolower c := by
  obtain ⟨n, rfl⟩ := exists_byte c
  revert n
  decide +kernel

theorem lowerHost_char {c : UInt8} {rest : List UInt8} (hc : c ≠ '%'.toUInt8) :
    lowerHost (c :: rest) = tolower c :: lowerHost rest := by
  rw [lowerHost.eq_def]
  exact if_neg hc

theorem Escaped.lowerHost (hplain : ∀ c, plain c → c ≠ '%'.toUInt8)
    (hlower : ∀ c, plain c → plain' (tolower c)) (h : Escaped plain pair text) :
    Escaped plain' pair (URI.lowerHost text) := by
  induction h with
  | nil => exact .nil
  | char hc _ ih =>
    rw [lowerHost_char (hplain _ hc)]
    exact .char (hlower _ hc) ih
  | escape hp _ ih => exact .escape hp ih

theorem lowerHost_lowerHost (hplain : ∀ c, plain c → c ≠ '%'.toUInt8)
    (hlower : ∀ c, plain c → plain (tolower c)) (h : Escaped plain pair text) :
    lowerHost (lowerHost text) = lowerHost text := by
  induction h with
  | nil => rfl
  | char hc _ ih =>
    rw [lowerHost_char (hplain _ hc), lowerHost_char (hplain _ (hlower _ hc)), tolower_tolower, ih]
  | @escape h l rest hp _ ih =>
    have hstep : ∀ rest, lowerHost ('%'.toUInt8 :: h :: l :: rest) =
        '%'.toUInt8 :: h :: l :: lowerHost rest := by
      intro rest
      rw [lowerHost, if_pos rfl]
    rw [hstep, hstep, ih]

theorem lowerHost_eq_map (h : '%'.toUInt8 ∉ text) : lowerHost text = text.map tolower := by
  induction text with
  | nil => rfl
  | cons c text ih =>
    obtain ⟨hc, htext⟩ := not_or.1 fun h' => h (List.mem_cons.2 h')
    rw [lowerHost_char (Ne.symm hc), ih htext, List.map_cons]

end

end Oasys.URI
