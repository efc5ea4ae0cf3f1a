import Oasys.Spec.StringBufferCorrect
import Oasys.Util.TextCode

/-!
# TextCode: the way back

A text is read back one line start, one escape or one character at a time. A byte whose escape
has digits comes back as three: only the backslash is passed over, so that the digits are read
again as characters. `TextCode.textCode_roundTrips_iff` says that the bytes come back exactly if there
is no such byte among them, and the buffer of the text can be written.
-/

namespace Oasys.TextCode

open StringBuffer (Call AllFine Holds)

/-! ### The calls -/

def charCall (c : UInt8) : Call :=
  if isNotEscaped c then .appendChar c
  else if c = 92 then .appendf [.printed [92, 92]]
  else .appendf [.printed [92], .printed (hexDigits c)]

def padCalls (pad : Nat) : List Call := List.replicate pad (.appendChar 9)

/-- What is appended before the character with index `i`. -/
def startCalls (cols pad i : Nat) : List Call :=
  if i % cols = 0 then (if i ≠ 0 then [.appendChar 10] else []) ++ padCalls pad else []

def callsFrom (cols pad : Nat) : Nat → List UInt8 → List Call
  | _, [] => []
  | i, c :: input => startCalls cols pad i ++ charCall c :: callsFrom cols pad (i + 1) input

def calls (input : List UInt8) (cols pad : Nat) : List Call :=
  callsFrom cols pad 0 input ++
    ([.appendChar 10] ++ padCalls pad ++ [.append [12, 10] 0 (by decide) (by decide)])

variable {cols pad : Nat} {s : StringBuffer}

theorem append_eq (s : StringBuffer) (c : UInt8) : append s c = (charCall c).run s := by
  unfold append charCall
  split
  · rfl
  · split <;> rfl

theorem appendPad_eq (s : StringBuffer) (pad : Nat) :
    appendPad s pad = (padCalls pad).foldlM Call.run s := by
  induction pad generalizing s with
  | zero => rfl
  | succ pad ih =>
    rw [padCalls, List.replicate_succ, List.foldlM_cons, appendPad]
    congr 1
    funext s'
    exact ih s'

theorem startLine_eq (s : StringBuffer) (i pad : Nat) :
    startLine s i pad =
      ((if i ≠ 0 then [Call.appendChar 10] else []) ++ padCalls pad).foldlM Call.run s := by
  unfold startLine
  split
  · simp only [List.foldlM_append, List.foldlM_cons, List.foldlM_nil, bind_pure, appendPad_eq]
    rfl
  · rw [List.nil_append, appendPad_eq]

theorem appendFrom_eq (hcols : 0 < cols) (i : Nat) (input : List UInt8) (s : StringBuffer) :
    appendFrom cols pad i input s = (callsFrom cols pad i input).foldlM Call.run s := by
  have hne : cols ≠ 0 := by omega
  induction input generalizing i s with
  | nil => rfl
  | cons c input ih =>
    rw [appendFrom, callsFrom, startCalls, if_neg hne, List.foldlM_append]
    split
    · rw [startLine_eq]
      congr 1
      funext s'
      rw [List.foldlM_cons, append_eq]
      congr 1
      funext s''
      exact ih (i + 1) s''
    · rw [List.foldlM_nil, pure_bind, List.foldlM_cons, append_eq]
      congr 1
      funext s''
      exact ih (i + 1) s''

theorem textcodify_eq (hcols : 0 < cols) (input : List UInt8) (s : StringBuffer) :
    textcodify s input cols pad = (calls input cols pad).foldlM Call.run s := by
  rw [textcodify, calls, List.foldlM_append, appendFrom_eq hcols]
  congr 1
  funext s₁
  simp only [List.foldlM_append, List.foldlM_cons, List.foldlM_nil, bind_pure, bind_assoc,
    appendPad_eq]
  rfl

/-! ### The text -/

def escape (c : UInt8) : List UInt8 :=
  if isNotEscaped c then [c] else if c = 92 then [92, 92] else 92 :: hexDigits c

/-- What stands before the character with index `i`. -/
def lineStart (cols pad i : Nat) : List UInt8 :=
  if i % cols = 0 then (if i ≠ 0 then [10] else []) ++ List.replicate pad 9 else []

/-- The lines, from the character with index `i` on. -/
def linesFrom (cols pad : Nat) : Nat → List UInt8 → List UInt8
  | _, [] => []
  | i, c :: input => lineStart cols pad i ++ (escape c ++ linesFrom cols pad (i + 1) input)

def codeText (input : List UInt8) (cols pad : Nat) : List UInt8 :=
  linesFrom cols pad 0 input ++ (10 :: (List.replicate pad 9 ++ [12, 10]))

theorem apply_charCall (c : UInt8) (text : List UInt8) :
    (charCall c).apply text = text ++ escape c := by
  unfold charCall escape
  split
  · rfl
  · split <;> rfl

theorem foldl_padCalls (pad : Nat) (text : List UInt8) :
    (padCalls pad).foldl Call.apply text = text ++ List.replicate pad 9 := by
  induction pad generalizing text with
  | zero => simp [padCalls]
  | succ pad ih =>
    rw [padCalls, List.replicate_succ, List.foldl_cons, List.replicate_succ, ← padCalls, ih]
    simp [Call.apply]

theorem foldl_startCalls (cols pad i : Nat) (text : List UInt8) :
    (startCalls cols pad i).foldl Call.apply text = text ++ lineStart cols pad i := by
  unfold startCalls lineStart
  split
  · split
    · rw [List.foldl_append, foldl_padCalls]
      simp [Call.apply]
    · simp [foldl_padCalls]
  · simp

theorem foldl_callsFrom (cols pad i : Nat) (input text : List UInt8) :
    (callsFrom cols pad i input).foldl Call.apply text = text ++ linesFrom cols pad i input := by
  induction input generalizing i text with
  | nil => simp [callsFrom, linesFrom]
  | cons c input ih =>
    rw [callsFrom, linesFrom, List.foldl_append, foldl_startCalls, List.foldl_cons,
      apply_charCall, ih]
    simp only [List.append_assoc]

theorem foldl_calls (input : List UInt8) (cols pad : Nat) :
    (calls input cols pad).foldl Call.apply [] = codeText input cols pad := by
  rw [calls, codeText, List.foldl_append, foldl_callsFrom, List.foldl_append, List.foldl_append,
    foldl_padCalls]
  simp [Call.apply]

theorem plain_charCall (c : UInt8) : (charCall c).Plain := by
  unfold charCall
  split
  · trivial
  · have hfits : ∀ text : List UInt8, text.length < 2 ^ 31 → ∀ more : List UInt8,
        (text ++ more).length < 2 ^ 31 →
        Conversion.Fits 0 [] [.printed text, .printed more] := by
      intro text htext more hmore
      exact ⟨fun _ _ h => (nomatch h), htext, fun _ _ h => (nomatch h), hmore, trivial⟩
    split
    · exact ⟨⟨fun _ _ h => (nomatch h), by decide, trivial⟩, by decide⟩
    · exact ⟨hfits _ (by decide) _ (by simp [hexDigits]), by
        simp [Conversion.expandAll, Conversion.expand, hexDigits]⟩

theorem plain_of_mem {input : List UInt8} {c : Call} (h : c ∈ calls input cols pad) :
    c.Plain := by
  have hpad : ∀ c ∈ padCalls pad, c.Plain := by
    intro c hc
    rw [List.eq_of_mem_replicate hc]
    trivial
  have hstart : ∀ i, ∀ c ∈ startCalls cols pad i, c.Plain := by
    intro i c hc
    unfold startCalls at hc
    split at hc
    · rcases List.mem_append.1 hc with hc | hc
      · split at hc
        · rw [List.mem_singleton.1 hc]
          trivial
        · cases hc
      · exact hpad c hc
    · cases hc
  have hfrom : ∀ i, ∀ c ∈ callsFrom cols pad i input, c.Plain := by
    clear h
    induction input with
    | nil =>
      intro i c hc
      cases hc
    | cons d input ih =>
      intro i c hc
      rcases List.mem_append.1 hc with hc | hc
      · exact hstart i c hc
      · rcases List.mem_cons.1 hc with rfl | hc
        · exact plain_charCall d
        · exact ih (i + 1) c hc
  simp only [calls, List.mem_append, List.mem_singleton] at h
  rcases h with h | (rfl | h) | rfl
  · exact hfrom 0 c h
  · trivial
  · exact hpad c h
  · trivial

/-! ### Reading -/

/-- A text is read as some bytes, without an error. -/
def Decodes (text out : List UInt8) : Prop :=
  text ≠ [] ∧ ∀ ⦃s acc⦄, Holds s acc →
    ∃ s', TextUncode.textuncodify text s = .ok (s', false) ∧ s'.Holds (acc ++ out)

variable {text out : List UInt8} {c : UInt8}

theorem decodes_end (text : List UInt8) : Decodes (12 :: text) [] := by
  refine ⟨List.cons_ne_nil _ _, ?_⟩
  intro s acc h
  refine ⟨s, ?_, by rwa [List.append_nil]⟩
  cases text <;> rfl

theorem Decodes.skip (h : Decodes text out) (hc : c = 9 ∨ c = 10) : Decodes (c :: text) out := by
  obtain ⟨d, rest, rfl⟩ := List.exists_cons_of_ne_nil h.1
  refine ⟨List.cons_ne_nil _ _, ?_⟩
  intro s acc hs
  obtain ⟨s', hs', hholds⟩ := h.2 hs
  refine ⟨s', ?_, hholds⟩
  rcases hc with rfl | rfl
  · exact hs'
  · exact hs'

theorem Decodes.skipAll (h : Decodes text out) {blank : List UInt8}
    (hblank : ∀ c ∈ blank, c = 9 ∨ c = 10) : Decodes (blank ++ text) out := by
  induction blank with
  | nil => exact h
  | cons c blank ih =>
    have htail := ih fun d hd => hblank d (List.mem_cons_of_mem c hd)
    exact htail.skip (hblank c List.mem_cons_self)

theorem Decodes.char (h : Decodes text out) (hc : isNotEscaped c = true) :
    Decodes (c :: text) (c :: out) := by
  obtain ⟨d, rest, rfl⟩ := List.exists_cons_of_ne_nil h.1
  refine ⟨List.cons_ne_nil _ _, ?_⟩
  intro s acc hs
  obtain ⟨s₁, hs₁, hholds₁⟩ := hs.appendChar c
  obtain ⟨s', hs', hholds⟩ := h.2 hholds₁
  rw [List.append_assoc] at hholds
  refine ⟨s', ?_, hholds⟩
  have hne : c ≠ 12 ∧ c ≠ 9 ∧ c ≠ 10 ∧ c ≠ 92 := by
    refine ⟨?_, ?_, ?_, ?_⟩
    · rintro rfl
      exact absurd hc (by decide)
    · rintro rfl
      exact absurd hc (by decide)
    · rintro rfl
      exact absurd hc (by decide)
    · rintro rfl
      exact absurd hc (by decide)
  simp [TextUncode.textuncodify, hne, hs₁, hs']

theorem Decodes.chars (h : Decodes text out) {cs : List UInt8}
    (hcs : ∀ c ∈ cs, isNotEscaped c = true) : Decodes (cs ++ text) (cs ++ out) := by
  induction cs with
  | nil => exact h
  | cons c cs ih =>
    have htail := ih fun d hd => hcs d (List.mem_cons_of_mem c hd)
    exact htail.char (hcs c List.mem_cons_self)

theorem Decodes.backslash (h : Decodes text out) : Decodes (92 :: 92 :: text) (92 :: out) := by
  refine ⟨List.cons_ne_nil _ _, ?_⟩
  intro s acc hs
  obtain ⟨s₁, hs₁, hholds₁⟩ := hs.appendChar 92
  obtain ⟨s', hs', hholds⟩ := h.2 hholds₁
  rw [List.append_assoc] at hholds
  refine ⟨s', ?_, hholds⟩
  simp [TextUncode.textuncodify, hs₁, hs']

theorem hexDigits_chars (c : UInt8) : ∃ d e, hexDigits c = [d, e] ∧
    (∀ x ∈ hexDigits c, isNotEscaped x = true) ∧ d ≠ 92 ∧ isspace d = false ∧ d ≠ 45 ∧ d ≠ 43 := by
  have hbyte : ∀ n < 256, (hexDigits (.ofNat n)).all isNotEscaped = true ∧
      (fun d => d ≠ 92 ∧ isspace d = false ∧ d ≠ 45 ∧ d ≠ 43)
        (toChar ((UInt8.ofNat n >>> 4) &&& 0xf).toNat) := by
    decide +kernel
  obtain ⟨hall, hd⟩ := hbyte c.toNat c.toNat_lt
  rw [UInt8.ofNat_toNat] at hall hd
  exact ⟨_, _, rfl, List.all_eq_true.1 hall, hd⟩

theorem strtol_ok {d : UInt8} (hspace : isspace d = false) (hneg : d ≠ 45) (hpos : d ≠ 43)
    (hend : 12 ∈ d :: text) : ∃ value, strtol (d :: text) = .ok value := by
  have hdrop : (d :: text).dropWhile isspace = d :: text := by
    rw [List.dropWhile_cons, hspace]
    rfl
  have hsign : skipSign (d :: text) = (false, d :: text) := by
    unfold skipSign
    split
    · rename_i heq
      exact absurd (List.cons.inj heq).1 hneg
    · rename_i heq
      exact absurd (List.cons.inj heq).1 hpos
    · rfl
  have hprefix : 12 ∈ skipPrefix (d :: text) := by
    unfold skipPrefix
    split
    · rename_i x c rest heq
      split
      · rename_i hx
        rw [heq] at hend
        simp only [List.mem_cons] at hend
        simp only [Bool.and_eq_true, Bool.or_eq_true, decide_eq_true_eq] at hx
        rcases hend with hend | hend | hend | hend
        · cases hend
        · subst hend
          exact absurd hx.1 (by decide)
        · simp [hend]
        · simp [hend]
      · rw [← heq]
        exact hend
    · exact hend
  have hall : ¬ (skipPrefix (d :: text)).all Hex.isDigit = true := by
    intro hall
    exact absurd (List.all_eq_true.1 hall 12 hprefix) (by decide)
  rw [strtol, hdrop, hsign]
  dsimp only
  rw [if_neg hall]
  exact ⟨_, rfl⟩

theorem Decodes.hex (h : Decodes text out) (c : UInt8) (hend : 12 ∈ text) :
    ∃ v, Decodes (92 :: (hexDigits c ++ text)) (v :: (hexDigits c ++ out)) := by
  obtain ⟨d, e, hdigits, hchars, hd, hspace, hneg, hpos⟩ := hexDigits_chars c
  have hagain := h.chars hchars
  rw [hdigits] at hagain ⊢
  obtain ⟨value, hvalue⟩ := strtol_ok (d := d) hspace hneg hpos
    (List.mem_cons_of_mem d (List.mem_cons_of_mem e hend))
  refine ⟨TextUncode.charOf value, List.cons_ne_nil _ _, ?_⟩
  intro s acc hs
  obtain ⟨s₁, hs₁, hholds₁⟩ := hs.appendChar (TextUncode.charOf value)
  obtain ⟨s', hs', hholds⟩ := hagain.2 hholds₁
  rw [List.append_assoc] at hholds
  refine ⟨s', ?_, hholds⟩
  have hlen : ¬(e :: text).length < 2 := by
    have hpos := List.length_pos_of_mem hend
    rw [List.length_cons]
    omega
  simp only [List.cons_append, List.nil_append] at hs' ⊢
  rw [TextUncode.textuncodify, if_neg (by decide), if_neg (by decide), if_pos rfl, if_neg hd,
    if_neg hlen, hvalue, ok_bind, hs₁, ok_bind, hs']

/-- A byte that `TextCode` writes as itself or as two backslashes. -/
def Printable (c : UInt8) : Prop := 32 ≤ c ∧ c ≤ 126

theorem printable_iff (c : UInt8) : Printable c ↔ isNotEscaped c = true ∨ c = 92 := by
  have hbyte : ∀ n < 256, (32 ≤ UInt8.ofNat n ∧ UInt8.ofNat n ≤ 126) ↔
      isNotEscaped (.ofNat n) = true ∨ UInt8.ofNat n = 92 := by
    decide +kernel
  have hc := hbyte c.toNat c.toNat_lt
  rwa [UInt8.ofNat_toNat] at hc

/-- The lines of a text are read as bytes that are the right ones exactly if all of them are
    printable. -/
theorem decodes_linesFrom (cols pad : Nat) {tail : List UInt8} (hend : 12 ∈ tail)
    (htail : Decodes tail []) (i : Nat) (input : List UInt8) :
    ∃ out, Decodes (linesFrom cols pad i input ++ tail) out ∧ input.length ≤ out.length ∧
      (out = input ↔ ∀ c ∈ input, Printable c) := by
  induction input generalizing i with
  | nil => exact ⟨[], htail, Nat.le_refl _, by simp⟩
  | cons c input ih =>
    obtain ⟨out, hout, hlength, hiff⟩ := ih (i + 1)
    have hstart : ∀ b ∈ lineStart cols pad i, b = 9 ∨ b = 10 := by
      intro b hb
      unfold lineStart at hb
      split at hb
      · rcases List.mem_append.1 hb with hb | hb
        · split at hb
          · exact .inr (List.mem_singleton.1 hb)
          · cases hb
        · exact .inl (List.eq_of_mem_replicate hb)
      · cases hb
    -- what the character itself is read as
    have hchar : ∃ out', Decodes (escape c ++ (linesFrom cols pad (i + 1) input ++ tail)) out' ∧
        (c :: input).length ≤ out'.length ∧
          (out' = c :: input ↔ ∀ d ∈ c :: input, Printable d) := by
      by_cases hprintable : Printable c
      · refine ⟨c :: out, ?_, by simpa using hlength, by simp [hiff, hprintable]⟩
        unfold escape
        by_cases hnot : isNotEscaped c = true
        · rw [if_pos hnot]
          exact hout.char hnot
        · obtain rfl := ((printable_iff c).1 hprintable).resolve_left hnot
          exact hout.backslash
      · have hnot : ¬ isNotEscaped c = true := fun h => hprintable ((printable_iff c).2 (.inl h))
        have hne : c ≠ 92 := fun h => hprintable ((printable_iff c).2 (.inr h))
        obtain ⟨v, hv⟩ := hout.hex c (List.mem_append_right _ hend)
        have hlong : (c :: input).length < (v :: (hexDigits c ++ out)).length := by
          simp [hexDigits]
          omega
        refine ⟨_, ?_, hlong.le, ?_⟩
        · rw [escape, if_neg hnot, if_neg hne]
          exact hv
        · constructor
          · intro heq
            rw [heq] at hlong
            exact absurd hlong (lt_irrefl _)
          · intro hall
            exact absurd (hall c List.mem_cons_self) hprintable
    obtain ⟨out', hout', hrest⟩ := hchar
    refine ⟨out', ?_, hrest⟩
    rw [linesFrom, List.append_assoc, List.append_assoc]
    exact hout'.skipAll hstart

/-! ### The round trip -/

/-- `TextCode` writes a text into an empty buffer, and `TextUncode` reads it into another one as
    the bytes it was written for, without an error. -/
def RoundTrips (b : List UInt8) (buf buf' : ExpandableBuffer) (cols : Nat) (pad : Int) : Prop :=
  ∃ code out, textCode b buf cols pad = .ok code ∧
    textUncode (code.buf_.bytes.take code.length) buf' = .ok (out, false) ∧
      out.buf_.bytes.take out.length = b

theorem holds_ofBuffer {buf : ExpandableBuffer} (h : buf.len_ = 0) :
    Holds (.ofBuffer buf) [] := by
  obtain ⟨more, hbytes, hcap, hlen⟩ := buf.bytes_reserve 256
  refine ⟨hlen.trans h, rfl, Nat.zero_le _, ?_⟩
  show 0 < (buf.reserve 256).buf_len_
  omega

theorem bytes_take_length {text : List UInt8} (h : s.Holds text) :
    s.buf_.bytes.take s.length = text := by
  rw [StringBuffer.length, h.len, h.take]

/-- A text is read back exactly if every byte is printable and all calls on the buffer that it
    is written to are fine. -/
theorem textCode_roundTrips_iff (b : List UInt8) {buf buf' : ExpandableBuffer} (pad : Int)
    (hcols : 0 < cols) (hbuf : buf.len_ = 0) (hbuf' : buf'.len_ = 0) :
    RoundTrips b buf buf' cols pad ↔
      (∀ c ∈ b, Printable c) ∧ AllFine (.ofBuffer buf) (calls b cols pad.toNat) := by
  have hcode : textCode b buf cols pad =
      (calls b cols pad.toNat).foldlM Call.run (.ofBuffer buf) := textcodify_eq hcols b _
  have hholds := holds_ofBuffer hbuf
  -- the line that ends the text
  have hblank : ∀ c ∈ 10 :: List.replicate pad.toNat (9 : UInt8), c = 9 ∨ c = 10 := by
    intro c hc
    rcases List.mem_cons.1 hc with rfl | hc
    · exact .inr rfl
    · exact .inl (List.eq_of_mem_replicate hc)
  have htail : Decodes (10 :: (List.replicate pad.toNat 9 ++ [12, 10])) [] :=
    (decodes_end [10]).skipAll hblank
  obtain ⟨out', hdecodes, -, hiff⟩ :=
    decodes_linesFrom cols pad.toNat (by simp) htail 0 b
  rw [← codeText] at hdecodes
  have hread : ∀ {code : StringBuffer}, code.Holds (codeText b cols pad.toNat) →
      ∃ out, textUncode (code.buf_.bytes.take code.length) buf' = .ok (out, false) ∧
        out.buf_.bytes.take out.length = out' := by
    intro code hcode
    obtain ⟨out, hout, houtholds⟩ := hdecodes.2 (holds_ofBuffer hbuf')
    rw [bytes_take_length hcode]
    exact ⟨out, hout, bytes_take_length houtholds⟩
  have hwrite : AllFine (.ofBuffer buf) (calls b cols pad.toNat) →
      ∃ code, textCode b buf cols pad = .ok code ∧
        code.Holds (codeText b cols pad.toNat) := by
    intro hfine
    obtain ⟨code, hrun, hcodeholds⟩ := hholds.foldlM_run hfine
    rw [foldl_calls] at hcodeholds
    exact ⟨code, hcode.trans hrun, hcodeholds⟩
  constructor
  · intro ⟨code, out, hwritten, hout, hbytes⟩
    have hfine := hholds.allFine (fun c hc => plain_of_mem hc) (hcode.symm.trans hwritten)
    obtain ⟨code', hwritten', hcodeholds⟩ := hwrite hfine
    obtain rfl := Except.ok.inj (hwritten.symm.trans hwritten')
    obtain ⟨out₂, hout₂, hbytes₂⟩ := hread hcodeholds
    obtain ⟨rfl, -⟩ := Prod.mk.inj (Except.ok.inj (hout.symm.trans hout₂))
    exact ⟨hiff.1 (hbytes₂.symm.trans hbytes), hfine⟩
  · intro ⟨hprintable, hfine⟩
    obtain ⟨code, hwritten, hcodeholds⟩ := hwrite hfine
    obtain ⟨out, hout, hbytes⟩ := hread hcodeholds
    exact ⟨code, out, hwritten, hout, hbytes.trans (hiff.2 hprintable)⟩

/-- Two lines with a backslash. -/
theorem textCode_roundTrips_iff_backslash :
    RoundTrips [65, 92, 66] .new .new 2 1 ↔
      (∀ c ∈ [65, 92, 66], Printable c) ∧
        AllFine (.ofBuffer .new) (calls [65, 92, 66] 2 (1 : Int).toNat) :=
  textCode_roundTrips_iff [65, 92, 66] 1 (by decide) rfl rfl

/-- The byte 1 comes back as itself and the two digits of its escape. -/
theorem not_roundTrips_one : ¬ RoundTrips [1] .new .new 5 2 := by
  intro ⟨code, out, hwritten, hout, hbytes⟩
  have hrun : (do
      let code ← textCode [1] .new 5 2
      let (out, error) ← textUncode (code.buf_.bytes.take code.length) .new
      return (out.buf_.bytes.take out.length, error)) = .ok ([1, 48, 49], false) := by
    decide +kernel
  rw [hwritten, ok_bind, hout, ok_bind] at hrun
  dsimp only at hrun
  rw [hbytes] at hrun
  cases hrun

end Oasys.TextCode
