import Oasys.Util.IntType

/-!
# vfprintf

`log_vsnprintf` of `debug/vfprintf.c`. A format with its arguments is the list of what the
scan of it finds: text of the format or of a conversion, which `PRINT` copies as far as there
is room, and pointers. Where a pointer follows a `*` that has just been written it is taken
for one to a `Formatter`, and what that writes replaces the `*`.
-/

namespace Oasys

/-- Something that a format has in it. -/
inductive Conversion where
  | printed (bytes : List UInt8)
  /-- `%p`: the numeral of the pointer, and what `format` writes if it is a `Formatter`. -/
  | pointer (numeral formatted : List UInt8)

/-- The variables of `log_vsnprintf`. The pointer `str` is given by the memory before it. -/
structure Printing where
  str : List UInt8
  strsz : Nat
  ret : Int

namespace Printing

def INT_MAX : Int := 2 ^ 31 - 1

/-- `PRINT`, and the length that is added to `ret`. A result too long for an `int` is `EOF`. -/
def print (p : Printing) (bytes : List UInt8) : Option Printing :=
  if p.ret + bytes.length > INT_MAX then none
  else some ⟨p.str ++ bytes.take p.strsz, p.strsz - bytes.length, p.ret + bytes.length⟩

/-- `ret > 0 && str[-1] == '*'`. -/
def starred (p : Printing) : Except Fault Bool :=
  if p.ret > 0 then
    match p.str.getLast? with
    | none => throw .outOfBounds
    | some c => pure (c = 42)
  else pure false

/-- `str--`, the call of `formatter_format`, and its result. -/
def format (p : Printing) (formatted : List UInt8) : Printing where
  str := p.str.dropLast ++ formatted.take (p.strsz + 1)
  strsz := p.strsz + 1 - formatted.length
  ret := IntType.int.conv (p.ret - 1 + formatted.length)

/-- One round of the loop. No result means `EOF`. -/
def convert (p : Printing) : Conversion → Except Fault (Option Printing)
  | .printed bytes => pure (p.print bytes)
  | .pointer numeral formatted => do
    if ← p.starred then pure (some (p.format formatted)) else pure (p.print numeral)

/-- The loop, and the terminator: the memory up to it, and what is returned. -/
def run (p : Printing) : List Conversion → Except Fault (List UInt8 × Int)
  | [] => pure (p.str ++ [0], p.ret)
  | c :: fmt => do
    match ← p.convert c with
    | none => pure (p.str ++ [0], -1)
    | some p => p.run fmt

end Printing

/-- `log_vsnprintf`, for a place in the memory that has `str` before it. -/
def logVsnprintf (str : List UInt8) (strsz : Nat) (fmt : List Conversion) :
    Except Fault (List UInt8 × Int) :=
  if strsz = 0 then pure (str, -1)
  -- this leaves space for the trailing null
  else Printing.run ⟨str, strsz - 1, 0⟩ fmt

/-! ### What the calls do -/

namespace Conversion

/-- The text so far and a conversion, with no limit to the room. -/
def expand (text : List UInt8) : Conversion → List UInt8
  | .printed bytes => text ++ bytes
  | .pointer numeral formatted =>
    if text.getLast? = some 42 then text.dropLast ++ formatted else text ++ numeral

/-- The text of a format. -/
def expandAll (fmt : List Conversion) : List UInt8 := fmt.foldl expand []

/-- All of the text before each pointer fits, and no text is too long for an `int`. -/
def Fits (room : Nat) : List UInt8 → List Conversion → Prop
  | _, [] => True
  | text, c :: fmt =>
    (∀ numeral formatted, c = .pointer numeral formatted → text.length ≤ room) ∧
      (expand text c).length < 2 ^ 31 ∧ Fits room (expand text c) fmt

variable {room room' : Nat} {text : List UInt8} {fmt : List Conversion}

theorem Fits.mono (h : Fits room text fmt) (hle : room ≤ room') : Fits room' text fmt := by
  induction fmt generalizing text with
  | nil => trivial
  | cons c fmt ih =>
    obtain ⟨hroom, hshort, hrest⟩ := h
    refine ⟨?_, hshort, ih hrest⟩
    intro numeral formatted hc
    exact (hroom numeral formatted hc).trans hle

/-- A conversion that is no pointer. -/
def IsPrinted (c : Conversion) : Prop := ∃ bytes, c = .printed bytes

/-- The text becomes too long for an `int`. All of it before each pointer fits until then, and
    there is no pointer after that. -/
def Overflows (room : Nat) (fmt : List Conversion) : Prop :=
  ∃ front bytes rest, fmt = front ++ .printed bytes :: rest ∧ Fits room [] front ∧
    2 ^ 31 ≤ (expandAll front ++ bytes).length ∧ ∀ c ∈ rest, IsPrinted c

/-- All of the text before each pointer fits. -/
def Scanned (room : Nat) (fmt : List Conversion) : Prop := Fits room [] fmt ∨ Overflows room fmt

theorem Fits.append {front rest : List Conversion} (h : Fits room text (front ++ rest)) :
    Fits room text front ∧ Fits room (front.foldl expand text) rest := by
  induction front generalizing text with
  | nil => exact ⟨trivial, h⟩
  | cons c front ih =>
    obtain ⟨hroom, hshort, hrest⟩ := h
    obtain ⟨hfront, hrest⟩ := ih hrest
    exact ⟨⟨hroom, hshort, hfront⟩, hrest⟩

theorem Fits.concat {bytes : List UInt8} (h : Fits room text fmt)
    (hshort : (fmt.foldl expand text ++ bytes).length < 2 ^ 31) :
    Fits room text (fmt ++ [.printed bytes]) := by
  induction fmt generalizing text with
  | nil => exact ⟨nofun, hshort, trivial⟩
  | cons c fmt ih => exact ⟨h.1, h.2.1, ih h.2.2 hshort⟩

theorem Overflows.not_fits (h : Overflows room fmt) : ¬ Fits room' [] fmt := by
  obtain ⟨front, bytes, rest, rfl, -, hlong, -⟩ := h
  intro hfits
  obtain ⟨-, -, hshort, -⟩ := hfits.append
  exact absurd hshort (Nat.not_lt.2 hlong)

theorem length_le_foldl_expand (h : ∀ c ∈ fmt, IsPrinted c) :
    text.length ≤ (fmt.foldl expand text).length := by
  induction fmt generalizing text with
  | nil => exact Nat.le_refl _
  | cons c fmt ih =>
    obtain ⟨⟨bytes, rfl⟩, hrest⟩ := List.forall_mem_cons.1 h
    refine Nat.le_trans ?_ (ih hrest)
    rw [expand, List.length_append]
    exact Nat.le_add_right _ _

theorem Overflows.le_length (h : Overflows room fmt) : 2 ^ 31 ≤ (expandAll fmt).length := by
  obtain ⟨front, bytes, rest, rfl, -, hlong, hrest⟩ := h
  rw [expandAll, List.foldl_append, List.foldl_cons]
  exact Nat.le_trans hlong (length_le_foldl_expand hrest)

/-- A format without pointers. -/
theorem scanned_of_printed (h : ∀ c ∈ fmt, IsPrinted c) : Scanned room fmt := by
  -- the induction is on what is left of the format, after what fits
  suffices hall : ∀ front, Fits room [] front → Scanned room (front ++ fmt) from hall [] trivial
  induction fmt with
  | nil =>
    intro front hfront
    rw [List.append_nil]
    exact .inl hfront
  | cons c fmt ih =>
    intro front hfront
    obtain ⟨⟨bytes, rfl⟩, hrest⟩ := List.forall_mem_cons.1 h
    by_cases hshort : (expandAll front ++ bytes).length < 2 ^ 31
    · have hnext := ih hrest (front ++ [.printed bytes]) (hfront.concat hshort)
      rwa [List.append_assoc] at hnext
    · exact .inr ⟨front, bytes, fmt, rfl, hfront, Nat.le_of_not_lt hshort, hrest⟩

theorem Fits.length_lt (h : Fits room text fmt) (hshort : text.length < 2 ^ 31) :
    (fmt.foldl expand text).length < 2 ^ 31 := by
  induction fmt generalizing text with
  | nil => exact hshort
  | cons c fmt ih => exact ih h.2.2 h.2.1

end Conversion

namespace Printing

open Conversion

variable {base text : List UInt8} {room : Nat}

/-- What the variables are when a text has been printed into some room. -/
def after (base text : List UInt8) (room : Nat) : Printing :=
  ⟨base ++ text.take room, room - text.length, text.length⟩

theorem print_after (base text bytes : List UInt8) (room : Nat)
    (hshort : (text ++ bytes).length < 2 ^ 31) :
    (after base text room).print bytes = some (after base (text ++ bytes) room) := by
  have hlength : (text ++ bytes).length = text.length + bytes.length := List.length_append
  have hmax : ¬ ((text.length : Int) + bytes.length > INT_MAX) := by
    rw [INT_MAX]
    omega
  have hsub : room - text.length - bytes.length = room - (text ++ bytes).length := by omega
  simp only [print, after, hmax, if_false, hsub, List.append_assoc, ← List.take_append]
  simp

/-- A pointer where nothing has been cut off: the `*` is replaced. -/
theorem format_after (base : List UInt8) {text formatted : List UInt8} (hne : text ≠ [])
    (hroom : text.length ≤ room) (hshort : (text.dropLast ++ formatted).length < 2 ^ 31) :
    (after base text room).format formatted = after base (text.dropLast ++ formatted) room := by
  have hpos := List.length_pos_iff.2 hne
  have hlength : (text.dropLast ++ formatted).length = text.dropLast.length + formatted.length :=
    List.length_append
  have hdrop : text.dropLast.length = text.length - 1 := List.length_dropLast
  have hret : IntType.int.conv ((text.length : Int) - 1 + formatted.length) =
      ((text.dropLast ++ formatted).length : Nat) := by
    rw [← IntType.int_conv_of_lt hshort]
    congr 1
    omega
  have hstrsz : room - text.length + 1 - formatted.length =
      room - (text.dropLast ++ formatted).length := by omega
  have htake : (text.dropLast ++ formatted).take room =
      text.dropLast ++ formatted.take (room - text.length + 1) := by
    have hsub : room - text.dropLast.length = room - text.length + 1 := by omega
    rw [List.take_append, List.take_of_length_le (by omega), hsub]
  simp only [format, after, hret, hstrsz, htake]
  rw [List.take_of_length_le hroom, List.dropLast_append_of_ne_nil hne, List.append_assoc]

/-- The character before `str`, where nothing has been cut off. -/
theorem starred_after (base : List UInt8) (hroom : text.length ≤ room) :
    (after base text room).starred = .ok (text.getLast? = some 42) := by
  cases hlast : text.getLast? with
  | none =>
    obtain rfl := List.getLast?_eq_none_iff.1 hlast
    simp [starred, after]
  | some c =>
    have hne : text ≠ [] := by
      intro h
      rw [h] at hlast
      cases hlast
    have hlast' : (base ++ text.take room).getLast? = some c := by
      rw [List.take_of_length_le hroom, List.getLast?_append, hlast]
      rfl
    simp [starred, after, hne, hlast']

/-- A conversion gives its text. -/
theorem convert_after (base : List UInt8) {c : Conversion}
    (hroom : ∀ numeral formatted, c = .pointer numeral formatted → text.length ≤ room)
    (hshort : (c.expand text).length < 2 ^ 31) :
    (after base text room).convert c = .ok (some (after base (c.expand text) room)) := by
  cases c with
  | printed bytes => exact congrArg _ (print_after base text bytes room hshort)
  | pointer numeral formatted =>
    have hle := hroom numeral formatted rfl
    rw [convert, starred_after base hle, ok_bind]
    by_cases hstar : text.getLast? = some 42
    · have hne : text ≠ [] := by
        intro h
        rw [h] at hstar
        cases hstar
      simp only [expand, hstar, if_true] at hshort ⊢
      simp [format_after base hne hle hshort]
    · simp only [expand, hstar, if_false] at hshort ⊢
      simp [print_after base text numeral room hshort]

theorem run_after (base : List UInt8) {fmt : List Conversion} (h : Fits room text fmt) :
    (after base text room).run fmt =
      .ok (base ++ (fmt.foldl expand text).take room ++ [0],
        ((fmt.foldl expand text).length : Nat)) := by
  induction fmt generalizing text with
  | nil => rfl
  | cons c fmt ih =>
    obtain ⟨hroom, hshort, hrest⟩ := h
    rw [run, convert_after base hroom hshort, ok_bind]
    exact ih hrest

end Printing

/-- A text that becomes too long for an `int` is the end of the scan. -/
theorem Printing.run_overflows (base : List UInt8) {room : Nat} {text bytes : List UInt8}
    {fmt : List Conversion} (hfits : Conversion.Fits room text fmt)
    (hlong : 2 ^ 31 ≤ (fmt.foldl Conversion.expand text ++ bytes).length) (rest : List Conversion) :
    ∃ mem, (Printing.after base text room).run (fmt ++ .printed bytes :: rest) = .ok (mem, -1) := by
  induction fmt generalizing text with
  | nil =>
    rw [List.foldl_nil, List.length_append] at hlong
    have hmax : (text.length : Int) + bytes.length > Printing.INT_MAX := by
      rw [Printing.INT_MAX]
      omega
    rw [List.nil_append, Printing.run, Printing.convert, Printing.print, Printing.after,
      if_pos hmax]
    exact ⟨_, rfl⟩
  | cons c fmt ih =>
    obtain ⟨hroom, hshort, hrest⟩ := hfits
    rw [List.cons_append, Printing.run, Printing.convert_after base hroom hshort, ok_bind]
    exact ih hrest hlong

theorem logVsnprintf_eq (str : List UInt8) {strsz : Nat} {fmt : List Conversion}
    (hpos : 0 < strsz) (h : Conversion.Fits (strsz - 1) [] fmt) :
    logVsnprintf str strsz fmt =
      .ok (str ++ (Conversion.expandAll fmt).take (strsz - 1) ++ [0],
        ((Conversion.expandAll fmt).length : Nat)) := by
  have hne : strsz ≠ 0 := by omega
  have hrun := Printing.run_after str h
  simp only [Printing.after, List.take_nil, List.append_nil, List.length_nil, Nat.sub_zero] at hrun
  rw [logVsnprintf, if_neg hne]
  exact hrun

/-- `log_vsnprintf` of a text that is too long. -/
theorem logVsnprintf_overflows (str : List UInt8) {strsz : Nat} {fmt : List Conversion}
    (h : Conversion.Overflows (strsz - 1) fmt) :
    ∃ mem, logVsnprintf str strsz fmt = .ok (mem, -1) := by
  rw [logVsnprintf]
  split
  · exact ⟨str, rfl⟩
  · obtain ⟨front, bytes, rest, rfl, hfits, hlong, -⟩ := h
    have hrun := Printing.run_overflows str hfits hlong rest
    simp only [Printing.after, List.take_nil, List.append_nil, List.length_nil,
      Nat.sub_zero] at hrun
    exact hrun

/-- The variables when what has been written is behind `base` and a character, and there is so
    much room for it in all. -/
def Printing.Bounded (base : List UInt8) (c : UInt8) (room : Nat) (p : Printing) : Prop :=
  ∃ more, p.str = base ++ c :: more ∧ more.length + p.strsz = room

section Bounded

open Printing

variable {base : List UInt8} {c : UInt8} {room : Nat} {p : Printing}

theorem Printing.Bounded.print (h : p.Bounded base c room) (bytes : List UInt8) :
    p.print bytes = none ∨ ∃ p', p.print bytes = some p' ∧ p'.Bounded base c room := by
  obtain ⟨more, hstr, hroom⟩ := h
  rw [Printing.print]
  split
  · exact .inl rfl
  · refine .inr ⟨_, rfl, more ++ bytes.take p.strsz, ?_, ?_⟩
    · rw [hstr, List.append_assoc]
      rfl
    · rw [List.length_append, List.length_take]
      dsimp only
      omega

theorem Printing.Bounded.format {more : List UInt8} (hne : more ≠ [])
    (hstr : p.str = base ++ c :: more) (hroom : more.length + p.strsz = room)
    (formatted : List UInt8) : (p.format formatted).Bounded base c room := by
  have hpos := List.length_pos_iff.2 hne
  refine ⟨more.dropLast ++ formatted.take (p.strsz + 1), ?_, ?_⟩
  · rw [Printing.format, hstr, List.dropLast_append_of_ne_nil (by simp),
      List.dropLast_cons_of_ne_nil hne, List.append_assoc]
    rfl
  · rw [List.length_append, List.length_dropLast, List.length_take, Printing.format]
    dsimp only
    omega

/-- A conversion, where the character is no `*`. -/
theorem Printing.Bounded.convert (h : p.Bounded base c room) (hc : c ≠ 42) (conv : Conversion) :
    p.convert conv = .ok none ∨ ∃ p', p.convert conv = .ok (some p') ∧ p'.Bounded base c room := by
  have hprint : ∀ bytes, (pure (p.print bytes) : Except Fault _) = .ok none ∨
      ∃ p', (pure (p.print bytes) : Except Fault _) = .ok (some p') ∧ p'.Bounded base c room := by
    intro bytes
    rcases h.print bytes with hnone | ⟨p', hsome, hp'⟩
    · exact .inl (by rw [hnone]; rfl)
    · exact .inr ⟨p', by rw [hsome]; rfl, hp'⟩
  obtain ⟨more, hstr, hroom⟩ := h
  cases conv with
  | printed bytes => exact hprint bytes
  | pointer numeral formatted =>
    have hlast : p.str.getLast? = some (more.getLast?.getD c) := by
      rw [hstr, List.getLast?_append, List.getLast?_cons]
      rfl
    rw [Printing.convert, starred, hlast]
    by_cases hret : p.ret > 0
    · rw [if_pos hret]
      by_cases hstar : more.getLast?.getD c = 42
      · have hne : more ≠ [] := by
          rintro rfl
          exact hc hstar
        refine .inr ⟨p.format formatted, ?_, Bounded.format hne hstr hroom formatted⟩
        simp [hstar]
      · simpa [hstar] using hprint numeral
    · rw [if_neg hret]
      exact hprint numeral

/-- Whatever the conversions are, the loop writes no more than there is room for. -/
theorem Printing.Bounded.run (h : p.Bounded base c room) (hc : c ≠ 42) (fmt : List Conversion) :
    ∃ more len, p.run fmt = .ok (base ++ c :: more ++ [0], len) ∧ more.length ≤ room := by
  induction fmt generalizing p with
  | nil =>
    obtain ⟨more, hstr, hroom⟩ := h
    exact ⟨more, p.ret, by rw [Printing.run, hstr]; rfl, by omega⟩
  | cons conv fmt ih =>
    rw [Printing.run]
    rcases h.convert hc conv with hnone | ⟨p', hsome, hp'⟩
    · obtain ⟨more, hstr, hroom⟩ := h
      rw [hnone, ok_bind]
      exact ⟨more, -1, by rw [hstr]; rfl, by omega⟩
    · rw [hsome, ok_bind]
      exact ih hp'

end Bounded

theorem logVsnprintf_bounded {c : UInt8} (hc : c ≠ 42) (base : List UInt8) {strsz : Nat}
    (hpos : 0 < strsz) (fmt : List Conversion) :
    ∃ more len, logVsnprintf (base ++ [c]) strsz fmt = .ok (base ++ c :: more ++ [0], len) ∧
      more.length ≤ strsz - 1 := by
  rw [logVsnprintf, if_neg (by omega)]
  exact Printing.Bounded.run ⟨[], rfl, Nat.zero_add _⟩ hc fmt

end Oasys
