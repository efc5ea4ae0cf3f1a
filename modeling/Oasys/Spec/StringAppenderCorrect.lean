import Oasys.ForStd.Answering
import Oasys.Util.StringAppender

/-!
# Appending as bounded concatenation

A text that calls add to, of which a buffer shows as much as there is room for in front of a
terminator. An appender shows the text that its calls add, with one exception at the start:
a single character does not terminate a buffer that has no room for it. What `log_vsnprintf`
cannot count is not counted here either.
-/

namespace Oasys

namespace StringAppender

open Conversion

/-! ### The text -/

def Call.text : Call → List UInt8
  | .append str len => if len = 0 then str.takeWhile (· ≠ 0) else str.take len
  | .appendChar c => [c]
  | .appendf fmt => expandAll fmt

/-- The text so far, for a buffer of some size, and whether this is terminated. -/
structure Appended where
  size : Nat
  text : List UInt8
  terminated : Bool

namespace Appended

def new (buf : List UInt8) : Appended := ⟨buf.length, [], buf[0]? = some 0⟩

def kept (m : Appended) : List UInt8 := m.text.take (m.size - 1)

def room (m : Appended) : Nat := m.size - 1 - m.text.length

def add (m : Appended) (piece : List UInt8) : Appended :=
  { m with text := m.text ++ piece, terminated := true }

/-- A call adds its text, and answers how many characters more are shown. -/
def call (m : Appended) (c : Call) : (Nat × Appended) × Appended :=
  let m' := m.add c.text
  ((m'.kept.length - m.kept.length, m'), m')

end Appended

/-- The buffer shows the text, and the lengths are those of what is shown and of it all. -/
structure Shows (m : Appended) (sa : StringAppender) : Prop where
  size : sa.buf.length = m.size
  shown : sa.buf.take (m.kept.length + 1) = m.kept ++ [0]
  length : sa.length = m.kept.length
  desired : sa.desiredLength = m.text.length

def answer (sa : StringAppender) (c : Call) :
    Except Fault ((Nat × StringAppender) × StringAppender) :=
  (fun r => (r, r.2)) <$> sa.call c

/-- A call returns how many characters it adds, and the buffer shows the text after it. -/
def Agrees (r : Nat × Appended) (r' : Nat × StringAppender) : Prop := r'.1 = r.1 ∧ Shows r.2 r'.2

/-- What a call may be given: strings that are not empty. -/
def Valid (_ : Appended) : Call → Prop
  | .append str len => (len = 0 → 0 ∈ str) ∧ len ≤ str.length ∧ (Call.append str len).text ≠ []
  | _ => True

/-- A first call that adds a character has room for it, unless there is a terminator. The
    text fits a `size_t`, that of a format an `int`, and what stands before a pointer in it
    is not cut off. -/
def Careful (m : Appended) (c : Call) : Prop :=
  (m.text ++ c.text).length < 2 ^ 64 ∧
    match c with
    | .append _ _ => True
    | .appendChar _ => m.terminated = true ∨ 2 ≤ m.size
    | .appendf fmt => Fits m.room [] fmt

/-- A format in which no pointer comes after what is cut off, and with a text that there may
    be in a memory. -/
def Plain (m : Appended) : Call → Prop
  | .appendf fmt => Scanned m.room fmt ∧ (expandAll fmt).length < 2 ^ 63
  | _ => True

/-! ### The state between the calls -/

/-- The state for a text. -/
structure Sim (m : Appended) (sa : StringAppender) : Prop where
  size_pos : 0 < m.size
  size : sa.buf.length = m.size
  cur : sa.cur_ = m.kept.length
  remaining : sa.remaining_ = m.room + 1
  len : sa.len_ = m.kept.length
  desired : sa.desired_ = m.text.length
  narrow : m.text.length < 2 ^ 64
  kept : sa.buf.take m.kept.length = m.kept
  terminated : m.terminated = true → sa.buf[m.kept.length]? = some 0
  fresh : m.terminated = false → m.text = [] ∧ sa.buf[0]? ≠ some 0

variable {m : Appended} {sa : StringAppender} {c : Call} {piece : List UInt8}

theorem Appended.kept_add (m : Appended) (piece : List UInt8) :
    (m.add piece).kept = m.kept ++ piece.take m.room := List.take_append

theorem Appended.length_kept (m : Appended) : m.kept.length + m.room = m.size - 1 := by
  rw [kept, List.length_take, room]
  omega

theorem Appended.room_add (m : Appended) (piece : List UInt8) :
    (m.add piece).room = m.room - (piece.take m.room).length := by
  simp only [room, add, List.length_append, List.length_take]
  omega

theorem take_succ_eq {buf text : List UInt8} {n : Nat} (htake : buf.take n = text)
    (hzero : buf[n]? = some 0) : buf.take (n + 1) = text ++ [0] := by
  rw [List.take_add_one, htake, hzero]
  rfl

theorem sim_new {buf : List UInt8} (hpos : 0 < buf.length) : Sim (.new buf) (new buf) where
  size_pos := hpos
  size := rfl
  cur := by
    rw [Appended.kept, Appended.new, List.take_nil]
    rfl
  remaining := by
    simp only [Appended.room, Appended.new, new, List.length_nil]
    omega
  len := by
    rw [Appended.kept, Appended.new, List.take_nil]
    rfl
  desired := rfl
  narrow := by
    rw [Appended.new, List.length_nil]
    decide
  kept := by
    rw [Appended.kept, Appended.new, List.take_nil, List.length_nil, List.take_zero]
  terminated := by
    intro h
    simpa [Appended.new, Appended.kept, new] using h
  fresh := by
    intro h
    exact ⟨rfl, by simpa [Appended.new, new] using h⟩

theorem Sim.advance (h : Sim m sa) (piece : List UInt8) {buf : List UInt8} (hsize : buf.length = m.size)
    (hbuf : buf.take (m.add piece).kept.length = (m.add piece).kept)
    (hzero : buf[(m.add piece).kept.length]? = some 0)
    (hnarrow : (m.text ++ piece).length < 2 ^ 64) :
    Sim (m.add piece)
      { buf := buf
        cur_ := sa.cur_ + (piece.take m.room).length
        remaining_ := sa.remaining_ - (piece.take m.room).length
        len_ := sa.len_ + (piece.take m.room).length
        desired_ := sizeAdd sa.desired_ piece.length } where
  size_pos := h.size_pos
  size := hsize
  cur := by rw [Appended.kept_add, List.length_append, h.cur]
  remaining := by
    have hle : (piece.take m.room).length ≤ m.room := by
      rw [List.length_take]
      omega
    simp only [h.remaining, Appended.room_add]
    omega
  len := by rw [Appended.kept_add, List.length_append, h.len]
  desired := by
    rw [List.length_append] at hnarrow
    rw [sizeAdd, h.desired, Nat.mod_eq_of_lt hnarrow, Appended.add, List.length_append]
  narrow := hnarrow
  kept := hbuf
  terminated := fun _ => hzero
  fresh := nofun

theorem Sim.shows (h : Sim m sa) (hterm : m.terminated = true) : Shows m sa where
  size := h.size
  shown := take_succ_eq h.kept (h.terminated hterm)
  length := h.len
  desired := h.desired

theorem Sim.assertTerminated_ok (h : Sim m sa) (hterm : m.terminated = true) :
    sa.assertTerminated = .ok () := by
  rw [assertTerminated, h.cur, h.terminated hterm]
  rfl

theorem Sim.agrees (h : Sim (m.add piece) sa) :
    Agrees ((m.add piece).kept.length - m.kept.length, m.add piece)
      ((piece.take m.room).length, sa) := by
  refine ⟨?_, h.shows rfl⟩
  rw [Appended.kept_add, List.length_append]
  omega

/-! ### The calls -/

theorem Sim.memcpy_ok (h : Sim m sa) (piece : List UInt8) :
    ∃ buf₁ buf₂, memcpy sa.buf sa.cur_ (piece.take m.room) = .ok buf₁ ∧
      memcpy buf₁ (sa.cur_ + (piece.take m.room).length) [0] = .ok buf₂ ∧
        buf₂.length = m.size ∧ buf₂.take (m.add piece).kept.length = (m.add piece).kept ∧
          buf₂[(m.add piece).kept.length]? = some 0 := by
  have hpos := h.size_pos
  have hsize := h.size
  have hroom := m.length_kept
  have hle : (piece.take m.room).length ≤ m.room := by
    rw [List.length_take]
    omega
  have hkept' : (m.add piece).kept.length = m.kept.length + (piece.take m.room).length := by
    rw [Appended.kept_add, List.length_append]
  let rest := sa.buf.drop (m.kept.length + (piece.take m.room).length)
  have hfirst : memcpy sa.buf sa.cur_ (piece.take m.room) = .ok ((m.add piece).kept ++ rest) := by
    rw [memcpy, if_pos (by rw [h.cur]; omega), h.cur, h.kept, Appended.kept_add]
    rfl
  have hrest : 0 < rest.length := by
    rw [List.length_drop]
    omega
  have hsecond : memcpy ((m.add piece).kept ++ rest) (sa.cur_ + (piece.take m.room).length) [0]
      = .ok ((m.add piece).kept ++ 0 :: rest.drop 1) := by
    rw [memcpy, h.cur, ← hkept', if_pos]
    · rw [List.take_left, List.drop_append, List.drop_of_length_le (by simp), List.nil_append,
        List.length_singleton, Nat.add_sub_cancel_left, List.append_assoc]
      rfl
    · rw [List.length_append, List.length_singleton]
      omega
  refine ⟨_, _, hfirst, hsecond, ?_, List.take_left, ?_⟩
  · rw [List.length_append, List.length_cons, List.length_drop, List.length_drop, hkept']
    omega
  · rw [List.getElem?_append_right (Nat.le_refl _), Nat.sub_self]
    rfl

theorem length_takeWhile_ne (str : List UInt8) :
    (str.takeWhile (· ≠ 0)).length = str.idxOf 0 := by
  induction str with
  | nil => rfl
  | cons c str ih =>
    by_cases hc : c = 0
    · simp [hc]
    · rw [List.takeWhile_cons, if_pos (by simpa using hc), List.idxOf_cons_ne _ hc,
        List.length_cons, ih]

theorem len_of_valid {str : List UInt8} {len : Nat} (hvalid : Valid m (.append str len)) :
    lengthOf str len = .ok (Call.append str len).text.length ∧
      str.take (Call.append str len).text.length = (Call.append str len).text := by
  obtain ⟨hzero, hle, -⟩ := hvalid
  by_cases hlen : len = 0
  · have hpre : str.takeWhile (· ≠ 0) <+: str := List.takeWhile_prefix _
    simp only [Call.text, if_pos hlen]
    constructor
    · rw [lengthOf, if_pos hlen, strlen, if_pos (hzero hlen), length_takeWhile_ne]
      rfl
    · exact (List.prefix_iff_eq_take.1 hpre).symm
  · rw [lengthOf, if_neg hlen]
    simp only [Call.text, if_neg hlen, List.length_take, Nat.min_eq_left hle]
    exact ⟨rfl, trivial⟩

theorem append_ok (h : Sim m sa) {str : List UInt8} {len : Nat}
    (hvalid : Valid m (.append str len))
    (hnarrow : (m.text ++ (Call.append str len).text).length < 2 ^ 64) :
    ∃ sa', sa.append str len = .ok (((Call.append str len).text.take m.room).length, sa') ∧
      Sim (m.add (Call.append str len).text) sa' := by
  obtain ⟨hlen, htake⟩ := len_of_valid hvalid
  have hle := hvalid.2.1
  generalize (Call.append str len).text = piece at hlen htake hnarrow ⊢
  obtain ⟨buf₁, buf₂, hfirst, hsecond, hsize, hkept, hzero⟩ := h.memcpy_ok piece
  have hsim := h.advance _ hsize hkept hzero hnarrow
  have hassert := hsim.assertTerminated_ok rfl
  have hmin : min piece.length (sa.remaining_ - 1) = (piece.take m.room).length := by
    rw [h.remaining, List.length_take, Nat.add_sub_cancel, Nat.min_comm]
  have hsrc : str.take (piece.take m.room).length = piece.take m.room := by
    have hpre : piece.take m.room <+: str := (List.take_prefix _ _).trans
      (List.prefix_iff_eq_take.2 htake.symm)
    exact (List.prefix_iff_eq_take.1 hpre).symm
  have hsource : source str (piece.take m.room).length = .ok (piece.take m.room) := by
    have hsrclen := congrArg List.length hsrc
    rw [List.length_take] at hsrclen
    rw [source, if_pos (by omega), hsrc]
    rfl
  have hremaining : ¬ sa.remaining_ = 0 := by
    rw [h.remaining]
    omega
  refine ⟨_, ?_, hsim⟩
  rw [append, hlen, ok_bind]
  simp only [hremaining, if_false, hmin, hsource, hfirst, hsecond, hassert, ok_bind, pure_eq_ok]

theorem appendChar_full (h : Sim m sa) (c : UInt8) (hroom : m.room = 0) :
    sa.appendChar c = .ok (0, { sa with desired_ := sizeAdd sa.desired_ 1 }) := by
  have hremaining : sa.remaining_ ≤ 1 := by
    rw [h.remaining, hroom]
  rw [appendChar]
  simp only [hremaining, if_true, pure_eq_ok]

theorem appendChar_ok (h : Sim m sa) (c : UInt8) (hcareful : m.terminated = true ∨ 2 ≤ m.size)
    (hnarrow : (m.text ++ [c]).length < 2 ^ 64) :
    ∃ sa', sa.appendChar c = .ok (([c].take m.room).length, sa') ∧ Sim (m.add [c]) sa' := by
  by_cases hroom : m.room = 0
  · -- there is a terminator behind the text that fills the buffer
    have hterm : m.terminated = true := by
      cases hterm : m.terminated with
      | true => rfl
      | false =>
        obtain ⟨htext, -⟩ := h.fresh hterm
        rw [hterm] at hcareful
        rw [Appended.room, htext, List.length_nil] at hroom
        rcases hcareful with hfalse | hsize
        · cases hfalse
        · omega
    have hkept : (m.add [c]).kept = m.kept := by
      rw [Appended.kept_add, hroom, List.take_zero, List.append_nil]
    have hsim := h.advance [c] h.size (by rw [hkept, h.kept])
      (by rw [hkept, h.terminated hterm]) hnarrow
    refine ⟨_, ?_, hsim⟩
    rw [appendChar_full h c hroom, hroom]
    rfl
  · obtain ⟨buf₁, buf₂, hfirst, hsecond, hsize, hkept, hzero⟩ := h.memcpy_ok [c]
    have hsim := h.advance _ hsize hkept hzero hnarrow
    have hassert := hsim.assertTerminated_ok rfl
    have htake : [c].take m.room = [c] := List.take_of_length_le (by
      rw [List.length_singleton]
      omega)
    have hremaining : ¬ sa.remaining_ ≤ 1 := by
      rw [h.remaining]
      omega
    rw [htake] at hfirst hsecond hsim hassert ⊢
    refine ⟨_, ?_, hsim⟩
    rw [appendChar]
    simp only [List.length_singleton] at hsecond hassert
    simp only [hremaining, if_false, hfirst, hsecond, hassert, ok_bind, pure_eq_ok,
      List.length_singleton]

theorem appendf_ok (h : Sim m sa) {fmt : List Conversion} (hfits : Fits m.room [] fmt)
    (hnarrow : (m.text ++ expandAll fmt).length < 2 ^ 64) :
    ∃ sa', sa.appendf fmt = .ok (((expandAll fmt).take m.room).length, sa') ∧
      Sim (m.add (expandAll fmt)) sa' := by
  have hpos := h.size_pos
  have hsize := h.size
  have hroom := (m.add (expandAll fmt)).length_kept
  have hint : (expandAll fmt).length < 2 ^ 31 := hfits.length_lt (by decide)
  have hprint : logVsnprintf (sa.buf.take sa.cur_) sa.remaining_ fmt
      = .ok ((m.add (expandAll fmt)).kept ++ [0], ((expandAll fmt).length : Nat)) := by
    have heq := logVsnprintf_eq m.kept (Nat.succ_pos m.room) hfits
    rw [h.cur, h.kept, h.remaining, Appended.kept_add]
    exact heq
  have hconv : (IntType.u64.conv ((expandAll fmt).length : Nat)).toNat
      = (expandAll fmt).length := by
    rw [IntType.u64_conv]
    omega
  have hmin : min (expandAll fmt).length (sa.remaining_ - 1)
      = ((expandAll fmt).take m.room).length := by
    rw [h.remaining, List.length_take, Nat.add_sub_cancel, Nat.min_comm]
  have hadd : (m.add (expandAll fmt)).size = m.size := rfl
  have hinside : ((m.add (expandAll fmt)).kept ++ [0]).length ≤ sa.buf.length := by
    rw [List.length_append, List.length_singleton]
    omega
  generalize hrest : sa.buf.drop ((m.add (expandAll fmt)).kept ++ [0]).length = rest
  have hrewrite : rewrite sa.buf ((m.add (expandAll fmt)).kept ++ [0])
      = .ok ((m.add (expandAll fmt)).kept ++ [0] ++ rest) := by
    rw [rewrite, if_pos hinside, hrest]
    rfl
  have hlength : ((m.add (expandAll fmt)).kept ++ [0] ++ rest).length = m.size := by
    rw [← hrest, List.length_append, List.length_drop, ← hsize]
    omega
  have hsim := h.advance _ hlength
    (by rw [List.append_assoc, List.take_left])
    (by
      rw [List.append_assoc, List.getElem?_append_right (Nat.le_refl _), Nat.sub_self]
      rfl)
    hnarrow
  have hassert := hsim.assertTerminated_ok rfl
  have hremaining : ¬ sa.remaining_ = 0 := by
    rw [h.remaining]
    omega
  refine ⟨_, ?_, hsim⟩
  rw [appendf, hprint, ok_bind]
  simp only [hrewrite, hremaining, if_false, hconv, hmin, hassert, ok_bind, pure_eq_ok]

theorem call_ok (h : Sim m sa) (c : Call) (hvalid : Valid m c) (hcareful : Careful m c) :
    ∃ sa', sa.call c = .ok ((c.text.take m.room).length, sa') ∧ Sim (m.add c.text) sa' := by
  obtain ⟨hnarrow, hcareful⟩ := hcareful
  cases c with
  | append str len => exact append_ok h hvalid hnarrow
  | appendChar c => exact appendChar_ok h c hcareful hnarrow
  | appendf fmt => exact appendf_ok h hcareful hnarrow

/-! ### Calls that add their text -/

theorem desired_eq {n : Nat} {sa' : StringAppender} (hcall : sa.call c = .ok (n, sa')) :
    ∃ x, sa'.desired_ = sizeAdd sa.desired_ x := by
  cases c with
  | append str len =>
    obtain ⟨x, -, hrest⟩ := bind_eq_ok.1 hcall
    refine ⟨x, ?_⟩
    dsimp only at hrest
    split at hrest
    · cases hrest
      rfl
    · obtain ⟨bytes, -, hrest⟩ := bind_eq_ok.1 hrest
      obtain ⟨buf₁, -, hrest⟩ := bind_eq_ok.1 hrest
      obtain ⟨buf₂, -, hrest⟩ := bind_eq_ok.1 hrest
      obtain ⟨-, -, hret⟩ := bind_eq_ok.1 hrest
      cases hret
      rfl
  | appendChar c =>
    refine ⟨1, ?_⟩
    rw [call, appendChar] at hcall
    split at hcall
    · cases hcall
      rfl
    · obtain ⟨buf₁, -, hrest⟩ := bind_eq_ok.1 hcall
      obtain ⟨buf₂, -, hrest⟩ := bind_eq_ok.1 hrest
      obtain ⟨-, -, hret⟩ := bind_eq_ok.1 hrest
      cases hret
      rfl
  | appendf fmt =>
    obtain ⟨⟨str, ret⟩, -, hrest⟩ := bind_eq_ok.1 hcall
    refine ⟨(IntType.u64.conv ret).toNat, ?_⟩
    obtain ⟨buf, -, hrest⟩ := bind_eq_ok.1 hrest
    dsimp only at hrest
    split at hrest
    · cases hrest
      rfl
    · obtain ⟨-, -, hret⟩ := bind_eq_ok.1 hrest
      cases hret
      rfl

theorem appendf_overflows {fmt : List Conversion} {n : Nat} {sa' : StringAppender}
    (h : Sim m sa) (hover : Overflows m.room fmt) (hcall : sa.appendf fmt = .ok (n, sa')) :
    sa'.desired_ = sizeAdd m.text.length (2 ^ 64 - 1) := by
  have hstrsz : m.room = sa.remaining_ - 1 := by
    rw [h.remaining, Nat.add_sub_cancel]
  obtain ⟨mem, hprint⟩ := logVsnprintf_overflows (sa.buf.take sa.cur_) (hstrsz ▸ hover)
  rw [appendf, hprint, ok_bind] at hcall
  obtain ⟨buf, -, hrest⟩ := bind_eq_ok.1 hcall
  have hconv : (IntType.u64.conv (-1)).toNat = 2 ^ 64 - 1 := by decide
  dsimp only at hrest
  rw [h.desired, hconv] at hrest
  split at hrest
  · cases hrest
    rfl
  · obtain ⟨-, -, hret⟩ := bind_eq_ok.1 hrest
    cases hret
    rfl

theorem careful_of_agrees (h : Sim m sa) (c : Call) (hplain : Plain m c) {n : Nat}
    {sa' : StringAppender} (hcall : sa.call c = .ok (n, sa')) (hshows : Shows (m.add c.text) sa') :
    Careful m c := by
  have hdesired : sa'.desired_ = (m.text ++ c.text).length := hshows.desired
  have hnarrow : (m.text ++ c.text).length < 2 ^ 64 := by
    obtain ⟨x, hx⟩ := desired_eq hcall
    rw [← hdesired, hx]
    exact Nat.mod_lt _ (by decide)
  refine ⟨hnarrow, ?_⟩
  cases c with
  | append str len => trivial
  | appendChar c =>
    by_contra hcon
    obtain ⟨hterm, hsize⟩ := not_or.1 hcon
    have hpos := h.size_pos
    obtain ⟨htext, hfirst⟩ := h.fresh (Bool.eq_false_iff.2 hterm)
    have hone : m.size = 1 := by omega
    have hroom : m.room = 0 := by rw [Appended.room, hone]; omega
    -- nothing is written, and the buffer has no terminator
    rw [call, appendChar_full h c hroom] at hcall
    cases hcall
    have hshown := hshows.shown
    have hkept : (m.add [c]).kept = [] := by
      rw [Appended.kept_add, hroom, Appended.kept, htext, List.take_nil]
      rfl
    rw [Call.text, hkept] at hshown
    apply hfirst
    have hget := congrArg (fun buf : List UInt8 => buf[0]?) hshown
    rw [List.getElem?_take_of_lt (Nat.succ_pos _)] at hget
    exact hget
  | appendf fmt =>
    obtain ⟨hscanned, hshort⟩ := hplain
    rcases hscanned with hfits | hover
    · exact hfits
    · have hlong := hover.le_length
      have hcount := appendf_overflows h hover hcall
      simp only [Call.text] at hdesired
      rw [hdesired, List.length_append, sizeAdd] at hcount
      have htext := h.narrow
      omega

/-! ### Sequences of calls -/

open Answering

theorem answer_ok (h : Sim m sa) (c : Call) (hvalid : Valid m c) (hcareful : Careful m c) :
    ∃ r sa', answer sa c = .ok (r, sa') ∧ Agrees (m.call c).1 r ∧ Sim (m.call c).2 sa' := by
  obtain ⟨sa', hcall, hsim⟩ := call_ok h c hvalid hcareful
  exact ⟨_, sa', map_eq_ok.2 ⟨_, hcall, rfl⟩, hsim.agrees, hsim⟩

theorem careful_of_answer (h : Sim m sa) (c : Call) (hplain : Plain m c)
    {r : Nat × StringAppender} {sa' : StringAppender} (hanswer : answer sa c = .ok (r, sa'))
    (hagrees : Agrees (m.call c).1 r) : Careful m c := by
  obtain ⟨⟨n, sa₁⟩, hcall, heq⟩ := map_eq_ok.1 hanswer
  cases heq
  exact careful_of_agrees h c hplain hcall hagrees.2

/-- An appender is bounded concatenation where all calls are careful, and where the formats
    are plain, only there. -/
theorem refines_appended (buf : List UInt8) (calls : List Call) (hpos : 0 < buf.length)
    (hvalid : Along Appended.call Valid (.new buf) calls) :
    (Along Appended.call Careful (.new buf) calls →
      Refines Appended.call answer Agrees (.new buf) (new buf) calls) ∧
    (Along Appended.call Plain (.new buf) calls →
      Refines Appended.call answer Agrees (.new buf) (new buf) calls →
        Along Appended.call Careful (.new buf) calls) := by
  have hsim := sim_new hpos
  constructor
  · intro hcareful
    have hiff : Refines Appended.call answer Agrees (.new buf) (new buf) calls ↔
        Along Appended.call Careful (.new buf) calls :=
      refines_iff_along
        (fun m sa c (h : Sim m sa) (hc : Valid m c ∧ Careful m c) _ => answer_ok h c hc.1 hc.2)
        (fun m sa c r sa' _ hc _ _ => hc.2) hsim (hvalid.and hcareful)
    exact hiff.2 hcareful
  · intro hplain
    have hiff : Refines Appended.call answer Agrees (.new buf) (new buf) calls ↔
        Along Appended.call Careful (.new buf) calls :=
      refines_iff_along
        (fun m sa c (h : Sim m sa) (hc : Valid m c ∧ Plain m c) hok => answer_ok h c hc.1 hok)
        (fun m sa c r sa' h hc => careful_of_answer h c hc.2) hsim (hvalid.and hplain)
    exact hiff.1

/-- A word that is cut off in the middle, a character and a format. -/
theorem refines_appended_word :
    Refines Appended.call answer Agrees (.new [42, 42, 42, 42]) (new [42, 42, 42, 42])
      [.append [104, 101, 108, 108, 111] 5, .appendChar 32, .appendf [.printed [49]]] := by
  apply (refines_appended _ _ (by decide) ?_).1
  · refine ⟨⟨by decide, trivial⟩, ⟨by decide, Or.inr (by decide)⟩, ⟨by decide, ?_⟩, trivial⟩
    exact ⟨nofun, by decide, trivial⟩
  · exact ⟨⟨by decide, by decide, by decide⟩, trivial, trivial, trivial⟩

/-- A character for a buffer that has room for a terminator only. -/
theorem not_refines_appended_char :
    ¬ ∀ (buf : List UInt8) (calls : List Call), 0 < buf.length → calls ≠ [] →
      Along Appended.call Valid (.new buf) calls →
        Refines Appended.call answer Agrees (.new buf) (new buf) calls := by
  intro h
  have hrefines := h [42] [.appendChar 97] (by decide) (by decide) ⟨trivial, trivial⟩
  obtain ⟨r, sa', hanswer, hagrees, -⟩ := refines_cons.1 hrefines
  cases hanswer
  exact absurd hagrees.2.shown (by decide)

end StringAppender

end Oasys
