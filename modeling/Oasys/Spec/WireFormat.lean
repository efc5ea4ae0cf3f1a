import Oasys.Serialize.Serialize
import Oasys.ForStd.BigEndian
import Oasys.ForStd.Cursor

/-!
# The wire format

What the bytes of a marshalled object are, independently of the code that writes and
reads them. `encode` writes an object. `read` fills in an object from the bytes in front
of a cursor, and leaves a field alone when its bytes have run out; it marks the cursor
when that happens to a carrier with a length prefix. `expect` checks that the bytes in
front of a reader are those of a given object, up to the byte of a `bool`, which may be
any non-zero value.
-/

namespace Oasys

/-! ### Values of fixed size -/

namespace FixedField

/-- The number of bytes the value takes. -/
def width : FixedField → Nat
  | .u64 _ => 8
  | .u32 _ => 4
  | .u16 _ => 2
  | .u8 _ => 1
  | .bool _ => 1
  | .buf bp => bp.bytes.length

/-- The bytes of the value. -/
def bytes : FixedField → List UInt8
  | .u64 i => BigEndian.bytes 8 i.toNat
  | .u32 i => BigEndian.bytes 4 i.toNat
  | .u16 i => BigEndian.bytes 2 i.toNat
  | .u8 i => [i]
  | .bool b => [if b then 1 else 0]
  | .buf bp => bp.bytes

/-- The value with the given bytes, of the type that the first argument has. -/
def ofBytes (x : FixedField) (bs : List UInt8) : FixedField :=
  match x with
  | .u64 _ => .u64 (.ofNat (BigEndian.value bs))
  | .u32 _ => .u32 (.ofNat (BigEndian.value bs))
  | .u16 _ => .u16 (.ofNat (BigEndian.value bs))
  | .u8 _ => .u8 (bs.headD 0)
  | .bool _ => .bool (bs.headD 0 != 0)
  | .buf bp => .buf ⟨bs.take bp.bytes.length,
      Nat.lt_of_le_of_lt (List.length_take_le ..) bp.fits⟩

/-- The values have the same type. -/
def SameType : FixedField → FixedField → Prop
  | .u64 _, .u64 _ => True
  | .u32 _, .u32 _ => True
  | .u16 _, .u16 _ => True
  | .u8 _, .u8 _ => True
  | .bool _, .bool _ => True
  | .buf bp, .buf bq => bp.bytes.length = bq.bytes.length
  | _, _ => False

@[simp] theorem length_bytes (x : FixedField) : x.bytes.length = x.width := by
  cases x <;> simp [bytes, width]

@[simp] theorem ofBytes_bytes (x : FixedField) : x.ofBytes x.bytes = x := by
  cases x with
  | u64 i => simp [ofBytes, bytes, BigEndian.value_bytes_of_lt (w := 8) i.toNat_lt]
  | u32 i => simp [ofBytes, bytes, BigEndian.value_bytes_of_lt (w := 4) i.toNat_lt]
  | u16 i => simp [ofBytes, bytes, BigEndian.value_bytes_of_lt (w := 2) i.toNat_lt]
  | u8 i => rfl
  | bool b => cases b <;> rfl
  | buf bp => simp [ofBytes, bytes]

theorem SameType.width_eq {x y : FixedField} (h : x.SameType y) : x.width = y.width := by
  cases x <;> cases y <;> first | rfl | exact h | exact h.elim

theorem SameType.ofBytes_eq {x y : FixedField} (h : x.SameType y) : x.ofBytes = y.ofBytes := by
  funext bs
  cases x <;> cases y <;>
    first
    | rfl
    | exact h.elim
    | (have hlen : _ = _ := h
       simp only [FixedField.ofBytes, hlen])

end FixedField

/-- The objects one after another, as the fields of one object. -/
def fieldsOf (os : List SerializableObject) : SerializableObject := os.map .object

/-! ### Equal fields -/

/-- The bytes up to the terminator, and including it. -/
def throughTerminator (terminator : UInt8) (buf : List UInt8) : List UInt8 :=
  match buf.findIdx? (· == terminator) with
  | some k => buf.take (k + 1)
  | none => buf

/-- The carriers report the same length, and have the same bytes. -/
def BufferCarrier.Same (c d : BufferCarrier) : Prop :=
  c.len_ = d.len_ ∧ readBytes c.buf_ c.len_ = readBytes d.buf_ d.len_

/-- The same for carriers whose bytes end with a terminator. -/
def BufferCarrier.SameThrough (terminator : UInt8) (c d : BufferCarrier) : Prop :=
  c.len_ = d.len_ ∧
    c.buf_.map (throughTerminator terminator) = d.buf_.map (throughTerminator terminator)

mutual

/-- The fields are equal. -/
def Field.Same : Field → Field → Prop
  | .fixed x, g => g = .fixed x
  | .carrier c, g => ∃ d, g = .carrier d ∧ c.Same d
  | .terminated c t, g => ∃ d, g = .terminated d t ∧ c.SameThrough t d
  | .string str, g => g = .string str
  | .object fields, g => ∃ fields', g = .object fields' ∧ AllSame fields fields'
  | .vector _ elems, g => ∃ builder' elems', g = .vector builder' elems' ∧ AllSame elems elems'

def AllSame : SerializableObject → SerializableObject → Prop
  | [], o' => o' = []
  | f :: o, o' => ∃ g o'', o' = g :: o'' ∧ Field.Same f g ∧ AllSame o o''

end

/-! ### Reading -/

namespace Wire

def readU32 (s : Cursor UInt8) : Cursor UInt8 × Option Nat :=
  ((s.take 4).1, (s.take 4).2.map BigEndian.value)

/-- A carrier with a length prefix. -/
def readCarrier (s : Cursor UInt8) (c : BufferCarrier) : Cursor UInt8 × BufferCarrier :=
  match readU32 s with
  | (s, none) => (s.mark, c)
  | (s, some n) =>
    if n = 0 then (s, .new)
    else
      match s.take n with
      | (s', some _) => (s', ⟨some s.left, n⟩)
      | (s', none) => (s'.mark, c)

/-- A carrier up to its terminator. The length it is given counts the terminator
    twice. -/
def readTerminated (s : Cursor UInt8) (c : BufferCarrier) (terminator : UInt8) :
    Cursor UInt8 × BufferCarrier :=
  match s.takeThrough (· == terminator) with
  | (s', some bs) => (s', ⟨some s.left, bs.length + 1⟩)
  | (s', none) => (s', c)

def readString (s : Cursor UInt8) (str : List UInt8) : Cursor UInt8 × List UInt8 :=
  match readU32 s with
  | (s, none) => (s, str)
  | (s, some n) => ((s.take n).1, (s.take n).2.getD str)

/-- The elements of a vector, given how one is read. -/
def readEach (read : Cursor UInt8 → Cursor UInt8 × Field) :
    Nat → Cursor UInt8 → Cursor UInt8 × List Field
  | 0, s => (s, [])
  | n + 1, s =>
    let (s, e) := read s
    let (s, es) := readEach read n s
    (s, e :: es)

mutual

/-- A field. -/
def readField (s : Cursor UInt8) : Field → Cursor UInt8 × Field
  | .fixed x => ((s.take x.width).1, .fixed ((s.take x.width).2.elim x x.ofBytes))
  | .carrier c => ((readCarrier s c).1, .carrier (readCarrier s c).2)
  | .terminated c t => ((readTerminated s c t).1, .terminated (readTerminated s c t).2 t)
  | .string str => ((readString s str).1, .string (readString s str).2)
  | .object fields => ((readAll s fields).1, .object (readAll s fields).2)
  | .vector builder elems =>
    match readU32 s with
    | (s, none) => (s, .vector builder elems)
    | (s, some n) =>
      let r := readEach (fun s => readField s builder) n s
      (r.1, .vector builder r.2)

/-- The fields of an object. -/
def readAll (s : Cursor UInt8) : SerializableObject → Cursor UInt8 × SerializableObject
  | [] => (s, [])
  | f :: o =>
    let r := readField s f
    let r' := readAll r.1 o
    (r'.1, r.2 :: r'.2)

end

@[simp] theorem readAll_nil (s : Cursor UInt8) : readAll s [] = (s, []) := rfl

@[simp] theorem readAll_cons (s : Cursor UInt8) (f : Field) (o : SerializableObject) :
    readAll s (f :: o) =
      ((readAll (readField s f).1 o).1, (readField s f).2 :: (readAll (readField s f).1 o).2) := rfl

@[simp] theorem readEach_zero (rd : Cursor UInt8 → Cursor UInt8 × Field) (s : Cursor UInt8) :
    readEach rd 0 s = (s, []) := rfl

@[simp] theorem readEach_succ (rd : Cursor UInt8 → Cursor UInt8 × Field) (n : Nat)
    (s : Cursor UInt8) : readEach rd (n + 1) s =
      ((readEach rd n (rd s).1).1, (rd s).2 :: (readEach rd n (rd s).1).2) := rfl

/-! ### Reading only goes forward -/

theorem readU32_advances (s : Cursor UInt8) : s.Advances (readU32 s).1 := s.take_advances 4

theorem readU32_eq_none {s s' : Cursor UInt8} (h : readU32 s = (s', none)) :
    s.take 4 = (s', none) := by
  unfold readU32 at h
  cases ht : s.take 4 with
  | mk r bs =>
    rw [ht] at h
    cases bs with
    | none => cases h; rfl
    | some bs => cases h

theorem readU32_eq_some {s s' : Cursor UInt8} {n : Nat} (h : readU32 s = (s', some n)) :
    s.take 4 = (s', some (s.left.take 4)) ∧ n = BigEndian.value (s.left.take 4) ∧
      n < 2 ^ 32 := by
  unfold readU32 at h
  cases ht : s.take 4 with
  | mk r bs =>
    rw [ht] at h
    cases bs with
    | none => cases h
    | some bs =>
      cases h
      obtain ⟨_, hlen, rfl, _⟩ := Cursor.take_eq_some ht
      have hlt := BigEndian.value_lt (s.left.take 4)
      rw [List.length_take_of_le hlen] at hlt
      exact ⟨rfl, rfl, hlt⟩

@[simp] theorem readU32_marked (s : Cursor UInt8) : (readU32 s).1.marked = s.marked :=
  s.take_marked 4

@[simp] theorem readTerminated_marked (s : Cursor UInt8) (c : BufferCarrier) (t : UInt8) :
    (readTerminated s c t).1.marked = s.marked := by
  have hm := s.takeThrough_marked (· == t)
  unfold readTerminated
  split
  · rename_i h
    rwa [h] at hm
  · rename_i h
    rwa [h] at hm

@[simp] theorem readString_marked (s : Cursor UInt8) (str : List UInt8) :
    (readString s str).1.marked = s.marked := by
  have hm := readU32_marked s
  unfold readString
  split
  · rename_i h
    rwa [h] at hm
  · rename_i s₁ n h
    rw [h] at hm
    exact (s₁.take_marked n).trans hm

theorem readCarrier_advances (s : Cursor UInt8) (c : BufferCarrier) :
    s.Advances (readCarrier s c).1 := by
  unfold readCarrier
  have hadv := readU32_advances s
  split
  · rename_i s₁ h
    rw [h] at hadv
    exact hadv.trans (Cursor.mark_advances (Cursor.out_of_take_eq_none (readU32_eq_none h)))
  · rename_i s₁ n h
    rw [h] at hadv
    split
    · exact hadv
    · have hadv' := s₁.take_advances n
      split
      · rename_i s₂ _ h'
        rw [h'] at hadv'
        exact hadv.trans hadv'
      · rename_i s₂ h'
        rw [h'] at hadv'
        exact (hadv.trans hadv').trans
          (Cursor.mark_advances (Cursor.out_of_take_eq_none h'))

theorem readTerminated_advances (s : Cursor UInt8) (c : BufferCarrier) (t : UInt8) :
    s.Advances (readTerminated s c t).1 := by
  have hadv := s.takeThrough_advances (· == t)
  unfold readTerminated
  split
  · rename_i h
    rwa [h] at hadv
  · rename_i h
    rwa [h] at hadv

theorem readString_advances (s : Cursor UInt8) (str : List UInt8) :
    s.Advances (readString s str).1 := by
  have hadv := readU32_advances s
  unfold readString
  split
  · rename_i h
    rwa [h] at hadv
  · rename_i s₁ n h
    rw [h] at hadv
    exact hadv.trans (s₁.take_advances n)

theorem readEach_advances {rd : Cursor UInt8 → Cursor UInt8 × Field}
    (hrd : ∀ s : Cursor UInt8, s.Advances (rd s).1) (n : Nat) (s : Cursor UInt8) :
    s.Advances (readEach rd n s).1 := by
  induction n generalizing s with
  | zero => exact .refl s
  | succ n ih => exact (hrd s).trans (ih _)

theorem readAll_advances_of {o : SerializableObject}
    (hrd : ∀ f ∈ o, ∀ s : Cursor UInt8, s.Advances (readField s f).1) (s : Cursor UInt8) :
    s.Advances (readAll s o).1 := by
  induction o generalizing s with
  | nil => exact .refl s
  | cons f o ih =>
    exact (hrd f (by simp) s).trans (ih (fun g hg => hrd g (by simp [hg])) _)

theorem readField_advances (f : Field) : ∀ s : Cursor UInt8, s.Advances (readField s f).1 := by
  induction f using Field.ind with
  | fixed x => exact fun s => Cursor.take_advances s x.width
  | carrier c => exact fun s => readCarrier_advances s c
  | terminated c t => exact fun s => readTerminated_advances s c t
  | string str => exact fun s => readString_advances s str
  | object fields ih => exact fun s => readAll_advances_of ih s
  | vector builder elems ihb _ =>
    intro s
    have hadv := readU32_advances s
    simp only [readField]
    split
    · rename_i h
      rwa [h] at hadv
    · rename_i s₁ n h
      rw [h] at hadv
      exact hadv.trans (readEach_advances ihb n s₁)

theorem readAll_advances (o : SerializableObject) (s : Cursor UInt8) :
    s.Advances (readAll s o).1 :=
  readAll_advances_of (fun f _ => readField_advances f) s

/-! ### Reading from a longer input -/

section Extend

variable {s : Cursor UInt8} {more : List UInt8}

theorem readU32_extend (h : more.length ≤ (readU32 (s.extend more)).1.left.length) :
    readU32 (s.extend more) = ((readU32 s).1.extend more, (readU32 s).2) := by
  unfold readU32 at h ⊢
  rw [Cursor.take_extend h]

theorem readString_extend {str : List UInt8}
    (h : more.length ≤ (readString (s.extend more) str).1.left.length) :
    readString (s.extend more) str =
      ((readString s str).1.extend more, (readString s str).2) := by
  have hroom : more.length ≤ (readU32 (s.extend more)).1.left.length := by
    refine Nat.le_trans h ?_
    unfold readString
    split
    · rename_i hread
      rw [hread]
    · rename_i s₁ n hread
      rw [hread]
      exact (s₁.take_advances n).length_le
  unfold readString at h ⊢
  rw [readU32_extend hroom] at h ⊢
  cases hread : readU32 s with
  | mk s₁ n =>
    rw [hread] at h
    cases n with
    | none => rfl
    | some n =>
      simp only at h ⊢
      rw [Cursor.take_extend h]

theorem readCarrier_extend {c : BufferCarrier}
    (h : more.length ≤ (readCarrier (s.extend more) c).1.left.length) :
    more.length ≤ (readU32 (s.extend more)).1.left.length ∧
    (readCarrier (s.extend more) c).1 = (readCarrier s c).1.extend more := by
  have hroom : more.length ≤ (readU32 (s.extend more)).1.left.length := by
    refine Nat.le_trans h ?_
    unfold readCarrier
    split
    · rename_i hread
      rw [hread]
      exact Nat.le_refl _
    · rename_i s₁ n hread
      rw [hread]
      split
      · exact Nat.le_refl _
      · have hle := (s₁.take_advances n).length_le
        split
        · rename_i hbody
          rwa [hbody] at hle
        · rename_i hbody
          rwa [hbody] at hle
  refine ⟨hroom, ?_⟩
  unfold readCarrier at h ⊢
  rw [readU32_extend hroom] at h ⊢
  cases hread : readU32 s with
  | mk s₁ n =>
    rw [hread] at h
    cases n with
    | none => rfl
    | some n =>
      by_cases h0 : n = 0
      · simp [h0]
      · simp only [h0, if_false] at h ⊢
        have hbody : more.length ≤ ((s₁.extend more).take n).1.left.length := by
          refine Nat.le_trans h ?_
          split
          · rename_i hbody
            rw [hbody]
          · rename_i hbody
            rw [hbody]
            exact Nat.le_refl _
        rw [Cursor.take_extend hbody]
        cases s₁.take n with
        | mk s₂ bs => cases bs <;> rfl

theorem readTerminated_extend {c : BufferCarrier} {t : UInt8}
    (h : more.length ≤ (readTerminated (s.extend more) c t).1.left.length) :
    (readTerminated (s.extend more) c t).1 = (readTerminated s c t).1.extend more ∧
      (readTerminated s c t).2.SameThrough t (readTerminated (s.extend more) c t).2 := by
  have hroom : more.length ≤ ((s.extend more).takeThrough (· == t)).1.left.length := by
    refine Nat.le_trans h ?_
    unfold readTerminated
    split
    · rename_i hscan
      rw [hscan]
    · rename_i hscan
      rw [hscan]
  unfold readTerminated
  rw [Cursor.takeThrough_extend hroom]
  cases hscan : s.takeThrough (· == t) with
  | mk s' bs =>
    cases bs with
    | none => exact ⟨rfl, rfl, rfl⟩
    | some bs =>
      refine ⟨rfl, rfl, ?_⟩
      -- the terminator is found in the shorter input already
      obtain ⟨k, hk, _⟩ := Cursor.takeThrough_eq_some hscan
      obtain ⟨hlt, _⟩ := List.findIdx?_eq_some_iff_findIdx_eq.mp hk
      have hle : k + 1 ≤ s.left.length := hlt
      simp [throughTerminator, List.findIdx?_append, hk, List.take_append_of_le_length hle]

theorem readEach_extend {rd : Cursor UInt8 → Cursor UInt8 × Field}
    (hadv : ∀ s : Cursor UInt8, s.Advances (rd s).1)
    (hrd : ∀ s : Cursor UInt8, more.length ≤ (rd (s.extend more)).1.left.length →
      (rd (s.extend more)).1 = (rd s).1.extend more) {n : Nat}
    (h : more.length ≤ (readEach rd n (s.extend more)).1.left.length) :
    (readEach rd n (s.extend more)).1 = (readEach rd n s).1.extend more := by
  induction n generalizing s with
  | zero => rfl
  | succ n ih =>
    have hhead := hrd s (Nat.le_trans h (readEach_advances hadv n _).length_le)
    rw [readEach_succ] at h ⊢
    simp only [hhead, readEach_succ] at h ⊢
    exact ih h

theorem readAll_extend_of {o : SerializableObject}
    (hrd : ∀ f ∈ o, ∀ s : Cursor UInt8, more.length ≤ (readField (s.extend more) f).1.left.length →
      (readField (s.extend more) f).1 = (readField s f).1.extend more)
    (h : more.length ≤ (readAll (s.extend more) o).1.left.length) :
    (readAll (s.extend more) o).1 = (readAll s o).1.extend more := by
  induction o generalizing s with
  | nil => rfl
  | cons f o ih =>
    have hhead := hrd f (by simp) s (Nat.le_trans h (readAll_advances o _).length_le)
    rw [readAll_cons] at h ⊢
    simp only [hhead, readAll_cons] at h ⊢
    exact ih (fun g hg => hrd g (by simp [hg])) h

/-- Reading a field that leaves the added input alone does not notice it. -/
theorem readField_extend (f : Field) : ∀ s : Cursor UInt8,
    more.length ≤ (readField (s.extend more) f).1.left.length →
      (readField (s.extend more) f).1 = (readField s f).1.extend more := by
  induction f using Field.ind with
  | fixed x =>
    intro s h
    show ((s.extend more).take x.width).1 = _
    rw [Cursor.take_extend h]
    rfl
  | carrier c => exact fun s h => (readCarrier_extend h).2
  | terminated c t => exact fun s h => (readTerminated_extend h).1
  | string str =>
    intro s h
    show (readString (s.extend more) str).1 = _
    rw [readString_extend h]
    rfl
  | object fields ih => exact fun s h => readAll_extend_of ih h
  | vector builder elems ihb _ =>
    intro s h
    have hroom : more.length ≤ (readU32 (s.extend more)).1.left.length := by
      refine Nat.le_trans h ?_
      simp only [readField]
      split
      · rename_i hread
        rw [hread]
      · rename_i s₁ n hread
        rw [hread]
        exact (readEach_advances (readField_advances builder) n s₁).length_le
    simp only [readField, readU32_extend hroom] at h ⊢
    cases hread : readU32 s with
    | mk s₁ n =>
      rw [hread] at h
      cases n with
      | none => rfl
      | some n => exact readEach_extend (readField_advances builder) ihb h

end Extend

end Wire

end Oasys
