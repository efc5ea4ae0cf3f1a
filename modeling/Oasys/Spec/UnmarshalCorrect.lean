import Oasys.Serialize.MarshalSerialize
import Oasys.Spec.WireFormat

/-!
# Unmarshal reads the wire format

Every `process` of `Unmarshal` does to its buffer what the reader of the wire format
does to a cursor. They differ in one place. When the bytes of a carrier with a length
prefix have run out, `process` does not leave the carrier alone: it gives it a null
pointer, and as a length either the prefix or, when there was no prefix to read, the
value of an uninitialised local; and if the action has a log, it then reads through the
null pointer. The reader marks the cursor there, and `Outcome` says what a run can be.
-/

namespace Oasys

/-! ### Objects -/

mutual

/-- Some carrier of the field is half-filled. -/
def Field.HalfFilled : Field → Prop
  | .fixed _ => False
  | .carrier c => c.HalfFilled
  | .terminated c _ => c.HalfFilled
  | .string _ => False
  | .object fields => AnyHalfFilled fields
  | .vector _ elems => AnyHalfFilled elems

def AnyHalfFilled : SerializableObject → Prop
  | [] => False
  | f :: o => f.HalfFilled ∨ AnyHalfFilled o

end

mutual

/-- The field is as its constructor for unserialization leaves it: vectors are empty,
    and no carrier is half-filled. -/
def Field.Fresh : Field → Prop
  | .fixed _ => True
  | .carrier c => ¬ c.HalfFilled
  | .terminated c _ => ¬ c.HalfFilled
  | .string _ => True
  | .object fields => AllFresh fields
  | .vector builder elems => builder.Fresh ∧ elems = []

def AllFresh : SerializableObject → Prop
  | [] => True
  | f :: o => f.Fresh ∧ AllFresh o

end

theorem AllFresh.mem {o : SerializableObject} (h : AllFresh o) : ∀ f ∈ o, f.Fresh := by
  induction o with
  | nil => simp
  | cons g o ih =>
    intro f hf
    cases List.mem_cons.mp hf with
    | inl hfg => exact hfg ▸ h.1
    | inr hfo => exact ih h.2 f hfo

namespace Unmarshal

open Wire (readU32 readCarrier readTerminated readString readEach readField readAll
  readU32_eq_none readU32_eq_some readEach_advances readField_advances readAll_advances)

/-! ### Loads -/

/-- From `n` bytes in front of the pointer, `load` makes what `ofBytes` does. -/
def Loads {α : Type} (n : Nat) (load : List UInt8 → Except Fault α) (ofBytes : List UInt8 → α) :
    Prop :=
  ∀ bs rest, bs.length = n → load (bs ++ rest) = .ok (ofBytes bs)

theorem loads_u64 : Loads 8 loadU64 fun bs => .ofNat (BigEndian.value bs) := by
  intro bs rest hlen
  match bs, hlen with
  | [b0, b1, b2, b3, b4, b5, b6, b7], _ =>
    show loadU64 _ = .ok (.ofNat (BigEndian.value [b0, b1, b2, b3, b4, b5, b6, b7]))
    rw [← BigEndian.toNat_ofBytes64, UInt64.ofNat_toNat]
    rfl

theorem loads_u32 : Loads 4 loadU32 fun bs => .ofNat (BigEndian.value bs) := by
  intro bs rest hlen
  match bs, hlen with
  | [b0, b1, b2, b3], _ =>
    show loadU32 _ = .ok (.ofNat (BigEndian.value [b0, b1, b2, b3]))
    rw [← BigEndian.toNat_ofBytes32, UInt32.ofNat_toNat]
    rfl

theorem loads_u16 : Loads 2 loadU16 fun bs => .ofNat (BigEndian.value bs) := by
  intro bs rest hlen
  match bs, hlen with
  | [b0, b1], _ =>
    show loadU16 _ = .ok (.ofNat (BigEndian.value [b0, b1]))
    rw [← BigEndian.toNat_ofBytes16, UInt16.ofNat_toNat]
    rfl

theorem loads_u8 : Loads 1 loadU8 fun bs => bs.headD 0 := by
  intro bs rest hlen
  match bs, hlen with
  | [b0], _ => rfl

theorem loads_bool : Loads 1 loadBool fun bs => bs.headD 0 != 0 := by
  intro bs rest hlen
  match bs, hlen with
  | [b0], _ => rfl

theorem loads_buf (bp : FixedBuffer) : Loads bp.bytes.length (loadBuf bp) fun bs =>
    ⟨bs.take bp.bytes.length, Nat.lt_of_le_of_lt (List.length_take_le ..) bp.fits⟩ := by
  intro bs rest hlen
  simp [loadBuf, ← hlen]

/-! ### Where an action stands -/

/-- What stays the same in a run. -/
structure Setting where
  buf : List UInt8
  useCrc : Bool
  log : Bool
  /-- No uninitialised local happens to hold 0. -/
  dirty : Bool

variable {c : Setting} {l : Nat → UInt32} {u : Unmarshal} {s s' s'' : Cursor UInt8}

/-- The action is at the cursor, and the uninitialised locals still to come are `l`. -/
structure At (c : Setting) (l : Nat → UInt32) (u : Unmarshal) (s : Cursor UInt8) : Prop where
  useCrc_eq : u.useCrc = c.useCrc
  log_eq : u.log_ = c.log
  expandable_eq : u.expandable_buf_ = none
  buf_eq : u.buf_ = c.buf
  offset_le : u.offset_ ≤ c.buf.length
  left_eq : c.buf.drop u.offset_ = s.left
  error_eq : u.error_ = s.out
  locals_eq : u.uninitialised = l
  dirty_ne : c.dirty = true → ∀ n, l n ≠ 0

namespace At

theorem mark (h : At c l u s) : At c l u s.mark :=
  { h with left_eq := h.left_eq, error_eq := h.error_eq }

theorem pointee_eq (h : At c l u s) (p : Nat) : u.pointee p = c.buf.drop p := by
  simp [BufferedSerializeAction.pointee, BufferedSerializeAction.memory, h.expandable_eq, h.buf_eq]

theorem length_left (h : At c l u s) : s.left.length = c.buf.length - u.offset_ := by
  rw [← h.left_eq, List.length_drop]

theorem newLocal (h : At c l u s) : At c (fun n => l (n + 1)) u.newLocal.2 s :=
  { h with
    locals_eq := by rw [← h.locals_eq]; rfl
    dirty_ne := fun hd n => h.dirty_ne hd (n + 1) }

theorem signalError (h : At c l u s) : At c l u.signalError { s with out := true } :=
  { h with left_eq := h.left_eq, error_eq := rfl }

theorem nextSlice (h : At c l u s) (n : Nat) :
    ∃ u', u.nextSlice n = .ok (u', (s.take n).2.map fun _ => u.offset_) ∧
      At c l u' (s.take n).1 := by
  have hlen := h.length_left
  have hle := h.offset_le
  by_cases hout : s.out = true
  · -- a previous error
    have herr : u.error_ = true := h.error_eq.trans hout
    rw [Cursor.take_of_out hout]
    exact ⟨u, by simp [Unmarshal.nextSlice, BufferedSerializeAction.nextSlice, herr], h⟩
  have hout' : s.out = false := Bool.eq_false_iff.mpr hout
  have herr : u.error_ = false := h.error_eq.trans hout'
  by_cases hn : n ≤ s.left.length
  · have hroom : ¬ u.buf_.length < u.offset_ + n := by rw [h.buf_eq]; omega
    rw [Cursor.take_of_le hout' hn]
    refine ⟨{ u with offset_ := u.offset_ + n }, ?_, ?_⟩
    · simp [Unmarshal.nextSlice, BufferedSerializeAction.nextSlice, herr, h.expandable_eq, hroom]
    · exact { h with
        offset_le := by show u.offset_ + n ≤ _; omega
        left_eq := by show c.buf.drop (u.offset_ + n) = _; rw [← List.drop_drop, h.left_eq] }
  · have hroom : u.buf_.length < u.offset_ + n := by rw [h.buf_eq]; omega
    rw [Cursor.take_of_lt hout' (by omega)]
    refine ⟨u.signalError, ?_, h.signalError⟩
    simp [Unmarshal.nextSlice, BufferedSerializeAction.nextSlice, herr, h.expandable_eq, hroom,
      BufferedSerializeAction.signalError, Unmarshal.signalError]

theorem get {α : Type} (h : At c l u s) {n : Nat} {load : List UInt8 → Except Fault α}
    {ofBytes : List UInt8 → α} (hload : Loads n load ofBytes) (x : α) :
    ∃ u', u.get n x load = .ok (u', (s.take n).2.elim x ofBytes) ∧ At c l u' (s.take n).1 := by
  obtain ⟨u', hslice, hat⟩ := h.nextSlice n
  refine ⟨u', ?_, hat⟩
  cases htake : s.take n with
  | mk s' bs =>
    rw [htake] at hslice hat
    cases bs with
    | none => simp [Unmarshal.get, hslice]
    | some bs =>
      obtain ⟨_, hn, rfl, _⟩ := Cursor.take_eq_some htake
      have hptr : load (u'.pointee u.offset_) = .ok (ofBytes (s.left.take n)) := by
        rw [hat.pointee_eq, h.left_eq]
        have := hload (s.left.take n) (s.left.drop n) (List.length_take_of_le hn)
        rwa [List.take_append_drop] at this
      simp [Unmarshal.get, hslice, hptr]

theorem processU32 (h : At c l u s) (i : UInt32) :
    ∃ u', u.processU32 i = .ok (u', (readU32 s).2.elim i .ofNat) ∧ At c l u' (readU32 s).1 := by
  obtain ⟨u', hget, hat⟩ := h.get loads_u32 i
  refine ⟨u', ?_, hat⟩
  rw [Unmarshal.processU32, hget, readU32]
  cases (s.take 4).2 <;> rfl

/-- The calls of `process` for values that take a fixed number of bytes. -/
theorem processFixed (h : At c l u s) (x : FixedField) :
    ∃ u', u.processFixed x = .ok (u', (s.take x.width).2.elim x x.ofBytes) ∧
      At c l u' (s.take x.width).1 := by
  cases x with
  | u64 i =>
    obtain ⟨u', hget, hat⟩ := h.get loads_u64 i
    refine ⟨u', ?_, hat⟩
    simp only [Unmarshal.processFixed, Unmarshal.processU64, hget, FixedField.width]
    cases (s.take 8).2 <;> rfl
  | u32 i =>
    obtain ⟨u', hget, hat⟩ := h.get loads_u32 i
    refine ⟨u', ?_, hat⟩
    simp only [Unmarshal.processFixed, Unmarshal.processU32, hget, FixedField.width]
    cases (s.take 4).2 <;> rfl
  | u16 i =>
    obtain ⟨u', hget, hat⟩ := h.get loads_u16 i
    refine ⟨u', ?_, hat⟩
    simp only [Unmarshal.processFixed, Unmarshal.processU16, hget, FixedField.width]
    cases (s.take 2).2 <;> rfl
  | u8 i =>
    obtain ⟨u', hget, hat⟩ := h.get loads_u8 i
    refine ⟨u', ?_, hat⟩
    simp only [Unmarshal.processFixed, Unmarshal.processU8, hget, FixedField.width]
    cases (s.take 1).2 <;> rfl
  | bool b =>
    obtain ⟨u', hget, hat⟩ := h.get loads_bool b
    refine ⟨u', ?_, hat⟩
    simp only [Unmarshal.processFixed, Unmarshal.processBool, hget, FixedField.width]
    cases (s.take 1).2 <;> rfl
  | buf bp =>
    obtain ⟨u', hget, hat⟩ := h.get (loads_buf bp) bp
    refine ⟨u', ?_, hat⟩
    simp only [Unmarshal.processFixed, Unmarshal.processBuf, hget, FixedField.width]
    cases (s.take bp.bytes.length).2 <;> rfl

end At

/-! ### What a run can be -/

/-- The runs of a part of `Unmarshal` that starts at `s`, when the reader of the wire
    format gets to `s'` and makes `x`. Unless the cursor is marked, the run makes `x`
    too. If it is, there are two ways: something half-filled is left behind, which for
    a dirty run means that there is no log, or the log makes it read through null. -/
inductive Outcome (c : Setting) (s s' : Cursor UInt8) {α : Type} (x : α) (Half : α → Prop) :
    Except Fault (Unmarshal × α) → Prop where
  | done {l u'} (hat : At c l u' s') (hm : s'.marked = false) : Outcome c s s' x Half (.ok (u', x))
  | half {l u' x'} (hat : At c l u' s') (hm : s'.marked = true)
      (hhalf : s.marked = false → c.dirty = true → c.log = false ∧ Half x') :
      Outcome c s s' x Half (.ok (u', x'))
  | null (hm : s'.marked = true) (hlog : c.log = true) : Outcome c s s' x Half (.error .nullDeref)

namespace Outcome

variable {α β γ : Type} {x : α} {y : β} {P : α → Prop} {Q : β → Prop} {R : γ → Prop}

theorem of_at (hat : At c l u s') (hm : s'.marked = s.marked) :
    Outcome c s s' x P (.ok (u, x)) := by
  cases h : s.marked with
  | false => exact .done hat (hm.trans h)
  | true => exact .half hat (hm.trans h) (fun h' => by rw [h] at h'; cases h')

theorem of_start {s₀ : Cursor UInt8} {r : Except Fault (Unmarshal × α)} (hm : s.marked = s₀.marked)
    (hr : Outcome c s s' x P r) : Outcome c s₀ s' x P r := by
  cases hr with
  | done hat hm' => exact .done hat hm'
  | half hat hm' hhalf => exact .half hat hm' fun h => hhalf (hm.trans h)
  | null hm' hlog => exact .null hm' hlog

theorem map {r : Except Fault (Unmarshal × α)} (hr : Outcome c s s' x P r) {f : α → β}
    {k : Unmarshal × α → Except Fault (Unmarshal × β)}
    (hk : ∀ u y, r = .ok (u, y) → k (u, y) = .ok (u, f y)) (hP : ∀ y, P y → Q (f y)) :
    Outcome c s s' (f x) Q (r >>= k) := by
  cases hr with
  | @done l u' hat hm =>
    show Outcome c s s' (f x) Q (k (u', x))
    rw [hk u' x rfl]
    exact .done hat hm
  | @half l u' x' hat hm hhalf =>
    show Outcome c s s' (f x) Q (k (u', x'))
    rw [hk u' x' rfl]
    exact .half hat hm fun hs hd => ⟨(hhalf hs hd).1, hP _ (hhalf hs hd).2⟩
  | null hm hlog => exact .null hm hlog

theorem seq {r : Except Fault (Unmarshal × α)} (hr : Outcome c s s' x P r)
    {k : Unmarshal → Except Fault (Unmarshal × β)}
    (hk : ∀ l u, At c l u s' → Outcome c s' s'' y Q (k u)) (hadv : s'.Advances s'') {f : α → β → γ}
    (hP : ∀ x y, P x → R (f x y)) (hQ : ∀ x y, Q y → R (f x y)) :
    Outcome c s s'' (f x y) R (do
      let (u, x) ← r
      let (u, y) ← k u
      return (u, f x y)) := by
  cases hr with
  | @done l u' hat hm =>
    have h := hk l u' hat
    show Outcome c s s'' (f x y) R (k u' >>= fun q => pure (q.1, f x q.2))
    cases h' : k u' with
    | error e =>
      rw [h'] at h
      cases h with
      | null hm' hlog => exact .null hm' hlog
    | ok q =>
      rw [h'] at h
      cases h with
      | done hat' hm' => exact .done hat' hm'
      | half hat' hm' hhalf =>
        exact .half hat' hm' fun _ hd => ⟨(hhalf hm hd).1, hQ _ _ (hhalf hm hd).2⟩
  | @half l u' x' hat hm hhalf =>
    -- what the second run does no longer matters, since the mark stays
    have h := hk l u' hat
    have hm' := hadv.marked hm
    show Outcome c s s'' (f x y) R (k u' >>= fun q => pure (q.1, f x' q.2))
    cases h' : k u' with
    | error e =>
      rw [h'] at h
      cases h with
      | null _ hlog => exact .null hm' hlog
    | ok q =>
      rw [h'] at h
      cases h with
      | done hat' hm'' => rw [hm'] at hm''; cases hm''
      | half hat' _ _ =>
        exact .half hat' hm' fun hs hd => ⟨(hhalf hs hd).1, hP _ _ (hhalf hs hd).2⟩
  | null hm hlog => exact .null (hadv.marked hm) hlog

end Outcome

/-! ### The fields -/

theorem At.fillCarrier_some (h : At c l u s) (b : BufferCarrier) {len : UInt32} (hlen : len ≠ 0)
    {bs : List UInt8} (htake : s.take len.toNat = (s', some bs)) :
    ∃ u', u.fillCarrier b len = .ok (u', ⟨some s.left, len.toNat⟩) ∧ At c l u' s' := by
  obtain ⟨u', hslice, hat⟩ := h.nextSlice len.toNat
  obtain ⟨_, hle, _, _⟩ := Cursor.take_eq_some htake
  rw [htake] at hslice hat
  refine ⟨u', ?_, hat⟩
  have hptr : u'.pointee u.offset_ = s.left := by rw [hat.pointee_eq, h.left_eq]
  -- what is read for the message is part of the slice
  have hmsg : (if len < 16 then len.toNat else 16) ≤ s.left.length := by
    by_cases h16 : len < 16
    · rw [if_pos h16]; exact hle
    · have h16' : 16 ≤ len.toNat := Nat.le_of_not_lt h16
      rw [if_neg h16]; omega
  by_cases hlog : u'.log_ = true
  · simp [fillCarrier, hlen, hslice, hptr, hlog, BufferCarrier.setBuf, readBytes, hmsg]
  · simp [fillCarrier, hlen, hslice, hptr, hlog, BufferCarrier.setBuf]

theorem At.fillCarrier_none (h : At c l u s) (b : BufferCarrier) {len : UInt32} (hlen : len ≠ 0)
    (htake : s.take len.toNat = (s', none)) :
    ∃ u', u.fillCarrier b len =
      (if c.log = true then .error .nullDeref else .ok (u', ⟨none, len.toNat⟩)) ∧ At c l u' s' := by
  obtain ⟨u', hslice, hat⟩ := h.nextSlice len.toNat
  rw [htake] at hslice hat
  refine ⟨u', ?_, hat⟩
  have hne : len.toNat ≠ 0 := fun h0 => hlen (UInt32.toNat_inj.mp h0)
  have hmsg : (if len < 16 then len.toNat else 16) ≠ 0 := by split <;> omega
  by_cases hlog : c.log = true
  · simp [fillCarrier, hlen, hslice, hat.log_eq, hlog, BufferCarrier.setBuf, readBytes, hne, hmsg]
  · simp [fillCarrier, hlen, hslice, hat.log_eq, hlog, BufferCarrier.setBuf]

theorem At.fillCarrier_out (h : At c l u s) (b : BufferCarrier) {len : UInt32}
    (htake : s.take len.toNat = (s', none)) (hdirty : c.dirty = true → len ≠ 0)
    {s₀ : Cursor UInt8} {x : BufferCarrier} :
    Outcome c s₀ s'.mark x BufferCarrier.HalfFilled (u.fillCarrier b len) := by
  by_cases hlen : len = 0
  · have hfill : u.fillCarrier b len = .ok (u, b.setBuf none 0) := by
      simp [fillCarrier, hlen]
    obtain ⟨hs', hwhy⟩ := Cursor.take_eq_none htake
    have hout : s.out = true := by
      cases hwhy with
      | inl hout => exact hout
      | inr hlt => rw [hlen] at hlt; exact absurd hlt (Nat.not_lt_zero _)
    have hat : At c l u s' := by
      rw [hs']
      exact { h with left_eq := h.left_eq, error_eq := h.error_eq.trans hout }
    rw [hfill]
    exact .half hat.mark rfl fun _ hd => absurd hlen (hdirty hd)
  · obtain ⟨u', hfill, hat⟩ := h.fillCarrier_none b hlen htake
    rw [hfill]
    by_cases hlog : c.log = true
    · rw [if_pos hlog]
      exact .null rfl hlog
    · rw [if_neg hlog]
      have hne : len.toNat ≠ 0 := fun h0 => hlen (UInt32.toNat_inj.mp h0)
      exact .half hat.mark rfl fun _ _ => ⟨Bool.eq_false_iff.mpr hlog, rfl, hne⟩

theorem At.processCarrier (h : At c l u s) (b : BufferCarrier) :
    Outcome c s (readCarrier s b).1 (readCarrier s b).2 BufferCarrier.HalfFilled
      (u.processCarrier b) := by
  obtain ⟨u₁, hlen, hat⟩ := h.newLocal.processU32 (u.uninitialised 0)
  have hrun : u.processCarrier b =
      u₁.fillCarrier b ((readU32 s).2.elim (u.uninitialised 0) .ofNat) := by
    simp [Unmarshal.processCarrier, Unmarshal.newLocal, hlen] at hlen ⊢
  rw [hrun]
  unfold readCarrier
  cases hread : readU32 s with
  | mk s₁ n =>
    rw [hread] at hat
    cases n with
    | none =>
      -- the prefix has run out, so `len` is whatever the local held
      have hout := Cursor.out_of_take_eq_none (readU32_eq_none hread)
      refine hat.fillCarrier_out b (Cursor.take_of_out hout _) fun hd => ?_
      rw [h.locals_eq]
      exact h.dirty_ne hd 0
    | some n =>
      obtain ⟨htake, _, hlt⟩ := readU32_eq_some hread
      obtain ⟨_, _, _, hs₁⟩ := Cursor.take_eq_some htake
      have hn : (UInt32.ofNat n).toNat = n := UInt32.toNat_ofNat_of_lt' hlt
      show Outcome c s _ _ _ (u₁.fillCarrier b (.ofNat n))
      dsimp only
      by_cases h0 : n = 0
      · have hfill : u₁.fillCarrier b (.ofNat n) = .ok (u₁, .new) := by
          simp [fillCarrier, h0, BufferCarrier.setBuf, BufferCarrier.new]
        rw [if_pos h0, hfill]
        exact .of_at hat (by rw [hs₁])
      · have hne : UInt32.ofNat n ≠ 0 := fun h' => h0 (by rw [← hn, h']; rfl)
        rw [if_neg h0]
        cases hbody : s₁.take n with
        | mk s₂ bs =>
          cases bs with
          | some bs =>
            obtain ⟨_, _, _, hs₂⟩ := Cursor.take_eq_some hbody
            obtain ⟨u', hfill, hat'⟩ := hat.fillCarrier_some b hne (by rwa [hn])
            rw [hfill, hn]
            exact .of_at hat' (by rw [hs₂, hs₁])
          | none => exact hat.fillCarrier_out b (by rwa [hn]) fun _ => hne

/-- The loop that looks for the terminator, while no error has happened. -/
theorem At.findTerminator (h : At c l u s) (hout : s.out = false) (t : UInt8) {fuel : Nat}
    (hfuel : s.left.length < fuel) (cbuf : Option Nat) (len : Nat) :
    ∃ u', findTerminator t fuel u cbuf len =
      .ok (u', (s.takeThrough (· == t)).2.map fun bs =>
        (if cbuf = none then some u.offset_ else cbuf, len + bs.length)) ∧
      At c l u' (s.takeThrough (· == t)).1 := by
  -- each round takes one byte, so there is fuel for all that are left
  induction fuel generalizing u s cbuf len with
  | zero => omega
  | succ fuel ih =>
    obtain ⟨u₁, hslice, hat⟩ := h.nextSlice 1
    cases hleft : s.left with
    | nil =>
      have htake : s.take 1 = ({ s with out := true }, none) :=
        Cursor.take_of_lt hout (by simp [hleft])
      rw [htake] at hslice hat
      rw [Cursor.takeThrough_nil hout hleft]
      refine ⟨u₁.signalError, ?_, hat.signalError⟩
      simp [Unmarshal.findTerminator, hslice]
    | cons b rest =>
      have htake : s.take 1 = ({ s with left := rest }, some [b]) := by
        rw [Cursor.take_of_le hout (by simp [hleft])]
        simp [hleft]
      rw [htake] at hslice hat
      have hptr : u₁.pointee u.offset_ = b :: rest := by rw [hat.pointee_eq, h.left_eq, hleft]
      by_cases hb : b = t
      · rw [Cursor.takeThrough_cons_of_pos (p := (· == t)) hout hleft (beq_iff_eq.mpr hb)]
        refine ⟨u₁, ?_, hat⟩
        simp [Unmarshal.findTerminator, hslice, hptr, hb]
      · rw [Cursor.takeThrough_cons_of_neg (p := (· == t)) hout hleft (beq_eq_false_iff_ne.mpr hb)]
        obtain ⟨u', hloop, hat'⟩ := ih hat hout
          (by rw [hleft] at hfuel; exact Nat.lt_of_succ_lt_succ hfuel)
          (if cbuf = none then some u.offset_ else cbuf) (len + 1)
        refine ⟨u', ?_, hat'⟩
        have hround : Unmarshal.findTerminator t (fuel + 1) u cbuf len =
            Unmarshal.findTerminator t fuel u₁ (if cbuf = none then some u.offset_ else cbuf)
              (len + 1) := by
          simp [Unmarshal.findTerminator, hslice, hptr, hb]
        have hcbuf : (if cbuf = none then some u.offset_ else cbuf) ≠ none := by
          split
          · exact Option.some_ne_none _
          · assumption
        rw [hround, hloop, if_neg hcbuf]
        cases (Cursor.takeThrough { s with left := rest } (· == t)).2 with
        | none => rfl
        | some bs => simp [Nat.add_assoc, Nat.add_comm 1]

theorem At.processTerminated (h : At c l u s) (b : BufferCarrier) (t : UInt8) :
    ∃ u', u.processTerminated b t = .ok (u', (readTerminated s b t).2) ∧
      At c l u' (readTerminated s b t).1 := by
  by_cases hout : s.out = true
  · obtain ⟨u₁, hslice, hat⟩ := h.nextSlice 1
    rw [Cursor.take_of_out hout] at hslice hat
    refine ⟨u₁.signalError, ?_, ?_⟩
    · simp [Unmarshal.processTerminated, Unmarshal.findTerminator, hslice, readTerminated,
        Cursor.takeThrough_of_out hout]
    · rw [readTerminated, Cursor.takeThrough_of_out hout]
      exact { hat with left_eq := hat.left_eq, error_eq := hout.symm }
  · have hout' : s.out = false := Bool.eq_false_iff.mpr hout
    have hfuel : s.left.length < u.length + 1 := by
      rw [h.length_left, BufferedSerializeAction.length, h.expandable_eq, h.buf_eq]
      dsimp only
      omega
    obtain ⟨u', hloop, hat⟩ := h.findTerminator hout' t hfuel none 0
    rw [readTerminated]
    cases hscan : s.takeThrough (· == t) with
    | mk s' bs =>
      rw [hscan] at hloop hat
      refine ⟨u', ?_, by cases bs <;> exact hat⟩
      cases bs with
      | none => simp [Unmarshal.processTerminated, hloop]
      | some bs =>
        simp [Unmarshal.processTerminated, hloop, hat.pointee_eq, h.left_eq, BufferCarrier.setBuf]

theorem At.processString (h : At c l u s) (str : List UInt8) :
    ∃ u', u.processString str = .ok (u', (readString s str).2) ∧
      At c (fun n => l (n + 1)) u' (readString s str).1 := by
  obtain ⟨u₁, hlen, hat⟩ := h.newLocal.processU32 (u.uninitialised 0)
  have hrun : u.processString str =
      u₁.get ((readU32 s).2.elim (u.uninitialised 0) .ofNat).toNat str
        fun buf => readBytes (some buf) ((readU32 s).2.elim (u.uninitialised 0) .ofNat).toNat := by
    simp [Unmarshal.processString, Unmarshal.newLocal, hlen] at hlen ⊢
  have hload : ∀ n, Loads n (fun buf => readBytes (some buf) n) id := by
    intro n bs rest hbs
    simp [readBytes, ← hbs]
  rw [hrun]
  unfold readString
  cases hread : readU32 s with
  | mk s₁ n =>
    rw [hread] at hat
    cases n with
    | none =>
      have hout := Cursor.out_of_take_eq_none (readU32_eq_none hread)
      obtain ⟨u', hget, hat'⟩ := hat.get (hload (u.uninitialised 0).toNat) str
      rw [Cursor.take_of_out hout] at hget hat'
      exact ⟨u', hget, hat'⟩
    | some n =>
      have hn : (UInt32.ofNat n).toNat = n := UInt32.toNat_ofNat_of_lt' (readU32_eq_some hread).2.2
      obtain ⟨u', hget, hat'⟩ := hat.get (hload (UInt32.ofNat n).toNat) str
      refine ⟨u', hget.trans ?_, ?_⟩
      · rw [hn]
        show Except.ok (u', (s₁.take n).2.elim str id) = .ok (u', (s₁.take n).2.getD str)
        cases (s₁.take n).2 <;> rfl
      · rw [hn] at hat'
        exact hat'

/-! ### Objects and vectors -/

theorem At.processEach {proc : Unmarshal → Except Fault (Unmarshal × Field)}
    {rd : Cursor UInt8 → Cursor UInt8 × Field} (hadv : ∀ s : Cursor UInt8, s.Advances (rd s).1)
    (hproc : ∀ l u s, At c l u s → Outcome c s (rd s).1 (rd s).2 Field.HalfFilled (proc u))
    (h : At c l u s) (n : Nat) :
    Outcome c s (readEach rd n s).1 (readEach rd n s).2 AnyHalfFilled
      (processEach proc n u) := by
  induction n generalizing l u s with
  | zero => exact .of_at h rfl
  | succ n ih =>
    exact (hproc l u s h).seq (fun _ _ hat => ih hat) (readEach_advances hadv n _)
      (fun _ _ => .inl) (fun _ _ => .inr)

theorem length_of_processEach {α : Type} {proc : α → Except Fault (α × Field)} {n : Nat} {a a' : α}
    {es : List Field} (h : Oasys.processEach proc n a = .ok (a', es)) : es.length = n := by
  induction n generalizing a es with
  | zero => cases h; rfl
  | succ n ih =>
    obtain ⟨⟨a₁, e⟩, _, h⟩ := bind_eq_ok.mp h
    obtain ⟨⟨a₂, es'⟩, hes, h⟩ := bind_eq_ok.mp h
    cases h
    rw [List.length_cons, ih hes]

theorem process_vector (u : Unmarshal) (builder : Field) :
    u.process (.vector builder []) =
      (u.processU32 0 >>= fun q => Oasys.processEach (fun u => u.process builder) q.2.toNat q.1) >>=
        fun r => pure (r.1, .vector builder r.2) := by
  show u.processU32 0 >>= (fun q =>
    Oasys.processEach (fun u => u.process builder) q.2.toNat q.1 >>= fun r =>
      assert (([] ++ r.2).length = q.2.toNat) >>= fun _ =>
        pure (r.1, Field.vector builder ([] ++ r.2))) = _
  cases u.processU32 0 with
  | error e => rfl
  | ok q =>
    show Oasys.processEach _ _ _ >>= _ = Oasys.processEach _ _ _ >>= _
    cases hloop : Oasys.processEach (fun u => u.process builder) q.2.toNat q.1 with
    | error e => rfl
    | ok r => simp [length_of_processEach hloop]

theorem At.processAll_of {o : SerializableObject}
    (hproc : ∀ f ∈ o, ∀ l u s, At c l u s →
      Outcome c s (readField s f).1 (readField s f).2 Field.HalfFilled (u.process f))
    (h : At c l u s) :
    Outcome c s (readAll s o).1 (readAll s o).2 AnyHalfFilled (u.processAll o) := by
  induction o generalizing l u s with
  | nil => exact .of_at h rfl
  | cons f o ih =>
    exact (hproc f (by simp) l u s h).seq
      (fun _ _ hat => ih (fun g hg => hproc g (by simp [hg])) hat)
      (readAll_advances o _) (fun _ _ => .inl) (fun _ _ => .inr)

theorem process_outcome (f : Field) (hf : f.Fresh) :
    ∀ l u s, At c l u s →
      Outcome c s (readField s f).1 (readField s f).2 Field.HalfFilled (u.process f) := by
  induction f using Field.ind with
  | fixed x =>
    intro l u s h
    obtain ⟨u', hx, hat⟩ := h.processFixed x
    show Outcome _ _ _ _ _ (u.processFixed x >>= fun q => pure (q.1, Field.fixed q.2))
    rw [hx]
    exact .of_at hat (s.take_marked x.width)
  | carrier b =>
    intro l u s h
    exact (h.processCarrier b).map (fun _ _ _ => rfl) (fun _ => id)
  | terminated b t =>
    intro l u s h
    obtain ⟨u', hb, hat⟩ := h.processTerminated b t
    show Outcome _ _ _ _ _ (u.processTerminated b t >>= fun q => pure (q.1, Field.terminated q.2 t))
    rw [hb]
    exact .of_at hat (Wire.readTerminated_marked s b t)
  | string str =>
    intro l u s h
    obtain ⟨u', hstr, hat⟩ := h.processString str
    show Outcome _ _ _ _ _ (u.processString str >>= fun q => pure (q.1, Field.string q.2))
    rw [hstr]
    exact .of_at hat (Wire.readString_marked s str)
  | object fields ih =>
    intro l u s h
    exact (h.processAll_of fun f hfm => ih f hfm (hf.mem f hfm)).map (fun _ _ _ => rfl)
      (fun _ => id)
  | vector builder elems ihb _ =>
    intro l u s h
    obtain ⟨hb, rfl⟩ := hf
    obtain ⟨u₁, hlen, hat⟩ := h.processU32 0
    rw [process_vector, hlen]
    cases hread : readU32 s with
    | mk s₁ n =>
      have hm := Wire.readU32_marked s
      rw [hread] at hat hm
      simp only [Wire.readField, hread]
      cases n with
      | none =>
        -- without a size, `sz` is still that of the empty vector
        exact .of_at hat hm
      | some n =>
        have hn : (UInt32.ofNat n).toNat = n :=
          UInt32.toNat_ofNat_of_lt' (readU32_eq_some hread).2.2
        have hloop := hat.processEach (readField_advances builder) (ihb hb) n
        show Outcome _ _ _ _ _ (Oasys.processEach (fun u => u.process builder)
          (UInt32.ofNat n).toNat u₁ >>= fun r => pure (r.1, Field.vector builder r.2))
        rw [hn]
        exact .of_start hm (hloop.map (fun _ _ _ => rfl) (fun _ => id))

theorem processAll_outcome (o : SerializableObject) (ho : AllFresh o) (h : At c l u s) :
    Outcome c s (readAll s o).1 (readAll s o).2 AnyHalfFilled (u.processAll o) :=
  h.processAll_of fun f hf => process_outcome f (ho.mem f hf)

end Unmarshal

end Oasys
