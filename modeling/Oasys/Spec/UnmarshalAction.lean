import Oasys.Spec.CRC32Correct
import Oasys.Spec.UnmarshalCorrect

/-!
# An action of Unmarshal

What `action` of an `Unmarshal` does to a newly built object: the check of the CRC, and
then a run over the fields. With a log, a wrong CRC signals an error before the first
field; without one it goes unnoticed.
-/

namespace Oasys.Unmarshal

open Wire (readAll readAll_advances)

variable {c : Setting} {l : Nat → UInt32} {u : Unmarshal} {s : Cursor UInt8}

/-- The last four bytes are the big-endian CRC-32 of the bytes before them. -/
def GoodCrc (buf : List UInt8) : Prop :=
  4 ≤ buf.length ∧ buf.drop (buf.length - 4) =
    BigEndian.bytes 4 (CRC32.crc32 (buf.take (buf.length - 4))).toNat

instance (buf : List UInt8) : Decidable (GoodCrc buf) := inferInstanceAs (Decidable (_ ∧ _))

/-- The buffer has room for the CRC that the action is going to look for. -/
def Setting.HasCrc (c : Setting) : Prop := c.useCrc = true → 4 ≤ c.buf.length

def Setting.cursor (c : Setting) (left : List UInt8) : Cursor UInt8 :=
  ⟨left, c.useCrc && c.log && !decide (GoodCrc c.buf), false⟩

variable {buf left : List UInt8}

theorem at_new {useCrc log_ dirty : Bool} (hdirty : dirty = true → ∀ n, l n ≠ 0) :
    At ⟨buf, useCrc, log_, dirty⟩ l (new buf useCrc log_ l) (.start buf) where
  useCrc_eq := rfl
  log_eq := rfl
  expandable_eq := rfl
  buf_eq := rfl
  offset_le := Nat.zero_le _
  left_eq := rfl
  error_eq := rfl
  locals_eq := rfl
  dirty_ne := hdirty

/-! ### The check of the CRC -/

theorem At.beginAction_short (h : At c l u s) (hcrc : c.useCrc = true)
    (hlen : c.buf.length < 4) : u.beginAction = .error .outOfBounds := by
  have hshort : u.length < 4 := by
    rw [BufferedSerializeAction.length, h.expandable_eq, h.buf_eq]
    exact hlen
  simp [beginAction, h.useCrc_eq, hcrc, BufferedSerializeAction.buf, h.expandable_eq, hshort, throw,
    throwThe, MonadExceptOf.throw]

private theorem crc_eq_iff (hlen : 4 ≤ buf.length) : CRC32.crc32 (buf.take (buf.length - 4)) =
      .ofNat (BigEndian.value (buf.drop (buf.length - 4))) ↔ GoodCrc buf := by
  have htail : (buf.drop (buf.length - 4)).length = 4 := by rw [List.length_drop]; omega
  have hlt := BigEndian.value_lt (buf.drop (buf.length - 4))
  rw [htail] at hlt
  have hval : (UInt32.ofNat (BigEndian.value (buf.drop (buf.length - 4)))).toNat =
      BigEndian.value (buf.drop (buf.length - 4)) := UInt32.toNat_ofNat_of_lt' hlt
  unfold GoodCrc
  rw [BigEndian.eq_bytes_iff htail (CRC32.crc32 _).toNat_lt]
  constructor
  · intro h
    exact ⟨hlen, by rw [h, hval]⟩
  · intro h
    apply UInt32.toNat_inj.mp
    rw [hval, h.2]

theorem At.beginAction_eq (h : At c l u s) (hlen : c.HasCrc) :
    u.beginAction =
      .ok (if c.useCrc && c.log && !decide (GoodCrc c.buf) then u.signalError else u) := by
  by_cases hcrc : c.useCrc = true
  · have hlen' := hlen hcrc
    have hlength : u.length = c.buf.length := by
      rw [BufferedSerializeAction.length, h.expandable_eq, h.buf_eq]
    have hbuf : u.buf = .ok c.buf := by
      rw [BufferedSerializeAction.buf, h.expandable_eq, h.buf_eq]
      rfl
    have hval : CRC32.fromBytes (c.buf.drop (c.buf.length - 4)) =
        .ok (.ofNat (BigEndian.value (c.buf.drop (c.buf.length - 4)))) :=
      CRC32.fromBytes_eq (by rw [List.length_drop]; omega)
    have hupdate : CRC32.new.update c.buf (c.buf.length - 4) =
        .ok ((c.buf.take (c.buf.length - 4)).foldl CRC32.updateByte CRC32.new) :=
      CRC32.update_eq _ (by omega)
    have hiff := crc_eq_iff hlen'
    by_cases hgood : GoodCrc c.buf
    · simp [beginAction, h.useCrc_eq, hcrc, hbuf, hlength, Nat.not_lt.mpr hlen', hval, hupdate,
        CRC32.value_foldl, hiff.mpr hgood, hgood]
    · have hne := mt hiff.mp hgood
      by_cases hlog : c.log = true
      · simp [beginAction, h.useCrc_eq, hcrc, hbuf, hlength, Nat.not_lt.mpr hlen', hval, hupdate,
          CRC32.value_foldl, hne, hgood, h.log_eq, hlog]
      · simp [beginAction, h.useCrc_eq, hcrc, hbuf, hlength, Nat.not_lt.mpr hlen', hval, hupdate,
          CRC32.value_foldl, hne, h.log_eq, hlog, bind, Except.bind, pure, Except.pure]
  · simp [beginAction, h.useCrc_eq, hcrc]

/-! ### The action -/

theorem action_short (hlen : buf.length < 4) (log_ : Bool)
    (o : SerializableObject) : (new buf true log_ l).action o = .error .outOfBounds := by
  have hat : At ⟨buf, true, log_, false⟩ l (new buf true log_ l) (.start buf) :=
    at_new fun h => nomatch h
  show beginAction (new buf true log_ l) >>= _ = _
  rw [hat.beginAction_short rfl hlen]
  rfl

private theorem At.reset (h : At c l u s) : At c l { u with error_ := false } (.start s.left) :=
  { h with left_eq := h.left_eq, error_eq := rfl }

theorem At.action_eq (h : At c l u s) (hlen : c.HasCrc) (o : SerializableObject) :
    ∃ v, At c l v (c.cursor s.left) ∧ u.action o =
      v.processAll o >>= fun q => pure (if q.1.error_ then -1 else 0, q.1, q.2) := by
  have hreset := h.reset
  refine ⟨if c.useCrc && c.log && !decide (GoodCrc c.buf) then
    Unmarshal.signalError { u with error_ := false } else { u with error_ := false }, ?_, ?_⟩
  · unfold Setting.cursor
    cases c.useCrc && c.log && !decide (GoodCrc c.buf) with
    | true => exact hreset.signalError
    | false => exact hreset
  · show beginAction { u with error_ := false } >>= _ = _
    rw [hreset.beginAction_eq hlen]
    rfl

variable {o : SerializableObject}

theorem At.action_quiet (h : At c l u s) (hlen : c.HasCrc) (ho : AllFresh o)
    (hlog : c.log = false) :
    ∃ l' u' o', u.action o =
        .ok (if (readAll (c.cursor s.left) o).1.out then -1 else 0, u', o') ∧
      At c l' u' (readAll (c.cursor s.left) o).1 ∧
      ((readAll (c.cursor s.left) o).1.marked = true → c.dirty = true → AnyHalfFilled o') := by
  obtain ⟨v, hv, hact⟩ := h.action_eq hlen o
  have hout := processAll_outcome o ho hv
  rw [hact]
  cases hrun : v.processAll o with
  | error e =>
    rw [hrun] at hout
    cases hout with
    | null _ hlog' => rw [hlog] at hlog'; cases hlog'
  | ok q =>
    obtain ⟨u', o'⟩ := q
    rw [hrun] at hout
    cases hout with
    | @done l' _ hat hm =>
      refine ⟨l', u', (readAll (c.cursor s.left) o).2, ?_, hat, fun hm' => ?_⟩
      · rw [← hat.error_eq]; rfl
      · rw [hm] at hm'; cases hm'
    | @half l' _ _ hat _ hhalf =>
      exact ⟨l', u', o', by rw [← hat.error_eq]; rfl, hat, fun _ hd => (hhalf rfl hd).2⟩

theorem At.action_unmarked (h : At c l u s) (hlen : c.HasCrc) (ho : AllFresh o)
    (hm : (readAll (c.cursor s.left) o).1.marked = false) :
    ∃ l' u', u.action o = .ok (if (readAll (c.cursor s.left) o).1.out then -1 else 0, u',
        (readAll (c.cursor s.left) o).2) ∧
      At c l' u' (readAll (c.cursor s.left) o).1 := by
  obtain ⟨v, hv, hact⟩ := h.action_eq hlen o
  have hout := processAll_outcome o ho hv
  rw [hact]
  cases hrun : v.processAll o with
  | error e =>
    rw [hrun] at hout
    cases hout with
    | null hm' _ => rw [hm] at hm'; cases hm'
  | ok q =>
    rw [hrun] at hout
    cases hout with
    | @done l' u' hat _ => exact ⟨l', u', by rw [← hat.error_eq]; rfl, hat⟩
    | half _ hm' _ => rw [hm] at hm'; cases hm'

theorem At.action_marked (h : At c l u s) (hlen : c.HasCrc) (ho : AllFresh o)
    (hlog : c.log = true) (hdirty : c.dirty = true)
    (hm : (readAll (c.cursor s.left) o).1.marked = true) :
    u.action o = .error .nullDeref := by
  obtain ⟨v, hv, hact⟩ := h.action_eq hlen o
  have hout := processAll_outcome o ho hv
  rw [hact]
  cases hrun : v.processAll o with
  | error e =>
    rw [hrun] at hout
    cases hout with
    | null _ _ => rfl
  | ok q =>
    rw [hrun] at hout
    cases hout with
    | done _ hm' => rw [hm] at hm'; cases hm'
    | half _ _ hhalf =>
      have := (hhalf rfl hdirty).1
      rw [hlog] at this
      cases this

theorem At.action_ok (h : At c l u s) (hlen : c.HasCrc) (ho : AllFresh o) {u' : Unmarshal}
    {o' : SerializableObject} (hact : u.action o = .ok (0, u', o')) :
    (readAll (c.cursor s.left) o).1.out = false ∧ o' = (readAll (c.cursor s.left) o).2 ∧
      ∃ l', At c l' u' (readAll (c.cursor s.left) o).1 := by
  obtain ⟨v, hv, heq⟩ := h.action_eq hlen o
  have hout := processAll_outcome o ho hv
  have hadv := readAll_advances o (c.cursor s.left)
  rw [heq] at hact
  obtain ⟨⟨u₁, o₁⟩, hrun, hret⟩ := bind_eq_ok.mp hact
  have herr : u₁.error_ = false := by
    cases he : u₁.error_ with
    | false => rfl
    | true => simp [he] at hret
  simp only [pure, Except.pure, herr, Except.ok.injEq, Prod.mk.injEq] at hret
  obtain ⟨_, rfl, rfl⟩ := hret
  rw [hrun] at hout
  cases hout with
  | @done l' _ hat _ => exact ⟨hat.error_eq.symm.trans herr, rfl, l', hat⟩
  | half hat hm _ =>
    -- the mark is set only once the input has run out
    have hfalse := hadv.not_marked rfl (hat.error_eq.symm.trans herr)
    rw [hm] at hfalse
    cases hfalse

/-! ### Several actions -/

def Setting.Passes (c : Setting) : Prop := c.useCrc = true → GoodCrc c.buf

theorem Setting.Passes.hasCrc (h : c.Passes) : c.HasCrc := fun hcrc => (h hcrc).1

theorem Setting.Passes.cursor_eq (h : c.Passes) (left : List UInt8) :
    c.cursor left = .start left := by
  unfold Setting.cursor
  cases hcrc : c.useCrc with
  | false => rfl
  | true => simp [h hcrc, Cursor.start]

private theorem start_of_advances {s' : Cursor UInt8}
    (hadv : (Cursor.start left).Advances s') (hout : s'.out = false) : s' = .start s'.left := by
  have hm := hadv.not_marked rfl hout
  cases s'
  simp_all [Cursor.start]

theorem At.actions_of_read (h : At c l u (.start left)) (hpass : c.Passes)
    {os : List SerializableObject} (hos : ∀ o ∈ os, AllFresh o)
    (hout : (readAll (.start left) (fieldsOf os)).1.out = false) :
    ∃ l' u' os', u.actions os = .ok (os.map fun _ => 0, u', os') ∧
      fieldsOf os' = (readAll (.start left) (fieldsOf os)).2 ∧
      At c l' u' (readAll (.start left) (fieldsOf os)).1 := by
  induction os generalizing l u left with
  | nil => exact ⟨l, u, [], rfl, rfl, h⟩
  | cons o os ih =>
    change (readAll (readAll (.start left) o).1 (fieldsOf os)).1.out = false at hout
    have hadv := readAll_advances o (.start left)
    have hout' := (readAll_advances (fieldsOf os) _).out_eq_false hout
    have hstart := start_of_advances hadv hout'
    obtain ⟨l₁, u₁, hact, hat⟩ := h.action_unmarked hpass.hasCrc (hos o (by simp))
      (by rw [hpass.cursor_eq]; exact hadv.not_marked rfl hout')
    rw [hpass.cursor_eq, Cursor.start_left, hout'] at hact
    rw [hpass.cursor_eq, Cursor.start_left, hstart] at hat
    obtain ⟨l', u', os', hacts, hres, hat'⟩ := ih hat (fun p hp => hos p (by simp [hp]))
      (by rw [← hstart]; exact hout)
    rw [← hstart] at hres hat'
    refine ⟨l', u', (readAll (.start left) o).2 :: os', ?_, ?_, hat'⟩
    · simp [actions, hact, hacts]
    · show Field.object _ :: fieldsOf os' = _
      rw [hres]
      rfl

theorem At.read_of_actions (h : At c l u (.start left)) (hpass : c.Passes)
    {os os' : List SerializableObject} (hos : ∀ o ∈ os, AllFresh o) {u' : Unmarshal}
    (hacts : u.actions os = .ok (os.map fun _ => 0, u', os')) :
    (readAll (.start left) (fieldsOf os)).1.out = false ∧
      fieldsOf os' = (readAll (.start left) (fieldsOf os)).2 ∧
      ∃ l', At c l' u' (readAll (.start left) (fieldsOf os)).1 := by
  induction os generalizing l u left os' with
  | nil =>
    cases hacts
    exact ⟨rfl, rfl, l, h⟩
  | cons o os ih =>
    obtain ⟨⟨code, u₁, o₁⟩, hact, hrest⟩ := bind_eq_ok.mp hacts
    obtain ⟨⟨codes, u₂, os₂⟩, hacts', hret⟩ := bind_eq_ok.mp hrest
    simp only [pure, Except.pure, Except.ok.injEq, Prod.mk.injEq, List.map_cons,
      List.cons.injEq] at hret
    obtain ⟨⟨rfl, rfl⟩, rfl, rfl⟩ := hret
    obtain ⟨hout', ho₁, l₁, hat⟩ := h.action_ok hpass.hasCrc (hos o (by simp)) hact
    rw [hpass.cursor_eq, Cursor.start_left] at hout' ho₁ hat
    have hstart := start_of_advances (readAll_advances o (.start left)) hout'
    rw [hstart] at hat
    obtain ⟨hout, hres, hat'⟩ := ih hat (fun p hp => hos p (by simp [hp])) hacts'
    rw [← hstart] at hout hres hat'
    refine ⟨hout, ?_, hat'⟩
    show Field.object o₁ :: fieldsOf os₂ = _
    rw [hres, ho₁]
    rfl

end Oasys.Unmarshal

/-!
### Unmarshal on hostile input

What an action does with bytes that nobody marshalled. `SafeOn` says what it should
do: read inside the buffer, report an error when the bytes run out, and then leave no
carrier half-filled and no later field changed. It does so exactly when no carrier with
a length prefix is met once its bytes have run out (`safeOn_iff`): the branch for
carriers is the one that goes on after `next_slice` returned null.
-/

namespace Oasys

open Wire (readU32 readCarrier readTerminated readString readEach readField readAll
  readU32_eq_none readU32_eq_some readU32_advances readAll_advances)

/-! ### What an error leaves alone -/

/-- The elements that a loop made one after another are all as `kept` says. -/
def KeptEach (kept : Cursor UInt8 → Field → Prop) (next : Cursor UInt8 → Cursor UInt8) :
    Cursor UInt8 → List Field → Prop
  | _, [] => True
  | s, e :: es => kept s e ∧ KeptEach kept next (next s) es

mutual

/-- `g` is what became of the field: every part that was processed after the input had
    run out is unchanged. -/
def Field.Kept (s : Cursor UInt8) : Field → Field → Prop
  | .object fields, g => ∃ fields', g = .object fields' ∧ AllKept s fields fields'
  | .vector builder elems, g => ∃ elems', g = .vector builder elems' ∧
      (s.out = true → elems' = elems) ∧
      KeptEach (fun s e => Field.Kept s builder e) (fun s => (readField s builder).1)
        (readU32 s).1 elems'
  | f, g => s.out = true → g = f

def AllKept (s : Cursor UInt8) : SerializableObject → SerializableObject → Prop
  | [], o' => o' = []
  | f :: o, o' => ∃ g o'', o' = g :: o'' ∧ Field.Kept s f g ∧ AllKept (readField s f).1 o o''

end

private theorem keptEach_readEach {kept : Cursor UInt8 → Field → Prop}
    {rd : Cursor UInt8 → Cursor UInt8 × Field} (h : ∀ s, kept s (rd s).2) (n : Nat)
    (s : Cursor UInt8) : KeptEach kept (fun s => (rd s).1) s (readEach rd n s).2 := by
  induction n generalizing s with
  | zero => exact trivial
  | succ n ih => exact ⟨h s, ih _⟩

variable {o : SerializableObject}

private theorem allKept_readAll_of
    (h : ∀ f ∈ o, ∀ s, f.Kept s (readField s f).2) (s : Cursor UInt8) :
    AllKept s o (readAll s o).2 := by
  induction o generalizing s with
  | nil => rfl
  | cons f o ih =>
    exact ⟨_, _, rfl, h f (by simp) s, ih (fun g hg => h g (by simp [hg])) _⟩

theorem Field.kept_readField (f : Field) (hf : f.Fresh) : ∀ s, f.Kept s (readField s f).2 := by
  induction f using Field.ind with
  | fixed x =>
    intro s hout
    simp [readField, Cursor.take_of_out hout]
  | carrier c =>
    intro s hout
    simp [readField, readCarrier, readU32, Cursor.take_of_out hout]
  | terminated c t =>
    intro s hout
    simp [readField, readTerminated, Cursor.takeThrough_of_out hout]
  | string str =>
    intro s hout
    simp [readField, readString, readU32, Cursor.take_of_out hout]
  | object fields ih =>
    intro s
    exact ⟨_, rfl, allKept_readAll_of (fun f hfm => ih f hfm (hf.mem f hfm)) s⟩
  | vector builder elems ihb _ =>
    intro s
    obtain ⟨hb, rfl⟩ := hf
    cases hread : readU32 s with
    | mk s₁ n =>
      cases n with
      | none =>
        refine ⟨[], ?_, fun _ => rfl, trivial⟩
        simp [readField, hread]
      | some n =>
        refine ⟨(readEach (fun s => readField s builder) n s₁).2, ?_, fun hout => ?_, ?_⟩
        · simp [readField, hread]
        · have htake := (readU32_eq_some hread).1
          rw [Cursor.take_of_out hout] at htake
          cases htake
        · rw [hread]
          exact keptEach_readEach (ihb hb) n s₁

theorem allKept_readAll (ho : AllFresh o) (s : Cursor UInt8) : AllKept s o (readAll s o).2 :=
  allKept_readAll_of (fun f hf => f.kept_readField (ho.mem f hf)) s

private theorem not_anyHalfFilled_readEach {rd : Cursor UInt8 → Cursor UInt8 × Field}
    (h : ∀ s, ¬ (rd s).2.HalfFilled) (n : Nat) (s : Cursor UInt8) :
    ¬ AnyHalfFilled (readEach rd n s).2 := by
  induction n generalizing s with
  | zero => exact id
  | succ n ih => exact fun hany => hany.elim (h s) (ih _)

private theorem not_anyHalfFilled_readAll_of
    (h : ∀ f ∈ o, ∀ s, ¬ (readField s f).2.HalfFilled) (s : Cursor UInt8) :
    ¬ AnyHalfFilled (readAll s o).2 := by
  induction o generalizing s with
  | nil => exact id
  | cons f o ih =>
    exact fun hany => hany.elim (h f (by simp) s) (ih (fun g hg => h g (by simp [hg])) _)

theorem Field.not_halfFilled_readField (f : Field) (hf : f.Fresh) :
    ∀ s, ¬ (readField s f).2.HalfFilled := by
  induction f using Field.ind with
  | fixed x => exact fun s => id
  | carrier c =>
    intro s
    show ¬ (readCarrier s c).2.HalfFilled
    unfold readCarrier
    split
    · exact hf
    · split
      · exact fun h => h.2 rfl
      · split
        · exact fun h => nomatch h.1
        · exact hf
  | terminated c t =>
    intro s
    show ¬ (readTerminated s c t).2.HalfFilled
    unfold readTerminated
    split
    · exact fun h => nomatch h.1
    · exact hf
  | string str => exact fun s => id
  | object fields ih =>
    exact fun s => not_anyHalfFilled_readAll_of (fun f hfm => ih f hfm (hf.mem f hfm)) s
  | vector builder elems ihb _ =>
    intro s
    obtain ⟨hb, rfl⟩ := hf
    simp only [readField]
    split
    · exact id
    · exact not_anyHalfFilled_readEach (ihb hb) _ _

theorem not_anyHalfFilled_readAll (ho : AllFresh o)
    (s : Cursor UInt8) : ¬ AnyHalfFilled (readAll s o).2 :=
  not_anyHalfFilled_readAll_of (fun f hf => f.not_halfFilled_readField (ho.mem f hf)) s

/-! ### Safety -/

namespace Unmarshal

/-- Filling in the object from the bytes in front of `s`, a carrier with a length prefix
    is met whose prefix or whose bytes have run out. -/
def Strands (o : SerializableObject) (s : Cursor UInt8) : Prop := (readAll s o).1.marked = true

instance (o : SerializableObject) (s : Cursor UInt8) : Decidable (Strands o s) :=
  inferInstanceAs (Decidable (_ = _))

/-- On this buffer, with a log or without and whatever uninitialised locals hold: the
    action returns, so it reads only inside the buffer; it returns -1 if the bytes run
    out; and when it returns -1, no carrier is half-filled and nothing has changed that
    was processed after the error. The error can be that of the CRC. -/
def SafeOn (useCrc : Bool) (o : SerializableObject) (buf : List UInt8) : Prop :=
  ∀ (log_ : Bool) (locals : Nat → UInt32), ∃ code u' o',
    (new buf useCrc log_ locals).action o = .ok (code, u', o') ∧
    ((readAll (.start buf) o).1.out = true → code = -1) ∧
    (code = -1 → ¬ AnyHalfFilled o') ∧
    AllKept ⟨buf, useCrc && log_ && !decide (GoodCrc buf), false⟩ o o'

/-- The condition under which an action is safe. -/
def Unstranded (useCrc : Bool) (o : SerializableObject) (buf : List UInt8) : Prop :=
  (useCrc = true → 4 ≤ buf.length) ∧ ¬ Strands o (.start buf) ∧
    (useCrc = true → ¬ GoodCrc buf → ¬ Strands o ⟨buf, true, false⟩)

instance (useCrc : Bool) (o : SerializableObject) (buf : List UInt8) :
    Decidable (Unstranded useCrc o buf) :=
  inferInstanceAs (Decidable (_ ∧ _ ∧ _))

private theorem cursor_cases (c : Setting) (left : List UInt8) :
    c.cursor left = .start left ∨
      (c.cursor left = ⟨left, true, false⟩ ∧ c.useCrc = true ∧ ¬ GoodCrc c.buf) := by
  unfold Setting.cursor
  cases hsignal : c.useCrc && c.log && !decide (GoodCrc c.buf) with
  | false => exact .inl rfl
  | true =>
    simp only [Bool.and_eq_true, Bool.not_eq_true', decide_eq_false_iff_not] at hsignal
    exact .inr ⟨rfl, hsignal.1.1, hsignal.2⟩

variable {o : SerializableObject} {useCrc : Bool} {buf : List UInt8}

theorem safeOn_of_unstranded (ho : AllFresh o) (h : Unstranded useCrc o buf) :
    SafeOn useCrc o buf := by
  intro log_ locals
  obtain ⟨hlen, hstart, hcrc⟩ := h
  have hat : At ⟨buf, useCrc, log_, false⟩ locals (new buf useCrc log_ locals) (.start buf) :=
    at_new fun h => nomatch h
  generalize hc : (⟨buf, useCrc, log_, false⟩ : Setting) = c at hat
  have hlen' : c.HasCrc := by rw [← hc]; exact hlen
  have hm : (readAll (c.cursor buf) o).1.marked = false := by
    cases cursor_cases c buf with
    | inl heq =>
      rw [heq]
      exact Bool.eq_false_iff.mpr hstart
    | inr heq =>
      rw [heq.1]
      rw [← hc] at heq
      exact Bool.eq_false_iff.mpr (hcrc heq.2.1 heq.2.2)
  obtain ⟨l', u', hact, hat'⟩ := hat.action_unmarked hlen' ho hm
  rw [Cursor.start_left] at hact
  refine ⟨_, u', _, hact, ?_, fun _ => not_anyHalfFilled_readAll ho _, ?_⟩
  · intro hout
    cases cursor_cases c buf with
    | inl heq => rw [heq, hout]; rfl
    | inr heq =>
      have := ((readAll_advances o (c.cursor buf)).out (by rw [heq.1])).1
      rw [this]
      rfl
  · rw [← hc]
    exact allKept_readAll ho _

theorem not_safeOn_of_strands (ho : AllFresh o) (hlen : useCrc = true → 4 ≤ buf.length)
    (log_ : Bool) (h : Strands o (Setting.cursor ⟨buf, useCrc, log_, true⟩ buf)) :
    ¬ SafeOn useCrc o buf := by
  intro hsafe
  -- a run in which the uninitialised locals hold 1
  obtain ⟨code, u', o', hrun, -, hhalf, -⟩ := hsafe log_ fun _ => 1
  have hat : At ⟨buf, useCrc, log_, true⟩ (fun _ => 1) (new buf useCrc log_ fun _ => 1)
    (.start buf) := at_new fun _ _ => by decide
  cases log_ with
  | true =>
    rw [hat.action_marked hlen ho rfl rfl h] at hrun
    cases hrun
  | false =>
    obtain ⟨l', u₁, o₁, hact, -, hany⟩ := hat.action_quiet hlen ho rfl
    rw [hact] at hrun
    cases hrun
    apply hhalf
    · have hout : (readAll (Setting.cursor ⟨buf, useCrc, false, true⟩ buf) o).1.out = true :=
        ((readAll_advances o _).marked_out h).resolve_left (by simp [Setting.cursor])
      rw [Cursor.start_left, hout]
      rfl
    · exact hany h rfl

/-- An action on a newly built object is safe on a buffer exactly when, with `USE_CRC`,
    the buffer has the four bytes of a CRC, and no carrier with a length prefix is met
    once the bytes have run out, nor, with `USE_CRC` and a wrong CRC, at all. -/
theorem safeOn_iff (ho : AllFresh o) : SafeOn useCrc o buf ↔ Unstranded useCrc o buf := by
  refine ⟨fun hsafe => ?_, safeOn_of_unstranded ho⟩
  have hlen : useCrc = true → 4 ≤ buf.length := by
    intro hcrc
    by_contra hshort
    obtain ⟨_, _, _, hrun, -⟩ := hsafe false fun _ => 0
    rw [hcrc, action_short (Nat.lt_of_not_le hshort)] at hrun
    cases hrun
  refine ⟨hlen, fun hstrands => ?_, fun hcrc hbad hstrands => ?_⟩
  · refine not_safeOn_of_strands ho hlen false ?_ hsafe
    simpa [Setting.cursor, Cursor.start] using hstrands
  · refine not_safeOn_of_strands ho hlen true ?_ hsafe
    simpa [Setting.cursor, hcrc, hbad] using hstrands

/-- A string that is cut off is reported, and what follows it is left alone. -/
theorem safeOn_iff_cutOff : SafeOn false [.string [], .fixed (.u8 0)] [0, 0, 0, 9, 65] :=
  (safeOn_iff (by simp [AllFresh, Field.Fresh])).mpr (by decide)

/-- A carrier that is cut off after its length prefix gets this length, and a null
    pointer. -/
theorem not_safeOn_cutOff : ¬ SafeOn false [.carrier .new] [0, 0, 0, 5] := by
  intro h
  obtain ⟨code, u', o', hrun, -, hhalf, -⟩ := h false fun _ => 0
  have hact : ((new [0, 0, 0, 5] false false fun _ => 0).action [.carrier .new]).map
      (fun r => (r.1, r.2.2)) = .ok (-1, [.carrier ⟨none, 5⟩]) := rfl
  rw [hrun] at hact
  cases hact
  exact hhalf rfl (.inl ⟨rfl, by decide⟩)

end Unmarshal

end Oasys
