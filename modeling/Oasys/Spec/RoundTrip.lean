import Oasys.Spec.MarshalCorrect
import Oasys.Spec.UnmarshalAction

/-!
# Round trips

What `Unmarshal` reads from a buffer is what `expectAll` expects there (`actions_iff`),
and without a CRC the buffer that `Marshal` leaves is the encoding of its objects
(`Marshal.actions_wrote`). Together they say when objects survive the trip through a
buffer: when none of them has a carrier with a terminator. `Unmarshal` reports one byte
more for such a carrier than it read.
-/

namespace Oasys

open Wire (readAll expectAll encodeAll expectAll_iff expectAll_encodeAll
  noneTerminated_of_expectAll)

/-- The actions return 0, and recover `os` from the first bytes of the buffer, leaving
    `rest`. -/
def Unmarshal.Recovers (buf : List UInt8) (useCrc log_ : Bool) (locals : Nat → UInt32)
    (os ps : List SerializableObject) (rest : List UInt8) : Prop :=
  ∃ u' res, (Unmarshal.new buf useCrc log_ locals).actions ps = .ok (ps.map fun _ => 0, u', res) ∧
    AllSame (fieldsOf os) (fieldsOf res) ∧ u'.offset_ ≤ buf.length ∧ buf.drop u'.offset_ = rest

theorem Unmarshal.recovers_iff_expectAll {buf : List UInt8} {useCrc : Bool}
    (hpass : useCrc = true → GoodCrc buf) (log_ : Bool) (locals : Nat → UInt32)
    {os ps : List SerializableObject} (hos : AllClosed (fieldsOf os))
    (hop : AllSameType (fieldsOf os) (fieldsOf ps)) (hps : AllFresh (fieldsOf ps))
    (rest : List UInt8) :
    Recovers buf useCrc log_ locals os ps rest ↔ expectAll (fieldsOf os) buf = some rest := by
  have hat : At ⟨buf, useCrc, log_, false⟩ locals (new buf useCrc log_ locals) (.start buf) :=
    at_new fun h => nomatch h
  have hfresh : ∀ p ∈ ps, AllFresh p := fun p hp =>
    hps.mem (.object p) (List.mem_map_of_mem hp)
  rw [show expectAll (fieldsOf os) buf = some rest ↔ _ from
    expectAll_iff (s := .start buf) hos hop hps rfl]
  constructor
  · intro ⟨u', res, hacts, hsame, hle, hrest⟩
    obtain ⟨hout, hres, _, hat'⟩ := hat.read_of_actions hpass hfresh hacts
    refine ⟨hout, ?_, hres ▸ hsame⟩
    rw [← hat'.left_eq]
    exact hrest
  · intro ⟨hout, hleft, hsame⟩
    obtain ⟨_, u', res, hacts, hres, hat'⟩ := hat.actions_of_read hpass hfresh hout
    refine ⟨u', res, hacts, hres.symm ▸ hsame, hat'.offset_le, ?_⟩
    rw [← hleft, ← hat'.left_eq]

theorem Unmarshal.At.action_reads_iff {c : Setting} {l : Nat → UInt32} {u : Unmarshal}
    {o p : SerializableObject} {left : List UInt8} (h : At c l u (.start left))
    (hcrc : c.useCrc = false) (ho : AllClosed o) (hop : AllSameType o p) (hp : AllFresh p) :
    (∃ u' r, u.action p = .ok (0, u', r) ∧ AllSame o r) ↔ ∃ rest, expectAll o left = some rest := by
  have hpass : c.Passes := fun hc => by
    rw [hcrc] at hc
    cases hc
  constructor
  · intro ⟨u', r, haction, hsame⟩
    obtain ⟨hout, rfl, -⟩ := h.action_ok hpass.hasCrc hp haction
    rw [hpass.cursor_eq] at hout hsame
    exact ⟨_, (expectAll_iff ho hop hp rfl).2 ⟨hout, rfl, hsame⟩⟩
  · intro ⟨rest, hexpect⟩
    obtain ⟨hout, -, hsame⟩ := (expectAll_iff (s := .start left) ho hop hp rfl).1 hexpect
    have hm := (Wire.readAll_advances p (.start left)).not_marked rfl hout
    obtain ⟨l', u', haction, -⟩ := h.action_unmarked hpass.hasCrc hp (by
      rw [hpass.cursor_eq]
      exact hm)
    rw [hpass.cursor_eq, Cursor.start_left, hout] at haction
    exact ⟨u', _, haction, hsame⟩

/-- An object is recovered from the bytes that were written for it, whatever is behind
    them, exactly if it has no carrier with a terminator. -/
theorem Unmarshal.At.action_recovers_iff {c : Setting} {l : Nat → UInt32} {u : Unmarshal}
    {o p : SerializableObject} {rest : List UInt8} (h : At c l u (.start (encodeAll o ++ rest)))
    (hcrc : c.useCrc = false) (ho : AllFit o) (hop : AllSameType o p) (hp : AllFresh p) :
    (∃ u' r, u.action p = .ok (0, u', r) ∧ AllSame o r) ↔ NoneTerminated o := by
  rw [h.action_reads_iff hcrc ho.closed hop hp]
  constructor
  · intro ⟨_, hexpect⟩
    exact noneTerminated_of_expectAll hexpect
  · intro hnone
    exact ⟨rest, expectAll_encodeAll ho hnone rest⟩

/-! ### Actions of Marshal without a CRC -/

variable {m : Marshal}

theorem Marshal.newExpandable_spec (b : ExpandableBuffer) (useCrc log_ : Bool) :
    ∃ m : Marshal, Marshal.newExpandable b useCrc log_ = .ok m ∧ m.useCrc = useCrc ∧
      m.error_ = false ∧ m.Valid ∧ m.written = [] ∧ ∀ n, m.HasRoom n := by
  refine ⟨{ Marshal.new [] useCrc log_ with expandable_buf_ := some { b with len_ := 0 } }, ?_,
    rfl, rfl, Nat.zero_le _, rfl, fun _ hexp => nomatch hexp⟩
  unfold Marshal.newExpandable ExpandableBuffer.setLen
  rw [decide_eq_true (Nat.zero_le _)]
  rfl

theorem Marshal.expandable_of_room (hroom : ∀ n, m.HasRoom n) :
    ∃ b, m.expandable_buf_ = some b ∧ m.written = b.bytes.take b.len_ := by
  cases hexp : m.expandable_buf_ with
  | none =>
    have := hroom (m.buf_.length + 1) hexp
    omega
  | some b =>
    refine ⟨b, rfl, ?_⟩
    simp only [written, BufferedSerializeAction.memory, BufferedSerializeAction.offset, hexp]

theorem Marshal.action_wrote (hcrc : m.useCrc = false) (hvalid : m.Valid)
    {o : SerializableObject} (ho : AllFit o) (hroom : m.HasRoom (encodeAll o).length) :
    ∃ m', m.action o = .ok (0, m', o) ∧ Wrote { m with error_ := false } m' (encodeAll o) := by
  obtain ⟨m', o', hrun, hw, hset⟩ :=
    processAll_wrote (m := { m with error_ := false }) ho.readable rfl hvalid hroom
  obtain rfl := hset.eq_of_fit ho
  have hend : m'.endAction = .ok m' := by
    simp [endAction, hw.useCrc_eq, hcrc]
  refine ⟨m', ?_, hw⟩
  simp [action, hrun, hend, hw.error_eq]

theorem Marshal.actions_wrote (hcrc : m.useCrc = false) (hvalid : m.Valid)
    {os : List SerializableObject} (hos : AllFit (fieldsOf os))
    (hroom : m.HasRoom (encodeAll (fieldsOf os)).length) :
    ∃ m', m.actions os = .ok (os.map fun _ => 0, m', os) ∧
      m'.written = m.written ++ encodeAll (fieldsOf os) := by
  induction os generalizing m with
  | nil => exact ⟨m, rfl, (List.append_nil _).symm⟩
  | cons o os ih =>
    change m.HasRoom (encodeAll o ++ encodeAll (fieldsOf os)).length at hroom
    rw [List.length_append] at hroom
    obtain ⟨m₁, hact, hw⟩ := action_wrote hcrc hvalid hos.1
      (fun hexp => by have := hroom hexp; omega)
    obtain ⟨m', hacts, hwritten⟩ := ih (hw.useCrc_eq.trans hcrc) hw.valid hos.2
      (hw.room _ hroom)
    refine ⟨m', ?_, ?_⟩
    · simp [actions, hact, hacts]
    · rw [hwritten, hw.written_eq, List.append_assoc]
      rfl

/-! ### The trip -/

/-- Read from the buffer one after another, the objects are recovered, and nothing of
    the buffer is left. -/
def RoundTrips (log_ : Bool) (locals : Nat → UInt32) (os ps : List SerializableObject)
    (buf : List UInt8) : Prop :=
  ∃ u' res, (Unmarshal.new buf false log_ locals).actions ps =
      .ok (ps.map fun _ => 0, u', res) ∧
    AllSame (fieldsOf os) (fieldsOf res) ∧ u'.offset_ = buf.length

variable {os ps : List SerializableObject}

theorem roundTrips_iff_recovers {log_ : Bool} {locals : Nat → UInt32} {buf : List UInt8} :
    RoundTrips log_ locals os ps buf ↔ Unmarshal.Recovers buf false log_ locals os ps [] := by
  constructor
  · intro ⟨u', res, hacts, hsame, hoff⟩
    exact ⟨u', res, hacts, hsame, Nat.le_of_eq hoff, by rw [hoff, List.drop_length]⟩
  · intro ⟨u', res, hacts, hsame, hle, hrest⟩
    have hge : buf.length ≤ u'.offset_ := List.drop_eq_nil_iff.mp hrest
    exact ⟨u', res, hacts, hsame, Nat.le_antisymm hle hge⟩

/-- `Marshal` writes the objects, and they survive the trip exactly if they have no
    carrier with a terminator. -/
theorem roundTrips_iff (hos : AllFit (fieldsOf os)) (hop : AllSameType (fieldsOf os) (fieldsOf ps))
    (hps : AllFresh (fieldsOf ps)) (hcrc : m.useCrc = false) (hstart : m.offset = 0)
    (hroom : m.HasRoom (encodeAll (fieldsOf os)).length) (log_ : Bool) (locals : Nat → UInt32) :
    ∃ m', m.actions os = .ok (os.map fun _ => 0, m', os) ∧
      (RoundTrips log_ locals os ps m'.written ↔ NoneTerminated (fieldsOf os)) := by
  have hvalid : m.Valid := by unfold Marshal.Valid; omega
  obtain ⟨m', hacts, hwritten⟩ := Marshal.actions_wrote hcrc hvalid hos hroom
  have hnil : m.written = [] := by simp [Marshal.written, hstart]
  rw [hnil, List.nil_append] at hwritten
  have hpass : false = true → Unmarshal.GoodCrc m'.written := fun h => Bool.noConfusion h
  refine ⟨m', hacts, ?_⟩
  rw [roundTrips_iff_recovers,
    Unmarshal.recovers_iff_expectAll hpass log_ locals hos.closed hop hps, hwritten]
  constructor
  · exact noneTerminated_of_expectAll
  · intro hnone
    simpa using expectAll_encodeAll hos hnone []

/-- Two objects, one with a carrier and a vector and one with a string. -/
theorem roundTrips_iff_two :
    ∃ m', (Marshal.new (List.replicate 20 0) false true).actions
        [[.carrier ⟨some [1, 2, 3], 2⟩, .vector (.fixed (.u8 0)) [.fixed (.u8 7)]],
          [.string [104, 105]]] =
        .ok ([0, 0], m', [[.carrier ⟨some [1, 2, 3], 2⟩, .vector (.fixed (.u8 0)) [.fixed (.u8 7)]],
          [.string [104, 105]]]) ∧
      (RoundTrips true (fun _ => 0)
          [[.carrier ⟨some [1, 2, 3], 2⟩, .vector (.fixed (.u8 0)) [.fixed (.u8 7)]],
            [.string [104, 105]]]
          [[.carrier .new, .vector (.fixed (.u8 0)) []], [.string []]] m'.written ↔
        NoneTerminated (fieldsOf
          [[.carrier ⟨some [1, 2, 3], 2⟩, .vector (.fixed (.u8 0)) [.fixed (.u8 7)]],
            [.string [104, 105]]])) := by
  apply roundTrips_iff
  · simp [fieldsOf, AllFit, Field.Fits, readBytes]
  · simp [fieldsOf, AllSameType, Field.SameType, EachSameType, FixedField.SameType]
  · simp [fieldsOf, AllFresh, Field.Fresh, BufferCarrier.HalfFilled, BufferCarrier.new]
  · rfl
  · rfl
  · intro _
    decide

/-- A carrier with a terminator comes back one byte longer. -/
theorem not_roundTrips_terminated :
    ∃ m', (Marshal.new [0, 0] false false).actions [[.terminated ⟨some [65, 0], 2⟩ 0]] =
        .ok ([0], m', [[.terminated ⟨some [65, 0], 2⟩ 0]]) ∧
      ¬ RoundTrips false (fun _ => 0) [[.terminated ⟨some [65, 0], 2⟩ 0]] [[.terminated .new 0]]
        m'.written := by
  refine ⟨{ Marshal.new [65, 0] false false with offset_ := 2 }, rfl, ?_⟩
  intro ⟨u', res, hacts, hsame, _⟩
  have hrun : ((Unmarshal.new [65, 0] false false fun _ => 0).actions
      [[.terminated .new 0]]).map (fun r => r.2.2) = .ok [[.terminated ⟨some [65, 0], 3⟩ 0]] := rfl
  change (Unmarshal.new [65, 0] false false fun _ => 0).actions [[.terminated .new 0]] = _ at hacts
  rw [hacts] at hrun
  obtain rfl : res = [[.terminated ⟨some [65, 0], 3⟩ 0]] := by injection hrun
  simp [fieldsOf, AllSame, Field.Same, BufferCarrier.SameThrough] at hsame

end Oasys

/-!
### Objects in succession, each with its CRC

`Marshal` puts a CRC behind every object, and the check of `Unmarshal` looks for one at
the end of the buffer only. Nothing skips the CRCs in between, which the fields of the
next object take for their own bytes. `succession_iff` says what that leaves of the
invariant that an action can be called on several objects in succession.
-/

namespace Oasys

open Wire (expectAll encodeAll expectAll_encodeAll noneTerminated_of_expectAll)
open Unmarshal (GoodCrc)

/-! ### What is written -/

namespace Wire

/-- What `Marshal` has written after the next object, when it had written `before`. -/
def appendWithCrc (before : List UInt8) (o : SerializableObject) : List UInt8 :=
  let bs := before ++ encodeAll o
  bs ++ BigEndian.bytes 4 (CRC32.crc32 bs).toNat

/-- The bytes of the objects, each followed by the CRC of everything before it. -/
def encodeWithCrc (os : List SerializableObject) : List UInt8 := os.foldl appendWithCrc []

private theorem goodCrc_append (bs : List UInt8) :
    GoodCrc (bs ++ BigEndian.bytes 4 (CRC32.crc32 bs).toNat) := by
  have hlen : (bs ++ BigEndian.bytes 4 (CRC32.crc32 bs).toNat).length = bs.length + 4 := by simp
  unfold GoodCrc
  rw [hlen, Nat.add_sub_cancel, List.drop_left, List.take_left]
  exact ⟨Nat.le_add_left .., rfl⟩

theorem goodCrc_encodeWithCrc {os : List SerializableObject} (hne : os ≠ []) :
    GoodCrc (encodeWithCrc os) := by
  obtain ⟨init, o, rfl⟩ := (List.eq_nil_or_concat' os).resolve_left hne
  have hlast : encodeWithCrc (init ++ [o]) = appendWithCrc (encodeWithCrc init) o := by
    simp [encodeWithCrc]
  rw [hlast]
  exact goodCrc_append _

end Wire

open Wire (appendWithCrc encodeWithCrc)

namespace Marshal

variable {m m' : Marshal}

private theorem puts_of_endAction (hcrc : m.useCrc = true) (h : m.endAction = .ok m') :
    m'.error_ = false → m.error_ = false ∧
      (m.Valid → m.Wrote m' (BigEndian.bytes 4 (CRC32.crc32 m.written).toNat)) := by
  simp only [endAction, hcrc, if_true] at h
  obtain ⟨buf, hbuf, hrest⟩ := bind_eq_ok.mp h
  obtain ⟨crc, hupdate, hput⟩ := bind_eq_ok.mp hrest
  have hmem : buf = m.memory := by
    unfold BufferedSerializeAction.buf at hbuf
    unfold BufferedSerializeAction.memory
    cases hexp : m.expandable_buf_ with
    | none =>
      rw [hexp] at hbuf
      cases hbuf
      rfl
    | some b =>
      rw [hexp] at hbuf
      obtain ⟨_, _, hret⟩ := bind_eq_ok.mp hbuf
      cases hret
      rfl
  have hval : crc.value = CRC32.crc32 m.written := by
    unfold CRC32.update at hupdate
    split at hupdate
    · cases hupdate
      rw [CRC32.value_foldl, hmem]
      rfl
    · cases hupdate
  have hputs : m.Puts m' (BigEndian.bytes 4 crc.value.toNat) := by
    rw [processU32, BigEndian.bytes_word32] at hput
    exact puts_of_put (BigEndian.bytes 4 crc.value.toNat) hput
  rw [hval] at hputs
  exact hputs

theorem written_of_action (hcrc : m.useCrc = true) (hvalid : m.Valid)
    {o o' : SerializableObject} (h : m.action o = .ok (0, m', o')) :
    m'.useCrc = true ∧ m'.Valid ∧ m'.written = appendWithCrc m.written o ∧ AllSettle o o' := by
  obtain ⟨⟨m₁, o₁⟩, hrun, hrest⟩ := bind_eq_ok.mp h
  obtain ⟨m₂, hend, hret⟩ := bind_eq_ok.mp hrest
  have herr : m₂.error_ = false := by
    cases he : m₂.error_ with
    | false => rfl
    | true => simp [he] at hret
  simp only [pure, Except.pure, herr, Except.ok.injEq, Prod.mk.injEq] at hret
  obtain ⟨-, rfl, rfl⟩ := hret
  obtain ⟨hputs, hset⟩ := processAll_puts hrun
  have hcrc₁ : m₁.useCrc = true := by
    by_contra hno
    -- nothing is appended then, and nothing has changed the option
    simp only [endAction, hno, if_false, pure, Except.pure, Except.ok.injEq] at hend
    subst hend
    have hw := (hputs herr).2 hvalid
    exact hno (hw.useCrc_eq.trans hcrc)
  obtain ⟨herr₁, hw'⟩ := puts_of_endAction hcrc₁ hend herr
  have hw := (hputs herr₁).2 hvalid
  have hwritten : m₁.written = m.written ++ encodeAll o := hw.written_eq
  have hw'' := hw' hw.valid
  refine ⟨hw''.useCrc_eq.trans hcrc₁, hw''.valid, ?_, hset⟩
  rw [hw''.written_eq, hwritten]
  rfl

theorem written_of_actions (hcrc : m.useCrc = true) (hvalid : m.Valid)
    {os os' : List SerializableObject} (h : m.actions os = .ok (os.map fun _ => 0, m', os')) :
    m'.written = os.foldl appendWithCrc m.written ∧ AllSettle (fieldsOf os) (fieldsOf os') := by
  induction os generalizing m os' with
  | nil =>
    cases h
    exact ⟨rfl, .nil⟩
  | cons o os ih =>
    obtain ⟨⟨code, m₁, o₁⟩, hact, hrest⟩ := bind_eq_ok.mp h
    obtain ⟨⟨codes, m₂, os₂⟩, hacts, hret⟩ := bind_eq_ok.mp hrest
    simp only [pure, Except.pure, Except.ok.injEq, Prod.mk.injEq, List.map_cons,
      List.cons.injEq] at hret
    obtain ⟨⟨rfl, rfl⟩, rfl, rfl⟩ := hret
    obtain ⟨hcrc₁, hvalid₁, hwritten, hset⟩ := written_of_action hcrc hvalid hact
    obtain ⟨hwritten', hset'⟩ := ih hcrc₁ hvalid₁ hacts
    rw [List.foldl_cons, ← hwritten]
    exact ⟨hwritten', .cons hset.object hset'⟩

end Marshal

/-! ### The succession -/

/-- Read from the buffer one after another, each with a check of the CRC, the objects are
    recovered. -/
def Succeeds (log_ : Bool) (locals : Nat → UInt32) (os ps : List SerializableObject)
    (buf : List UInt8) : Prop :=
  ∃ rest, Unmarshal.Recovers buf true log_ locals os ps rest

/-- Although a CRC stands behind each object, the bytes begin with those of all objects
    without anything in between. -/
def Seamless (os : List SerializableObject) : Prop :=
  (expectAll (fieldsOf os) (encodeWithCrc os)).isSome

instance (os : List SerializableObject) : Decidable (Seamless os) :=
  inferInstanceAs (Decidable (_ = true))

theorem seamless_singleton {o : SerializableObject} (ho : AllFit o) :
    Seamless [o] ↔ NoneTerminated o := by
  have hbytes : encodeWithCrc [o] =
      encodeAll (fieldsOf [o]) ++ BigEndian.bytes 4 (CRC32.crc32 (encodeAll o)).toNat := by
    simp [encodeWithCrc, appendWithCrc, fieldsOf, encodeAll, Wire.encode]
  unfold Seamless
  rw [hbytes]
  constructor
  · intro h
    obtain ⟨rest, hrest⟩ := Option.isSome_iff_exists.mp h
    exact (noneTerminated_of_expectAll hrest).1
  · intro hnone
    rw [expectAll_encodeAll (o := fieldsOf [o]) ⟨ho, trivial⟩ ⟨hnone, trivial⟩]
    rfl

theorem seamless_pair {o p : SerializableObject} (ho : AllFit o) :
    Seamless [o, p] ↔ NoneTerminated o ∧
      (expectAll p (BigEndian.bytes 4 (CRC32.crc32 (encodeAll o)).toNat ++ (encodeAll p ++
        BigEndian.bytes 4 (CRC32.crc32 (encodeWithCrc [o] ++ encodeAll p)).toNat))).isSome := by
  have hbytes : encodeWithCrc [o, p] = encodeAll o ++
      (BigEndian.bytes 4 (CRC32.crc32 (encodeAll o)).toNat ++ (encodeAll p ++
        BigEndian.bytes 4 (CRC32.crc32 (encodeWithCrc [o] ++ encodeAll p)).toNat)) := by
    simp [encodeWithCrc, appendWithCrc]
  unfold Seamless
  rw [hbytes, Option.isSome_iff_exists, Option.isSome_iff_exists]
  constructor
  · intro ⟨rest, hrest⟩
    obtain ⟨mid, hmid, hp⟩ := Option.bind_eq_some_iff.mp hrest
    obtain ⟨rest', hrest', _⟩ := Option.bind_eq_some_iff.mp hp
    have hnone := noneTerminated_of_expectAll hmid
    have hmid' : some mid = _ := hmid.symm.trans (expectAll_encodeAll ho hnone _)
    injection hmid' with hmid'
    rw [← hmid']
    exact ⟨hnone, rest', hrest'⟩
  · intro ⟨hnone, rest, hrest⟩
    refine ⟨rest, Option.bind_eq_some_iff.mpr ⟨_, expectAll_encodeAll ho hnone _, ?_⟩⟩
    exact Option.bind_eq_some_iff.mpr ⟨rest, hrest, rfl⟩

variable {m m' : Marshal} {os os' ps : List SerializableObject}

/-- Objects that `Marshal` wrote one after another are recovered one after another exactly
    if the bytes are seamless. -/
theorem succession_iff (hne : os ≠ []) (hcrc : m.useCrc = true) (hstart : m.offset = 0)
    (hacts : m.actions os = .ok (os.map fun _ => 0, m', os'))
    (hop : AllSameType (fieldsOf os) (fieldsOf ps)) (hps : AllFresh (fieldsOf ps)) (log_ : Bool)
    (locals : Nat → UInt32) : Succeeds log_ locals os' ps m'.written ↔ Seamless os := by
  have hvalid : m.Valid := by unfold Marshal.Valid; omega
  have hnil : m.written = [] := by simp [Marshal.written, hstart]
  obtain ⟨hwritten, hset⟩ := Marshal.written_of_actions hcrc hvalid hacts
  rw [hnil] at hwritten
  change m'.written = encodeWithCrc os at hwritten
  rw [hwritten]
  have hpass : true = true → GoodCrc (encodeWithCrc os) := fun _ => Wire.goodCrc_encodeWithCrc hne
  unfold Succeeds Seamless
  rw [Option.isSome_iff_exists, ← hset.expectAll_eq]
  apply exists_congr
  intro rest
  exact Unmarshal.recovers_iff_expectAll hpass log_ locals hset.closed
    ((hset.allSameType_iff _).mpr hop) hps rest

/-- A byte with its CRC. -/
theorem succession_iff_single :
    ∃ m' os', (Marshal.new (List.replicate 5 0) true true).actions [[.fixed (.u8 65)]] =
        .ok ([0], m', os') ∧
      (Succeeds true (fun _ => 0) os' [[.fixed (.u8 0)]] m'.written ↔
        Seamless [[.fixed (.u8 65)]]) := by
  have hrun : ((Marshal.new (List.replicate 5 0) true true).actions [[.fixed (.u8 65)]]).map
      (fun r => r.1) = .ok [0] := by decide +kernel
  cases hacts : (Marshal.new (List.replicate 5 0) true true).actions [[.fixed (.u8 65)]] with
  | error e =>
    rw [hacts] at hrun
    cases hrun
  | ok r =>
    obtain ⟨codes, m', os'⟩ := r
    rw [hacts] at hrun
    obtain rfl : codes = [0] := by injection hrun
    refine ⟨m', os', rfl, ?_⟩
    apply succession_iff (List.cons_ne_nil _ _) rfl rfl hacts
    · simp [fieldsOf, AllSameType, Field.SameType, FixedField.SameType]
    · simp [fieldsOf, AllFresh, Field.Fresh]

/-- The second of two bytes is not recovered. -/
theorem not_succeeds_two :
    ∃ m' os', (Marshal.new (List.replicate 10 0) true false).actions
        [[.fixed (.u8 65)], [.fixed (.u8 66)]] = .ok ([0, 0], m', os') ∧
      ¬ Succeeds false (fun _ => 0) os' [[.fixed (.u8 0)], [.fixed (.u8 0)]] m'.written := by
  have hrun : ((Marshal.new (List.replicate 10 0) true false).actions
      [[.fixed (.u8 65)], [.fixed (.u8 66)]]).map (fun r => r.1) = .ok [0, 0] := by decide +kernel
  cases hacts : (Marshal.new (List.replicate 10 0) true false).actions
      [[.fixed (.u8 65)], [.fixed (.u8 66)]] with
  | error e =>
    rw [hacts] at hrun
    cases hrun
  | ok r =>
    obtain ⟨codes, m', os'⟩ := r
    rw [hacts] at hrun
    obtain rfl : codes = [0, 0] := by injection hrun
    have hzeros : (Marshal.new (List.replicate 10 0) true false).actions
        [[.fixed (.u8 65)], [.fixed (.u8 66)]] =
        .ok (List.map (fun _ => 0) [[Field.fixed (.u8 65)], [.fixed (.u8 66)]], m', os') := hacts
    obtain ⟨hwritten, hset⟩ := Marshal.written_of_actions rfl (Nat.zero_le _) hzeros
    have hpass : true = true → GoodCrc m'.written := fun _ => by
      rw [hwritten]
      exact Wire.goodCrc_encodeWithCrc (List.cons_ne_nil _ _)
    have hnone : expectAll (fieldsOf [[.fixed (.u8 65)], [.fixed (.u8 66)]]) m'.written = none := by
      rw [hwritten]
      decide +kernel
    refine ⟨m', os', rfl, fun ⟨rest, hrec⟩ => ?_⟩
    have hsome := (Unmarshal.recovers_iff_expectAll hpass false _ hset.closed
      ((hset.allSameType_iff _).mpr
        (by simp [fieldsOf, AllSameType, Field.SameType, FixedField.SameType]))
      (by simp [fieldsOf, AllFresh, Field.Fresh]) rest).mp hrec
    rw [hset.expectAll_eq, hnone] at hsome
    cases hsome

end Oasys
