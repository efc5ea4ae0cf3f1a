import Oasys.Spec.FileSystemTableCorrect
import Oasys.Spec.FileSystemTableErrors

/-!
# FileSystemTable: get on any bytes

What `get` makes of a file whose bytes may be anything. A file of less than four bytes has no
type code: `get` passes on what is in its uninitialised local. A type code in the range that
the collection expects, under which nothing is registered, fails an assertion.
-/

namespace Oasys

/-- What is asked for is registered, or outside the range of the type. -/
def TypeCollection.Knows (C : TypeCollection) (typecode : UInt32) : Prop :=
  C.TYPECODE_LOW ≤ typecode → typecode ≤ C.TYPECODE_HIGH → (C.dispatch_ typecode).isSome = true

instance (C : TypeCollection) (typecode : UInt32) : Decidable (C.Knows typecode) :=
  inferInstanceAs (Decidable (_ → _ → _))

namespace FileSystemTable

open Wire (readU32 readAll)

variable {T : FileSystemTable} {s : State} {name : Path} {key data : SerializableObject}
  {bytes : List UInt8} {uninitialised : Nat → UInt32} {C : TypeCollection}

/-! ### get as a function of the bytes -/

section

variable {allocator : UInt32 → Except Fault (Int × Option SerializableObject)}

theorem getCommon_high (hkey : T.filename key = .ok (some name)) (h : Idle s)
    (hcontent : s.fs.content name = some bytes) (hhigh : ¬ Evictable s name) :
    T.getCommon s key scratch = .error .assertFailed := by
  obtain ⟨i, hname, -⟩ := Option.map_eq_some_iff.1 hcontent
  unfold getCommon
  simp only [hkey, bind, Except.bind, openForGet_high h hname hhigh]

theorem get_absent (hkey : T.filename key = .ok (some name)) (h : Idle s)
    (hcontent : s.fs.content name = none) (hsingle : T.multitype_ = false) :
    T.get s key data uninitialised = .ok (.DS_NOTFOUND, data, s) := by
  have hname := Option.map_eq_none_iff.1 hcontent
  rw [get_eq, hsingle]
  simp only [bind, Except.bind, getCommon_absent hkey h hname]
  rfl

theorem get_present (hkey : T.filename key = .ok (some name)) (h : Idle s)
    (hcontent : s.fs.content name = some bytes) (hlow : Evictable s name)
    (hsingle : T.multitype_ = false) :
    ∃ s', T.get s key data uninitialised =
      (unmarshal data uninitialised bytes).map fun r => (r.1, r.2, s') := by
  obtain ⟨buf, s', hget, -, -, hbytes⟩ := getCommon_present hkey h hcontent hlow
  refine ⟨s', ?_⟩
  rw [get_eq, hsingle]
  simp only [bind, Except.bind, hget, hbytes]
  cases unmarshal data uninitialised bytes <;> rfl

theorem get_high (hkey : T.filename key = .ok (some name)) (h : Idle s)
    (hcontent : s.fs.content name = some bytes) (hhigh : ¬ Evictable s name) :
    T.get s key data uninitialised = .error .assertFailed := by
  rw [get_eq]
  cases T.multitype_ with
  | false =>
    simp only [bind, Except.bind, getCommon_high hkey h hcontent hhigh]
    rfl
  | true => rfl

theorem getWith_absent (hkey : T.filename key = .ok (some name)) (h : Idle s)
    (hcontent : s.fs.content name = none) (hmulti : T.multitype_ = true) :
    T.getWith s key allocator uninitialised = .ok (.DS_NOTFOUND, none, s) := by
  have hname := Option.map_eq_none_iff.1 hcontent
  unfold getWith
  rw [hmulti]
  simp only [bind, Except.bind, getCommon_absent hkey h hname]
  rfl

theorem getWith_present (hkey : T.filename key = .ok (some name)) (h : Idle s)
    (hcontent : s.fs.content name = some bytes) (hlow : Evictable s name)
    (hmulti : T.multitype_ = true) :
    ∃ s', T.getWith s key allocator uninitialised =
      (unmarshalTyped allocator uninitialised bytes).map fun r => (r.1, r.2, s') := by
  obtain ⟨buf, s', hget, -, -, hbytes⟩ := getCommon_present hkey h hcontent hlow
  refine ⟨s', ?_⟩
  unfold getWith
  rw [hmulti]
  simp only [bind, Except.bind, hget, hbytes]
  cases unmarshalTyped allocator uninitialised bytes <;> rfl

theorem getWith_high (hkey : T.filename key = .ok (some name)) (h : Idle s)
    (hcontent : s.fs.content name = some bytes) (hhigh : ¬ Evictable s name) :
    T.getWith s key allocator uninitialised = .error .assertFailed := by
  unfold getWith
  cases T.multitype_ with
  | false => rfl
  | true =>
    simp only [bind, Except.bind, getCommon_high hkey h hcontent hhigh]
    rfl

end

/-! ### What is made of the bytes -/

def codeOf (err : Int) : DurableStoreResult := if err ≠ 0 then .DS_ERR else .DS_OK

theorem codeOf_cases (err : Int) : codeOf err = .DS_OK ∨ codeOf err = .DS_ERR := by
  unfold codeOf
  split
  · exact .inr rfl
  · exact .inl rfl

theorem action_returns {l : Nat → UInt32} {u : Unmarshal} {c : Cursor UInt8}
    (hat : Unmarshal.At ⟨bytes, false, false, false⟩ l u c) (hdata : AllFresh data) :
    ∃ err u' data', u.action data = .ok (err, u', data') := by
  obtain ⟨_, u', data', haction, -⟩ := hat.action_quiet (fun hcrc => nomatch hcrc) hdata rfl
  exact ⟨_, u', data', haction⟩

theorem at_start (uninitialised : Nat → UInt32) (bytes : List UInt8) :
    Unmarshal.At ⟨bytes, false, false, false⟩ uninitialised
      (Unmarshal.new bytes false false uninitialised) (.start bytes) :=
  Unmarshal.at_new fun hdirty => nomatch hdirty

theorem unmarshal_returns (hdata : AllFresh data) (uninitialised : Nat → UInt32)
    (bytes : List UInt8) :
    ∃ err data', unmarshal data uninitialised bytes = .ok (codeOf err, data') := by
  obtain ⟨err, um, data', haction⟩ := action_returns (at_start uninitialised bytes) hdata
  refine ⟨err, dangleAll data', ?_⟩
  unfold unmarshal
  simp only [haction, ok_bind]
  rfl

/-- The type code that `get` passes on: it does not look at the error of the read. -/
def typecodeOf (uninitialised : Nat → UInt32) (bytes : List UInt8) : UInt32 :=
  if 4 ≤ bytes.length then .ofNat (BigEndian.value (bytes.take 4)) else uninitialised 0

def behindTypecode (bytes : List UInt8) : List UInt8 :=
  if 4 ≤ bytes.length then bytes.drop 4 else bytes

theorem readTypecode_eq (uninitialised : Nat → UInt32) (bytes : List UInt8) :
    ∃ um l c, readTypecode uninitialised bytes = .ok (typecodeOf uninitialised bytes, um) ∧
      Unmarshal.At ⟨bytes, false, false, false⟩ l um c ∧ c.left = behindTypecode bytes := by
  -- what the read gets is in front of the cursor
  obtain ⟨um, hread, hum⟩ := (at_start uninitialised bytes).newLocal.processU32 (uninitialised 0)
  refine ⟨um, _, _, ?_, hum, ?_⟩
  · have hlocal : (Unmarshal.new bytes false false uninitialised).newLocal.1 = uninitialised 0 :=
      rfl
    unfold readTypecode
    simp only [hlocal, hread, ok_bind, readU32, typecodeOf]
    by_cases hlen : 4 ≤ bytes.length
    · rw [if_pos hlen, Cursor.take_of_le rfl hlen]
      rfl
    · rw [if_neg hlen, Cursor.take_of_lt rfl (Nat.lt_of_not_le hlen)]
      rfl
  · unfold behindTypecode readU32
    by_cases hlen : 4 ≤ bytes.length
    · rw [if_pos hlen, Cursor.take_of_le rfl hlen]
      rfl
    · rw [if_neg hlen, Cursor.take_of_lt rfl (Nat.lt_of_not_le hlen)]
      rfl

theorem unmarshalTyped_eq
    (allocator : UInt32 → Except Fault (Int × Option SerializableObject))
    (uninitialised : Nat → UInt32) (bytes : List UInt8) :
    ∃ um l c, Unmarshal.At ⟨bytes, false, false, false⟩ l um c ∧ c.left = behindTypecode bytes ∧
      unmarshalTyped allocator uninitialised bytes = (do
        let (err, data) ← allocator (typecodeOf uninitialised bytes)
        if err ≠ 0 then pure (.DS_ERR, none)
        else
          match data with
          | none => throw .nullDeref
          | some data => do
            let (err, _, data) ← um.action data
            pure (if err ≠ 0 then .DS_ERR else .DS_OK, some (dangleAll data))) := by
  obtain ⟨um, l, c, hread, hat, hleft⟩ := readTypecode_eq uninitialised bytes
  refine ⟨um, l, c, hat, hleft, ?_⟩
  unfold unmarshalTyped
  rw [hread]
  rfl

/-! ### The results -/

def FromFile (bytes : List UInt8) (typecode : UInt32) : Prop :=
  ∃ rest, bytes = BigEndian.bytes 4 typecode.toNat ++ rest

theorem bytes_typecode (hlen : 4 ≤ bytes.length) :
    BigEndian.bytes 4 (UInt32.ofNat (BigEndian.value (bytes.take 4))).toNat = bytes.take 4 := by
  have hfour : (bytes.take 4).length = 4 := List.length_take_of_le hlen
  have hlt := BigEndian.value_lt (bytes.take 4)
  have hvalue := BigEndian.bytes_value (bytes.take 4)
  rw [hfour] at hlt hvalue
  rw [UInt32.toNat_ofNat_of_lt' hlt, hvalue]

theorem fromFile_iff (uninitialised : Nat → UInt32) (bytes : List UInt8) :
    (∀ typecode um, readTypecode uninitialised bytes = .ok (typecode, um) →
      FromFile bytes typecode) ↔ 4 ≤ bytes.length := by
  obtain ⟨um, _, _, hread, -, -⟩ := readTypecode_eq uninitialised bytes
  constructor
  · intro h
    obtain ⟨rest, hbytes⟩ := h _ _ hread
    have hlen := congrArg List.length hbytes
    rw [List.length_append, BigEndian.length_bytes] at hlen
    omega
  · intro hlen typecode um' hread'
    rw [hread] at hread'
    cases hread'
    refine ⟨bytes.drop 4, ?_⟩
    rw [typecodeOf, if_pos hlen, bytes_typecode hlen, List.take_append_drop]

theorem newObject_unknown {typecode : UInt32} (h : ¬ C.Knows typecode) :
    C.newObject typecode = .error .assertFailed := by
  unfold TypeCollection.Knows at h
  push Not at h
  obtain ⟨hlow, hhigh, hnone⟩ := h
  have hin : ¬ (typecode < C.TYPECODE_LOW ∨ C.TYPECODE_HIGH < typecode) := by
    rintro (hlt | hlt)
    · exact UInt32.not_lt.2 hlow hlt
    · exact UInt32.not_lt.2 hhigh hlt
  unfold TypeCollection.newObject
  rw [if_neg hin]
  cases hdispatch : C.dispatch_ typecode with
  | none => rfl
  | some helper =>
    rw [hdispatch] at hnone
    exact absurd rfl hnone

theorem newObject_known {typecode : UInt32} (h : C.Knows typecode) :
    ∃ err object, C.newObject typecode = .ok (err, object) ∧
      (err = 0 → ∃ helper, C.dispatch_ typecode = some helper ∧ object = some helper.object) := by
  unfold TypeCollection.newObject
  by_cases hout : typecode < C.TYPECODE_LOW ∨ C.TYPECODE_HIGH < typecode
  · rw [if_pos hout]
    exact ⟨_, _, rfl, fun herr => absurd herr (by decide)⟩
  · rw [if_neg hout]
    rw [not_or, UInt32.not_lt, UInt32.not_lt] at hout
    cases hdispatch : C.dispatch_ typecode with
    | none =>
      have hsome := h hout.1 hout.2
      rw [hdispatch] at hsome
      cases hsome
    | some helper =>
      by_cases htype : helper.isType = true
      · refine ⟨0, some helper.object, ?_, fun _ => ⟨helper, rfl, rfl⟩⟩
        simp only [htype, if_true]
        rfl
      · refine ⟨TypeCollection.MEMORY, none, ?_, fun herr => absurd herr (by decide)⟩
        simp only [htype]
        rfl

theorem unmarshalTyped_newObject
    (hC : ∀ typecode helper, C.dispatch_ typecode = some helper → AllFresh helper.object)
    (uninitialised : Nat → UInt32) (bytes : List UInt8) :
    (C.Knows (typecodeOf uninitialised bytes) →
      ∃ err data', unmarshalTyped C.newObject uninitialised bytes = .ok (codeOf err, data') ∧
        (err = 0 → data'.isSome = true)) ∧
    (¬ C.Knows (typecodeOf uninitialised bytes) →
      unmarshalTyped C.newObject uninitialised bytes = .error .assertFailed) := by
  obtain ⟨um, l, c, hat, -, heq⟩ := unmarshalTyped_eq C.newObject uninitialised bytes
  rw [heq]
  constructor
  · intro hknows
    obtain ⟨err, object, hnew, hobject⟩ := newObject_known hknows
    rw [hnew, ok_bind]
    by_cases herr : err = 0
    · obtain ⟨helper, hdispatch, rfl⟩ := hobject herr
      obtain ⟨err', u', data', haction⟩ := action_returns hat (hC _ _ hdispatch)
      refine ⟨err', some (dangleAll data'), ?_, fun _ => rfl⟩
      simp only [herr, ne_eq, not_true, if_false, haction, ok_bind]
      rfl
    · refine ⟨err, none, ?_, fun hzero => absurd hzero herr⟩
      rw [codeOf, if_pos herr]
      exact if_pos herr
  · intro hunknown
    rw [newObject_unknown hunknown]
    rfl

/-- What is to be the case for any bytes: `get` returns `DS_OK` or `DS_ERR`, and the type code
    that it passes to the allocator is that of the file. -/
def Robust (T : FileSystemTable) (C : TypeCollection) (s : State) (key data : SerializableObject)
    (uninitialised : Nat → UInt32) (bytes : List UInt8) : Prop :=
  if T.multitype_ then
    (∃ code data' s', T.multiGet C s key uninitialised = .ok (code, data', s') ∧
      (code = .DS_OK ∨ code = .DS_ERR)) ∧
    ∀ typecode um, readTypecode uninitialised bytes = .ok (typecode, um) → FromFile bytes typecode
  else
    ∃ code data' s', T.get s key data uninitialised = .ok (code, data', s') ∧
      (code = .DS_OK ∨ code = .DS_ERR)

theorem multiGet_returns_iff (hkey : T.filename key = .ok (some name)) (h : Idle s)
    (hcontent : s.fs.content name = some bytes) (hmulti : T.multitype_ = true)
    (hC : ∀ typecode helper, C.dispatch_ typecode = some helper → AllFresh helper.object) :
    (∃ code data' s', T.multiGet C s key uninitialised = .ok (code, data', s') ∧
      (code = .DS_OK ∨ code = .DS_ERR)) ↔
    Evictable s name ∧ C.Knows (typecodeOf uninitialised bytes) := by
  obtain ⟨hknown, hunknown⟩ := unmarshalTyped_newObject hC uninitialised bytes
  constructor
  · rintro ⟨code, data', s', hget, -⟩
    obtain ⟨_, hwith, -⟩ := bind_eq_ok.1 hget
    by_cases hlow : Evictable s name
    · refine ⟨hlow, ?_⟩
      by_contra hknows
      obtain ⟨s₁, hpresent⟩ := getWith_present hkey h hcontent hlow hmulti
      rw [hpresent, hunknown hknows] at hwith
      cases hwith
    · rw [getWith_high hkey h hcontent hlow] at hwith
      cases hwith
  · rintro ⟨hlow, hknows⟩
    obtain ⟨s', hwith⟩ := getWith_present hkey h hcontent hlow hmulti
    obtain ⟨err, data', htyped, hsome⟩ := hknown hknows
    rw [htyped] at hwith
    unfold multiGet
    rw [hwith]
    by_cases herr : err = 0
    · refine ⟨.DS_OK, data', s', ?_, .inl rfl⟩
      show (if codeOf err ≠ .DS_OK then _ else _) = _
      rw [herr, if_neg (by decide), hsome herr]
      rfl
    · refine ⟨.DS_ERR, none, s', ?_, .inr rfl⟩
      show (if codeOf err ≠ .DS_OK then _ else _) = _
      rw [codeOf, if_pos herr]
      rfl

/-- The descriptor that may have to go is one that `evict` expects, and in a table of several
    types the file has a type code that `new_object` knows. -/
def Expected (T : FileSystemTable) (C : TypeCollection) (s : State) (name : Path)
    (bytes : List UInt8) : Prop :=
  Evictable s name ∧ (T.multitype_ = true →
    4 ≤ bytes.length ∧ C.Knows (.ofNat (BigEndian.value (bytes.take 4))))

instance (T : FileSystemTable) (C : TypeCollection) (s : State) (name : Path)
    (bytes : List UInt8) : Decidable (Expected T C s name bytes) :=
  inferInstanceAs (Decidable (_ ∧ (_ → _)))

/-- Whatever the bytes of a file are, in any state that a run reaches, `get` returns `DS_OK` or
    `DS_ERR`, with the type code of the file, exactly if the bytes are expected. -/
theorem get_robust_iff (h : (system T).Reachable s) (hkey : T.filename key = .ok (some name))
    (hcontent : s.fs.content name = some bytes) (hdata : AllFresh data)
    (hC : ∀ typecode helper, C.dispatch_ typecode = some helper → AllFresh helper.object)
    (uninitialised : Nat → UInt32) :
    Robust T C s key data uninitialised bytes ↔ Expected T C s name bytes := by
  have hidle := idle_of_reachable h
  unfold Robust Expected
  cases hmulti : T.multitype_ with
  | true =>
    rw [if_pos rfl, multiGet_returns_iff hkey hidle hcontent hmulti hC, fromFile_iff]
    constructor
    · rintro ⟨⟨hlow, hknows⟩, hlen⟩
      rw [typecodeOf, if_pos hlen] at hknows
      exact ⟨hlow, fun _ => ⟨hlen, hknows⟩⟩
    · rintro ⟨hlow, hbytes⟩
      obtain ⟨hlen, hknows⟩ := hbytes rfl
      refine ⟨⟨hlow, ?_⟩, hlen⟩
      rw [typecodeOf, if_pos hlen]
      exact hknows
  | false =>
    rw [if_neg Bool.false_ne_true]
    constructor
    · rintro ⟨code, data', s', hget, -⟩
      refine ⟨?_, fun htrue => nomatch htrue⟩
      by_contra hhigh
      rw [get_high hkey hidle hcontent hhigh] at hget
      cases hget
    · rintro ⟨hlow, -⟩
      obtain ⟨s', hget⟩ := get_present hkey hidle hcontent hlow hmulti
      obtain ⟨err, data', hread⟩ := unmarshal_returns hdata uninitialised bytes
      rw [hread] at hget
      exact ⟨codeOf err, data', s', hget, codeOf_cases err⟩

/-! ### Examples -/

def typedTable : FileSystemTable := ⟨[116], true⟩

/-- A store that was opened over a file with these bytes. -/
def stored (bytes : List UInt8) : State :=
  .new ((FileSystem.empty.create (flagPath true)).setData 0 bytes) none

theorem reachable_stored (T : FileSystemTable) (bytes : List UInt8) :
    (system T).Reachable (stored bytes) :=
  .init ⟨_, none, (FileSystem.linkless_empty.insert rfl).congr rfl, rfl⟩

def sevens : TypeCollection where
  dispatch_ typecode := if typecode = 7 then some ⟨[.fixed (.u8 0)], true⟩ else none
  TYPECODE_LOW := 1
  TYPECODE_HIGH := 10

theorem get_robust_iff_seven :
    Robust typedTable sevens (stored [0, 0, 0, 7, 1]) (flagKey true) [] (fun _ => 0)
      [0, 0, 0, 7, 1] := by
  have hkey : typedTable.filename (flagKey true) = .ok (some (flagPath true)) := by decide +kernel
  have hdata : AllFresh [] := trivial
  refine (get_robust_iff (reachable_stored typedTable [0, 0, 0, 7, 1]) hkey (by decide +kernel)
    hdata ?_ _).2 (by decide +kernel)
  intro typecode helper hdispatch
  obtain ⟨-, hseven⟩ := Option.ite_none_right_eq_some.1 hdispatch
  obtain rfl := Option.some.inj hseven
  exact ⟨trivial, trivial⟩

/-- A file with the type code 3 makes `get` fail an assertion; an empty one makes it ask for
    the type of a number that was never read. -/
theorem not_get_robust :
    ¬ Robust typedTable sevens (stored [0, 0, 0, 3]) (flagKey true) [] (fun _ => 7)
        [0, 0, 0, 3] ∧
      ¬ Robust typedTable sevens (stored []) (flagKey true) [] (fun _ => 7) [] ∧
      (typedTable.multiGet sevens (stored [0, 0, 0, 3]) (flagKey true) fun _ => 7).map
        (fun r => r.1) = .error .assertFailed ∧
      (readTypecode (fun _ => 7) []).map (fun r => r.1) = .ok 7 := by
  have hfails : (typedTable.multiGet sevens (stored [0, 0, 0, 3]) (flagKey true) fun _ => 7).map
      (fun r => r.1) = .error .assertFailed := by decide +kernel
  refine ⟨?_, ?_, hfails, by decide +kernel⟩
  · rintro ⟨⟨code, data', s', hget, -⟩, -⟩
    rw [hget] at hfails
    cases hfails
  · rintro ⟨-, hfile⟩
    exact absurd ((fromFile_iff _ _).1 hfile) (by decide)

end FileSystemTable

end Oasys
