import Oasys.Spec.FileSystemTableGets

/-!
# FileSystemTable: put is not all or nothing

What a client gets under a key after a `put` that returned an error. A client can tell any
two contents of a file apart, by reading them byte for byte (`content_eq_of_answers`), so
that nothing has changed for it exactly if the file has not. The file has changed where
`put` got to write, and the write stopped short of the end.
-/

namespace Oasys.FileSystemTable

open Wire (readAll readAll_cons readField readAll_advances)

variable {T : FileSystemTable} {s s' : State} {name : Path} {key data : SerializableObject}
  {bytes : List UInt8} {uninitialised : Nat → UInt32} {typecode : UInt32}
  {flags : DurableStoreFlags} {out : PutOutcome}

/-! ### What a client gets -/

/-- The ways to ask for an object. -/
inductive Getter where
  | single (data : SerializableObject) (uninitialised : Nat → UInt32)
  | typed (allocator : UInt32 → Except Fault (Int × Option SerializableObject))
      (uninitialised : Nat → UInt32)

/-- What `get` returns. -/
def answer (T : FileSystemTable) (s : State) (key : SerializableObject) :
    Getter → Except Fault (DurableStoreResult × Option SerializableObject)
  | .single data uninitialised => (T.get s key data uninitialised).map fun r => (r.1, some r.2.1)
  | .typed allocator uninitialised =>
    (T.getWith s key allocator uninitialised).map fun r => (r.1, r.2.1)

/-- What it makes of the bytes that the file has, if it is there. -/
def answerOf (T : FileSystemTable) (content : Option (List UInt8)) :
    Getter → Except Fault (DurableStoreResult × Option SerializableObject)
  | .single data uninitialised =>
    if T.multitype_ then throw .assertFailed
    else
      match content with
      | none => pure (.DS_NOTFOUND, some data)
      | some bytes => (unmarshal data uninitialised bytes).map fun r => (r.1, some r.2)
  | .typed allocator uninitialised =>
    if T.multitype_ then
      match content with
      | none => pure (.DS_NOTFOUND, none)
      | some bytes => unmarshalTyped allocator uninitialised bytes
    else throw .assertFailed

theorem answer_eq (hkey : T.filename key = .ok (some name)) (h : Idle s)
    (hlow : Evictable s name) (g : Getter) :
    answer T s key g = answerOf T (s.fs.content name) g := by
  cases g with
  | single data uninitialised =>
    simp only [answer, answerOf]
    cases hmulti : T.multitype_ with
    | true =>
      rw [if_pos rfl, get_eq, hmulti]
      rfl
    | false =>
      rw [if_neg Bool.false_ne_true]
      cases hcontent : s.fs.content name with
      | none =>
        rw [get_absent hkey h hcontent hmulti]
        rfl
      | some bytes =>
        obtain ⟨s', hget⟩ := get_present hkey h hcontent hlow hmulti
        rw [hget]
        dsimp only
        cases unmarshal data uninitialised bytes <;> rfl
  | typed allocator uninitialised =>
    simp only [answer, answerOf]
    cases hmulti : T.multitype_ with
    | false =>
      rw [if_neg Bool.false_ne_true, getWith, hmulti]
      rfl
    | true =>
      rw [if_pos rfl]
      cases hcontent : s.fs.content name with
      | none =>
        rw [getWith_absent hkey h hcontent hmulti]
        rfl
      | some bytes =>
        obtain ⟨s', hget⟩ := getWith_present hkey h hcontent hlow hmulti
        rw [hget]
        dsimp only
        cases unmarshalTyped allocator uninitialised bytes <;> rfl

/-! ### Contents that a client can tell apart -/

def probe (n : Nat) : SerializableObject := List.replicate n (.fixed (.u8 0))

theorem allFresh_probe (n : Nat) : AllFresh (probe n) := by
  induction n with
  | zero => trivial
  | succ n ih => exact ⟨trivial, ih⟩

theorem dangleAll_bytes (bs : List UInt8) :
    dangleAll (bs.map fun b => .fixed (.u8 b)) = bs.map fun b => .fixed (.u8 b) := by
  induction bs with
  | nil => rfl
  | cons b bs ih =>
    show Field.dangle (.fixed (.u8 b)) :: dangleAll (bs.map _) = _
    rw [ih]
    rfl

private theorem readField_u8 (c : Cursor UInt8) :
    readField c (.fixed (.u8 0)) =
      ((c.take 1).1, .fixed ((c.take 1).2.elim (.u8 0) fun bs => .u8 (bs.headD 0))) := rfl

theorem readAll_probe_marked (n : Nat) (c : Cursor UInt8) :
    (readAll c (probe n)).1.marked = c.marked := by
  induction n generalizing c with
  | zero => rfl
  | succ n ih =>
    show (readAll (c.take 1).1 (probe n)).1.marked = c.marked
    rw [ih, Cursor.take_marked]

theorem readAll_probe (n : Nat) {c : Cursor UInt8} (hout : c.out = false) :
    ((readAll c (probe n)).1.out = false ↔ n ≤ c.left.length) ∧
      (n ≤ c.left.length →
        (readAll c (probe n)).2 = (c.left.take n).map fun b => .fixed (.u8 b)) := by
  induction n generalizing c with
  | zero => exact ⟨iff_of_true hout (Nat.zero_le _), fun _ => rfl⟩
  | succ n ih =>
    have hcons : probe (n + 1) = .fixed (.u8 0) :: probe n := rfl
    rw [hcons, readAll_cons, readField_u8]
    cases hleft : c.left with
    | nil =>
      -- the input runs out here, and stays so
      have htake : c.take 1 = ({ c with out := true }, none) :=
        Cursor.take_of_lt hout (by simp [hleft])
      have hrest := (readAll_advances (probe n) { c with out := true }).out rfl
      rw [htake]
      simp [hrest.1]
    | cons b bs =>
      have htake : c.take 1 = ({ c with left := bs }, some [b]) := by
        rw [Cursor.take_of_le hout (by simp [hleft]), hleft]
        rfl
      obtain ⟨hcount, hfields⟩ := ih (c := { c with left := bs }) hout
      rw [htake]
      constructor
      · exact hcount.trans Nat.succ_le_succ_iff.symm
      · intro hn
        rw [hfields (by simpa using hn)]
        rfl

theorem action_probe {l : Nat → UInt32} {u : Unmarshal} {c : Cursor UInt8}
    (hat : Unmarshal.At ⟨bytes, false, false, false⟩ l u c) (n : Nat) :
    ∃ err u' data', u.action (probe n) = .ok (err, u', data') ∧ (err = 0 ↔ n ≤ c.left.length) ∧
      (n ≤ c.left.length →
        dangleAll data' = (c.left.take n).map fun b => .fixed (.u8 b)) := by
  have hcursor : Unmarshal.Setting.cursor ⟨bytes, false, false, false⟩ c.left = .start c.left := rfl
  obtain ⟨hcount, hfields⟩ := readAll_probe n (c := .start c.left) rfl
  obtain ⟨_, u', haction, -⟩ := hat.action_unmarked (fun hcrc => nomatch hcrc) (allFresh_probe n)
    (by rw [hcursor, readAll_probe_marked, Cursor.start_marked])
  rw [hcursor] at haction
  refine ⟨_, u', _, haction, ?_, fun hn => ?_⟩
  · refine Iff.trans ?_ hcount
    cases (readAll (Cursor.start c.left) (probe n)).1.out <;> decide
  · rw [hfields hn]
    exact dangleAll_bytes _

theorem answerOf_single (hsingle : T.multitype_ = false) (n : Nat) (bytes : List UInt8) :
    ∃ err data', answerOf T (some bytes) (.single (probe n) fun _ => 0) =
        .ok (codeOf err, some data') ∧ (err = 0 ↔ n ≤ bytes.length) ∧
      (n ≤ bytes.length → data' = (bytes.take n).map fun b => .fixed (.u8 b)) := by
  obtain ⟨err, u', data', haction, herr, hdata⟩ := action_probe (at_start (fun _ => 0) bytes) n
  refine ⟨err, dangleAll data', ?_, herr, hdata⟩
  simp only [answerOf, hsingle, Bool.false_eq_true, if_false, unmarshal, haction, ok_bind]
  rfl

/-- An allocator that makes it for one type code. -/
def probeAllocator (expected : UInt32) (n : Nat) (typecode : UInt32) :
    Except Fault (Int × Option SerializableObject) :=
  if typecode = expected then pure (0, some (probe n)) else pure (1, none)

theorem answerOf_typed (hmulti : T.multitype_ = true) (expected : UInt32) (n : Nat)
    (uninitialised : Nat → UInt32) (bytes : List UInt8) :
    ∃ err data', answerOf T (some bytes) (.typed (probeAllocator expected n) uninitialised) =
        .ok (codeOf err, data') ∧
      (err = 0 ↔ typecodeOf uninitialised bytes = expected ∧
        n ≤ (behindTypecode bytes).length) ∧
      (err = 0 → data' = some (((behindTypecode bytes).take n).map fun b => .fixed (.u8 b))) := by
  obtain ⟨um, l, c, hat, hleft, htyped⟩ :=
    unmarshalTyped_eq (probeAllocator expected n) uninitialised bytes
  simp only [answerOf, hmulti, if_true, htyped, probeAllocator]
  by_cases hcode : typecodeOf uninitialised bytes = expected
  · obtain ⟨err, u', data', haction, herr, hdata⟩ := action_probe hat n
    rw [hleft] at herr hdata
    refine ⟨err, some (dangleAll data'), ?_, ?_, fun hzero => by rw [hdata (herr.1 hzero)]⟩
    · simp only [hcode, if_true, pure_bind, ne_eq, not_true, if_false, haction, ok_bind]
      rfl
    · exact herr.trans (and_iff_right hcode).symm
  · refine ⟨1, none, ?_, iff_of_false (by decide) fun h => hcode h.1,
      fun hone => absurd hone (by decide)⟩
    simp only [hcode, if_false, pure_bind]
    rfl

theorem codeOf_eq {err err' : Int} (h : codeOf err = codeOf err') : err = 0 ↔ err' = 0 := by
  unfold codeOf at h
  by_cases herr : err = 0
  · by_cases herr' : err' = 0
    · exact iff_of_true herr herr'
    · rw [if_neg (not_not.2 herr), if_pos herr'] at h
      cases h
  · by_cases herr' : err' = 0
    · rw [if_pos herr, if_neg (not_not.2 herr')] at h
      cases h
    · exact iff_of_false herr herr'

theorem bytes_injective :
    Function.Injective (List.map fun b : UInt8 => Field.fixed (.u8 b)) :=
  List.map_injective_iff.2 fun _ _ h => FixedField.u8.inj (Field.fixed.inj h)

private theorem eq_of_typecode {X Y : List UInt8}
    (hcode : ∀ uninitialised, typecodeOf uninitialised X = typecodeOf uninitialised Y)
    (hbehind : behindTypecode X = behindTypecode Y) : X = Y := by
  unfold typecodeOf at hcode
  unfold behindTypecode at hbehind
  by_cases hX : 4 ≤ X.length
  · by_cases hY : 4 ≤ Y.length
    · rw [if_pos hX, if_pos hY] at hbehind
      have hvalue := hcode fun _ => 0
      rw [if_pos hX, if_pos hY] at hvalue
      have hfront : X.take 4 = Y.take 4 := by
        rw [← bytes_typecode hX, ← bytes_typecode hY, hvalue]
      rw [← List.take_append_drop 4 X, hfront, hbehind, List.take_append_drop]
    · -- the local could hold another number
      have hlocal := hcode fun _ => .ofNat (BigEndian.value (X.take 4)) + 1
      rw [if_pos hX, if_neg hY] at hlocal
      simp at hlocal
  · by_cases hY : 4 ≤ Y.length
    · have hlocal := hcode fun _ => .ofNat (BigEndian.value (Y.take 4)) + 1
      rw [if_neg hX, if_pos hY] at hlocal
      simp at hlocal
    · rwa [if_neg hX, if_neg hY] at hbehind

private theorem eq_of_take {X Y : List UInt8} (hlen : ∀ n, n ≤ X.length ↔ n ≤ Y.length)
    (htake : X.take X.length = Y.take X.length) : X = Y := by
  have hX := (hlen X.length).1 (Nat.le_refl _)
  have hY := (hlen Y.length).2 (Nat.le_refl _)
  rwa [List.take_length, List.take_of_length_le hY] at htake

theorem content_eq_of_answers {bytes : List UInt8} {content : Option (List UInt8)}
    (h : ∀ g, answerOf T (some bytes) g = answerOf T content g) : content = some bytes := by
  cases hkind : T.multitype_ with
  | false =>
    cases content with
    | none =>
      -- nothing is found, but an object without fields is always there
      obtain ⟨err, data', hanswer, -⟩ := answerOf_single hkind 0 bytes
      have hnone := h (.single (probe 0) fun _ => 0)
      rw [hanswer] at hnone
      simp only [answerOf, hkind, Bool.false_eq_true, if_false] at hnone
      obtain ⟨hcode, -⟩ := Prod.mk.inj (Except.ok.inj hnone)
      rcases codeOf_cases err with hok | herr
      · rw [hok] at hcode
        cases hcode
      · rw [herr] at hcode
        cases hcode
    | some old =>
      have hprobe : ∀ n, (n ≤ bytes.length ↔ n ≤ old.length) ∧
          (n ≤ bytes.length → bytes.take n = old.take n) := by
        intro n
        obtain ⟨err, data, hnew, herr, hdata⟩ := answerOf_single hkind n bytes
        obtain ⟨err', data', hold, herr', hdata'⟩ := answerOf_single hkind n old
        have heq := h (.single (probe n) fun _ => 0)
        rw [hnew, hold] at heq
        obtain ⟨hcode, hsame⟩ := Prod.mk.inj (Except.ok.inj heq)
        have hle := herr.symm.trans ((codeOf_eq hcode).trans herr')
        refine ⟨hle, fun hn => bytes_injective ?_⟩
        rw [← hdata hn, ← hdata' (hle.1 hn), Option.some.inj hsame]
      rw [eq_of_take (fun n => (hprobe n).1) ((hprobe _).2 (Nat.le_refl _))]
  | true =>
    cases content with
    | none =>
      obtain ⟨err, data', hanswer, -⟩ := answerOf_typed hkind 0 0 (fun _ => 0) bytes
      have hnone := h (.typed (probeAllocator 0 0) fun _ => 0)
      rw [hanswer] at hnone
      simp only [answerOf, hkind, if_true] at hnone
      obtain ⟨hcode, -⟩ := Prod.mk.inj (Except.ok.inj hnone)
      rcases codeOf_cases err with hok | herr
      · rw [hok] at hcode
        cases hcode
      · rw [herr] at hcode
        cases hcode
    | some old =>
      have hprobe : ∀ code n un, ((typecodeOf un bytes = code ∧ n ≤ (behindTypecode bytes).length) ↔
          (typecodeOf un old = code ∧ n ≤ (behindTypecode old).length)) ∧
          (typecodeOf un bytes = code → n ≤ (behindTypecode bytes).length →
            (behindTypecode bytes).take n = (behindTypecode old).take n) := by
        intro code n un
        obtain ⟨err, data, hnew, herr, hdata⟩ := answerOf_typed hkind code n un bytes
        obtain ⟨err', data', hold, herr', hdata'⟩ := answerOf_typed hkind code n un old
        have heq := h (.typed (probeAllocator code n) un)
        rw [hnew, hold] at heq
        obtain ⟨hcode, hsame⟩ := Prod.mk.inj (Except.ok.inj heq)
        have hzero := codeOf_eq hcode
        refine ⟨herr.symm.trans (hzero.trans herr'), fun hun hn => bytes_injective ?_⟩
        have herr0 := herr.2 ⟨hun, hn⟩
        apply Option.some.inj
        rw [← hdata herr0, ← hdata' (hzero.1 herr0), hsame]
      have hcode : ∀ un, typecodeOf un old = typecodeOf un bytes := fun un =>
        ((hprobe _ 0 un).1.1 ⟨rfl, Nat.zero_le _⟩).1
      have hbehind : behindTypecode bytes = behindTypecode old := by
        apply eq_of_take
        · intro n
          have hn := (hprobe (typecodeOf (fun _ => 0) bytes) n fun _ => 0).1
          rwa [and_iff_right rfl, and_iff_right (hcode _)] at hn
        · exact (hprobe _ _ fun _ => 0).2 rfl (Nat.le_refl _)
      rw [eq_of_typecode (fun un => (hcode un).symm) hbehind]

/-! ### All or nothing -/

/-- What is to be the case: after a `put` that returned an error, a client gets under the key
    what it got before. -/
def Keeps (T : FileSystemTable) (out : PutOutcome) (s : State) (key : SerializableObject)
    (typecode : UInt32) (data : SerializableObject) (flags : DurableStoreFlags) : Prop :=
  ∀ code s', T.putWith out s key typecode data flags = .ok (code, s') → code ≠ .DS_OK →
    ∀ g, answer T s' key g = answer T s key g

/-- What was written is what the file began with; without a descriptor in the cache, the file
    was emptied before, and can have had no more than that. -/
def Unharmed (s : State) (name : Path) (written : List UInt8) : Prop :=
  if Uncached s name then s.fs.content name = some written
  else ∃ rest, s.fs.content name = some (written ++ rest)

/-- `put` does not get to write, or writes everything, or what the file had already. -/
def Harmless (T : FileSystemTable) (out : PutOutcome) (s : State) (key : SerializableObject)
    (typecode : UInt32) (data : SerializableObject) (flags : DurableStoreFlags) : Prop :=
  ∀ name image, T.filename key = .ok (some name) → T.marshal typecode data = .ok (some image) →
    Opens out.openFails s name flags →
      image.length ≤ out.written ∨ Unharmed s name (image.take out.written)

theorem unharmed_iff (written : List UInt8) :
    Unharmed s name written ↔
      s.fs.content name = some (written ++ (atStart s name).drop written.length) := by
  unfold Unharmed atStart
  by_cases hcached : Uncached s name
  · rw [if_pos hcached, if_pos hcached, List.drop_nil, List.append_nil]
  · rw [if_neg hcached, if_neg hcached]
    constructor
    · rintro ⟨rest, hcontent⟩
      rw [hcontent, Option.getD_some, List.drop_left]
    · exact fun hcontent => ⟨_, hcontent⟩

/-- In any state that a run reaches, a `put` of any object, however its system calls come out,
    leaves a client what it got before, if it returns an error, exactly if it is harmless. -/
theorem put_keeps_iff (h : (system T).Reachable s) :
    Keeps T out s key typecode data flags ↔ Harmless T out s key typecode data flags := by
  have hidle := idle_of_reachable h
  constructor
  · intro hkeeps name image hkey hdata hopens
    obtain ⟨s', hput, hidle', hcontent, hlow⟩ := putWith_opens hkey hdata hidle hopens
    by_cases hshort : out.written < image.length
    · right
      rw [if_pos hshort] at hput
      have hsame := hkeeps _ s' hput (by decide)
      rw [unharmed_iff]
      apply content_eq_of_answers (T := T)
      intro g
      rw [← hcontent, ← answer_eq hkey hidle' (hlow hshort),
        ← answer_eq hkey hidle hopens.evictable]
      exact hsame g
    · exact .inl (Nat.le_of_not_lt hshort)
  · intro hharmless code s' hput hcode g
    obtain ⟨file, hkey, hput'⟩ := bind_eq_ok.1 hput
    cases file with
    | none =>
      -- the key cannot be marshalled
      cases hput'
      rfl
    | some name =>
      obtain ⟨scratch, hdata, hput'⟩ := bind_eq_ok.1 hput'
      cases scratch with
      | none =>
        cases hput'
        rfl
      | some image =>
        by_cases hopens : Opens out.openFails s name flags
        · obtain ⟨s₁, hput₁, hidle', hcontent, hlow⟩ := putWith_opens hkey hdata hidle hopens
          rw [hput₁] at hput
          obtain ⟨rfl, rfl⟩ := Prod.mk.inj (Except.ok.inj hput)
          by_cases hshort : out.written < image.length
          · have hunharmed := (hharmless name image hkey hdata hopens).resolve_left
              (Nat.not_le.2 hshort)
            rw [unharmed_iff, ← hcontent] at hunharmed
            rw [answer_eq hkey hidle' (hlow hshort), answer_eq hkey hidle hopens.evictable,
              hunharmed]
          · rw [if_neg hshort] at hcode
            exact absurd rfl hcode
        · rcases putWith_not_opens hkey hdata hidle hopens with
            ⟨fault, hput₁⟩ | ⟨_, s₁, hput₁, -, hidle', hcontent, hsame⟩
          · rw [hput₁] at hput
            cases hput
          · rw [hput₁] at hput
            obtain ⟨rfl, rfl⟩ := Prod.mk.inj (Except.ok.inj hput)
            rcases hsame with rfl | ⟨hlow, hlow'⟩
            · rfl
            · rw [answer_eq hkey hidle' hlow', answer_eq hkey hidle hlow, hcontent]

/-- The write stops where the file that was emptied had stopped before. -/
theorem put_keeps_iff_prefix :
    Keeps flagTable ⟨false, 1⟩ (stored [9]) (flagKey true) 0 [.fixed (.u8 9), .fixed (.u8 8)]
      ⟨true, false⟩ := by
  refine (put_keeps_iff (reachable_stored flagTable [9])).2 fun name image hkey hdata _ => .inr ?_
  have hname : flagTable.filename (flagKey true) = .ok (some (flagPath true)) := by decide +kernel
  have himage : flagTable.marshal 0 [.fixed (.u8 9), .fixed (.u8 8)] = .ok (some [9, 8]) := by
    decide +kernel
  rw [hname] at hkey
  rw [himage] at hdata
  obtain rfl := Option.some.inj (Except.ok.inj hkey)
  obtain rfl := Option.some.inj (Except.ok.inj hdata)
  rw [Unharmed, if_pos (by decide +kernel)]
  decide +kernel

/-- Nothing can be written over an object: it is gone. -/
theorem not_put_keeps :
    ¬ Keeps flagTable ⟨false, 0⟩ (stored [9]) (flagKey true) 0 [.fixed (.u8 8)] ⟨true, false⟩ := by
  intro hkeeps
  have hcode : (flagTable.putWith ⟨false, 0⟩ (stored [9]) (flagKey true) 0 [.fixed (.u8 8)]
      ⟨true, false⟩).map (fun r => r.1) = .ok .DS_ERR := by decide +kernel
  have hafter : (flagTable.putWith ⟨false, 0⟩ (stored [9]) (flagKey true) 0 [.fixed (.u8 8)]
      ⟨true, false⟩ >>= fun r => (answer flagTable r.2 (flagKey true)
        (.single [.fixed (.u8 0)] fun _ => 0)).map fun a => a.1) = .ok .DS_ERR := by decide +kernel
  have hbefore : (answer flagTable (stored [9]) (flagKey true)
      (.single [.fixed (.u8 0)] fun _ => 0)).map (fun a => a.1) = .ok .DS_OK := by decide +kernel
  cases hput : flagTable.putWith ⟨false, 0⟩ (stored [9]) (flagKey true) 0 [.fixed (.u8 8)]
      ⟨true, false⟩ with
  | error fault =>
    rw [hput] at hcode
    cases hcode
  | ok r =>
    obtain ⟨code, s'⟩ := r
    rw [hput] at hcode hafter
    obtain rfl := Except.ok.inj hcode
    rw [ok_bind, hkeeps _ s' hput (by decide), hbefore] at hafter
    cases hafter

end Oasys.FileSystemTable
