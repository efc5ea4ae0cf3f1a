import Mathlib.Data.List.Forall2
import Oasys.Spec.FileSystemTableFiles
import Oasys.Spec.FileSystemTableObjects

/-!
# FileSystemTable correctness

A table against a plain map from keys to objects: the same calls get the same answers,
whatever cache the store has. `Sim` relates the files to the map. A file begins with what
`marshal` wrote for the object last put; behind that there may be bytes of an older and
longer one, which `put` through a cached descriptor leaves there, and which no one reads.

`Proper` is what the interface asks of a call: that an object can be written, and is read
into an object of its type. `Careful` keeps clear of what the table gets wrong.
-/

namespace Oasys.FileSystemTable

open Wire (encode encodeAll)

variable {T : FileSystemTable}

/-! ### The runs -/

/-- The calls of a client. A `get` comes with what is in the uninitialised locals. -/
inductive Op (Key : Type) where
  | put (key : Key) (typecode : UInt32) (data : SerializableObject) (flags : DurableStoreFlags)
  | get (key : Key) (data : SerializableObject) (uninitialised : Nat → UInt32)
  | getTyped (key : Key) (allocator : UInt32 → Option SerializableObject)
      (uninitialised : Nat → UInt32)
  | del (key : Key)

/-- What a call returns: the code and, where that is `DS_OK`, the object of a `get`. -/
structure Answer where
  code : DurableStoreResult
  data : Option SerializableObject

def Answer.Agrees (a b : Answer) : Prop := a.code = b.code ∧ Option.Rel AllSame a.data b.data

variable {Key : Type}

/-- A call of a table whose keys are marshalled as `ser` says. -/
def exec (T : FileSystemTable) (ser : Key → SerializableObject) (s : State) :
    Op Key → Except Fault (Answer × State)
  | .put key typecode data flags => do
    let (code, s) ← T.put s (ser key) typecode data flags
    pure (⟨code, none⟩, s)
  | .get key data uninitialised => do
    let (code, data, s) ← T.get s (ser key) data uninitialised
    pure (⟨code, if code = .DS_OK then some data else none⟩, s)
  | .getTyped key allocator uninitialised => do
    let (code, data, s) ← T.getTyped s (ser key) allocator uninitialised
    pure (⟨code, if code = .DS_OK then data else none⟩, s)
  | .del key => do
    let (code, s) ← T.del s (ser key)
    pure (⟨code, none⟩, s)

/-- One call after another. -/
def run (T : FileSystemTable) (ser : Key → SerializableObject) :
    State → List (Op Key) → Except Fault (List Answer × State)
  | s, [] => pure ([], s)
  | s, op :: ops => do
    let (a, s) ← T.exec ser s op
    let (as, s) ← run T ser s ops
    pure (a :: as, s)

/-- A plain map: the objects by their keys, each with its type code. -/
abbrev Contents (Key : Type) := Key → Option (UInt32 × SerializableObject)

def Contents.empty : Contents Key := fun _ => none

def Contents.get (m : Contents Key) (key : Key) : Answer :=
  match m key with
  | none => ⟨.DS_NOTFOUND, none⟩
  | some e => ⟨.DS_OK, some e.2⟩

variable [DecidableEq Key]

/-- A call of a plain map. -/
def Contents.exec (m : Contents Key) : Op Key → Answer × Contents Key
  | .put key typecode data flags =>
    match m key with
    | none =>
      if flags.DS_CREATE then (⟨.DS_OK, none⟩, Function.update m key (some (typecode, data)))
      else (⟨.DS_NOTFOUND, none⟩, m)
    | some _ =>
      if flags.DS_EXCL then (⟨.DS_EXISTS, none⟩, m)
      else (⟨.DS_OK, none⟩, Function.update m key (some (typecode, data)))
  | .get key _ _ => (m.get key, m)
  | .getTyped key _ _ => (m.get key, m)
  | .del key =>
    match m key with
    | none => (⟨.DS_NOTFOUND, none⟩, m)
    | some _ => (⟨.DS_OK, none⟩, Function.update m key none)

def Contents.run : Contents Key → List (Op Key) → List Answer
  | _, [] => []
  | m, op :: ops => (m.exec op).1 :: Contents.run (m.exec op).2 ops

/-- The table answers a sequence of calls as a plain map does. -/
def Refines (T : FileSystemTable) (ser : Key → SerializableObject) (s : State)
    (ops : List (Op Key)) : Prop :=
  ∃ as s', T.run ser s ops = .ok (as, s') ∧
    List.Forall₂ Answer.Agrees (Contents.run .empty ops) as

/-! ### The calls that a client may make -/

/-- A call as the interface asks for it: an object that is put can be written, and one that
    is got is read into a new object of its type, by the `get` of the kind of the table. -/
def Proper (T : FileSystemTable) (m : Contents Key) : Op Key → Prop
  | .put _ _ data _ => AllFit data
  | .get key data _ => T.multitype_ = false ∧
      ∀ e, m key = some e → AllSameType e.2 data ∧ AllFresh data
  | .getTyped key allocator _ => T.multitype_ = true ∧
      ∀ e, m key = some e → ∃ data, allocator e.1 = some data ∧ AllSameType e.2 data ∧
        AllFresh data
  | .del _ => True

def ProperRun (T : FileSystemTable) : Contents Key → List (Op Key) → Prop
  | _, [] => True
  | m, op :: ops => Proper T m op ∧ ProperRun T (m.exec op).2 ops

/-- A call that keeps clear of what the table gets wrong. No `put` asks for a new file
    without the flag that makes one, under a name that is there and not in the cache, for
    `open` then ignores the flag; no object that is got has bytes in carriers, which would
    be left in the buffer of `get`; no descriptor is evicted that `evict` does not expect. -/
def Careful (names : Key → Path) (s : State) (m : Contents Key) : Op Key → Prop
  | .put key _ _ flags =>
    (flags.DS_EXCL = true → flags.DS_CREATE = false → Uncached s (names key) →
      s.fs.dir.lookup (names key) = none) ∧
    ((s.fs.openFile (names key) (openFlags flags)).isSome = true → Evictable s (names key))
  | .get key _ _ | .getTyped key _ _ =>
    (∀ e, m key = some e → allBare e.2 = true) ∧
    ((s.fs.dir.lookup (names key)).isSome = true → Evictable s (names key))
  | .del _ => True

/-- All calls of a sequence do. -/
def CarefulRun (T : FileSystemTable) (ser : Key → SerializableObject) (names : Key → Path) :
    State → Contents Key → List (Op Key) → Prop
  | _, _, [] => True
  | s, m, op :: ops => Careful names s m op ∧
    match T.exec ser s op with
    | .ok (_, s') => CarefulRun T ser names s' (m.exec op).2 ops
    | .error _ => True

omit [DecidableEq Key] in
/-- Whether a call is careful can be seen from the state. -/
instance decCareful (names : Key → Path) (s : State) (m : Contents Key) :
    ∀ op, Decidable (Careful names s m op)
  | .put key _ _ flags => inferInstanceAs (Decidable ((flags.DS_EXCL = true →
      flags.DS_CREATE = false → Uncached s (names key) → s.fs.dir.lookup (names key) = none) ∧ _))
  | .get key _ _ | .getTyped key _ _ =>
    inferInstanceAs (Decidable ((∀ e, e ∈ m key → allBare e.2 = true) ∧
      ((s.fs.dir.lookup (names key)).isSome = true → Evictable s (names key))))
  | .del _ => isTrue trivial

instance decCarefulRun (T : FileSystemTable) (ser : Key → SerializableObject)
    (names : Key → Path) : ∀ s m ops, Decidable (CarefulRun T ser names s m ops)
  | _, _, [] => isTrue trivial
  | s, m, op :: ops =>
    let _ : Decidable (match T.exec ser s op with
        | .ok (_, s') => CarefulRun T ser names s' (m.exec op).2 ops
        | .error _ => True) :=
      match T.exec ser s op with
      | .ok (_, s') => decCarefulRun T ser names s' (m.exec op).2 ops
      | .error _ => isTrue trivial
    inferInstanceAs (Decidable (Careful names s m op ∧ _))

/-! ### The simulation -/

/-- The file of a key holds what the map has under the key. -/
def Holds (T : FileSystemTable) : Option (UInt32 × SerializableObject) → Option (List UInt8) → Prop
  | none, bytes => bytes = none
  | some e, bytes => AllFit e.2 ∧ ∃ rest, bytes = some (T.image e.1 e.2 ++ rest)

/-- The files hold what the map has. -/
structure Sim (T : FileSystemTable) (names : Key → Path) (m : Contents Key) (s : State) :
    Prop where
  idle : Idle s
  holds : ∀ key, Holds T (m key) (s.fs.content (names key))

section Step

variable {ser : Key → SerializableObject} {names : Key → Path} {m : Contents Key} {s s' : State}
  {key : Key}

omit [DecidableEq Key] in
theorem Sim.keep (h : Sim T names m s) (hidle : Idle s') (hcontent : s'.fs.content = s.fs.content) :
    Sim T names m s' where
  idle := hidle
  holds key := by
    rw [hcontent]
    exact h.holds key

theorem Sim.update (h : Sim T names m s) (hinj : Function.Injective names) (hidle : Idle s')
    {e : Option (UInt32 × SerializableObject)} (hkey : Holds T e (s'.fs.content (names key)))
    (hothers : ∀ other, other ≠ names key → s'.fs.content other = s.fs.content other) :
    Sim T names (Function.update m key e) s' where
  idle := hidle
  holds key' := by
    -- other keys have other files
    by_cases hsame : key' = key
    · rw [hsame, Function.update_self]
      exact hkey
    · rw [Function.update_of_ne hsame, hothers _ fun heq => hsame (hinj heq)]
      exact h.holds key'

omit [DecidableEq Key] in
theorem Sim.lookup_none (h : Sim T names m s) (hkey : m key = none) :
    s.fs.dir.lookup (names key) = none := by
  have hholds := h.holds key
  rw [hkey] at hholds
  exact Option.map_eq_none_iff.1 hholds

omit [DecidableEq Key] in
theorem Sim.lookup_some (h : Sim T names m s) {e : UInt32 × SerializableObject}
    (hkey : m key = some e) : ∃ i, s.fs.dir.lookup (names key) = some i := by
  have hholds := h.holds key
  rw [hkey] at hholds
  obtain ⟨-, rest, hcontent⟩ := hholds
  obtain ⟨i, hname, -⟩ := Option.map_eq_some_iff.1 hcontent
  exact ⟨i, hname⟩

variable {code : DurableStoreResult}

theorem agrees_of_code {op : Op Key} {m' : Contents Key}
    (hexec : T.exec ser s op = .ok (⟨code, none⟩, s')) (hmap : m.exec op = (⟨code, none⟩, m'))
    (hsim : Sim T names m' s') :
    ∃ a s', T.exec ser s op = .ok (a, s') ∧ (m.exec op).1.Agrees a ∧
      Sim T names (m.exec op).2 s' := by
  rw [hmap]
  exact ⟨_, s', hexec, ⟨rfl, .none⟩, hsim⟩

variable {data : SerializableObject} {flags : DurableStoreFlags} {typecode : UInt32}

omit [DecidableEq Key] in
private theorem exec_put_eq (hput : T.put s (ser key) typecode data flags = .ok (code, s')) :
    T.exec ser s (.put key typecode data flags) = .ok (⟨code, none⟩, s') := by
  simp only [exec, hput, bind, Except.bind]
  rfl

omit [DecidableEq Key] in
private theorem exec_del_eq (hdel : T.del s (ser key) = .ok (code, s')) :
    T.exec ser s (.del key) = .ok (⟨code, none⟩, s') := by
  simp only [exec, hdel, bind, Except.bind]
  rfl

theorem exec_put (hnames : ∀ key, T.filename (ser key) = .ok (some (names key)))
    (hinj : Function.Injective names) (h : Sim T names m s)
    (hproper : Proper T m (.put key typecode data flags))
    (hcareful : Careful names s m (.put key typecode data flags)) :
    ∃ a s', T.exec ser s (.put key typecode data flags) = .ok (a, s') ∧
      (m.exec (.put key typecode data flags)).1.Agrees a ∧
      Sim T names (m.exec (.put key typecode data flags)).2 s' := by
  have hdata := marshal_eq (T := T) hproper typecode
  -- where `put` writes, it writes what the map then has
  have hwritten : ∀ s' rest, Idle s' →
      s'.fs.content (names key) = some (T.image typecode data ++ rest) →
      (∀ other, other ≠ names key → s'.fs.content other = s.fs.content other) →
      Sim T names (Function.update m key (some (typecode, data))) s' :=
    fun s' rest hidle hcontent hothers =>
      h.update hinj hidle ⟨hproper, rest, hcontent⟩ hothers
  cases hkey : m key with
  | none =>
    -- the map has no object, and there is no file
    have hname := h.lookup_none hkey
    cases hcreate : flags.DS_CREATE with
    | false =>
      exact agrees_of_code (exec_put_eq (put_missing (hnames key) hdata h.idle hname hcreate))
        (by simp [Contents.exec, hkey, hcreate]) h
    | true =>
      have hopen : (s.fs.openFile (names key) (openFlags flags)).isSome = true := by
        obtain ⟨fd, fs', hopen, -⟩ := FileSystem.openFile_new_spec hname (openFlags flags) hcreate
        rw [hopen]
        rfl
      obtain ⟨s', rest, hput, hidle, hcontent, hothers⟩ := put_stores (hnames key) hdata h.idle
        (hcareful.2 hopen) (by rw [hname]; exact hcreate)
      exact agrees_of_code (exec_put_eq hput) (by simp [Contents.exec, hkey, hcreate])
        (hwritten s' rest hidle hcontent hothers)
  | some e =>
    obtain ⟨i, hname⟩ := h.lookup_some hkey
    cases hexcl : flags.DS_EXCL with
    | false =>
      -- the object replaces another
      have hopen : (s.fs.openFile (names key) (openFlags flags)).isSome = true := by
        obtain ⟨fd, fs', hopen, -⟩ := FileSystem.openFile_present_spec hname (openFlags flags)
          (by simp [openFlags, hexcl])
        rw [hopen]
        rfl
      obtain ⟨s', rest, hput, hidle, hcontent, hothers⟩ := put_stores (hnames key) hdata h.idle
        (hcareful.2 hopen) (by rw [hname]; exact .inl hexcl)
      exact agrees_of_code (exec_put_eq hput) (by simp [Contents.exec, hkey, hexcl])
        (hwritten s' rest hidle hcontent hothers)
    | true =>
      -- `put` is to find no file, and there is one
      have hflags : flags.DS_CREATE = true ∨ ¬ Uncached s (names key) := by
        cases hcreate : flags.DS_CREATE with
        | true => exact .inl rfl
        | false =>
          refine .inr fun hcached => ?_
          rw [hcareful.1 hexcl hcreate hcached] at hname
          cases hname
      obtain ⟨s', hput, hidle, hcontent⟩ := put_exists (hnames key) hdata h.idle hname hflags hexcl
      exact agrees_of_code (exec_put_eq hput) (by simp [Contents.exec, hkey, hexcl])
        (h.keep hidle hcontent)

omit [DecidableEq Key] in
theorem Sim.getCommon (hnames : ∀ key, T.filename (ser key) = .ok (some (names key)))
    (h : Sim T names m s) {e : UInt32 × SerializableObject} (hkey : m key = some e)
    (hlow : (s.fs.dir.lookup (names key)).isSome = true → Evictable s (names key)) :
    AllFit e.2 ∧ ∃ buf s' rest, T.getCommon s (ser key) scratch = .ok (.DS_OK, buf, s') ∧
      Sim T names m s' ∧ buf.bytes.take buf.len_ = T.image e.1 e.2 ++ rest := by
  have hholds := h.holds key
  rw [hkey] at hholds
  obtain ⟨hfit, rest, hcontent⟩ := hholds
  obtain ⟨i, hname⟩ := h.lookup_some hkey
  obtain ⟨buf, s', hget, hidle, hsame, hbuf⟩ :=
    getCommon_present (hnames key) h.idle hcontent (hlow (by rw [hname]; rfl))
  exact ⟨hfit, buf, s', rest, hget, h.keep hidle hsame, hbuf⟩

variable {uninitialised : Nat → UInt32}

omit [DecidableEq Key] in
theorem exec_get
    (hnames : ∀ key, T.filename (ser key) = .ok (some (names key))) (h : Sim T names m s)
    (hproper : Proper T m (.get key data uninitialised))
    (hcareful : Careful names s m (.get key data uninitialised)) :
    ∃ a s', T.exec ser s (.get key data uninitialised) = .ok (a, s') ∧
      (m.get key).Agrees a ∧ Sim T names m s' := by
  have hsingle : assert (!T.multitype_) = .ok () := by
    rw [hproper.1]
    rfl
  cases hkey : m key with
  | none =>
    refine ⟨⟨.DS_NOTFOUND, none⟩, s, ?_, ?_, h⟩
    · simp only [exec, get, hsingle, bind, Except.bind,
        getCommon_absent (hnames key) h.idle (h.lookup_none hkey)]
      rfl
    · rw [Contents.get, hkey]
      exact ⟨rfl, .none⟩
  | some e =>
    obtain ⟨hfit, buf, s', rest, hget, hsim, hbuf⟩ := h.getCommon hnames hkey hcareful.2
    obtain ⟨htype, hfresh⟩ := hproper.2 e hkey
    -- in a table of single type the object starts the file
    have himage : buf.bytes.take buf.len_ = encodeAll e.2 ++ rest := by
      rw [hbuf, image, hproper.1]
      rfl
    have hat : Unmarshal.At ⟨encodeAll e.2 ++ rest, false, false, false⟩ uninitialised
        (Unmarshal.new (encodeAll e.2 ++ rest) false false uninitialised) (.start _) :=
      Unmarshal.at_new fun hdirty => nomatch hdirty
    obtain ⟨um, r, haction, hsame⟩ :=
      action_recovers hat rfl hfit (hcareful.1 e hkey) htype hfresh
    refine ⟨⟨.DS_OK, some (dangleAll r)⟩, s', ?_, ?_, hsim⟩
    · simp only [exec, get, hsingle, bind, Except.bind, hget, himage]
      simp only [ne_eq, not_true, if_false, haction]
      rfl
    · rw [Contents.get, hkey]
      exact ⟨rfl, .some hsame⟩

variable {allocator : UInt32 → Option SerializableObject}

omit [DecidableEq Key] in
theorem exec_getTyped
    (hnames : ∀ key, T.filename (ser key) = .ok (some (names key))) (h : Sim T names m s)
    (hproper : Proper T m (.getTyped key allocator uninitialised))
    (hcareful : Careful names s m (.getTyped key allocator uninitialised)) :
    ∃ a s', T.exec ser s (.getTyped key allocator uninitialised) = .ok (a, s') ∧
      (m.get key).Agrees a ∧ Sim T names m s' := by
  have hmulti : assert T.multitype_ = .ok () := by
    rw [hproper.1]
    rfl
  cases hkey : m key with
  | none =>
    refine ⟨⟨.DS_NOTFOUND, none⟩, s, ?_, ?_, h⟩
    · simp only [exec, getTyped, hmulti, bind, Except.bind,
        getCommon_absent (hnames key) h.idle (h.lookup_none hkey)]
      rfl
    · rw [Contents.get, hkey]
      exact ⟨rfl, .none⟩
  | some e =>
    obtain ⟨hfit, buf, s', rest, hget, hsim, hbuf⟩ := h.getCommon hnames hkey hcareful.2
    obtain ⟨data, hallocator, htype, hfresh⟩ := hproper.2 e hkey
    have himage : buf.bytes.take buf.len_ =
        encode (.fixed (.u32 e.1)) ++ (encodeAll e.2 ++ rest) := by
      rw [hbuf, image, hproper.1, if_pos rfl, List.append_assoc]
    -- the type code, and behind it the object
    have hat : Unmarshal.At ⟨encode (.fixed (.u32 e.1)) ++ (encodeAll e.2 ++ rest), false, false,
        false⟩ uninitialised (Unmarshal.new (encode (.fixed (.u32 e.1)) ++ (encodeAll e.2 ++ rest))
          false false uninitialised) (.start _) :=
      Unmarshal.at_new fun hdirty => nomatch hdirty
    obtain ⟨um₁, htypecode, hat₁⟩ := typecode_recovers (uninitialised 0) hat.newLocal
    obtain ⟨um₂, r, haction, hsame⟩ :=
      action_recovers hat₁ rfl hfit (hcareful.1 e hkey) htype hfresh
    refine ⟨⟨.DS_OK, some (dangleAll r)⟩, s', ?_, ?_, hsim⟩
    · simp only [exec, getTyped, hmulti, bind, Except.bind, hget, himage]
      simp only [ne_eq, not_true, if_false, Unmarshal.newLocal] at htypecode ⊢
      simp only [Unmarshal.new] at htypecode ⊢
      simp only [htypecode, hallocator, haction]
      rfl
    · rw [Contents.get, hkey]
      exact ⟨rfl, .some hsame⟩

theorem exec_del (hnames : ∀ key, T.filename (ser key) = .ok (some (names key)))
    (hinj : Function.Injective names) (h : Sim T names m s) :
    ∃ a s', T.exec ser s (.del key) = .ok (a, s') ∧ (m.exec (.del key)).1.Agrees a ∧
      Sim T names (m.exec (.del key)).2 s' := by
  cases hkey : m key with
  | none =>
    obtain ⟨s', hdel, hidle, hcontent⟩ := del_absent (hnames key) h.idle (h.lookup_none hkey)
    exact agrees_of_code (exec_del_eq hdel) (by simp only [Contents.exec, hkey])
      (h.keep hidle hcontent)
  | some e =>
    obtain ⟨i, hname⟩ := h.lookup_some hkey
    obtain ⟨s', hdel, hidle, hgone, hothers⟩ := del_present (hnames key) h.idle hname
    exact agrees_of_code (exec_del_eq hdel) (by simp only [Contents.exec, hkey])
      (h.update (e := none) hinj hidle hgone hothers)

theorem exec_refines (hnames : ∀ key, T.filename (ser key) = .ok (some (names key)))
    (hinj : Function.Injective names) (h : Sim T names m s) {op : Op Key}
    (hproper : Proper T m op) (hcareful : Careful names s m op) :
    ∃ a s', T.exec ser s op = .ok (a, s') ∧ (m.exec op).1.Agrees a ∧
      Sim T names (m.exec op).2 s' := by
  cases op with
  | put key typecode data flags => exact exec_put hnames hinj h hproper hcareful
  | get key data uninitialised => exact exec_get hnames h hproper hcareful
  | getTyped key allocator uninitialised => exact exec_getTyped hnames h hproper hcareful
  | del key => exact exec_del hnames hinj h

omit [DecidableEq Key] in
private theorem get_dangles {r : SerializableObject}
    (hget : T.get s (ser key) data uninitialised = .ok (.DS_OK, r, s')) :
    ∃ r₀, r = dangleAll r₀ := by
  obtain ⟨-, -, hget⟩ := bind_eq_ok.1 hget
  obtain ⟨⟨err, buf, s₁⟩, -, hget⟩ := bind_eq_ok.1 hget
  dsimp only at hget
  split at hget
  · rename_i hne
    exact absurd (Prod.mk.inj (Except.ok.inj hget)).1 hne
  · obtain ⟨⟨code, um, r₀⟩, -, hdone⟩ := bind_eq_ok.1 hget
    exact ⟨r₀, (Prod.mk.inj (Prod.mk.inj (Except.ok.inj hdone)).2).1.symm⟩

omit [DecidableEq Key] in
private theorem getTyped_dangles {r : SerializableObject}
    (hget : T.getTyped s (ser key) allocator uninitialised = .ok (.DS_OK, some r, s')) :
    ∃ r₀, r = dangleAll r₀ := by
  obtain ⟨-, -, hget⟩ := bind_eq_ok.1 hget
  obtain ⟨⟨err, buf, s₁⟩, -, hget⟩ := bind_eq_ok.1 hget
  dsimp only at hget
  split at hget
  · rename_i hne
    exact absurd (Prod.mk.inj (Except.ok.inj hget)).1 hne
  · obtain ⟨⟨um, typecode⟩, -, hget⟩ := bind_eq_ok.1 hget
    dsimp only at hget
    split at hget
    · cases hget
    · obtain ⟨⟨code, um, r₀⟩, -, hdone⟩ := bind_eq_ok.1 hget
      exact ⟨r₀, (Option.some.inj (Prod.mk.inj (Prod.mk.inj (Except.ok.inj hdone)).2).1).symm⟩

variable {a : Answer}

theorem careful_of_put
    (hnames : ∀ key, T.filename (ser key) = .ok (some (names key))) (h : Sim T names m s)
    (hproper : Proper T m (.put key typecode data flags))
    (hexec : T.exec ser s (.put key typecode data flags) = .ok (a, s'))
    (hagrees : (m.exec (.put key typecode data flags)).1.Agrees a) :
    Careful names s m (.put key typecode data flags) := by
  have hdata := marshal_eq (T := T) hproper typecode
  -- a `put` that returns has not met the assertion of an eviction
  have hlow : (s.fs.openFile (names key) (openFlags flags)).isSome = true →
      Evictable s (names key) := by
    intro hopen
    by_contra hhigh
    have herror : T.put s (ser key) typecode data flags = .error .assertFailed := by
      unfold put
      simp only [hnames key, hdata, bind, Except.bind, openForPut_high h.idle hopen hhigh]
    simp only [exec, herror, bind, Except.bind] at hexec
    cases hexec
  refine ⟨fun hexcl hcreate hcached => ?_, hlow⟩
  cases hname : s.fs.dir.lookup (names key) with
  | none => rfl
  | some i =>
    -- the file is opened and written, where the map refuses
    obtain ⟨fd, fs', hopen, -⟩ := FileSystem.openFile_present_spec hname (openFlags flags)
      (by simp [openFlags, hcreate])
    obtain ⟨s₁, rest, hput, -⟩ := put_stores (hnames key) hdata h.idle
      (hlow (by rw [hopen]; rfl)) (by rw [hname]; exact .inr ⟨hcreate, hcached⟩)
    simp only [exec, hput, bind, Except.bind] at hexec
    obtain ⟨rfl, -⟩ := Prod.mk.inj (Except.ok.inj hexec)
    have hcode := hagrees.1
    cases hkey : m key with
    | none =>
      rw [h.lookup_none hkey] at hname
      cases hname
    | some e =>
      simp only [Contents.exec, hkey, hexcl, if_true] at hcode
      cases hcode

omit [DecidableEq Key] in
private theorem evictable_of_getCommon {buf : ExpandableBuffer}
    {r : DurableStoreResult × ExpandableBuffer × State}
    (hnames : ∀ key, T.filename (ser key) = .ok (some (names key))) (h : Sim T names m s)
    (hget : T.getCommon s (ser key) buf = .ok r)
    (hname : (s.fs.dir.lookup (names key)).isSome = true) : Evictable s (names key) := by
  by_contra hhigh
  obtain ⟨i, hi⟩ := Option.isSome_iff_exists.1 hname
  unfold getCommon at hget
  simp only [hnames key, bind, Except.bind, openForGet_high h.idle hi hhigh] at hget
  cases hget

omit [DecidableEq Key] in
private theorem bare_of_agrees {e : UInt32 × SerializableObject}
    (h : Sim T names m s) (hkey : m key = some e) (hagrees : (m.get key).Agrees a)
    (hdangles : ∀ r, a = ⟨.DS_OK, some r⟩ → ∃ r₀, r = dangleAll r₀) : allBare e.2 = true := by
  obtain ⟨code, data⟩ := a
  rw [Contents.get, hkey] at hagrees
  obtain ⟨hcode, hdata⟩ := hagrees
  have hholds := h.holds key
  rw [hkey] at hholds
  obtain rfl : .DS_OK = code := hcode
  cases hdata with
  | some hsame =>
    obtain ⟨r₀, rfl⟩ := hdangles _ rfl
    exact AllSame.bare_of_dangle hholds.1 hsame

omit [DecidableEq Key] in
theorem careful_of_get
    (hnames : ∀ key, T.filename (ser key) = .ok (some (names key))) (h : Sim T names m s)
    (hexec : T.exec ser s (.get key data uninitialised) = .ok (a, s'))
    (hagrees : (m.get key).Agrees a) : Careful names s m (.get key data uninitialised) := by
  obtain ⟨⟨code, r, s₁⟩, hget, hdone⟩ := bind_eq_ok.1 hexec
  obtain ⟨rfl, -⟩ := Prod.mk.inj (Except.ok.inj hdone)
  constructor
  · intro e hkey
    apply bare_of_agrees h hkey hagrees
    intro r' ha
    obtain ⟨rfl, hr⟩ := Answer.mk.inj ha
    obtain rfl := Option.some.inj hr
    exact get_dangles hget
  · obtain ⟨-, -, hcommon⟩ := bind_eq_ok.1 hget
    obtain ⟨_, hread, -⟩ := bind_eq_ok.1 hcommon
    exact evictable_of_getCommon hnames h hread

omit [DecidableEq Key] in
theorem careful_of_getTyped
    (hnames : ∀ key, T.filename (ser key) = .ok (some (names key))) (h : Sim T names m s)
    (hexec : T.exec ser s (.getTyped key allocator uninitialised) = .ok (a, s'))
    (hagrees : (m.get key).Agrees a) :
    Careful names s m (.getTyped key allocator uninitialised) := by
  obtain ⟨⟨code, r, s₁⟩, hget, hdone⟩ := bind_eq_ok.1 hexec
  obtain ⟨rfl, -⟩ := Prod.mk.inj (Except.ok.inj hdone)
  constructor
  · intro e hkey
    apply bare_of_agrees h hkey hagrees
    intro r' ha
    obtain ⟨rfl, hr⟩ := Answer.mk.inj ha
    rw [if_pos rfl] at hr
    rw [hr] at hget
    exact getTyped_dangles hget
  · obtain ⟨-, -, hcommon⟩ := bind_eq_ok.1 hget
    obtain ⟨_, hread, -⟩ := bind_eq_ok.1 hcommon
    exact evictable_of_getCommon hnames h hread

theorem agrees_iff_careful (hnames : ∀ key, T.filename (ser key) = .ok (some (names key)))
    (hinj : Function.Injective names) (h : Sim T names m s) {op : Op Key}
    (hproper : Proper T m op) :
    (∃ a s', T.exec ser s op = .ok (a, s') ∧ (m.exec op).1.Agrees a) ↔
      Careful names s m op := by
  constructor
  · intro ⟨a, s', hexec, hagrees⟩
    cases op with
    | put key typecode data flags => exact careful_of_put hnames h hproper hexec hagrees
    | get key data uninitialised => exact careful_of_get hnames h hexec hagrees
    | getTyped key allocator uninitialised => exact careful_of_getTyped hnames h hexec hagrees
    | del key => trivial
  · intro hcareful
    obtain ⟨a, s', hexec, hagrees, -⟩ := exec_refines hnames hinj h hproper hcareful
    exact ⟨a, s', hexec, hagrees⟩

theorem run_refines_iff (hnames : ∀ key, T.filename (ser key) = .ok (some (names key)))
    (hinj : Function.Injective names) (h : Sim T names m s) {ops : List (Op Key)}
    (hproper : ProperRun T m ops) :
    (∃ as s', T.run ser s ops = .ok (as, s') ∧ List.Forall₂ Answer.Agrees (m.run ops) as) ↔
      CarefulRun T ser names s m ops := by
  induction ops generalizing m s with
  | nil => exact ⟨fun _ => trivial, fun _ => ⟨[], s, rfl, .nil⟩⟩
  | cons op ops ih =>
    have hfirst := agrees_iff_careful hnames hinj h hproper.1
    constructor
    · intro ⟨as, s', hrun, hall⟩
      obtain ⟨⟨a, s₁⟩, hexec, hrest⟩ := bind_eq_ok.1 hrun
      obtain ⟨⟨as₁, s₂⟩, htail, hdone⟩ := bind_eq_ok.1 hrest
      obtain ⟨rfl, -⟩ := Prod.mk.inj (Except.ok.inj hdone)
      obtain ⟨hagrees, hall⟩ := List.forall₂_cons.1 hall
      have hcareful := hfirst.1 ⟨a, s₁, hexec, hagrees⟩
      -- the files hold what the map has after the call, too
      obtain ⟨a', s₁', hexec', -, hsim⟩ := exec_refines hnames hinj h hproper.1 hcareful
      obtain ⟨rfl, rfl⟩ := Prod.mk.inj (Except.ok.inj (hexec.symm.trans hexec'))
      refine ⟨hcareful, ?_⟩
      rw [hexec]
      exact (ih hsim hproper.2).1 ⟨as₁, s₂, htail, hall⟩
    · intro ⟨hcareful, hrest⟩
      obtain ⟨a, s₁, hexec, hagrees, hsim⟩ := exec_refines hnames hinj h hproper.1 hcareful
      rw [hexec] at hrest
      obtain ⟨as, s', hrun, hall⟩ := (ih hsim hproper.2).2 hrest
      refine ⟨a :: as, s', ?_, .cons hagrees hall⟩
      simp only [run, hexec, bind, Except.bind, hrun]
      rfl

end Step

/-- A table none of whose files is there at first, with or without a cache of any size,
    answers a sequence of proper calls as a plain map does exactly if all are careful. -/
theorem refines_iff {ser : Key → SerializableObject} {names : Key → Path}
    (hnames : ∀ key, T.filename (ser key) = .ok (some (names key)))
    (hinj : Function.Injective names) {fs : FileSystem Path} (hlinks : fs.Linkless)
    (hempty : ∀ key, fs.dir.lookup (names key) = none) (size : Option Nat)
    {ops : List (Op Key)} (hproper : ProperRun T .empty ops) :
    Refines T ser (.new fs size) ops ↔ CarefulRun T ser names (.new fs size) .empty ops := by
  apply run_refines_iff hnames hinj _ hproper
  -- the empty map stands for a table without files
  refine ⟨idle_new hlinks size, fun key => ?_⟩
  show fs.content (names key) = none
  rw [FileSystem.content, hempty key]
  rfl

/-! ### Examples -/

def flagKey (b : Bool) : SerializableObject := [.fixed (.bool b)]

def flagPath (b : Bool) : Path := [116, 47, if b then 49 else 48, 45]

/-- Two objects in turn in a cache for one descriptor: one is replaced by a shorter one
    through the descriptor in the cache, and read after that descriptor has been evicted. -/
def flagOps : List (Op Bool) :=
  [.put false 0 [.string [1, 2, 3]] ⟨true, true⟩, .put false 0 [.string [4]] ⟨false, false⟩,
    .put true 0 [.fixed (.u8 5)] ⟨true, false⟩, .get false [.string []] (fun _ => 0),
    .del true, .get true [.fixed (.u8 0)] (fun _ => 0)]

def flagTable : FileSystemTable := ⟨[116], false⟩

theorem refines_iff_flags : Refines flagTable flagKey (.new .empty (some 1)) flagOps := by
  have hnames : ∀ key, flagTable.filename (flagKey key) = .ok (some (flagPath key)) := by
    intro key
    cases key <;> decide +kernel
  have hinj : Function.Injective flagPath := by
    intro a b h
    cases a <;> cases b <;> first | rfl | exact absurd h (by decide)
  have hproper : ProperRun flagTable .empty flagOps := by
    simp [flagOps, ProperRun, Proper, Contents.exec, Contents.empty, flagTable, AllFit,
      Field.Fits, AllSameType, Field.SameType, AllFresh, Field.Fresh, Function.update]
  apply (refines_iff hnames hinj FileSystem.linkless_empty (fun _ => rfl) (some 1) hproper).2
  decide +kernel

/-- A file is there, and `put` asks for a new one without the flag that makes one. -/
def exclOps : List (Op Bool) :=
  [.put false 0 [.fixed (.u8 1)] ⟨true, false⟩, .put false 0 [.fixed (.u8 2)] ⟨false, true⟩]

private theorem codes_eq {as bs : List Answer} (h : List.Forall₂ Answer.Agrees as bs) :
    as.map Answer.code = bs.map Answer.code := by
  induction h with
  | nil => rfl
  | cons hab _ ih => rw [List.map_cons, List.map_cons, hab.1, ih]

/-- `put` replaces the object of a key although it asks for a new one, and only a cache keeps
    it from doing so. -/
theorem not_refines_excl :
    ¬ Refines flagTable flagKey (.new .empty none) exclOps ∧
      (flagTable.run flagKey (.new .empty none) exclOps).map (fun r => r.1.map Answer.code) =
        .ok [.DS_OK, .DS_OK] ∧
      (flagTable.run flagKey (.new .empty (some 1)) exclOps).map
        (fun r => r.1.map Answer.code) = .ok [.DS_OK, .DS_EXISTS] := by
  have huncached : (flagTable.run flagKey (.new .empty none) exclOps).map
      (fun r => r.1.map Answer.code) = .ok [.DS_OK, .DS_OK] := by decide +kernel
  refine ⟨?_, huncached, by decide +kernel⟩
  intro ⟨as, s', hrun, hall⟩
  -- the map does not replace the object
  have hmap : (Contents.run .empty exclOps).map Answer.code = [.DS_OK, .DS_EXISTS] := rfl
  rw [codes_eq hall] at hmap
  rw [hrun] at huncached
  exact nomatch hmap.symm.trans (Except.ok.inj huncached)

end Oasys.FileSystemTable
