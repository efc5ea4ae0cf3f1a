import Oasys.Spec.PlainTable
import Oasys.Spec.RoundTrip
import Oasys.Storage.MemoryTables

/-!
# MemoryStore correctness

The tables of a store against plain maps, one for each name: the calls of a client get the
same answers, whatever handles they come by. `Sim` relates the items of a table to its map;
an item holds its key and its object as `Marshal` writes them.

`Proper` is what the interface asks of a call. `Careful` keeps clear of carriers with a
terminator, which `Unmarshal` reads back one byte longer than they were written.
-/

namespace Oasys.MemoryStore

open Wire (encodeAll)

/-! ### The calls -/

/-- The tables of a store, and the handles that `get_table` has returned so far. -/
structure State where
  tables_ : TableMap
  handles : List MemoryTable

def State.new : State := ⟨∅, []⟩

variable {Key : Type}

/-- The calls of a client, on the handle with the number `h`. -/
inductive Op (Key : Type) where
  | getTable (name : List UInt8) (flags : DurableStoreFlags) (multitype : Bool)
  | put (h : Nat) (key : Key) (typecode : UInt32) (data : SerializableObject)
      (flags : DurableStoreFlags)
  | get (h : Nat) (key : Key) (data : SerializableObject) (uninitialised : Nat → UInt32)
  | getTyped (h : Nat) (key : Key) (allocator : UInt32 → Option SerializableObject)
      (uninitialised : Nat → UInt32)
  | del (h : Nat) (key : Key)
  | size (h : Nat)
  /-- An iteration over the table, each key read into a new `key`. -/
  | keys (h : Nat) (key : SerializableObject) (uninitialised : Nat → UInt32)

/-- What a call returns. -/
inductive Answer where
  | code (c : DurableStoreResult)
  /-- Of a `get`, with the object where the code is `DS_OK`. -/
  | data (c : DurableStoreResult) (o : Option SerializableObject)
  | size (n : Nat)
  | keys (ks : List (DurableStoreResult × SerializableObject))

/-- The table behind a handle. -/
def State.items (s : State) (h : Nat) : Except Fault (MemoryTable × ItemMap) :=
  match s.handles[h]? with
  | none => throw .useAfterFree
  | some t =>
    match s.tables_[t.items_]? with
    | none => throw .useAfterFree
    | some items_ => return (t, items_)

def State.setItems (s : State) (t : MemoryTable) (items_ : ItemMap) : State :=
  { s with tables_ := s.tables_.insert t.items_ items_ }

/-- A call, where `ser` says how keys are serialized. -/
def exec (ser : Key → NamedObject) (s : State) : Op Key → Except Fault (Answer × State)
  | .getTable name flags multitype =>
    let (c, t, tables_) := getTable s.tables_ name flags multitype
    return (.code c, ⟨tables_, s.handles ++ t.toList⟩)
  | .put h key typecode data flags => do
    let (t, items_) ← s.items h
    let (c, items_) ← put items_ (ser key) typecode data flags
    return (.code c, s.setItems t items_)
  | .get h key data uninitialised => do
    let (t, items_) ← s.items h
    let (c, data) ← get t.multitype_ items_ (ser key) data uninitialised
    return (.data c (if c = .DS_OK then some data else none), s)
  | .getTyped h key allocator uninitialised => do
    let (t, items_) ← s.items h
    let (c, data) ← getTyped t.multitype_ items_ (ser key) allocator uninitialised
    return (.data c (if c = .DS_OK then data else none), s)
  | .del h key => do
    let (t, items_) ← s.items h
    let (c, items_) ← del items_ (ser key)
    return (.code c, s.setItems t items_)
  | .size h => do
    let (_, items_) ← s.items h
    return (.size (size items_), s)
  | .keys h key uninitialised => do
    let (_, items_) ← s.items h
    let ks ← enumerate items_ key uninitialised (items_.size + 1) .new
    return (.keys ks, s)

/-- One call after another. -/
def run (ser : Key → NamedObject) : State → List (Op Key) → Except Fault (List Answer × State)
  | s, [] => return ([], s)
  | s, op :: ops => do
    let (a, s) ← exec ser s op
    let (as, s) ← run ser s ops
    return (a :: as, s)

/-! ### Plain maps -/

/-- The contents of a table: objects with their type codes. -/
abbrev Contents (Key : Type) := PlainTable Key (UInt32 × SerializableObject)

/-- A plain map for each name, and the handles. -/
structure Plain (Key : Type) where
  tables : List UInt8 → Option (Contents Key)
  handles : List MemoryTable

def Plain.new : Plain Key := ⟨fun _ => none, []⟩

def Plain.at (p : Plain Key) (h : Nat) : Option (MemoryTable × Contents Key) := do
  let t ← p.handles[h]?
  let m ← p.tables t.items_
  return (t, m)

def Plain.set (p : Plain Key) (t : MemoryTable) (m : Contents Key) : Plain Key :=
  { p with tables := Function.update p.tables t.items_ (some m) }

/-- The code of `get_table`, and the tables after it. -/
def Plain.getTable (p : Plain Key) (name : List UInt8) (flags : DurableStoreFlags)
    (multitype : Bool) : DurableStoreResult × Plain Key :=
  match p.tables name with
  | none =>
    if flags.DS_CREATE then
      (.DS_OK, ⟨Function.update p.tables name (some .empty), p.handles ++ [⟨name, multitype⟩]⟩)
    else (.DS_NOTFOUND, p)
  | some _ =>
    if flags.DS_EXCL then (.DS_EXISTS, p)
    else (.DS_OK, { p with handles := p.handles ++ [⟨name, multitype⟩] })

section Plain

variable [DecidableEq Key]

/-- The maps after a call. -/
def Plain.next (p : Plain Key) : Op Key → Plain Key
  | .getTable name flags multitype => (p.getTable name flags multitype).2
  | .put h key typecode data flags =>
    match p.at h with
    | none => p
    | some (t, m) => p.set t (m.put key (typecode, data) flags).2
  | .del h key =>
    match p.at h with
    | none => p
    | some (t, m) => p.set t (m.del key).2
  | .get .. | .getTyped .. | .size _ | .keys .. => p

/-- The answer is that of the plain maps: to a `get` an equal object, and to an iteration
    each present key once, in the order of their strings `str`. -/
def Plain.Answers (ser : Key → NamedObject) (str : Key → List UInt8) (p : Plain Key) :
    Op Key → Answer → Prop
  | .getTable name flags multitype, a => a = .code (p.getTable name flags multitype).1
  | .put h key typecode data flags, a =>
    ∃ t m, p.at h = some (t, m) ∧ a = .code (m.put key (typecode, data) flags).1
  | .get h key _ _, a | .getTyped h key _ _, a =>
    ∃ t m o, p.at h = some (t, m) ∧ a = .data (m.get key).1 o ∧
      Option.Rel AllSame ((m.get key).2.map Prod.snd) o
  | .del h key, a => ∃ t m, p.at h = some (t, m) ∧ a = .code (m.del key).1
  | .size h, a => ∃ t m ks, p.at h = some (t, m) ∧ m.Lists ks ∧ a = .size ks.length
  | .keys h _ _, a => ∃ t m ks rs, p.at h = some (t, m) ∧ m.Lists ks ∧
      (ks.map str).Pairwise (fun x y => compare x y = .lt) ∧
      List.Forall₂ (fun k r => AllSame (toFields (ser k)) r) ks rs ∧
      a = .keys (rs.map fun r => (.DS_OK, r))

/-- The answers to one call after another are. -/
def Plain.AnswersAll (ser : Key → NamedObject) (str : Key → List UInt8) :
    Plain Key → List (Op Key) → List Answer → Prop
  | _, [], as => as = []
  | p, op :: ops, as =>
    ∃ a rest, as = a :: rest ∧ p.Answers ser str op a ∧
      Plain.AnswersAll ser str (p.next op) ops rest

/-- The store answers a sequence of calls as plain maps do. -/
def Refines (ser : Key → NamedObject) (str : Key → List UInt8) (ops : List (Op Key)) : Prop :=
  ∃ as s, run ser .new ops = .ok (as, s) ∧ Plain.AnswersAll ser str .new ops as

/-! ### The calls that a client may make -/

/-- A call as the interface asks for it: it is made on a handle, and with a key of its table;
    an object that is put can be written; an object or a key is read into a new object of
    its type, by the `get` of the kind of the handle. `dom` has the keys of each table. -/
def Proper (ser : Key → NamedObject) (dom : List UInt8 → Set Key) (p : Plain Key) :
    Op Key → Prop
  | .getTable .. => True
  | .put h key _ data _ => ∃ t m, p.at h = some (t, m) ∧ key ∈ dom t.items_ ∧ AllFit data
  | .get h key data _ => ∃ t m, p.at h = some (t, m) ∧ key ∈ dom t.items_ ∧
      t.multitype_ = false ∧ ∀ e, m key = some e → AllSameType e.2 data ∧ AllFresh data
  | .getTyped h key allocator _ => ∃ t m, p.at h = some (t, m) ∧ key ∈ dom t.items_ ∧
      t.multitype_ = true ∧ ∀ e, m key = some e →
        ∃ data, allocator e.1 = some data ∧ AllSameType e.2 data ∧ AllFresh data
  | .del h key => ∃ t m, p.at h = some (t, m) ∧ key ∈ dom t.items_
  | .size h => ∃ t m, p.at h = some (t, m)
  | .keys h key _ => ∃ t m, p.at h = some (t, m) ∧
      ∀ k e, m k = some e → AllSameType (toFields (ser k)) key ∧ AllFresh key

def ProperRun (ser : Key → NamedObject) (dom : List UInt8 → Set Key) :
    Plain Key → List (Op Key) → Prop
  | _, [] => True
  | p, op :: ops => Proper ser dom p op ∧ ProperRun ser dom (p.next op) ops

/-- A call that reads back no carrier with a terminator: the object that a `get` finds has
    none, and no key of a table that is iterated over. -/
def Careful (ser : Key → NamedObject) (p : Plain Key) : Op Key → Prop
  | .get h key _ _ | .getTyped h key _ _ =>
    ∀ t m, p.at h = some (t, m) → ∀ e, m key = some e → NoneTerminated e.2
  | .keys h _ _ =>
    ∀ t m, p.at h = some (t, m) → ∀ k e, m k = some e → NoneTerminated (toFields (ser k))
  | .getTable .. | .put .. | .del .. | .size _ => True

def CarefulRun (ser : Key → NamedObject) : Plain Key → List (Op Key) → Prop
  | _, [] => True
  | p, op :: ops => Careful ser p op ∧ CarefulRun ser (p.next op) ops

end Plain

/-! ### One table -/

/-- What an item holds. -/
structure HoldsItem (ser : Key → NamedObject) (key : Key) (e : UInt32 × SerializableObject)
    (item : Item) : Prop where
  fit : AllFit e.2
  typecode : item.typecode_ = e.1
  data : item.data_.bytes.take item.data_.len_ = encodeAll e.2
  key : item.key_.bytes.take item.key_.len_ = encodeAll (toFields (ser key))

/-- The items hold the map, and no others are there. -/
structure HoldsItems (ser : Key → NamedObject) (str : Key → List UInt8) (dom : Set Key)
    (m : Contents Key) (items_ : ItemMap) : Prop where
  sim : m.Sim dom str (HoldsItem ser) fun name => items_[name]?
  named : ∀ name, items_[name]?.isSome → ∃ k ∈ dom, str k = name

theorem marshalInto_eq (b : ExpandableBuffer) {o : SerializableObject} (ho : AllFit o) :
    ∃ b', marshalInto b o = .ok (0, b') ∧ b'.bytes.take b'.len_ = encodeAll o := by
  obtain ⟨m, hnew, hcrc, herr, hvalid, hnil, hroom⟩ := Marshal.newExpandable_spec b false false
  obtain ⟨m', haction, hw⟩ := Marshal.action_wrote hcrc hvalid ho (hroom _)
  obtain ⟨b', hb', hwritten⟩ := Marshal.expandable_of_room fun n => hw.room n (hroom _)
  refine ⟨b', ?_, ?_⟩
  · simp [marshalInto, hnew, haction, hb']
  · rw [← hwritten, hw.written_eq]
    show m.written ++ encodeAll o = encodeAll o
    rw [hnil, List.nil_append]

/-- An object is read back from the bytes written for it exactly if it has no carrier with
    a terminator. -/
theorem unmarshalFrom_iff {b : ExpandableBuffer} {o p : SerializableObject}
    (hb : b.bytes.take b.len_ = encodeAll o) (ho : AllFit o) (hop : AllSameType o p)
    (hp : AllFresh p) (uninitialised : Nat → UInt32) :
    (∃ r, unmarshalFrom b p uninitialised = .ok (0, r) ∧ AllSame o r) ↔ NoneTerminated o := by
  have hat : Unmarshal.At ⟨encodeAll o ++ [], false, false, false⟩ uninitialised
      (.new (encodeAll o ++ []) false false uninitialised) (.start (encodeAll o ++ [])) :=
    Unmarshal.at_new fun h => nomatch h
  rw [← hat.action_recovers_iff rfl ho hop hp]
  simp only [List.append_nil, unmarshalFrom, hb]
  constructor
  · intro ⟨r, hread, hsame⟩
    obtain ⟨⟨err, u', r'⟩, haction, hret⟩ := bind_eq_ok.1 hread
    simp only [pure_eq_ok, Except.ok.injEq, Prod.mk.injEq] at hret
    obtain ⟨rfl, rfl⟩ := hret
    exact ⟨u', r', haction, hsame⟩
  · intro ⟨u', r, haction, hsame⟩
    exact ⟨r, by simp [haction], hsame⟩

section Table

variable [DecidableEq Key] {ser : Key → NamedObject} {str : Key → List UInt8} {dom : Set Key}
  {m : Contents Key} {items_ : ItemMap} {key : Key}

theorem HoldsItems.insert (h : HoldsItems ser str dom m items_) (hinj : Set.InjOn str dom)
    (hdom : key ∈ dom) {e : UInt32 × SerializableObject} {item : Item}
    (hitem : HoldsItem ser key e item) :
    HoldsItems ser str dom (Function.update m key (some e)) (items_.insert (str key) item) where
  sim := by
    apply h.sim.update hinj hdom
    · simpa using hitem
    · intro other hother
      have : compare (str key) other ≠ .eq := by simpa using hother.symm
      simp [Std.TreeMap.getElem?_insert, this]
  named name hname := by
    by_cases heq : str key = name
    · exact ⟨key, hdom, heq⟩
    · have : compare (str key) name ≠ .eq := by simpa using heq
      rw [Std.TreeMap.getElem?_insert, if_neg this] at hname
      exact h.named name hname

theorem HoldsItems.erase (h : HoldsItems ser str dom m items_) (hinj : Set.InjOn str dom)
    (hdom : key ∈ dom) :
    HoldsItems ser str dom (Function.update m key none) (items_.erase (str key)) where
  sim := by
    apply h.sim.update hinj hdom
    · simp
    · intro other hother
      have : compare (str key) other ≠ .eq := by simpa using hother.symm
      simp [Std.TreeMap.getElem?_erase, this]
  named name hname := by
    rw [Std.TreeMap.getElem?_erase] at hname
    split at hname
    · cases hname
    · exact h.named name hname

/-- `put` answers as the map does, and the items then hold the map. -/
theorem put_spec (h : HoldsItems ser str dom m items_) (hinj : Set.InjOn str dom)
    (hstr : StringSerialize.tableKey (ser key) = .ok (str key))
    (hkey : AllFit (toFields (ser key))) (hdom : key ∈ dom) (typecode : UInt32)
    {data : SerializableObject} (hdata : AllFit data) (flags : DurableStoreFlags) :
    ∃ items', put items_ (ser key) typecode data flags =
        .ok ((m.put key (typecode, data) flags).1, items') ∧
      HoldsItems ser str dom (m.put key (typecode, data) flags).2 items' := by
  -- what is stored, over whatever the item held
  have hstore : ∀ item : Item, ∃ key_ data_,
      marshalInto item.key_ (toFields (ser key)) = .ok (0, key_) ∧
      marshalInto item.data_ data = .ok (0, data_) ∧
      HoldsItems ser str dom (Function.update m key (some (typecode, data)))
        (items_.insert (str key) ⟨key_, data_, typecode⟩) := by
    intro item
    obtain ⟨key_, hkey_, hkeybytes⟩ := marshalInto_eq item.key_ hkey
    obtain ⟨data_, hdata_, hdatabytes⟩ := marshalInto_eq item.data_ hdata
    exact ⟨key_, data_, hkey_, hdata_, h.insert hinj hdom ⟨hdata, rfl, hdatabytes, hkeybytes⟩⟩
  cases hm : m key with
  | none =>
    have hnone := h.sim.none hdom hm
    cases hcreate : flags.DS_CREATE with
    | false =>
      refine ⟨items_, ?_, ?_⟩
      · simp [put, hstr, hnone, PlainTable.put, hm, hcreate]
      · simpa [PlainTable.put, hm, hcreate] using h
    | true =>
      obtain ⟨key_, data_, hkey_, hdata_, hholds⟩ := hstore .new
      refine ⟨items_.insert (str key) ⟨key_, data_, typecode⟩, ?_, ?_⟩
      · simp [put, hstr, hnone, PlainTable.put, hm, hcreate, hkey_, hdata_]
      · simpa [PlainTable.put, hm, hcreate] using hholds
  | some e =>
    obtain ⟨-, item, hitem, -⟩ := h.sim.some hm
    cases hexcl : flags.DS_EXCL with
    | true =>
      refine ⟨items_, ?_, ?_⟩
      · simp [put, hstr, hitem, PlainTable.put, hm, hexcl]
      · simpa [PlainTable.put, hm, hexcl] using h
    | false =>
      obtain ⟨key_, data_, hkey_, hdata_, hholds⟩ := hstore item
      refine ⟨items_.insert (str key) ⟨key_, data_, typecode⟩, ?_, ?_⟩
      · simp [put, hstr, hitem, PlainTable.put, hm, hexcl, hkey_, hdata_]
      · simpa [PlainTable.put, hm, hexcl] using hholds

theorem del_spec (h : HoldsItems ser str dom m items_) (hinj : Set.InjOn str dom)
    (hstr : StringSerialize.tableKey (ser key) = .ok (str key)) (hdom : key ∈ dom) :
    ∃ items', del items_ (ser key) = .ok ((m.del key).1, items') ∧
      HoldsItems ser str dom (m.del key).2 items' := by
  cases hm : m key with
  | none =>
    have hnone := h.sim.none hdom hm
    refine ⟨items_, ?_, ?_⟩
    · simp [del, hstr, hnone, PlainTable.del, hm]
    · simpa [PlainTable.del, hm] using h
  | some e =>
    obtain ⟨-, item, hitem, -⟩ := h.sim.some hm
    refine ⟨items_.erase (str key), ?_, ?_⟩
    · simp [del, hstr, hitem, PlainTable.del, hm]
    · simpa [PlainTable.del, hm] using h.erase hinj hdom

omit [DecidableEq Key] in
theorem get_iff (h : HoldsItems ser str dom m items_)
    (hstr : StringSerialize.tableKey (ser key) = .ok (str key)) (hdom : key ∈ dom)
    {data : SerializableObject} (htype : ∀ e, m key = some e → AllSameType e.2 data ∧ AllFresh data)
    (uninitialised : Nat → UInt32) :
    (∃ r, get false items_ (ser key) data uninitialised = .ok ((m.get key).1, r) ∧
      ∀ e, m key = some e → AllSame e.2 r) ↔
      ∀ e, m key = some e → NoneTerminated e.2 := by
  cases hm : m key with
  | none =>
    have hnone := h.sim.none hdom hm
    simp [get, hstr, hnone, PlainTable.get, hm]
  | some e =>
    obtain ⟨-, item, hitem, hholds⟩ := h.sim.some hm
    obtain ⟨hop, hp⟩ := htype e hm
    have hread := unmarshalFrom_iff hholds.data hholds.fit hop hp uninitialised
    have hget : ∀ r, get false items_ (ser key) data uninitialised = .ok (.DS_OK, r) ↔
        unmarshalFrom item.data_ data uninitialised = .ok (0, r) := by
      intro r
      cases hun : unmarshalFrom item.data_ data uninitialised with
      | error f => simp [get, hstr, hitem, hun]
      | ok q =>
        obtain ⟨err, r'⟩ := q
        by_cases herr : err = 0 <;> simp [get, hstr, hitem, hun, herr]
    simp only [PlainTable.get, hm, hget, Option.some.injEq, forall_eq']
    exact hread

omit [DecidableEq Key] in
theorem getTyped_iff (h : HoldsItems ser str dom m items_)
    (hstr : StringSerialize.tableKey (ser key) = .ok (str key)) (hdom : key ∈ dom)
    {allocator : UInt32 → Option SerializableObject}
    (htype : ∀ e, m key = some e →
      ∃ data, allocator e.1 = some data ∧ AllSameType e.2 data ∧ AllFresh data)
    (uninitialised : Nat → UInt32) :
    (∃ r, getTyped true items_ (ser key) allocator uninitialised = .ok ((m.get key).1, r) ∧
      Option.Rel AllSame ((m.get key).2.map Prod.snd) r) ↔
      ∀ e, m key = some e → NoneTerminated e.2 := by
  cases hm : m key with
  | none =>
    have hnone := h.sim.none hdom hm
    simp [getTyped, hstr, hnone, PlainTable.get, hm]
  | some e =>
    obtain ⟨-, item, hitem, hholds⟩ := h.sim.some hm
    obtain ⟨data, hallocator, hop, hp⟩ := htype e hm
    have hread := unmarshalFrom_iff hholds.data hholds.fit hop hp uninitialised
    have hget : ∀ r, getTyped true items_ (ser key) allocator uninitialised = .ok (.DS_OK, some r) ↔
        unmarshalFrom item.data_ data uninitialised = .ok (0, r) := by
      intro r
      cases hun : unmarshalFrom item.data_ data uninitialised with
      | error f => simp [getTyped, hstr, hitem, hholds.typecode, hallocator, hun]
      | ok q =>
        obtain ⟨err, r'⟩ := q
        by_cases herr : err = 0 <;>
          simp [getTyped, hstr, hitem, hholds.typecode, hallocator, hun, herr]
    simp only [PlainTable.get, hm, Option.map_some, Option.some.injEq, forall_eq']
    rw [← hread]
    constructor
    · intro h
      obtain ⟨r, hr, hrel⟩ := h
      cases hrel with
      | some hsame => exact ⟨_, (hget _).1 hr, hsame⟩
    · intro h
      obtain ⟨r, hr, hsame⟩ := h
      exact ⟨some r, (hget r).2 hr, .some hsame⟩

end Table

/-! ### Iteration -/

def readKey (key : SerializableObject) (uninitialised : Nat → UInt32) (item : Item) :
    Except Fault (DurableStoreResult × SerializableObject) := do
  let (err, key) ← unmarshalFrom item.key_ key uninitialised
  return (if err ≠ 0 then .DS_ERR else .DS_OK, key)

theorem enumerate_from (items_ : ItemMap) (key : SerializableObject)
    (uninitialised : Nat → UInt32) (x : List UInt8 × Item) (l : List (List UInt8 × Item))
    {fuel : Nat} (hfuel : l.length < fuel) :
    enumerate items_ key uninitialised fuel ⟨false, x :: l⟩ =
      l.mapM fun e => readKey key uninitialised e.2 := by
  induction l generalizing x fuel with
  | nil =>
    obtain ⟨fuel, rfl⟩ := Nat.exists_eq_add_of_lt hfuel
    simp [enumerate, MemoryIterator.next]
  | cons y l ih =>
    obtain ⟨fuel, rfl⟩ : ∃ n, fuel = n + 1 := ⟨fuel - 1, by simp at hfuel; omega⟩
    have hnext : (MemoryIterator.mk false (x :: y :: l)).next items_ =
        .ok (.DS_OK, ⟨false, y :: l⟩) := rfl
    have hkey : (MemoryIterator.mk false (y :: l)).getKey key uninitialised =
        readKey key uninitialised y.2 := rfl
    have hlt : l.length < fuel := by simpa using hfuel
    rw [List.mapM_cons, enumerate, hnext, ok_bind]
    simp [hkey, ih y hlt]

theorem enumerate_eq (items_ : ItemMap) (key : SerializableObject)
    (uninitialised : Nat → UInt32) :
    enumerate items_ key uninitialised (items_.size + 1) .new =
      items_.toList.mapM fun e => readKey key uninitialised e.2 := by
  have hlt : items_.toList.length < items_.size + 1 := by simp
  -- the first `next` goes to the first item
  rw [← enumerate_from items_ key uninitialised ([], .new) items_.toList hlt]
  rfl

theorem mapM_eq_ok_iff {α β γ : Type} {f : α → Except Fault (γ × β)} {c : γ} {R : Key → β → Prop}
    {l : List α} {ks : List Key} :
    (∃ rs, l.mapM f = .ok (rs.map fun r => (c, r)) ∧ List.Forall₂ R ks rs) ↔
      List.Forall₂ (fun a k => ∃ r, f a = .ok (c, r) ∧ R k r) l ks := by
  induction l generalizing ks with
  | nil =>
    constructor
    · intro ⟨rs, hrs, hall⟩
      cases rs with
      | nil =>
        cases hall
        exact .nil
      | cons r rs => cases hrs
    · intro h
      cases h
      exact ⟨[], rfl, .nil⟩
  | cons a l ih =>
    rw [List.mapM_cons]
    constructor
    · intro ⟨rs, hrs, hall⟩
      obtain ⟨q, ha, hrest⟩ := bind_eq_ok.1 hrs
      obtain ⟨qs, hl, hret⟩ := bind_eq_ok.1 hrest
      cases hall with
      | nil => cases hret
      | @cons k r ks rs hr hall =>
        obtain ⟨rfl, rfl⟩ := List.cons.inj (Except.ok.inj hret)
        exact .cons ⟨r, ha, hr⟩ (ih.1 ⟨rs, hl, hall⟩)
    · intro h
      cases h with
      | cons hr hall =>
        obtain ⟨r, ha, hr⟩ := hr
        obtain ⟨rs, hl, hall⟩ := ih.2 hall
        exact ⟨r :: rs, by simp [ha, hl], .cons hr hall⟩

/-- Pairs that are related have, or do not have, what the one says of the pair and the
    other of its second part. -/
theorem forall₂_iff_forall {α : Type} {P B : α → Key → Prop} {Q : Key → Prop} {l : List α}
    {ks : List Key} (hbase : List.Forall₂ B l ks)
    (h : ∀ a ∈ l, ∀ k ∈ ks, B a k → (P a k ↔ Q k)) :
    List.Forall₂ P l ks ↔ ∀ k ∈ ks, Q k := by
  induction hbase with
  | nil => simp
  | cons hb _ ih =>
    rw [List.forall₂_cons, h _ (by simp) _ (by simp) hb, List.forall_mem_cons,
      ih fun a ha k hk => h a (by simp [ha]) k (by simp [hk])]

section Keys

variable {ser : Key → NamedObject} {str : Key → List UInt8} {dom : Set Key} {m : Contents Key}
  {items_ : ItemMap}

/-- The items are in the order of the strings of the keys that the map has. -/
theorem HoldsItems.keys (h : HoldsItems ser str dom m items_) (hinj : Set.InjOn str dom) :
    ∃ ks : List Key, ks.map str = items_.keys ∧ m.Lists ks := by
  have hchoose : ∀ names : List (List UInt8), (∀ name ∈ names, name ∈ items_.keys) →
      ∃ ks : List Key, ks.map str = names ∧ ∀ k ∈ ks, k ∈ dom := by
    intro names hnames
    induction names with
    | nil => exact ⟨[], rfl, by simp⟩
    | cons name names ih =>
      obtain ⟨ks, rfl, hdom⟩ := ih fun n hn => hnames n (by simp [hn])
      have hname : name ∈ items_ := by simpa using hnames name (by simp)
      obtain ⟨k, hk, rfl⟩ := h.named name (Std.TreeMap.mem_iff_isSome_getElem?.1 hname)
      exact ⟨k :: ks, rfl, by simpa [hk] using hdom⟩
  obtain ⟨ks, hks, hdom⟩ := hchoose items_.keys fun _ hn => hn
  have hnodup : (ks.map str).Nodup := hks ▸ Std.TreeMap.nodup_keys
  refine ⟨ks, hks, hnodup.of_map _, fun k => ?_⟩
  constructor
  · intro hk
    have hmem : str k ∈ items_ := by
      rw [← Std.TreeMap.mem_keys, ← hks]
      exact List.mem_map_of_mem hk
    by_contra hnone
    have hlookup := h.sim.none (hdom k hk) (by simpa using hnone)
    simp [Std.TreeMap.mem_iff_isSome_getElem?, hlookup] at hmem
  · intro hk
    obtain ⟨e, he⟩ := Option.isSome_iff_exists.1 hk
    obtain ⟨hkdom, item, hitem, -⟩ := h.sim.some he
    have hmem : str k ∈ ks.map str := by
      rw [hks, Std.TreeMap.mem_keys, Std.TreeMap.mem_iff_isSome_getElem?, hitem]
      rfl
    obtain ⟨k', hk', heq⟩ := List.mem_map.1 hmem
    exact hinj (hdom k' hk') hkdom heq ▸ hk'

theorem lists_unique {ks ks' : List Key} (h : m.Lists ks) (h' : m.Lists ks')
    (hks : (ks.map str).Pairwise fun x y => compare x y = .lt)
    (hks' : (ks'.map str).Pairwise fun x y => compare x y = .lt) : ks = ks' := by
  have hperm : ks.Perm ks' :=
    (List.perm_ext_iff_of_nodup h.1 h'.1).2 fun k => (h.2 k).trans (h'.2 k).symm
  refine hperm.eq_of_pairwise ?_ (List.pairwise_map.1 hks) (List.pairwise_map.1 hks')
  intro k k' _ _ hlt hgt
  -- no two strings are each before the other
  have hswap : compare (str k) (str k') = (compare (str k') (str k)).swap :=
    Std.OrientedCmp.eq_swap
  rw [hgt, hlt] at hswap
  cases hswap

theorem size_spec (h : HoldsItems ser str dom m items_) (hinj : Set.InjOn str dom) :
    ∃ ks, m.Lists ks ∧ size items_ = ks.length := by
  obtain ⟨ks, hks, hlists⟩ := h.keys hinj
  refine ⟨ks, hlists, ?_⟩
  rw [size, ← Std.TreeMap.length_keys, ← hks, List.length_map]

/-- An iteration returns each present key once, in the order of the strings, exactly if no
    key has a carrier with a terminator. -/
theorem keys_iff (h : HoldsItems ser str dom m items_) (hinj : Set.InjOn str dom)
    (hfit : ∀ k, AllFit (toFields (ser k))) {key : SerializableObject}
    (htype : ∀ k e, m k = some e → AllSameType (toFields (ser k)) key ∧ AllFresh key)
    (uninitialised : Nat → UInt32) :
    (∃ ks rs, m.Lists ks ∧ (ks.map str).Pairwise (fun x y => compare x y = .lt) ∧
      List.Forall₂ (fun k r => AllSame (toFields (ser k)) r) ks rs ∧
      enumerate items_ key uninitialised (items_.size + 1) .new =
        .ok (rs.map fun r => (.DS_OK, r))) ↔
      ∀ k e, m k = some e → NoneTerminated (toFields (ser k)) := by
  obtain ⟨ks, hks, hlists⟩ := h.keys hinj
  have hordered : (ks.map str).Pairwise fun x y => compare x y = .lt :=
    hks ▸ Std.TreeMap.ordered_keys
  -- the items stand in the order of the keys
  have hitems : List.Forall₂ (fun (e : List UInt8 × Item) k => e.1 = str k) items_.toList ks := by
    have heq : List.Forall₂ (· = ·) (items_.toList.map Prod.fst) (ks.map str) := by
      rw [List.forall₂_eq_eq_eq, Std.TreeMap.map_fst_toList_eq_keys, hks]
    rwa [List.forall₂_map_left_iff, List.forall₂_map_right_iff] at heq
  have hread : ∀ e ∈ items_.toList, ∀ k ∈ ks, e.1 = str k →
      ((∃ r, readKey key uninitialised e.2 = .ok (.DS_OK, r) ∧ AllSame (toFields (ser k)) r) ↔
        NoneTerminated (toFields (ser k))) := by
    intro e he k hk hname
    obtain ⟨v, hv⟩ := Option.isSome_iff_exists.1 ((hlists.2 k).1 hk)
    obtain ⟨-, item, hitem, hholds⟩ := h.sim.some hv
    have hlookup : items_[str k]? = some e.2 :=
      Std.TreeMap.mem_toList_iff_getElem?_eq_some.1 (hname ▸ he)
    obtain rfl : item = e.2 := Option.some.inj (hitem.symm.trans hlookup)
    obtain ⟨hop, hp⟩ := htype k v hv
    rw [← unmarshalFrom_iff hholds.key (hfit k) hop hp uninitialised]
    have hcode : ∀ r, readKey key uninitialised e.2 = .ok (.DS_OK, r) ↔
        unmarshalFrom e.2.key_ key uninitialised = .ok (0, r) := by
      intro r
      cases hun : unmarshalFrom e.2.key_ key uninitialised with
      | error f => simp [readKey, hun]
      | ok q =>
        obtain ⟨err, r'⟩ := q
        by_cases herr : err = 0 <;> simp [readKey, hun, herr]
    simp only [hcode]
  have hall := mapM_eq_ok_iff.trans (forall₂_iff_forall hitems hread)
  rw [← enumerate_eq] at hall
  have hpresent : (∀ k ∈ ks, NoneTerminated (toFields (ser k))) ↔
      ∀ k e, m k = some e → NoneTerminated (toFields (ser k)) := by
    simp only [hlists.2, Option.isSome_iff_exists, forall_exists_index]
  rw [← hpresent, ← hall]
  constructor
  · intro ⟨ks', rs, hlists', hordered', hsame, hrun⟩
    obtain rfl := lists_unique hlists hlists' hordered hordered'
    exact ⟨rs, hrun, hsame⟩
  · intro ⟨rs, hrun, hsame⟩
    exact ⟨ks, rs, hlists, hordered, hsame, hrun⟩

end Keys

/-! ### The store -/

/-- The tables of the store hold the maps. -/
structure Sim (ser : Key → NamedObject) (str : Key → List UInt8) (dom : List UInt8 → Set Key)
    (p : Plain Key) (s : State) : Prop where
  handles : s.handles = p.handles
  tables : ∀ name, Option.Rel (HoldsItems ser str (dom name)) (p.tables name) s.tables_[name]?

section Step

variable {ser : Key → NamedObject} {str : Key → List UInt8} {dom : List UInt8 → Set Key}
  {p : Plain Key} {s s' : State} {h : Nat} {t : MemoryTable} {m : Contents Key} {a : Answer}

theorem Plain.forall_at (hat : p.at h = some (t, m)) {P : Contents Key → Prop} :
    (∀ t' m', p.at h = some (t', m') → P m') ↔ P m := by
  simp only [hat, Option.some.injEq, Prod.mk.injEq]
  constructor
  · intro hall
    exact hall t m ⟨rfl, rfl⟩
  · rintro hm _ _ ⟨rfl, rfl⟩
    exact hm

theorem sim_new : Sim ser str dom (.new : Plain Key) .new where
  handles := rfl
  tables name := by simp [Plain.new, State.new]

theorem holdsItems_empty (dom : Set Key) : HoldsItems ser str dom .empty ∅ where
  sim := ⟨fun k _ => by simp [PlainTable.empty], fun _ _ => rfl⟩
  named name hname := by simp at hname

theorem Sim.items (hsim : Sim ser str dom p s) (hat : p.at h = some (t, m)) :
    ∃ items_, s.items h = .ok (t, items_) ∧ HoldsItems ser str (dom t.items_) m items_ := by
  simp only [Plain.at, Option.bind_eq_bind, Option.bind_eq_some_iff, Option.pure_def,
    Option.some.injEq, Prod.mk.injEq] at hat
  obtain ⟨t, ht, m, hm, rfl, rfl⟩ := hat
  have hrel := hsim.tables t.items_
  rw [hm] at hrel
  cases hitems : s.tables_[t.items_]? with
  | none =>
    rw [hitems] at hrel
    cases hrel
  | some items_ =>
    rw [hitems] at hrel
    cases hrel with
    | some hholds => exact ⟨items_, by simp [State.items, hsim.handles, ht, hitems], hholds⟩

theorem Sim.set (hsim : Sim ser str dom p s) {items_ : ItemMap}
    (hholds : HoldsItems ser str (dom t.items_) m items_) :
    Sim ser str dom (p.set t m) (s.setItems t items_) where
  handles := hsim.handles
  tables name := by
    by_cases hname : name = t.items_
    · subst hname
      simpa [Plain.set, State.setItems] using hholds
    · have : compare t.items_ name ≠ .eq := by simpa using Ne.symm hname
      simpa [Plain.set, State.setItems, hname, Std.TreeMap.getElem?_insert, this] using
        hsim.tables name

theorem getTable_spec (hsim : Sim ser str dom p s) (name : List UInt8)
    (flags : DurableStoreFlags) (multitype : Bool) :
    ∃ s', exec ser s (.getTable name flags multitype) =
        .ok (.code (p.getTable name flags multitype).1, s') ∧
      Sim ser str dom (p.getTable name flags multitype).2 s' := by
  have hrel := hsim.tables name
  cases hp : p.tables name with
  | none =>
    rw [hp] at hrel
    cases hs : s.tables_[name]? with
    | some items_ =>
      rw [hs] at hrel
      cases hrel
    | none =>
      cases hcreate : flags.DS_CREATE with
      | false =>
        refine ⟨s, ?_, ?_⟩
        · simp [exec, getTable, Plain.getTable, hp, hs, hcreate]
        · simpa [Plain.getTable, hp, hcreate] using hsim
      | true =>
        refine ⟨⟨s.tables_.insert name ∅, s.handles ++ [⟨name, multitype⟩]⟩, ?_, ?_, ?_⟩
        · simp [exec, getTable, Plain.getTable, hp, hs, hcreate]
        · simp [Plain.getTable, hp, hcreate, hsim.handles]
        · intro other
          by_cases hother : other = name
          · subst hother
            simpa [Plain.getTable, hp, hcreate] using holdsItems_empty _
          · have : compare name other ≠ .eq := by simpa using Ne.symm hother
            simpa [Plain.getTable, hp, hcreate, hother, Std.TreeMap.getElem?_insert, this] using
              hsim.tables other
  | some m =>
    rw [hp] at hrel
    cases hs : s.tables_[name]? with
    | none =>
      rw [hs] at hrel
      cases hrel
    | some items_ =>
      cases hexcl : flags.DS_EXCL with
      | true =>
        refine ⟨s, ?_, ?_⟩
        · simp [exec, getTable, Plain.getTable, hp, hs, hexcl]
        · simpa [Plain.getTable, hp, hexcl] using hsim
      | false =>
        refine ⟨{ s with handles := s.handles ++ [⟨name, multitype⟩] }, ?_, ?_, ?_⟩
        · simp [exec, getTable, Plain.getTable, hp, hs, hexcl]
        · simp [Plain.getTable, hp, hexcl, hsim.handles]
        · simpa [Plain.getTable, hp, hexcl] using hsim.tables

variable [DecidableEq Key] {op : Op Key}

/-- A proper call that returns leaves the tables as the maps are after it. -/
theorem exec_sim (hstr : ∀ k, StringSerialize.tableKey (ser k) = .ok (str k))
    (hinj : ∀ name, Set.InjOn str (dom name)) (hfit : ∀ k, AllFit (toFields (ser k)))
    (hsim : Sim ser str dom p s) (hproper : Proper ser dom p op)
    (hexec : exec ser s op = .ok (a, s')) : Sim ser str dom (p.next op) s' := by
  cases op with
  | getTable name flags multitype =>
    obtain ⟨s₁, hrun, hsim'⟩ := getTable_spec hsim name flags multitype
    rw [hrun] at hexec
    cases hexec
    exact hsim'
  | put h key typecode data flags =>
    obtain ⟨t, m, hat, hdom, hdata⟩ := hproper
    obtain ⟨items_, hitems, hholds⟩ := hsim.items hat
    obtain ⟨items', hput, hholds'⟩ :=
      put_spec hholds (hinj _) (hstr key) (hfit key) hdom typecode hdata flags
    simp only [exec, hitems, hput, ok_bind, pure_eq_ok, Except.ok.injEq, Prod.mk.injEq] at hexec
    obtain ⟨-, rfl⟩ := hexec
    simpa [Plain.next, hat] using hsim.set hholds'
  | del h key =>
    obtain ⟨t, m, hat, hdom⟩ := hproper
    obtain ⟨items_, hitems, hholds⟩ := hsim.items hat
    obtain ⟨items', hdel, hholds'⟩ := del_spec hholds (hinj _) (hstr key) hdom
    simp only [exec, hitems, hdel, ok_bind, pure_eq_ok, Except.ok.injEq, Prod.mk.injEq] at hexec
    obtain ⟨-, rfl⟩ := hexec
    simpa [Plain.next, hat] using hsim.set hholds'
  | get h key data uninitialised =>
    obtain ⟨_, -, hexec⟩ := bind_eq_ok.1 hexec
    obtain ⟨_, -, hexec⟩ := bind_eq_ok.1 hexec
    cases hexec
    exact hsim
  | getTyped h key allocator uninitialised =>
    obtain ⟨_, -, hexec⟩ := bind_eq_ok.1 hexec
    obtain ⟨_, -, hexec⟩ := bind_eq_ok.1 hexec
    cases hexec
    exact hsim
  | size h =>
    obtain ⟨_, -, hexec⟩ := bind_eq_ok.1 hexec
    cases hexec
    exact hsim
  | keys h key uninitialised =>
    obtain ⟨_, -, hexec⟩ := bind_eq_ok.1 hexec
    obtain ⟨_, -, hexec⟩ := bind_eq_ok.1 hexec
    cases hexec
    exact hsim

/-- A proper call gets the answer of the maps exactly if it is careful. -/
theorem exec_answers_iff (hstr : ∀ k, StringSerialize.tableKey (ser k) = .ok (str k))
    (hinj : ∀ name, Set.InjOn str (dom name)) (hfit : ∀ k, AllFit (toFields (ser k)))
    (hsim : Sim ser str dom p s) (hproper : Proper ser dom p op) :
    (∃ a s', exec ser s op = .ok (a, s') ∧ p.Answers ser str op a) ↔ Careful ser p op := by
  cases op with
  | getTable name flags multitype =>
    obtain ⟨s', hrun, -⟩ := getTable_spec hsim name flags multitype
    exact ⟨fun _ => trivial, fun _ => ⟨_, s', hrun, rfl⟩⟩
  | put h key typecode data flags =>
    obtain ⟨t, m, hat, hdom, hdata⟩ := hproper
    obtain ⟨items_, hitems, hholds⟩ := hsim.items hat
    obtain ⟨items', hput, -⟩ :=
      put_spec hholds (hinj _) (hstr key) (hfit key) hdom typecode hdata flags
    refine ⟨fun _ => trivial, fun _ => ⟨_, s.setItems t items', ?_, t, m, hat, rfl⟩⟩
    simp [exec, hitems, hput]
  | del h key =>
    obtain ⟨t, m, hat, hdom⟩ := hproper
    obtain ⟨items_, hitems, hholds⟩ := hsim.items hat
    obtain ⟨items', hdel, -⟩ := del_spec hholds (hinj _) (hstr key) hdom
    refine ⟨fun _ => trivial, fun _ => ⟨_, s.setItems t items', ?_, t, m, hat, rfl⟩⟩
    simp [exec, hitems, hdel]
  | size h =>
    obtain ⟨t, m, hat⟩ := hproper
    obtain ⟨items_, hitems, hholds⟩ := hsim.items hat
    obtain ⟨ks, hlists, hsize⟩ := size_spec hholds (hinj _)
    refine ⟨fun _ => trivial, fun _ => ⟨_, s, ?_, t, m, ks, hat, hlists, rfl⟩⟩
    simp [exec, hitems, hsize]
  | get h key data uninitialised =>
    obtain ⟨t, m, hat, hdom, hmulti, htype⟩ := hproper
    obtain ⟨items_, hitems, hholds⟩ := hsim.items hat
    have hcareful : Careful ser p (.get h key data uninitialised) ↔
        ∀ e, m key = some e → NoneTerminated e.2 := by
      exact Plain.forall_at hat
    rw [hcareful, ← get_iff hholds (hstr key) hdom htype uninitialised, ← hmulti]
    constructor
    · intro h
      obtain ⟨a, s', hexec, t', m', o, hat', ha, hrel⟩ := h
      obtain ⟨rfl, rfl⟩ : t = t' ∧ m = m' := by simpa [hat] using hat'
      simp only [exec, hitems, ok_bind] at hexec
      obtain ⟨⟨c, r⟩, hget, hret⟩ := bind_eq_ok.1 hexec
      simp only [pure_eq_ok, Except.ok.injEq, Prod.mk.injEq] at hret
      obtain ⟨rfl, rfl⟩ := hret
      obtain ⟨rfl, rfl⟩ := Answer.data.inj ha
      refine ⟨r, hget, fun e he => ?_⟩
      simpa [PlainTable.get, he] using hrel
    · intro h
      obtain ⟨r, hget, hsame⟩ := h
      refine ⟨.data (m.get key).1 (if (m.get key).1 = .DS_OK then some r else none), s, ?_, t, m,
        _, hat, rfl, ?_⟩
      · simp [exec, hitems, hget]
      · cases hm : m key with
        | none => simp [PlainTable.get, hm]
        | some e => simpa [PlainTable.get, hm] using hsame e hm
  | getTyped h key allocator uninitialised =>
    obtain ⟨t, m, hat, hdom, hmulti, htype⟩ := hproper
    obtain ⟨items_, hitems, hholds⟩ := hsim.items hat
    have hcareful : Careful ser p (.getTyped h key allocator uninitialised) ↔
        ∀ e, m key = some e → NoneTerminated e.2 := by
      exact Plain.forall_at hat
    rw [hcareful, ← getTyped_iff hholds (hstr key) hdom htype uninitialised, ← hmulti]
    -- an object is answered only with `DS_OK`
    have hcode : ∀ r, Option.Rel AllSame ((m.get key).2.map Prod.snd) r →
        (if (m.get key).1 = .DS_OK then r else none) = r := by
      intro r hrel
      cases hm : m key with
      | none =>
        simp only [PlainTable.get, hm, Option.map_none] at hrel
        cases hrel
        simp
      | some e => simp [PlainTable.get, hm]
    constructor
    · intro h
      obtain ⟨a, s', hexec, t', m', o, hat', ha, hrel⟩ := h
      obtain ⟨rfl, rfl⟩ : t = t' ∧ m = m' := by simpa [hat] using hat'
      simp only [exec, hitems, ok_bind] at hexec
      obtain ⟨⟨c, r⟩, hget, hret⟩ := bind_eq_ok.1 hexec
      simp only [pure_eq_ok, Except.ok.injEq, Prod.mk.injEq] at hret
      obtain ⟨rfl, rfl⟩ := hret
      obtain ⟨rfl, rfl⟩ := Answer.data.inj ha
      refine ⟨r, hget, ?_⟩
      cases hm : m key with
      | none =>
        have hnone := hholds.sim.none hdom hm
        simp only [getTyped, hmulti, assert_true, hstr, hnone, ok_bind, pure_eq_ok,
          Except.ok.injEq, Prod.mk.injEq] at hget
        obtain ⟨-, rfl⟩ := hget
        simp [PlainTable.get, hm]
      | some e => simpa [PlainTable.get, hm] using hrel
    · intro h
      obtain ⟨r, hget, hrel⟩ := h
      refine ⟨.data (m.get key).1 r, s, ?_, t, m, r, hat, rfl, hrel⟩
      simp [exec, hitems, hget, hcode r hrel]
  | keys h key uninitialised =>
    obtain ⟨t, m, hat, htype⟩ := hproper
    obtain ⟨items_, hitems, hholds⟩ := hsim.items hat
    have hcareful : Careful ser p (.keys h key uninitialised) ↔
        ∀ k e, m k = some e → NoneTerminated (toFields (ser k)) := by
      exact Plain.forall_at hat
    rw [hcareful, ← keys_iff hholds (hinj _) hfit htype uninitialised]
    constructor
    · intro h
      obtain ⟨a, s', hexec, t', m', ks, rs, hat', hlists, hordered, hsame, ha⟩ := h
      obtain ⟨rfl, rfl⟩ : t = t' ∧ m = m' := by simpa [hat] using hat'
      simp only [exec, hitems, ok_bind] at hexec
      obtain ⟨ks', hrun, hret⟩ := bind_eq_ok.1 hexec
      simp only [pure_eq_ok, Except.ok.injEq, Prod.mk.injEq] at hret
      obtain ⟨rfl, rfl⟩ := hret
      obtain rfl := Answer.keys.inj ha
      exact ⟨ks, rs, hlists, hordered, hsame, hrun⟩
    · intro h
      obtain ⟨ks, rs, hlists, hordered, hsame, hrun⟩ := h
      refine ⟨_, s, ?_, t, m, ks, rs, hat, hlists, hordered, hsame, rfl⟩
      simp [exec, hitems, hrun]

theorem run_answers_iff (hstr : ∀ k, StringSerialize.tableKey (ser k) = .ok (str k))
    (hinj : ∀ name, Set.InjOn str (dom name)) (hfit : ∀ k, AllFit (toFields (ser k)))
    (hsim : Sim ser str dom p s) {ops : List (Op Key)} (hproper : ProperRun ser dom p ops) :
    (∃ as s', run ser s ops = .ok (as, s') ∧ p.AnswersAll ser str ops as) ↔
      CarefulRun ser p ops := by
  induction ops generalizing p s with
  | nil => exact ⟨fun _ => trivial, fun _ => ⟨[], s, rfl, rfl⟩⟩
  | cons op ops ih =>
    have hfirst := exec_answers_iff hstr hinj hfit hsim hproper.1
    constructor
    · intro ⟨as, s', hrun, a, rest, has, hanswers, hall⟩
      obtain ⟨⟨a₁, s₁⟩, hexec, hrest⟩ := bind_eq_ok.1 hrun
      obtain ⟨⟨as₁, s₂⟩, htail, hret⟩ := bind_eq_ok.1 hrest
      simp only [pure_eq_ok, Except.ok.injEq, Prod.mk.injEq] at hret
      obtain ⟨rfl, rfl⟩ := hret
      obtain ⟨rfl, rfl⟩ := List.cons.inj has
      have hsim' := exec_sim hstr hinj hfit hsim hproper.1 hexec
      exact ⟨hfirst.1 ⟨a₁, s₁, hexec, hanswers⟩,
        (ih hsim' hproper.2).1 ⟨as₁, s₂, htail, hall⟩⟩
    · intro ⟨hcareful, hrest⟩
      obtain ⟨a, s₁, hexec, hanswers⟩ := hfirst.2 hcareful
      have hsim' := exec_sim hstr hinj hfit hsim hproper.1 hexec
      obtain ⟨as, s', hrun, hall⟩ := (ih hsim' hproper.2).2 hrest
      refine ⟨a :: as, s', ?_, a, as, rfl, hanswers, hall⟩
      simp [run, hexec, hrun]

/-- A store that is new answers a sequence of proper calls, whose keys have strings that
    differ within a table, as plain maps do exactly if all calls are careful. -/
theorem tables_refine_iff (hstr : ∀ k, StringSerialize.tableKey (ser k) = .ok (str k))
    (hinj : ∀ name, Set.InjOn str (dom name)) (hfit : ∀ k, AllFit (toFields (ser k)))
    {ops : List (Op Key)} (hproper : ProperRun ser dom .new ops) :
    Refines ser str ops ↔ CarefulRun ser .new ops :=
  run_answers_iff hstr hinj hfit sim_new hproper

end Step

/-! ### Examples -/

def flagKey (b : Bool) : NamedObject := [([107], .basic (.bool b))]

def flagString (b : Bool) : List UInt8 := if b then ascii "true" else ascii "false"

private theorem tableKey_flagKey (b : Bool) :
    StringSerialize.tableKey (flagKey b) = .ok (flagString b) := by
  cases b <;> decide +kernel

private theorem flagString_injOn (dom : Set Bool) : Set.InjOn flagString dom := by
  intro a _ b _ h
  cases a <;> cases b <;> first | rfl | exact absurd h (by decide)

private theorem allFit_flagKey (b : Bool) : AllFit (toFields (flagKey b)) := ⟨trivial, trivial⟩

/-- Two handles on a table of several types: an object that is put by the one is replaced by
    a shorter one of another type by the other. -/
def sharedOps : List (Op Bool) :=
  [.getTable [116] ⟨true, true⟩ true, .getTable [116] ⟨false, false⟩ true,
    .put 0 false 7 [.string [1, 2, 3]] ⟨true, true⟩,
    .put 1 false 8 [.fixed (.u8 4)] ⟨false, false⟩,
    .getTyped 0 false (fun c => if c = 8 then some [.fixed (.u8 0)] else none) fun _ => 0,
    .keys 1 [.fixed (.bool true)] fun _ => 0, .del 1 false, .size 0]

theorem tables_refine_iff_shared : Refines flagKey flagString sharedOps := by
  have hproper : ProperRun flagKey (fun _ => Set.univ) .new sharedOps := by
    simp [sharedOps, ProperRun, Proper, Plain.next, Plain.at, Plain.getTable, Plain.new,
      Plain.set, PlainTable.put, PlainTable.del, PlainTable.empty, Function.update, toFields,
      flagKey, Value.toField, Basic.toField, AllFit, Field.Fits, AllSameType, Field.SameType,
      FixedField.SameType, AllFresh, Field.Fresh]
  apply (tables_refine_iff tableKey_flagKey (fun _ => flagString_injOn _) allFit_flagKey hproper).2
  simp [sharedOps, CarefulRun, Careful, Plain.next, Plain.at, Plain.getTable, Plain.new,
    Plain.set, PlainTable.put, PlainTable.empty, NoneTerminated, Field.NoTerminated,
    Function.update, toFields, flagKey, Value.toField, Basic.toField]

/-- A carrier with a terminator, put and read back. -/
def terminatedOps : List (Op Bool) :=
  [.getTable [116] ⟨true, false⟩ false,
    .put 0 false 0 [.terminated ⟨some [65, 0], 2⟩ 0] ⟨true, false⟩,
    .get 0 false [.terminated .new 0] fun _ => 0]

/-- It comes back one byte longer. -/
theorem not_refines_terminated : ¬ Refines flagKey flagString terminatedOps := by
  have hproper : ProperRun flagKey (fun _ => Set.univ) .new terminatedOps := by
    simp [terminatedOps, ProperRun, Proper, Plain.next, Plain.at, Plain.getTable, Plain.new,
      Plain.set, PlainTable.put, PlainTable.empty, Function.update, AllFit, Field.Fits,
      AllSameType, Field.SameType, AllFresh, Field.Fresh]
    exact ⟨⟨[65], ⟨[], rfl⟩, by decide, rfl⟩, by decide⟩
  intro h
  have hcareful := (run_answers_iff tableKey_flagKey (fun _ => flagString_injOn _)
    allFit_flagKey sim_new hproper).1 h
  simp [terminatedOps, CarefulRun, Careful, Plain.next, Plain.at, Plain.getTable, Plain.new,
    Plain.set, PlainTable.put, PlainTable.empty, NoneTerminated, Field.NoTerminated,
    Function.update] at hcareful

end Oasys.MemoryStore
