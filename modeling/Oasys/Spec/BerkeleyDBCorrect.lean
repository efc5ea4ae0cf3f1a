import Oasys.Spec.FileSystemTableObjects
import Oasys.Spec.MarshalSizeCorrect
import Oasys.Spec.MemoryStoreCorrect
import Oasys.Storage.BerkeleyDBTable

/-!
# BerkeleyDBTable correctness

A table against a plain map from marshalled keys to objects with their type codes. `put` and
`get` flatten a key into a buffer that can grow, `del` into one of 256 bytes, so a longer key
can be put and never removed. And `get` unmarshals from a record that it frees, so what the
carriers of an object point at is gone.
-/

namespace Oasys.BerkeleyDBTable

open Wire (encode encodeAll)
open MarshalSize (miscountAll)

/-! ### The calls -/

/-- What a `get` reads into, with what is in the uninitialised locals. -/
inductive Target where
  | into (data : SerializableObject) (uninitialised : Nat → UInt32)
  | typed (allocator : UInt32 → Option SerializableObject) (uninitialised : Nat → UInt32)

/-- The calls. An object comes with its type code. -/
abbrev Call := TableCall SerializableObject (UInt32 × SerializableObject) Target

/-- The map that the table stands for: the keys are known by their bytes. -/
abbrev Contents := PlainTable (List UInt8) (UInt32 × SerializableObject)

/-- A call of the table. -/
def exec (multitype_ : Bool) (db : Db) :
    Call → Except Fault (TableAnswer SerializableObject × Db)
  | .put key val flags => do
    let (code, db) ← put multitype_ db key val.1 val.2 flags
    pure (⟨code, none⟩, db)
  | .get key (.into data uninitialised) => do
    let (code, data) ← get multitype_ db key data uninitialised
    pure (⟨code, if code = .DS_OK then some data else none⟩, db)
  | .get key (.typed allocator uninitialised) => do
    let (code, data) ← getTyped multitype_ db key allocator uninitialised
    pure (⟨code, if code = .DS_OK then data else none⟩, db)
  | .del key => do
    let (code, db) ← del db key
    pure (⟨code, none⟩, db)

def spec (m : Contents) (c : Call) : TableAnswer (UInt32 × SerializableObject) × Contents :=
  m.call encodeAll c

def SameObject (e : UInt32 × SerializableObject) (r : SerializableObject) : Prop := AllSame e.2 r

def Refines (multitype_ : Bool) (cs : List Call) : Prop :=
  Answering.Refines spec (exec multitype_) (TableAnswer.Agrees SameObject) .empty (fun _ => none) cs

def ProperKey (key : SerializableObject) : Prop := AllFit key ∧ encodeAll key ≠ []

/-- A call as the interface asks for it: a key and an object can be written, and an object is
    read into a new one of its type, by the `get` of the kind of the table. -/
def Proper (multitype_ : Bool) (m : Contents) : Call → Prop
  | .put key val _ => ProperKey key ∧ AllFit val.2
  | .get key (.into data _) => ProperKey key ∧ multitype_ = false ∧
      ∀ e, m (encodeAll key) = some e → AllSameType e.2 data ∧ AllFresh data
  | .get key (.typed allocator _) => ProperKey key ∧ multitype_ = true ∧
      ∀ e, m (encodeAll key) = some e →
        ∃ data, allocator e.1 = some data ∧ AllSameType e.2 data ∧ AllFresh data
  | .del key => ProperKey key

/-- `MarshalSize` counts the bytes of the object, of which there are fewer than a `DBT` can
    hold, with the type code if there is one. -/
def Counted (o : SerializableObject) : Prop :=
  miscountAll o = 0 ∧ (encodeAll o).length + 4 < 2 ^ 32

def CountedCall : Call → Prop
  | .put key val _ => Counted key ∧ Counted val.2
  | .get key _ | .del key => Counted key

/-- A call that keeps clear of what the table gets wrong: no carrier of an object that is got
    has bytes, and a key that is removed has no more than 256. -/
def Careful (m : Contents) : Call → Prop
  | .put .. => True
  | .get key _ => ∀ e, m (encodeAll key) = some e → allBare e.2 = true
  | .del key => (encodeAll key).length ≤ 256

/-! ### Bytes -/

def record (multitype_ : Bool) (e : UInt32 × SerializableObject) : List UInt8 :=
  (if multitype_ then encode (.fixed (.u32 e.1)) else []) ++ encodeAll e.2

variable {o : SerializableObject}

theorem Counted.action (h : Counted o) (ho : AllFit o) :
    ∃ s, (MarshalSize.new false).action o = .ok (0, s) ∧ s.size_.toNat = (encodeAll o).length := by
  obtain ⟨hmis, hlt⟩ := h
  exact MarshalSize.action_counted ho.readable hmis (by omega)

theorem dbtRef_eq {bs : List UInt8} (h : bs.length < 2 ^ 32) : dbtRef bs = bs := by
  rw [dbtRef, Nat.mod_eq_of_lt h, List.take_length]

theorem flatten_eq (ho : AllFit o) : flatten o = .ok (encodeAll o) := by
  obtain ⟨b, hb, hbytes⟩ := MemoryStore.marshalInto_eq scratch ho
  simp [flatten, hb, hbytes]

theorem flattenInto_eq (ho : AllFit o) (hcount : Counted o) (size : Nat) :
    ∃ n buf, flattenInto o size = .ok (n, buf) ∧
      if (encodeAll o).length ≤ size then n = (encodeAll o).length ∧ buf.take n = encodeAll o
      else n = 0 := by
  obtain ⟨s, hsize, hlen⟩ := hcount.action ho
  by_cases hle : (encodeAll o).length ≤ size
  · have hroom : (encodeAll o).length ≤ (List.replicate size (0 : UInt8)).length := by
      simpa using hle
    obtain ⟨m, o', hact, hbuf⟩ := Marshal.action_room ho.readable hroom
    refine ⟨s.size_.toNat, m.buf_, ?_, ?_⟩
    · have hroom : ¬ s.size_.toNat > size := by omega
      simp [flattenInto, hsize, hroom, hact]
    · simp [hle, hlen, hbuf]
  · refine ⟨0, [], ?_, by simp [hle]⟩
    have hroom : s.size_.toNat > size := by omega
    simp [flattenInto, hsize, hroom]

theorem marshalSized_eq (ho : AllFit o) (hcount : Counted o) :
    marshalSized o = .ok (some (encodeAll o)) := by
  obtain ⟨s, hsize, hlen⟩ := hcount.action ho
  have hroom : (encodeAll o).length ≤ (List.replicate s.size_.toNat (0 : UInt8)).length := by
    simp [hlen]
  obtain ⟨m, o', hact, hbuf⟩ := Marshal.action_room ho.readable hroom
  rw [hlen] at hact hbuf
  simp [marshalSized, hsize, hlen, hact, hbuf]

theorem marshalTypecode_eq (multitype_ : Bool) (typecode : UInt32) :
    marshalTypecode multitype_ typecode =
      .ok (some (if multitype_ then encode (.fixed (.u32 typecode)) else [])) := by
  cases multitype_ with
  | false => rfl
  | true =>
    have hfit : AllFit [.fixed (.u32 typecode)] := ⟨trivial, trivial⟩
    have hlen : (encodeAll [.fixed (.u32 typecode)]).length = 4 := rfl
    have hcount : Counted [.fixed (.u32 typecode)] := ⟨rfl, by simp [hlen]⟩
    rw [marshalTypecode, if_pos rfl, marshalSized_eq hfit hcount]
    simp [encodeAll]

theorem length_record_lt {multitype_ : Bool} {e : UInt32 × SerializableObject}
    (hcount : Counted e.2) : (record multitype_ e).length < 2 ^ 32 := by
  have hlt := hcount.2
  cases multitype_ with
  | false => simp [record] at hlt ⊢; omega
  | true =>
    have hlen : (encode (.fixed (.u32 e.1))).length = 4 := rfl
    simp only [record, if_true, List.length_append, hlen]
    omega

/-! ### The simulation -/

def Stores (multitype_ : Bool) (m : Contents) (db : Db) : Prop :=
  m.Sim Set.univ id (fun _ e bs => AllFit e.2 ∧ bs = record multitype_ e) db

variable {multitype_ : Bool} {m : Contents} {db db' : Db} {key : SerializableObject}

theorem stores_empty (multitype_ : Bool) : Stores multitype_ .empty fun _ => none :=
  ⟨fun _ _ => .none, fun k hk => absurd (Set.mem_univ k) hk⟩

theorem Stores.absent (h : Stores multitype_ m db) {bs : List UInt8} (hm : m bs = none) :
    db bs = none := by
  have hnone : db (id bs) = none := PlainTable.Sim.none h (Set.mem_univ _) hm
  exact hnone

theorem Stores.present (h : Stores multitype_ m db) {bs : List UInt8}
    {e : UInt32 × SerializableObject}
    (hm : m bs = some e) : AllFit e.2 ∧ db bs = some (record multitype_ e) := by
  obtain ⟨-, w, hw, hfit, rfl⟩ := PlainTable.Sim.some h hm
  exact ⟨hfit, hw⟩

theorem Stores.update (h : Stores multitype_ m db) (bs : List UInt8)
    {e : Option (UInt32 × SerializableObject)} (hfit : ∀ v, e = some v → AllFit v.2) :
    Stores multitype_ (Function.update m bs e)
      (Function.update db bs (e.map (record multitype_))) := by
  apply PlainTable.Sim.update h (Set.injOn_id _) (Set.mem_univ _)
  · cases e with
    | none => simp
    | some v => simp [hfit v rfl]
  · intro other hother
    exact Function.update_of_ne hother ..

/-- The key of a call, as `flatten` and `DBTRef` make it. -/
structure Keyed (key : SerializableObject) : Prop where
  fit : AllFit key
  counted : Counted key
  ne_nil : encodeAll key ≠ []

theorem Keyed.dbtRef (h : Keyed key) : dbtRef (encodeAll key) = encodeAll key := by
  apply dbtRef_eq
  have := h.counted.2
  omega

theorem put_spec (h : Stores multitype_ m db) (hkey : Keyed key) {e : UInt32 × SerializableObject}
    (hfit : AllFit e.2) (hcount : Counted e.2) (flags : DurableStoreFlags) :
    ∃ db', put multitype_ db key e.1 e.2 flags =
        .ok ((m.put (encodeAll key) e flags).1, db') ∧
      Stores multitype_ (m.put (encodeAll key) e flags).2 db' := by
  have hrecord := dbtRef_eq (length_record_lt hcount : (record multitype_ e).length < 2 ^ 32)
  unfold record at hrecord
  have hupdate := h.update (encodeAll key) (e := some e) (by simpa using hfit)
  rw [Option.map_some] at hupdate
  cases hm : m (encodeAll key) with
  | none =>
    have hnone := h.absent hm
    cases hcreate : flags.DS_CREATE with
    | false =>
      refine ⟨db, ?_, ?_⟩
      · simp [put, flatten_eq hkey.fit, hkey.dbtRef, hnone, hcreate, PlainTable.put, hm]
      · simpa [PlainTable.put, hm, hcreate] using h
    | true =>
      refine ⟨Function.update db (encodeAll key) (some (record multitype_ e)), ?_, ?_⟩
      · simp [put, flatten_eq hkey.fit, hkey.dbtRef, hnone, hcreate, PlainTable.put, hm,
          marshalTypecode_eq, marshalSized_eq hfit hcount, hrecord, Db.put, record]
      · simpa [PlainTable.put, hm, hcreate] using hupdate
  | some e' =>
    have hsome := (h.present hm).2
    cases hexcl : flags.DS_EXCL with
    | true =>
      refine ⟨db, ?_, ?_⟩
      · simp [put, flatten_eq hkey.fit, hkey.dbtRef, hsome, PlainTable.put, hm,
          marshalTypecode_eq, marshalSized_eq hfit hcount, Db.put, hexcl]
      · simpa [PlainTable.put, hm, hexcl] using h
    | false =>
      refine ⟨Function.update db (encodeAll key) (some (record multitype_ e)), ?_, ?_⟩
      · simp [put, flatten_eq hkey.fit, hkey.dbtRef, hsome, PlainTable.put, hm,
          marshalTypecode_eq, marshalSized_eq hfit hcount, hrecord, Db.put, hexcl, record]
      · simpa [PlainTable.put, hm, hexcl] using hupdate

theorem del_spec (h : Stores multitype_ m db) (hkey : Keyed key) :
    if (encodeAll key).length ≤ 256 then
      ∃ db', del db key = .ok ((m.del (encodeAll key)).1, db') ∧
        Stores multitype_ (m.del (encodeAll key)).2 db'
    else del db key = .ok (.DS_ERR, db) := by
  obtain ⟨n, buf, hflat, hn⟩ := flattenInto_eq hkey.fit hkey.counted 256
  split
  · rename_i hle
    rw [if_pos hle] at hn
    obtain ⟨rfl, hbuf⟩ := hn
    cases hm : m (encodeAll key) with
    | none =>
      refine ⟨db, ?_, ?_⟩
      · simp [del, hflat, hkey.ne_nil, hbuf, hkey.dbtRef, Db.del, h.absent hm, PlainTable.del, hm]
      · simpa [PlainTable.del, hm] using h
    | some e =>
      refine ⟨Function.update db (encodeAll key) none, ?_, ?_⟩
      · simp [del, hflat, hkey.ne_nil, hbuf, hkey.dbtRef, Db.del, (h.present hm).2,
          PlainTable.del, hm]
      · have hgone := h.update (encodeAll key) (e := none) (by simp)
        simpa [PlainTable.del, hm] using hgone
  · rename_i hgt
    rw [if_neg hgt] at hn
    simp [del, hflat, hn]

/-! ### get -/

theorem unmarshal_iff {o p : SerializableObject} (ho : AllFit o) (hop : AllSameType o p)
    (hp : AllFresh p) (uninitialised : Nat → UInt32) :
    (∃ u r, (Unmarshal.new (encodeAll o) false false uninitialised).action p = .ok (0, u, r) ∧
      AllSame o (dangleAll r)) ↔ allBare o = true := by
  constructor
  · intro ⟨_, _, _, hsame⟩
    exact AllSame.bare_of_dangle ho hsame
  · intro hbare
    have hat : Unmarshal.At ⟨encodeAll o ++ [], false, false, false⟩ uninitialised
        (.new (encodeAll o ++ []) false false uninitialised) (.start (encodeAll o ++ [])) :=
      Unmarshal.at_new fun h => nomatch h
    have hread := FileSystemTable.action_recovers hat rfl ho hbare hop hp
    rw [List.append_nil] at hread
    exact hread

theorem get_present (h : Stores false m db) (hkey : Keyed key)
    {e : UInt32 × SerializableObject} (hm : m (encodeAll key) = some e)
    {data : SerializableObject} (hop : AllSameType e.2 data) (hp : AllFresh data)
    (uninitialised : Nat → UInt32) :
    (∃ r, get false db key data uninitialised = .ok (.DS_OK, r) ∧ AllSame e.2 r) ↔
      allBare e.2 = true := by
  obtain ⟨hfit, hdb⟩ := h.present hm
  have hrecord : record false e = encodeAll e.2 := rfl
  rw [← unmarshal_iff hfit hop hp uninitialised]
  have hget : get false db key data uninitialised =
      (Unmarshal.new (encodeAll e.2) false false uninitialised).action data >>= fun out =>
        .ok (if out.1 ≠ 0 then .DS_ERR else .DS_OK, dangleAll out.2.2) := by
    simp [get, flatten_eq hkey.fit, hkey.ne_nil, hkey.dbtRef, hdb, hrecord]
  rw [hget]
  constructor
  · intro ⟨r, hr, hsame⟩
    obtain ⟨⟨err, u, r₀⟩, hact, hout⟩ := bind_eq_ok.1 hr
    simp only [Except.ok.injEq, Prod.mk.injEq] at hout
    obtain ⟨hcode, rfl⟩ := hout
    by_cases herr : err = 0
    · exact ⟨u, r₀, herr ▸ hact, hsame⟩
    · simp [herr] at hcode
  · intro ⟨u, r, hact, hsame⟩
    exact ⟨dangleAll r, by simp [hact], hsame⟩

theorem typecode_read (e : UInt32 × SerializableObject) (uninitialised : Nat → UInt32) :
    ∃ u, (Unmarshal.new ((record true e).take 4) false false uninitialised).processU32
        (uninitialised 0) = .ok (u, e.1) ∧ u.error_ = false := by
  have htake : (record true e).take 4 = encode (.fixed (.u32 e.1)) ++ [] := rfl
  have hat : Unmarshal.At ⟨encode (.fixed (.u32 e.1)) ++ [], false, false, false⟩ uninitialised
      (.new (encode (.fixed (.u32 e.1)) ++ []) false false uninitialised)
      (.start (encode (.fixed (.u32 e.1)) ++ [])) :=
    Unmarshal.at_new fun h => nomatch h
  obtain ⟨u, hread, hat'⟩ := FileSystemTable.typecode_recovers (uninitialised 0) hat
  rw [htake]
  exact ⟨u, hread, hat'.error_eq⟩

theorem getTyped_present (h : Stores true m db) (hkey : Keyed key)
    {e : UInt32 × SerializableObject} (hm : m (encodeAll key) = some e)
    {allocator : UInt32 → Option SerializableObject} {data : SerializableObject}
    (hdata : allocator e.1 = some data) (hop : AllSameType e.2 data) (hp : AllFresh data)
    (uninitialised : Nat → UInt32) :
    (∃ r, getTyped true db key allocator uninitialised = .ok (.DS_OK, some r) ∧ AllSame e.2 r) ↔
      allBare e.2 = true := by
  obtain ⟨hfit, hdb⟩ := h.present hm
  have hwidth : (encode (.fixed (.u32 e.1))).length = 4 := rfl
  have hlen : ¬ (record true e).length < 4 := by
    rw [record, if_pos rfl, List.length_append, hwidth]
    omega
  have hdrop : (record true e).drop 4 = encodeAll e.2 := rfl
  obtain ⟨u, htype, herror⟩ := typecode_read e uninitialised
  rw [← unmarshal_iff hfit hop hp uninitialised]
  have hget : getTyped true db key allocator uninitialised =
      (Unmarshal.new (encodeAll e.2) false false uninitialised).action data >>= fun out =>
        .ok (if out.1 ≠ 0 then (.DS_ERR, none) else (.DS_OK, some (dangleAll out.2.2))) := by
    simp [getTyped, flatten_eq hkey.fit, hkey.ne_nil, hkey.dbtRef, hdb, hlen, htype, herror, hdata,
      hdrop]
  rw [hget]
  constructor
  · intro ⟨r, hr, hsame⟩
    obtain ⟨⟨err, u, r₀⟩, hact, hout⟩ := bind_eq_ok.1 hr
    by_cases herr : err = 0
    · simp only [herr, ne_eq, not_true_eq_false, if_false, Except.ok.injEq, Prod.mk.injEq,
        Option.some.injEq, true_and] at hout
      exact ⟨u, r₀, herr ▸ hact, hout ▸ hsame⟩
    · simp [herr] at hout
  · intro ⟨u, r, hact, hsame⟩
    exact ⟨dangleAll r, by simp [hact], hsame⟩

theorem exec_get_db {target : Target} {a : TableAnswer SerializableObject}
    (hexec : exec multitype_ db (.get key target) = .ok (a, db')) : db' = db := by
  cases target with
  | into data uninitialised =>
    obtain ⟨_, -, hret⟩ := bind_eq_ok.1 hexec
    exact (Prod.mk.inj (Except.ok.inj hret)).2.symm
  | typed allocator uninitialised =>
    obtain ⟨_, -, hret⟩ := bind_eq_ok.1 hexec
    exact (Prod.mk.inj (Except.ok.inj hret)).2.symm

theorem get_absent (h : Stores multitype_ m db) (hkey : Keyed key) {target : Target}
    (hproper : Proper multitype_ m (.get key target)) (hm : m (encodeAll key) = none) :
    exec multitype_ db (.get key target) = .ok (⟨.DS_NOTFOUND, none⟩, db) := by
  have hnone := h.absent hm
  cases target with
  | into data uninitialised =>
    obtain ⟨-, rfl, -⟩ := hproper
    simp [exec, get, flatten_eq hkey.fit, hkey.ne_nil, hkey.dbtRef, hnone]
  | typed allocator uninitialised =>
    obtain ⟨-, rfl, -⟩ := hproper
    simp [exec, getTyped, flatten_eq hkey.fit, hkey.ne_nil, hkey.dbtRef, hnone]

theorem exec_get_present (h : Stores multitype_ m db) (hkey : Keyed key) {target : Target}
    (hproper : Proper multitype_ m (.get key target)) {e : UInt32 × SerializableObject}
    (hm : m (encodeAll key) = some e) :
    (∃ r, exec multitype_ db (.get key target) = .ok (⟨.DS_OK, some r⟩, db) ∧ AllSame e.2 r) ↔
      allBare e.2 = true := by
  cases target with
  | into data uninitialised =>
    obtain ⟨-, rfl, htype⟩ := hproper
    obtain ⟨hop, hp⟩ := htype e hm
    rw [← get_present h hkey hm hop hp uninitialised]
    apply exists_congr
    intro r
    cases hget : get false db key data uninitialised with
    | error f => simp [exec, hget]
    | ok out =>
      obtain ⟨code, r'⟩ := out
      by_cases hcode : code = .DS_OK <;> simp [exec, hget, hcode]
  | typed allocator uninitialised =>
    obtain ⟨-, rfl, htype⟩ := hproper
    obtain ⟨data, hdata, hop, hp⟩ := htype e hm
    rw [← getTyped_present h hkey hm hdata hop hp uninitialised]
    apply exists_congr
    intro r
    cases hget : getTyped true db key allocator uninitialised with
    | error f => simp [exec, hget]
    | ok out =>
      obtain ⟨code, r'⟩ := out
      by_cases hcode : code = .DS_OK <;> simp [exec, hget, hcode]

/-! ### One call and all of them -/

theorem ProperKey.keyed (hkey : ProperKey key) (hcount : Counted key) : Keyed key :=
  ⟨hkey.1, hcount, hkey.2⟩

theorem properKey_get {target : Target} (h : Proper multitype_ m (.get key target)) :
    ProperKey key := by
  cases target with
  | into => exact h.1
  | typed => exact h.1

theorem exec_agrees (h : Stores multitype_ m db) {c : Call}
    (hproper : Proper multitype_ m c ∧ CountedCall c) (hcareful : Careful m c) :
    ∃ a db', exec multitype_ db c = .ok (a, db') ∧
      TableAnswer.Agrees SameObject (spec m c).1 a ∧ Stores multitype_ (spec m c).2 db' := by
  obtain ⟨hproper, hcounted⟩ := hproper
  cases c with
  | put key val flags =>
    have hkey := hproper.1.keyed hcounted.1
    obtain ⟨db', hput, hstores⟩ := put_spec h hkey hproper.2 hcounted.2 flags
    exact ⟨⟨(m.put (encodeAll key) val flags).1, none⟩, db', by simp [exec, hput], ⟨rfl, .none⟩,
      hstores⟩
  | get key target =>
    have hkey := (properKey_get hproper).keyed hcounted
    cases hm : m (encodeAll key) with
    | none =>
      refine ⟨_, db, get_absent h hkey hproper hm, ?_, h⟩
      simp only [spec, PlainTable.call, PlainTable.get, hm]
      exact ⟨rfl, .none⟩
    | some e =>
      obtain ⟨r, hexec, hsame⟩ := (exec_get_present h hkey hproper hm).2 (hcareful e hm)
      exact ⟨_, db, hexec, (PlainTable.agrees_get_iff hm).2 ⟨r, rfl, hsame⟩, h⟩
  | del key =>
    have hshort : (encodeAll key).length ≤ 256 := hcareful
    have hdel := del_spec h (ProperKey.keyed hproper hcounted)
    rw [if_pos hshort] at hdel
    obtain ⟨db', hdel, hstores⟩ := hdel
    exact ⟨⟨(m.del (encodeAll key)).1, none⟩, db', by simp [exec, hdel], ⟨rfl, .none⟩, hstores⟩

theorem careful_of_agrees (h : Stores multitype_ m db) {c : Call}
    (hproper : Proper multitype_ m c ∧ CountedCall c) {a : TableAnswer SerializableObject}
    (hexec : exec multitype_ db c = .ok (a, db'))
    (hagrees : TableAnswer.Agrees SameObject (spec m c).1 a) : Careful m c := by
  obtain ⟨hproper, hcounted⟩ := hproper
  cases c with
  | put key val flags => trivial
  | get key target =>
    intro e hm
    obtain ⟨r, rfl, hsame⟩ := (PlainTable.agrees_get_iff hm).1 hagrees
    rw [exec_get_db hexec] at hexec
    have hkey := (properKey_get hproper).keyed hcounted
    exact (exec_get_present h hkey hproper hm).1 ⟨r, hexec, hsame⟩
  | del key =>
    have hdel := del_spec h (ProperKey.keyed hproper hcounted)
    by_contra hcareful
    have hlong : ¬ (encodeAll key).length ≤ 256 := hcareful
    rw [if_neg hlong] at hdel
    simp only [exec, hdel, ok_bind, pure_eq_ok, Except.ok.injEq, Prod.mk.injEq] at hexec
    -- the map never answers `DS_ERR`
    have hcode : (m.del (encodeAll key)).1 = a.code := hagrees.1
    rw [← hexec.1] at hcode
    cases hm : m (encodeAll key) <;> simp [PlainTable.del, hm] at hcode

/-- From the empty table on, the table is a map exactly as long as every key that is removed
    has no more than 256 bytes and no carrier of an object that is got has any. -/
theorem refines_iff_careful {multitype_ : Bool} {cs : List Call}
    (hcs : Answering.Along spec (fun m c => Proper multitype_ m c ∧ CountedCall c) .empty cs) :
    Refines multitype_ cs ↔ Answering.Along spec Careful .empty cs := by
  have hagrees : ∀ m db c, Stores multitype_ m db → Proper multitype_ m c ∧ CountedCall c →
      Careful m c → _ := fun m db c h hproper hcareful => exec_agrees h hproper hcareful
  apply Answering.refines_iff_along hagrees _ _ hcs
  · intro m db c a db' h hproper hexec hok
    exact careful_of_agrees h hproper hexec hok
  · exact stores_empty multitype_

/-- A key and its object, put and got, put again and removed, in a table of one type. -/
def oneKey : List Call :=
  [.put [.string [107]] (0, [.fixed (.u32 7)]) ⟨true, true⟩,
    .get [.string [107]] (.into [.fixed (.u32 0)] fun _ => 0),
    .put [.string [107]] (0, [.fixed (.u32 8)]) ⟨true, true⟩,
    .del [.string [107]], .del [.string [107]]]

theorem refines_oneKey : Refines false oneKey := by
  have hkey : ProperKey [.string [107]] ∧ Counted [.string [107]] := by
    refine ⟨⟨?_, by decide⟩, by decide +kernel, by decide +kernel⟩
    simp [AllFit, Field.Fits]
  have hshort : (encodeAll [.string [107]]).length ≤ 256 := by decide +kernel
  have hval : ∀ n, AllFit [.fixed (.u32 n)] ∧ Counted [.fixed (.u32 n)] := by
    intro n
    have hlen : (encodeAll [.fixed (.u32 n)]).length = 4 := rfl
    exact ⟨⟨trivial, trivial⟩, rfl, by rw [hlen]; decide⟩
  apply (refines_iff_careful _).2
  · refine ⟨trivial, ?_, trivial, hshort, hshort, trivial⟩
    intro e hm
    obtain rfl : (0, [.fixed (.u32 7)]) = e := Option.some.inj hm
    rfl
  · refine ⟨⟨⟨hkey.1, (hval 7).1⟩, hkey.2, (hval 7).2⟩, ⟨⟨hkey.1, rfl, ?_⟩, hkey.2⟩,
      ⟨⟨hkey.1, (hval 8).1⟩, hkey.2, (hval 8).2⟩, hkey, hkey, trivial⟩
    intro e hm
    obtain rfl : (0, [.fixed (.u32 7)]) = e := Option.some.inj hm
    have htype : (Field.fixed (.u32 7)).SameType (.fixed (.u32 0)) := ⟨.u32 0, rfl, trivial⟩
    exact ⟨⟨.fixed (.u32 0), [], rfl, htype, rfl⟩, trivial, trivial⟩

def longKey : SerializableObject := [.string (List.replicate 253 107)]

def putLong : Call := .put longKey (0, [.fixed (.u32 7)]) ⟨true, false⟩

/-- It is put and cannot be removed. -/
theorem longKey_stays : ¬ Refines false [putLong, .del longKey] := by
  have hlen : (encodeAll longKey).length = 257 := by decide +kernel
  have hstr : (List.replicate 253 (107 : UInt8)).length < 2 ^ 32 := by
    rw [List.length_replicate]
    decide
  have hkey : ProperKey longKey := ⟨⟨hstr, trivial⟩, by decide +kernel⟩
  have hcounted : Counted longKey := ⟨by decide +kernel, by omega⟩
  have hput : Proper false .empty putLong ∧ CountedCall putLong :=
    ⟨⟨hkey, trivial, trivial⟩, hcounted, by decide +kernel, by decide +kernel⟩
  have hdel : ∀ m, Proper false m (.del longKey) ∧ CountedCall (.del longKey) :=
    fun _ => ⟨hkey, hcounted⟩
  intro h
  obtain ⟨_, _, hexec, -, h⟩ := Answering.refines_cons.1 h
  obtain ⟨_, _, hexec', hagrees, -⟩ := Answering.refines_cons.1 h
  -- the first call is answered as by the map, and the second one only if the key is short
  obtain ⟨_, _, hexec₁, -, hstores⟩ := exec_agrees (stores_empty false) hput trivial
  obtain ⟨-, rfl⟩ := Prod.mk.inj (Except.ok.inj (hexec₁.symm.trans hexec))
  have hshort : (encodeAll longKey).length ≤ 256 :=
    careful_of_agrees hstores (hdel _) hexec' hagrees
  omega

end Oasys.BerkeleyDBTable
