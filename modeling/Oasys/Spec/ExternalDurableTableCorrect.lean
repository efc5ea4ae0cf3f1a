import Oasys.Spec.FileSystemTableObjects
import Oasys.Spec.MarshalSizeCorrect
import Oasys.Spec.StringPairCorrect
import Oasys.Spec.PlainTable
import Oasys.Storage.ExternalDurableTable

/-!
# ExternalDurableTableImpl correctness

A table against a plain map from marshalled keys to objects. The calls that absent keys meet
are answered as by the map, whether or not there is a table yet. `put` does not look at
`DS_EXCL`; and what `get` makes of a row depends on the kind of the store. A row of pairs is
the hexadecimal text of the object, which `get` takes for its bytes; a row of fields keeps
what a list of texts keeps.
-/

namespace Oasys.ExternalDurableTable

open Wire (encodeAll expectAll)
open MarshalSize (miscountAll)
open StringPair (fieldItems pairs Item MatchesFields RecoversFields AllKeptFields)
open DataStoreProxy

/-! ### The calls -/

/-- What a `get` reads into, with what is in the uninitialised locals. -/
structure Target where
  data : NamedObject
  uninitialised : Nat → UInt32

abbrev Call := TableCall NamedObject NamedObject Target

/-- The map that the table stands for: the keys are known by their bytes. -/
abbrev Contents := PlainTable (List UInt8) NamedObject

def keyName (key : NamedObject) : List UInt8 := encodeAll (toFields key)

/-- A call of the table. -/
def exec (st_ : StoreType) (T : ExternalDurableTable) :
    Call → Except Fault (TableAnswer Loaded × ExternalDurableTable)
  | .put key val flags => do
    let (code, T) ← put st_ T key val flags
    pure (⟨code, none⟩, T)
  | .get key target => do
    let (code, data) ← get st_ T key target.data target.uninitialised
    pure (⟨code, if code = .DS_OK then data else none⟩, T)
  | .del key => do
    let (code, T) ← del T key
    pure (⟨code, none⟩, T)

def spec (m : Contents) (c : Call) : TableAnswer NamedObject × Contents := m.call keyName c

def SameObject (e : NamedObject) : Loaded → Prop
  | .pair r => AllSame (toFields e) r
  | .fields r => RecoversFields r e

def Refines (st_ : StoreType) (m : Contents) (T : ExternalDurableTable) (cs : List Call) : Prop :=
  Answering.Refines spec (exec st_) (TableAnswer.Agrees SameObject) m T cs

/-- An object that can be marshalled into an array whose size is an `int`. -/
def Sized (o : SerializableObject) : Prop :=
  AllFit o ∧ miscountAll o = 0 ∧ (encodeAll o).length < 2 ^ 31

def Writable : StoreType → NamedObject → Prop
  | .PAIR, e => Sized (toFields e)
  | .FIELD, e => ∀ it ∈ fieldItems e, it.2.Readable

def TargetOf : StoreType → NamedObject → NamedObject → Prop
  | .PAIR, e, target => AllSameType (toFields e) (toFields target) ∧ AllFresh (toFields target)
  | .FIELD, e, target => MatchesFields target e

/-- A call as the interface asks for it. -/
def Proper (st_ : StoreType) (m : Contents) : Call → Prop
  | .put key val _ => Sized (toFields key) ∧ Writable st_ val
  | .get key target => Sized (toFields key) ∧
      ∀ e, m (keyName key) = some e → TargetOf st_ e target.data
  | .del key => Sized (toFields key)

/-- An object that is read back from its row. In a store of pairs no carrier has bytes, and
    the digits of its bytes, taken for bytes, read as the object. -/
def Kept : StoreType → NamedObject → NamedObject → Prop
  | .PAIR, e, _ => allBare (toFields e) = true ∧
      ∃ rest, expectAll (toFields e) (hex2str (keyName e)) = some rest
  | .FIELD, e, target => AllKeptFields (fieldItems e) target e

/-- A call that keeps clear of what the table gets wrong: `DS_EXCL` for a new key only, some
    fields to set in a store of fields, and an object that its row keeps. -/
def Careful (st_ : StoreType) (m : Contents) : Call → Prop
  | .put key val flags => ((m (keyName key)).isSome → flags.DS_EXCL = false) ∧
      ((m (keyName key)).isSome ∨ flags.DS_CREATE = true → st_ = .FIELD → fieldItems val ≠ [])
  | .get key target => ∀ e, m (keyName key) = some e → Kept st_ e target.data
  | .del _ => True

/-! ### Rows -/

def row : StoreType → NamedObject → DataStoreRow
  | .PAIR, e => [(ascii "data", hex2str (keyName e))]
  | .FIELD, e => pairs (fieldItems e)

theorem row_eq_nil_iff (st_ : StoreType) (e : NamedObject) :
    row st_ e = [] ↔ st_ = .FIELD ∧ fieldItems e = [] := by
  cases st_ <;> simp [row, pairs]

theorem buffer_eq {n : Nat} (h : n < 2 ^ 31) : buffer n = .ok (List.replicate n 0) := by
  have hneg : ¬ IntType.int.conv n < 0 := by
    rw [IntType.int_conv_of_lt h]
    exact Int.not_lt.2 (Int.natCast_nonneg n)
  have hsize : (IntType.int.conv n).toNat = n := by
    rw [IntType.int_conv_of_lt h]
    rfl
  simp only [buffer, hneg, if_false, hsize, pure_eq_ok]

theorem doSerialize_eq {o : SerializableObject} (h : Sized o) :
    doSerialize o = .ok (hex2str (encodeAll o)) := by
  obtain ⟨ho, hmis, hlt⟩ := h
  obtain ⟨s, hsize, hlen⟩ := MarshalSize.action_counted ho.readable hmis (by omega)
  have hroom : (encodeAll o).length ≤
      (List.replicate (encodeAll o).length (0 : UInt8)).length := by simp
  obtain ⟨m, o', hact, hbuf⟩ := Marshal.action_room ho.readable hroom
  unfold doSerialize
  rw [hsize, ok_bind]
  dsimp only
  rw [hlen, buffer_eq hlt, ok_bind, hact, ok_bind, pure_eq_ok]
  simp [hbuf]

theorem writeRow_eq {st_ : StoreType} {e : NamedObject} (h : Writable st_ e) :
    writeRow st_ e = .ok (row st_ e) := by
  cases st_ with
  | PAIR => simp [writeRow, doSerialize_eq h, row, keyName]
  | FIELD =>
    obtain ⟨o, hpush⟩ := (StringPair.serialize_pushes e []).ok h
    rw [List.nil_append] at hpush
    simp [writeRow, StringPairMarshal.action, hpush, row]

theorem doUnserialize_iff {o p : SerializableObject} (ho : AllFit o) (hop : AllSameType o p)
    (hp : AllFresh p) (str : List UInt8) (uninitialised : Nat → UInt32) :
    (∃ r, doUnserialize str p uninitialised = .ok (true, r) ∧ AllSame o r) ↔
      allBare o = true ∧ ∃ rest, expectAll o str = some rest := by
  have hat : Unmarshal.At ⟨str, false, false, false⟩ uninitialised
      (.new str false false uninitialised) (.start str) :=
    Unmarshal.at_new fun h => nomatch h
  rw [← hat.action_reads_iff rfl ho.closed hop hp]
  constructor
  · intro ⟨r, hr, hsame⟩
    obtain ⟨⟨err, u, r₀⟩, hact, hret⟩ := bind_eq_ok.1 hr
    simp only [pure_eq_ok, Except.ok.injEq, Prod.mk.injEq, decide_eq_true_eq] at hret
    obtain ⟨rfl, rfl⟩ := hret
    obtain ⟨hsame, hbare⟩ := (allSame_dangle_iff ho).1 hsame
    exact ⟨hbare, u, r₀, hact, hsame⟩
  · intro ⟨hbare, u, r, hact, hsame⟩
    exact ⟨dangleAll r, by simp [doUnserialize, hact], hsame.dangle hbare⟩

theorem readRow_iff {st_ : StoreType} {e target : NamedObject} (he : Writable st_ e)
    (htarget : TargetOf st_ e target) (uninitialised : Nat → UInt32) :
    (∃ r, readRow st_ (row st_ e) target uninitialised = .ok (true, r) ∧ SameObject e r) ↔
      Kept st_ e target := by
  cases st_ with
  | PAIR =>
    obtain ⟨hop, hp⟩ := htarget
    rw [Kept, ← doUnserialize_iff he.1 hop hp _ uninitialised]
    constructor
    · intro ⟨r, hr, hsame⟩
      obtain ⟨⟨ok, r₀⟩, hread, hret⟩ := bind_eq_ok.1 hr
      simp only [pure_eq_ok, Except.ok.injEq, Prod.mk.injEq] at hret
      obtain ⟨rfl, rfl⟩ := hret
      exact ⟨r₀, hread, hsame⟩
    · intro ⟨r, hread, hsame⟩
      exact ⟨.pair r, by simp [readRow, row, hread], hsame⟩
  | FIELD =>
    rw [Kept, ← StringPair.serialize_gives htarget, ← StringPair.action_gives]
    constructor
    · intro ⟨r, hr, hsame⟩
      obtain ⟨⟨err, r₀⟩, hread, hret⟩ := bind_eq_ok.1 hr
      simp only [pure_eq_ok, Except.ok.injEq, Prod.mk.injEq, decide_eq_true_eq] at hret
      obtain ⟨rfl, rfl⟩ := hret
      exact ⟨r₀, hread, hsame⟩
    · intro ⟨r, hread, hsame⟩
      have hread' : StringPairUnmarshal.action (row .FIELD e) target = .ok (0, r) := hread
      exact ⟨.fields r, by simp [readRow, hread'], hsame⟩

/-! ### The simulation -/

/-- The server has the rows of the map, and `exists_` says whether there is a table. -/
structure Stores (st_ : StoreType) (m : Contents) (T : ExternalDurableTable) : Prop where
  exists_eq : T.exists_ = T.table.isSome
  sim : m.Sim Set.univ hex2str
    (fun _ e fields => Writable st_ e ∧ fields = row st_ e ∧ fields ≠ [])
    (T.table.getD fun _ => none)

variable {st_ : StoreType} {m : Contents} {T T' : ExternalDurableTable} {key : NamedObject}

theorem injOn_hex2str : Set.InjOn hex2str Set.univ := by
  intro bs _ bs' _ h
  have hread := str2hex_hex2str bs []
  have hread' := str2hex_hex2str bs' []
  have hlen : bs.length = bs'.length := by
    have hdigits := congrArg List.length h
    rw [length_hex2str, length_hex2str] at hdigits
    omega
  rw [h, hlen, hread'] at hread
  exact (Except.ok.inj hread).symm

theorem stores_new (st_ : StoreType) : Stores st_ .empty ⟨false, none⟩ where
  exists_eq := rfl
  sim := ⟨fun _ _ => .none, fun k hk => absurd (Set.mem_univ k) hk⟩

theorem Stores.none_of_not_exists (h : Stores st_ m T) (hnot : T.exists_ = false)
    (bs : List UInt8) : m bs = none := by
  have htable : T.table = none := by
    have heq := h.exists_eq
    rw [hnot] at heq
    exact Option.not_isSome_iff_eq_none.1 (by simp [← heq])
  cases hm : m bs with
  | none => rfl
  | some e =>
    obtain ⟨-, fields, hrow, -⟩ := h.sim.some hm
    rw [htable, Option.getD_none] at hrow
    cases hrow

theorem Stores.table_of_exists (h : Stores st_ m T) (hex : T.exists_ = true) :
    ∃ rows, T.table = some rows := by
  have heq := h.exists_eq
  rw [hex] at heq
  exact Option.isSome_iff_exists.1 heq.symm

variable {rows : List UInt8 → Option DataStoreRow}

theorem Stores.absent (h : Stores st_ m ⟨true, some rows⟩) {bs : List UInt8}
    (hm : m bs = none) : rows (hex2str bs) = none :=
  h.sim.none (Set.mem_univ bs) hm

theorem Stores.present (h : Stores st_ m ⟨true, some rows⟩) {bs : List UInt8} {e : NamedObject}
    (hm : m bs = some e) : Writable st_ e ∧ rows (hex2str bs) = some (row st_ e) := by
  obtain ⟨-, fields, hrow, hwrite, rfl, -⟩ := h.sim.some hm
  exact ⟨hwrite, hrow⟩

theorem Stores.update (h : Stores st_ m ⟨true, some rows⟩) (bs : List UInt8)
    {e : Option NamedObject} (he : ∀ v, e = some v → Writable st_ v ∧ row st_ v ≠ []) :
    Stores st_ (Function.update m bs e)
      ⟨true, some (Function.update rows (hex2str bs) (e.map (row st_)))⟩ where
  exists_eq := rfl
  sim := by
    apply h.sim.update injOn_hex2str (Set.mem_univ bs)
    · cases e with
      | none => simp
      | some v => simpa using he v rfl
    · intro other hother
      exact Function.update_of_ne hother ..

/-! ### The calls of the table -/

theorem Stores.ensureExists (h : Stores st_ m T) :
    ∃ rows, T.ensureExists = some ⟨true, some rows⟩ ∧ Stores st_ m ⟨true, some rows⟩ := by
  obtain ⟨exists_, table⟩ := T
  have heq := h.exists_eq
  cases table with
  | none =>
    obtain rfl : exists_ = false := heq
    exact ⟨fun _ => none, rfl, rfl, h.sim⟩
  | some rows =>
    obtain rfl : exists_ = true := heq
    exact ⟨rows, rfl, h⟩

theorem put_eq (h : Stores st_ m T) (hkey : Sized (toFields key)) {val : NamedObject}
    (hval : Writable st_ val) (flags : DurableStoreFlags) :
    ∃ T₀ T₁, Stores st_ m T₀ ∧
      (row st_ val ≠ [] → Stores st_ (Function.update m (keyName key) (some val)) T₁) ∧
      put st_ T key val flags = .ok (
        if !flags.DS_CREATE ∧ m (keyName key) = none then (.DS_NOTFOUND, T₀)
        else if row st_ val = [] then (.DS_ERR, T₀)
        else (.DS_OK, T₁)) := by
  obtain ⟨rows, hensure, hstores⟩ := h.ensureExists
  have hname : doSerialize (toFields key) = .ok (hex2str (keyName key)) := doSerialize_eq hkey
  refine ⟨⟨true, some rows⟩,
    ⟨true, some (Function.update rows (hex2str (keyName key)) (some (row st_ val)))⟩,
    hstores, ?_, ?_⟩
  · intro hne
    exact hstores.update (keyName key) (e := some val) (by simp [hval, hne])
  · -- the request for the key fails exactly if the map does not have it
    have hget : (DataStoreTable.get (some rows) (hex2str (keyName key))).1 ≠ .ERR_NONE ↔
        m (keyName key) = none := by
      cases hm : m (keyName key) with
      | none => simp [DataStoreTable.get, hstores.absent hm]
      | some e => simp [DataStoreTable.get, (hstores.present hm).2]
    simp only [put, hensure, hname, ok_bind, writeRow_eq hval, Bool.and_eq_true,
      decide_eq_true_eq, hget]
    split
    · rfl
    · by_cases hnil : row st_ val = [] <;> simp [DataStoreTable.put, hnil]

theorem put_agrees (h : Stores st_ m T) {val : NamedObject} {flags : DurableStoreFlags}
    (hproper : Proper st_ m (.put key val flags)) (hcareful : Careful st_ m (.put key val flags)) :
    ∃ T', put st_ T key val flags = .ok ((m.put (keyName key) val flags).1, T') ∧
      Stores st_ (m.put (keyName key) val flags).2 T' := by
  obtain ⟨hkey, hval⟩ := hproper
  obtain ⟨hexcl, hfields⟩ := hcareful
  obtain ⟨T₀, T₁, hkept, hstored, hput⟩ := put_eq h hkey hval flags
  rw [hput]
  have hrow : (m (keyName key)).isSome ∨ flags.DS_CREATE = true → row st_ val ≠ [] := by
    intro hputs hnil
    obtain ⟨hst, hnil⟩ := (row_eq_nil_iff ..).1 hnil
    exact hfields hputs hst hnil
  cases hm : m (keyName key) with
  | none =>
    cases hcreate : flags.DS_CREATE with
    | false =>
      exact ⟨T₀, by simp [PlainTable.put, hm, hcreate], by simpa [PlainTable.put, hm, hcreate]⟩
    | true =>
      have hne := hrow (.inr hcreate)
      exact ⟨T₁, by simp [PlainTable.put, hm, hcreate, hne],
        by simpa [PlainTable.put, hm, hcreate] using hstored hne⟩
  | some e =>
    have hnot : flags.DS_EXCL = false := hexcl (by simp [hm])
    have hne := hrow (.inl (by simp [hm]))
    exact ⟨T₁, by simp [PlainTable.put, hm, hnot, hne],
      by simpa [PlainTable.put, hm, hnot] using hstored hne⟩

theorem careful_of_put (h : Stores st_ m T) {val : NamedObject} {flags : DurableStoreFlags}
    (hproper : Proper st_ m (.put key val flags))
    (hput : put st_ T key val flags = .ok ((m.put (keyName key) val flags).1, T')) :
    Careful st_ m (.put key val flags) := by
  obtain ⟨hkey, hval⟩ := hproper
  obtain ⟨T₀, T₁, -, -, heq⟩ := put_eq h hkey hval flags
  have hcode := congrArg Prod.fst (Except.ok.inj (heq.symm.trans hput))
  constructor
  · intro hsome
    obtain ⟨e, hm⟩ := Option.isSome_iff_exists.1 hsome
    by_contra hexcl
    rw [Bool.not_eq_false] at hexcl
    -- the map has the key and says so; the table never does
    simp only [PlainTable.put, hm, hexcl, if_true] at hcode
    split at hcode
    · cases hcode
    · split at hcode <;> cases hcode
  · intro hstored hst hnil
    have hrow : row st_ val = [] := (row_eq_nil_iff ..).2 ⟨hst, hnil⟩
    cases hm : m (keyName key) with
    | none =>
      have hcreate : flags.DS_CREATE = true := by simpa [hm] using hstored
      simp [PlainTable.put, hm, hcreate, hrow] at hcode
    | some e =>
      simp only [PlainTable.put, hm, hrow] at hcode
      cases hexcl : flags.DS_EXCL <;> simp [hexcl] at hcode

theorem get_absent (h : Stores st_ m T) (hkey : Sized (toFields key)) (target : Target)
    (hm : m (keyName key) = none) :
    exec st_ T (.get key target) = .ok (⟨.DS_NOTFOUND, none⟩, T) := by
  have hname : doSerialize (toFields key) = .ok (hex2str (keyName key)) := doSerialize_eq hkey
  cases hex : T.exists_ with
  | false => simp [exec, get, hex]
  | true =>
    obtain ⟨rows, htable⟩ := h.table_of_exists hex
    obtain ⟨exists_, table⟩ := T
    obtain rfl : exists_ = true := hex
    obtain rfl : table = some rows := htable
    simp [exec, get, hname, DataStoreTable.get, h.absent hm]

theorem get_present (h : Stores st_ m T) (hkey : Sized (toFields key)) {target : Target}
    {e : NamedObject} (hm : m (keyName key) = some e) (htarget : TargetOf st_ e target.data) :
    (∃ r, exec st_ T (.get key target) = .ok (⟨.DS_OK, some r⟩, T) ∧ SameObject e r) ↔
      Kept st_ e target.data := by
  have hname : doSerialize (toFields key) = .ok (hex2str (keyName key)) := doSerialize_eq hkey
  have hex : T.exists_ = true := by
    by_contra hnot
    rw [Bool.not_eq_true] at hnot
    rw [h.none_of_not_exists hnot] at hm
    cases hm
  obtain ⟨rows, htable⟩ := h.table_of_exists hex
  obtain ⟨exists_, table⟩ := T
  obtain rfl : exists_ = true := hex
  obtain rfl : table = some rows := htable
  obtain ⟨hwrite, hrow⟩ := h.present hm
  rw [← readRow_iff hwrite htarget target.uninitialised]
  apply exists_congr
  intro r
  cases hread : readRow st_ (row st_ e) target.data target.uninitialised with
  | error f => simp [exec, get, hname, DataStoreTable.get, hrow, hread]
  | ok out =>
    obtain ⟨ok, r'⟩ := out
    cases ok <;> simp [exec, get, hname, DataStoreTable.get, hrow, hread]

theorem exec_get_table {target : Target} {a : TableAnswer Loaded}
    (hexec : exec st_ T (.get key target) = .ok (a, T')) : T' = T := by
  obtain ⟨_, -, hret⟩ := bind_eq_ok.1 hexec
  exact (Prod.mk.inj (Except.ok.inj hret)).2.symm

theorem del_agrees (h : Stores st_ m T) (hkey : Sized (toFields key)) :
    ∃ T', del T key = .ok ((m.del (keyName key)).1, T') ∧
      Stores st_ (m.del (keyName key)).2 T' := by
  have hname : doSerialize (toFields key) = .ok (hex2str (keyName key)) := doSerialize_eq hkey
  cases hex : T.exists_ with
  | false =>
    have hm := h.none_of_not_exists hex (keyName key)
    refine ⟨T, by simp [del, hex, PlainTable.del, hm], ?_⟩
    simpa [PlainTable.del, hm] using h
  | true =>
    obtain ⟨rows, htable⟩ := h.table_of_exists hex
    obtain ⟨exists_, table⟩ := T
    obtain rfl : exists_ = true := hex
    obtain rfl : table = some rows := htable
    cases hm : m (keyName key) with
    | none =>
      refine ⟨⟨true, some rows⟩, ?_, by simpa [PlainTable.del, hm] using h⟩
      simp [del, hname, DataStoreTable.del, h.absent hm, PlainTable.del, hm]
    | some e =>
      have hgone := h.update (keyName key) (e := none) (by simp)
      refine ⟨⟨true, some (Function.update rows (hex2str (keyName key)) none)⟩, ?_, ?_⟩
      · simp [del, hname, DataStoreTable.del, (h.present hm).2, PlainTable.del, hm]
      · simpa [PlainTable.del, hm] using hgone

/-! ### One call and all of them -/

theorem exec_agrees (h : Stores st_ m T) {c : Call} (hproper : Proper st_ m c)
    (hcareful : Careful st_ m c) :
    ∃ a T', exec st_ T c = .ok (a, T') ∧ TableAnswer.Agrees SameObject (spec m c).1 a ∧
      Stores st_ (spec m c).2 T' := by
  cases c with
  | put key val flags =>
    obtain ⟨T', hput, hstores⟩ := put_agrees h hproper hcareful
    exact ⟨⟨(m.put (keyName key) val flags).1, none⟩, T', by simp [exec, hput], ⟨rfl, .none⟩,
      hstores⟩
  | get key target =>
    obtain ⟨hkey, htarget⟩ := hproper
    cases hm : m (keyName key) with
    | none =>
      refine ⟨_, T, get_absent h hkey target hm, ?_, h⟩
      simp only [spec, PlainTable.call, PlainTable.get, hm]
      exact ⟨rfl, .none⟩
    | some e =>
      obtain ⟨r, hexec, hsame⟩ := (get_present h hkey hm (htarget e hm)).2 (hcareful e hm)
      exact ⟨_, T, hexec, (PlainTable.agrees_get_iff hm).2 ⟨r, rfl, hsame⟩, h⟩
  | del key =>
    obtain ⟨T', hdel, hstores⟩ := del_agrees h hproper
    exact ⟨⟨(m.del (keyName key)).1, none⟩, T', by simp [exec, hdel], ⟨rfl, .none⟩, hstores⟩

theorem careful_of_agrees (h : Stores st_ m T) {c : Call} (hproper : Proper st_ m c)
    {a : TableAnswer Loaded} (hexec : exec st_ T c = .ok (a, T'))
    (hagrees : TableAnswer.Agrees SameObject (spec m c).1 a) : Careful st_ m c := by
  cases c with
  | put key val flags =>
    obtain ⟨⟨code, T₁⟩, hput, hret⟩ := bind_eq_ok.1 hexec
    obtain ⟨rfl, rfl⟩ := Prod.mk.inj (Except.ok.inj hret)
    have hcode : (m.put (keyName key) val flags).1 = code := hagrees.1
    rw [← hcode] at hput
    exact careful_of_put h hproper hput
  | get key target =>
    intro e hm
    obtain ⟨hkey, htarget⟩ := hproper
    obtain ⟨r, rfl, hsame⟩ := (PlainTable.agrees_get_iff hm).1 hagrees
    rw [exec_get_table hexec] at hexec
    exact (get_present h hkey hm (htarget e hm)).1 ⟨r, hexec, hsame⟩
  | del key => trivial

/-- The table is a map exactly as long as a present key is not put with `DS_EXCL`, a store of
    fields is given some fields, and the object that is got is one that its row keeps. -/
theorem external_refines_iff (h : Stores st_ m T) {cs : List Call}
    (hcs : Answering.Along spec (Proper st_) m cs) :
    Refines st_ m T cs ↔ Answering.Along spec (Careful st_) m cs := by
  have hagrees : ∀ m T c, Stores st_ m T → Proper st_ m c → Careful st_ m c → _ :=
    fun m T c h hproper hcareful => exec_agrees h hproper hcareful
  apply Answering.refines_iff_along hagrees _ h hcs
  intro m T c a T' h hproper hexec hok
  exact careful_of_agrees h hproper hexec hok

/-- A number with its name, as a key and as an object. -/
def numbered (n : Nat) : NamedObject := [(ascii "n", .basic (.int (.size n)))]

theorem sized_numbered (n : Nat) : Sized (toFields (numbered n)) :=
  ⟨⟨trivial, trivial⟩, rfl, by
    have hlen : (encodeAll (toFields (numbered n))).length = 4 := rfl
    rw [hlen]
    decide⟩

theorem writable_numbered (n : Nat) : Writable .FIELD (numbered n) := by
  intro it hit
  rw [List.mem_singleton.1 hit]
  trivial

/-- In a store of fields that has no table yet, a key is got, put, got, removed and got. -/
theorem external_refines_run : Refines .FIELD .empty ⟨false, none⟩
    [.get (numbered 1) ⟨numbered 0, fun _ => 0⟩, .put (numbered 1) (numbered 7) ⟨true, true⟩,
      .get (numbered 1) ⟨numbered 0, fun _ => 0⟩, .del (numbered 1),
      .get (numbered 1) ⟨numbered 0, fun _ => 0⟩] := by
  have hkey := sized_numbered 1
  have htarget : ∀ n, TargetOf .FIELD (numbered n) (numbered 0) :=
    fun n => ⟨rfl, rfl, trivial⟩
  apply (external_refines_iff (stores_new .FIELD) _).2
  · refine ⟨fun _ => (nomatch ·), ⟨(nomatch ·), fun _ _ => (nomatch ·)⟩, ?_, trivial,
      fun _ => (nomatch ·), trivial⟩
    intro e hm
    obtain rfl : numbered 7 = e := Option.some.inj hm
    exact ⟨⟨_, rfl, fun _ => .inl (by decide), fun h => absurd rfl h⟩, trivial⟩
  · refine ⟨⟨hkey, fun _ => (nomatch ·)⟩, ⟨hkey, writable_numbered 7⟩, ⟨hkey, ?_⟩, hkey,
      ⟨hkey, fun _ => (nomatch ·)⟩, trivial⟩
    intro e hm
    obtain rfl : numbered 7 = e := Option.some.inj hm
    exact htarget 7

/-- A key that is present is put with `DS_EXCL`. -/
theorem put_excl_overwrites : ¬ Refines .FIELD .empty ⟨false, none⟩
    [.put (numbered 1) (numbered 7) ⟨true, false⟩,
      .put (numbered 1) (numbered 8) ⟨true, true⟩] := by
  intro h
  obtain ⟨_, _, hexec, -, h⟩ := Answering.refines_cons.1 h
  obtain ⟨_, _, hexec', hagrees, -⟩ := Answering.refines_cons.1 h
  -- the first call is answered as by the map, and the second one only if the key is new
  have hproper : ∀ m n flags, Proper .FIELD m (.put (numbered 1) (numbered n) flags) :=
    fun m n flags => ⟨sized_numbered 1, writable_numbered n⟩
  have hcareful : Careful .FIELD .empty (.put (numbered 1) (numbered 7) ⟨true, false⟩) :=
    ⟨(nomatch ·), fun _ _ => (nomatch ·)⟩
  obtain ⟨_, _, hexec₁, -, hstores⟩ := exec_agrees (stores_new .FIELD) (hproper ..) hcareful
  obtain ⟨-, rfl⟩ := Prod.mk.inj (Except.ok.inj (hexec₁.symm.trans hexec))
  obtain ⟨hexcl, -⟩ := careful_of_agrees hstores (hproper ..) hexec' hagrees
  have hnot : (⟨true, true⟩ : DurableStoreFlags).DS_EXCL = false := hexcl rfl
  cases hnot

end Oasys.ExternalDurableTable
