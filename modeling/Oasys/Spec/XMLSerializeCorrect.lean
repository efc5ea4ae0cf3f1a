import Oasys.Serialize.XMLSerialize
import Oasys.Spec.StringPairCorrect

/-!
# XML round trip

Which objects `XercesXMLUnmarshal` recovers from the document that `XMLMarshal` makes of them,
where the parser returns the elements of the document. A field is read from the element that
was visited last, which is that of its object only up to the first object in it, so a field is
kept when what has its name there reads as its value.

## Key results

- `reads_value`: which values read back from their own attributes
- `marshal_eq`: the elements that `XMLMarshal` makes of an object
- `unmarshal_spec`: what is read from them, field by field
- `document_recovers_iff`: an object is recovered when every field is kept
-/

namespace Oasys.XMLSerialize

open StringPair (Transfer Matches MatchesFields RecoversFields)
open XercesXMLUnmarshal (State normalized visits descendants)

/-! ### What is to be recovered -/

mutual

def Plain : Value → Prop
  | .basic _ => True
  | .object fields => PlainFields fields
  | .vector _ _ => False

def PlainFields : NamedObject → Prop
  | [] => True
  | (_, v) :: o => Plain v ∧ PlainFields o

end

/-- An object without vectors, and one of its type that it is to be read into. -/
structure Exchange extends Transfer where
  plain : PlainFields source

variable (base64 : List UInt8 → Option (List UInt8))

/-- The object is marshalled, and from the document unmarshalled with every field as it was. -/
def Exchange.Recovers (xerces : List UInt8 → Option XMLObject) (root_tag : List UInt8)
    (x : Exchange) : Prop :=
  ∃ xml_doc, XMLMarshal.action base64 root_tag x.source = .ok xml_doc ∧
    ∃ s, XercesXMLUnmarshal.parse xerces xml_doc = some s ∧
      ∃ r, XercesXMLUnmarshal.action s x.target = .ok (0, r) ∧ RecoversFields r x.source

/-! ### What is kept -/

/-- The fields of an object that become attributes of its element. -/
def ownFields : NamedObject → List (List UInt8 × Basic)
  | [] => []
  | (name, .basic x) :: o => (name, x) :: ownFields o
  | _ :: o => ownFields o

mutual

/-- The fields in the element that was visited last, once a value was processed. -/
def fieldsAfter (cur : List (List UInt8 × Basic)) : Value → List (List UInt8 × Basic)
  | .basic _ => cur
  | .object fields => fieldsAfterAll (ownFields fields) fields
  | .vector _ _ => cur

def fieldsAfterAll (cur : List (List UInt8 × Basic)) :
    NamedObject → List (List UInt8 × Basic)
  | [] => cur
  | (_, v) :: o => fieldsAfterAll (fieldsAfter cur v) o

end

/-- The value of the attribute that a field becomes. -/
def value (x : Basic) : List UInt8 := (XMLMarshal.format base64 x).toOption.getD []

/-- A text reads as the value. A buffer of less than two bytes is left as it was, with the
    bytes of `old`. -/
def Reads (text old : List UInt8) : Basic → Prop
  | .int i => StringPairUnmarshal.loadInt i.kind text = i
  | .bool b => cStr text = ascii "true" ↔ b = true
  | .buf bp =>
    if bp.bytes.length < 2 then old = bp.bytes
    else XercesXMLUnmarshal.loadBuf bp text = bp
  | .carrier c => readBytes c.buf_ c.len_ = .ok (cStr text)
  | .terminated c t => t ∉ cStr text ∧ ∃ rest, c.buf_ = some (cStr text ++ t :: rest)
  | .string s => cStr text = s

/-- The value is one that its own attribute keeps: integers of 64 bits are below `2 ^ 63` when
    they are cast, strings hold no zero, tab or line end, and a buffer or a carrier is, as far
    as it is stored, what Base64 encodes it as. -/
def Kept (old : List UInt8) : Basic → Prop
  | .int i => i.cast < 2 ^ 63
  | .bool _ => True
  | .string s => ∀ c ∈ s, c ≠ 0 ∧ c ≠ 9 ∧ c ≠ 10 ∧ c ≠ 13
  | x => Reads (normalized (value base64 x)) old x

/-- The element keeps a field: it has an attribute, and where the first field with the name is
    this one, its own attribute does, and otherwise what has the name reads as its value. -/
def KeptIn (cur : List (List UInt8 × Basic)) (name old : List UInt8) (x : Basic) : Prop :=
  (∃ text, XMLMarshal.format base64 x = .ok text) ∧
    (cur.lookup name = some x → Kept base64 old x) ∧
    (cur.lookup name ≠ some x →
      Reads (normalized (((cur.lookup name).map (value base64)).getD [])) old x)

mutual

/-- All fields of a value are kept, where it is read into the first value. -/
def AllKept (cur : List (List UInt8 × Basic)) (name : List UInt8) : Value → Value → Prop
  | .basic y, .basic x => KeptIn base64 cur name (StringPair.Basic.held y) x
  | .object fields', .object fields => AllKeptFields (ownFields fields) fields' fields
  | _, _ => False

/-- Those of an object. -/
def AllKeptFields (cur : List (List UInt8 × Basic)) : NamedObject → NamedObject → Prop
  | [], [] => True
  | (_, v') :: o', (name, v) :: o =>
    AllKept cur name v' v ∧ AllKeptFields (fieldsAfter cur v) o' o
  | _, _ => False

end

def Exchange.Kept (x : Exchange) : Prop :=
  AllKeptFields base64 (ownFields x.source) x.target x.source

variable {base64}

/-! ### Attributes that are read back -/

theorem normalized_eq_self {s : List UInt8} (h : ∀ c ∈ s, c ≠ 9 ∧ c ≠ 10 ∧ c ≠ 13) :
    normalized s = s := by
  unfold normalized
  conv_rhs => rw [← List.map_id s]
  apply List.map_congr_left
  intro c hc
  obtain ⟨htab, hline, hreturn⟩ := h c hc
  simp [htab, hline, hreturn]

theorem cStr_normalized_iff {s : List UInt8} :
    cStr (normalized s) = s ↔ ∀ c ∈ s, c ≠ 0 ∧ c ≠ 9 ∧ c ≠ 10 ∧ c ≠ 13 := by
  constructor
  · intro h c hc
    have hlength : (cStr (normalized s)).length = (normalized s).length := by
      rw [h, normalized, List.length_map]
    have hself : normalized s = s :=
      ((List.takeWhile_prefix _).eq_of_length hlength).symm.trans h
    rw [hself] at h
    have hzero : c ≠ 0 := fun hzero => StringPair.cStr_eq_self_iff.1 h (hzero ▸ hc)
    -- what is normalized to itself is not white space
    have hc' : (if c = 9 ∨ c = 10 ∨ c = 13 then 32 else c) = c := by
      unfold normalized at hself
      conv_rhs at hself => rw [← List.map_id s]
      exact List.map_inj_left.1 hself c hc
    by_cases hwhite : c = 9 ∨ c = 10 ∨ c = 13
    · rw [if_pos hwhite] at hc'
      subst hc'
      exact absurd hwhite (by decide)
    · simp only [not_or] at hwhite
      exact ⟨hzero, hwhite⟩
  · intro h
    rw [normalized_eq_self fun c hc => (h c hc).2, StringPair.cStr_eq_self_iff]
    exact fun hzero => (h 0 hzero).1 rfl

/-- A value reads back from its own attribute when that keeps it. -/
theorem reads_value (x : Basic) (old : List UInt8) :
    Reads (normalized (value base64 x)) old x ↔ Kept base64 old x := by
  cases x with
  | int i =>
    have hdigits : normalized (Decimal.digits i.cast) = Decimal.digits i.cast :=
      normalized_eq_self fun c hc => by
        have hdigit := Decimal.isDigit_of_mem hc
        refine ⟨?_, ?_, ?_⟩ <;> rintro rfl <;> exact absurd hdigit (by decide)
    show StringPairUnmarshal.loadInt i.kind (normalized (Decimal.digits i.cast)) = i ↔ _
    rw [hdigits]
    exact StringPair.loadInt_digits_cast i
  | bool b =>
    refine iff_of_true ?_ trivial
    show cStr (normalized (ascii (if b then "true" else "false"))) = ascii "true" ↔ b = true
    cases b <;> decide
  | string s => exact cStr_normalized_iff
  | buf bp => rfl
  | carrier c => rfl
  | terminated c t => rfl

variable {cur : List (List UInt8 × Basic)} {x : Basic}

theorem keptIn_iff {name old : List UInt8} (h : ∃ text, XMLMarshal.format base64 x = .ok text) :
    KeptIn base64 cur name old x ↔
      Reads (normalized (((cur.lookup name).map (value base64)).getD [])) old x := by
  unfold KeptIn
  by_cases hself : cur.lookup name = some x
  · simp [h, hself, reads_value]
  · simp [h, hself]

/-! ### XMLMarshal -/

def attributes (base64 : List UInt8 → Option (List UInt8)) (own : List (List UInt8 × Basic)) :
    List (List UInt8 × List UInt8) :=
  own.map fun f => (f.1, value base64 f.2)

theorem lookup_attributes (own : List (List UInt8 × Basic)) (name : List UInt8) :
    (attributes base64 own).lookup name = (own.lookup name).map (value base64) := by
  induction own with
  | nil => rfl
  | cons f own ih =>
    obtain ⟨name', x⟩ := f
    unfold attributes at ih ⊢
    simp only [List.map_cons, List.lookup_cons, ih]
    cases name == name' <;> rfl

mutual

/-- The elements that a value becomes. -/
def child (base64 : List UInt8 → Option (List UInt8)) (name : List UInt8) :
    Value → List XMLObject
  | .basic _ => []
  | .object fields =>
    [⟨name, attributes base64 (ownFields fields), [], children base64 fields, []⟩]
  | .vector _ _ => []

def children (base64 : List UInt8 → Option (List UInt8)) : NamedObject → List XMLObject
  | [] => []
  | (name, v) :: o => child base64 name v ++ children base64 o

end

/-- An element with more fields and more elements in it. -/
def grown (base64 : List UInt8 → Option (List UInt8)) (node : XMLObject)
    (own : List (List UInt8 × Basic)) (below : List XMLObject) : XMLObject :=
  { node with
    attrs_ := node.attrs_ ++ attributes base64 own, elements_ := node.elements_ ++ below }

theorem ownFields_cons (f : List UInt8 × Value) (o : NamedObject) :
    ownFields (f :: o) = ownFields [f] ++ ownFields o := by
  obtain ⟨name, v⟩ := f
  cases v <;> simp [ownFields]

variable {o target : NamedObject}

private theorem serialize_eq_of (hplain : PlainFields o)
    (ho : ∀ f ∈ o, Plain f.2 → ∀ {node node'}, XMLMarshal.process base64 node f.1 f.2 = .ok node' →
      node' = grown base64 node (ownFields [f]) (child base64 f.1 f.2)) :
    ∀ {node node' : XMLObject}, XMLMarshal.serialize base64 node o = .ok node' →
      node' = grown base64 node (ownFields o) (children base64 o) := by
  induction o with
  | nil =>
    intro node node' h
    obtain rfl := Except.ok.inj h
    cases node
    simp [grown, ownFields, attributes, children]
  | cons f o ih =>
    intro node node' h
    rw [XMLMarshal.serialize] at h
    obtain ⟨node₁, hf, h⟩ := bind_eq_ok.1 h
    obtain rfl := ho f List.mem_cons_self hplain.1 hf
    rw [ih hplain.2 (fun g hg => ho g (List.mem_cons_of_mem f hg)) h, ownFields_cons f o]
    simp [grown, attributes, children]

variable {v : Value}

theorem process_eq (hplain : Plain v) {name : List UInt8} :
    ∀ {node node' : XMLObject}, XMLMarshal.process base64 node name v = .ok node' →
      node' = grown base64 node (ownFields [(name, v)]) (child base64 name v) := by
  induction v using Value.ind generalizing name with
  | basic x =>
    intro node node' h
    obtain ⟨text, htext, h⟩ := bind_eq_ok.1 h
    obtain rfl := Except.ok.inj h
    simp [grown, ownFields, attributes, child, value, htext, XMLObject.addAttr, Except.toOption]
  | object fields ih =>
    intro node node' h
    rw [XMLMarshal.process] at h
    obtain ⟨new_node, hnew, h⟩ := bind_eq_ok.1 h
    obtain rfl := Except.ok.inj h
    have heq := serialize_eq_of hplain (fun f hf hf' => ih f hf hf') hnew
    simp [grown, ownFields, attributes, child, heq, XMLObject.addElement, XMLObject.new]
  | vector => exact hplain.elim

/-- The element of an object has an attribute for each of its own fields, and an element for
    each object in it. -/
theorem marshal_eq (hplain : PlainFields o) {node node' : XMLObject}
    (h : XMLMarshal.serialize base64 node o = .ok node') :
    node' = grown base64 node (ownFields o) (children base64 o) :=
  serialize_eq_of hplain (fun _ _ hf => process_eq hf) h

private theorem serialize_ok_of (ho : ∀ f ∈ o, ∀ {cur name v'}, AllKept base64 cur name v' f.2 →
      ∀ node, ∃ node', XMLMarshal.process base64 node name f.2 = .ok node')
    (h : AllKeptFields base64 cur target o) (node : XMLObject) :
    ∃ node', XMLMarshal.serialize base64 node o = .ok node' := by
  induction o generalizing target cur node with
  | nil => exact ⟨node, rfl⟩
  | cons f o ih =>
    cases target with
    | nil => exact h.elim
    | cons f' target =>
      obtain ⟨hf, hrest⟩ := h
      obtain ⟨node₁, hnode₁⟩ := ho f List.mem_cons_self hf node
      obtain ⟨node₂, hnode₂⟩ := ih (fun g hg => ho g (List.mem_cons_of_mem f hg)) hrest node₁
      exact ⟨node₂, by rw [XMLMarshal.serialize, hnode₁, ok_bind, hnode₂]⟩

theorem process_ok {v' : Value} {name : List UInt8}
    (h : AllKept base64 cur name v' v) (node : XMLObject) :
    ∃ node', XMLMarshal.process base64 node name v = .ok node' := by
  induction v using Value.ind generalizing v' cur name node with
  | basic x =>
    cases v' with
    | basic y =>
      obtain ⟨⟨text, htext⟩, -⟩ := h
      exact ⟨_, by rw [XMLMarshal.process, XMLMarshal.processBasic, htext]; rfl⟩
    | _ => exact h.elim
  | object fields ih =>
    cases v' with
    | object fields' =>
      obtain ⟨new_node, hnew⟩ := serialize_ok_of (fun f hf _ _ _ hkept => ih f hf hkept) h (.new name)
      exact ⟨_, by rw [XMLMarshal.process, hnew]; rfl⟩
    | _ => exact h.elim
  | vector =>
    cases v' <;> exact h.elim

theorem marshal_ok (h : AllKeptFields base64 cur target o) (node : XMLObject) :
    ∃ node', XMLMarshal.serialize base64 node o = .ok node' :=
  serialize_ok_of (fun _ _ _ _ _ hkept => process_ok hkept) h node

/-! ### XercesXMLUnmarshal -/

@[simp] theorem visits_append (es es' : List XMLObject) :
    visits (es ++ es') = visits es ++ visits es' := by
  induction es with
  | nil => rfl
  | cons e es ih => simp [visits, ih]

/-- A value is stored as it was exactly when the attribute reads as it. -/
theorem recovers_load {y : Basic} (hmatch : StringPair.Basic.Matches y x) (text : List UInt8) :
    StringPair.Basic.Recovers
        (if XercesXMLUnmarshal.isShort y then y else XercesXMLUnmarshal.load text y) x ↔
      Reads text (StringPair.Basic.held y) x := by
  cases y with
  | int j =>
    cases x with
    | int i =>
      have hkind : j.kind = i.kind := hmatch
      simp [XercesXMLUnmarshal.isShort, XercesXMLUnmarshal.load, StringPair.Basic.Recovers, Reads,
        hkind]
    | _ => exact hmatch.elim
  | bool b' =>
    cases x with
    | bool b =>
      cases b <;> simp [XercesXMLUnmarshal.isShort, XercesXMLUnmarshal.load,
        StringPair.Basic.Recovers, Reads]
    | _ => exact hmatch.elim
  | string s' =>
    cases x with
    | string s =>
      simp [XercesXMLUnmarshal.isShort, XercesXMLUnmarshal.load, StringPair.Basic.Recovers, Reads]
    | _ => exact hmatch.elim
  | buf bq =>
    cases x with
    | buf bp =>
      have hlen : bq.bytes.length = bp.bytes.length := hmatch
      have hload : XercesXMLUnmarshal.loadBuf bq text = XercesXMLUnmarshal.loadBuf bp text := by
        simp [XercesXMLUnmarshal.loadBuf, hlen]
      by_cases hshort : bp.bytes.length < 2
      · have hbytes : bq = bp ↔ bq.bytes = bp.bytes := by
          cases bq
          cases bp
          simp
        simp [XercesXMLUnmarshal.isShort, hlen, hshort, StringPair.Basic.Recovers, Reads,
          StringPair.Basic.held, hbytes]
      · simp [XercesXMLUnmarshal.isShort, XercesXMLUnmarshal.load, hlen, hshort, hload,
          StringPair.Basic.Recovers, Reads]
    | _ => exact hmatch.elim
  | carrier c' =>
    cases x with
    | carrier c =>
      simp [XercesXMLUnmarshal.isShort, XercesXMLUnmarshal.load, BufferCarrier.setBuf,
        StringPair.Basic.Recovers, Reads, readBytes_self]
    | _ => exact hmatch.elim
  | terminated c' t' =>
    cases x with
    | terminated c t =>
      obtain rfl : t' = t := hmatch
      constructor
      · intro h
        obtain ⟨-, bytes, rest, rest', hmem, hbuf, hbuf', hlen⟩ := h
        -- the terminator is behind the bytes, which are as many as were read
        have hsplit := List.append_inj (Option.some.inj hbuf') hlen
        exact ⟨hsplit.1 ▸ hmem, rest, by rw [hbuf, ← hsplit.1]⟩
      · intro h
        obtain ⟨hmem, rest, hbuf⟩ := h
        exact ⟨rfl, cStr text, rest, [], hmem, hbuf, rfl, rfl⟩
    | _ => exact hmatch.elim

theorem processBasic_spec {y : Basic} (hmatch : StringPair.Basic.Matches y x)
    {cur : List (List UInt8 × Basic)} {e : XMLObject} (he : e.attrs_ = attributes base64 cur)
    (walker_ : Option (List XMLObject)) (name : List UInt8) :
    ∃ z, XercesXMLUnmarshal.processBasic ⟨some e, walker_⟩ name y = .ok z ∧
      (StringPair.Basic.Recovers z x ↔
        Reads (normalized (((cur.lookup name).map (value base64)).getD []))
          (StringPair.Basic.held y) x) := by
  have hget : XercesXMLUnmarshal.getAttribute ⟨some e, walker_⟩ name =
      .ok (normalized (((cur.lookup name).map (value base64)).getD [])) := by
    rw [← lookup_attributes, ← he]
    rfl
  refine ⟨_, ?_, recovers_load hmatch _⟩
  rw [XercesXMLUnmarshal.processBasic, hget]
  split <;> rfl

/-- What is read in an element `e` of the fields `cur`, where the elements of a value are the
    next ones. -/
def ReadsAs (base64 : List UInt8 → Option (List UInt8)) (cur : List (List UInt8 × Basic))
    (name : List UInt8) (v' v : Value) : Prop :=
  ∀ (e : XMLObject) (rest : List XMLObject), e.attrs_ = attributes base64 cur →
    ∃ r e', XercesXMLUnmarshal.process ⟨some e, some (visits (child base64 name v) ++ rest)⟩
        name v' = .ok (false, r, ⟨some e', some rest⟩) ∧
      e'.attrs_ = attributes base64 (fieldsAfter cur v) ∧
      (StringPair.Recovers r v ↔ AllKept base64 cur name v' v)

private theorem unmarshal_spec_of
    (ho : ∀ f ∈ o, Plain f.2 → ∀ {node node'}, XMLMarshal.process base64 node f.1 f.2 = .ok node' →
      ∀ {v'}, Matches v' f.2 → ∀ cur, ReadsAs base64 cur f.1 v' f.2)
    (hplain : PlainFields o) {node node' : XMLObject}
    (hok : XMLMarshal.serialize base64 node o = .ok node') {target : NamedObject}
    (hmatch : MatchesFields target o) (cur : List (List UInt8 × Basic)) (e : XMLObject)
    (rest : List XMLObject) (he : e.attrs_ = attributes base64 cur) :
    ∃ r e', XercesXMLUnmarshal.serialize ⟨some e, some (visits (children base64 o) ++ rest)⟩
        target = .ok (false, r, ⟨some e', some rest⟩) ∧
      e'.attrs_ = attributes base64 (fieldsAfterAll cur o) ∧
      (RecoversFields r o ↔ AllKeptFields base64 cur target o) := by
  induction o generalizing target cur e node with
  | nil =>
    cases target with
    | nil => exact ⟨[], e, rfl, he, Iff.rfl⟩
    | cons => exact hmatch.elim
  | cons f o ih =>
    obtain ⟨name, v⟩ := f
    cases target with
    | nil => exact hmatch.elim
    | cons f' target =>
      obtain ⟨name', v'⟩ := f'
      obtain ⟨rfl, hv, hrest⟩ := hmatch
      rw [XMLMarshal.serialize] at hok
      obtain ⟨node₁, hnode₁, hok⟩ := bind_eq_ok.1 hok
      obtain ⟨r, e₁, hr, he₁, hkept⟩ := ho _ List.mem_cons_self hplain.1 hnode₁ hv cur e
        (visits (children base64 o) ++ rest) he
      obtain ⟨rs, e₂, hrs, he₂, hkepts⟩ := ih (fun g hg => ho g (List.mem_cons_of_mem _ hg))
        hplain.2 hok hrest (fieldsAfter cur v) e₁ he₁
      refine ⟨(name', r) :: rs, e₂, ?_, he₂, ?_⟩
      · rw [children, visits_append, List.append_assoc, XercesXMLUnmarshal.serialize, hr, ok_bind]
        dsimp only
        rw [hrs]
        rfl
      · rw [RecoversFields, AllKeptFields, hkept, hkepts]
        simp

theorem process_readsAs (hplain : Plain v) {name : List UInt8}
    {node node' : XMLObject} (hok : XMLMarshal.process base64 node name v = .ok node')
    {v' : Value} (hmatch : Matches v' v) (cur : List (List UInt8 × Basic)) :
    ReadsAs base64 cur name v' v := by
  induction v using Value.ind generalizing name node node' v' cur with
  | basic x =>
    cases v' with
    | basic y =>
      intro e rest he
      rw [XMLMarshal.process] at hok
      obtain ⟨text, htext, -⟩ := bind_eq_ok.1 hok
      obtain ⟨z, hz, hrec⟩ := processBasic_spec hmatch he (some rest) name
      refine ⟨.basic z, e, ?_, he, hrec.trans (keptIn_iff ⟨text, htext⟩).symm⟩
      rw [child, visits, List.nil_append, XercesXMLUnmarshal.process, hz]
      rfl
    | _ => exact hmatch.elim
  | object fields ih =>
    cases v' with
    | object fields' =>
      intro e rest he
      rw [XMLMarshal.process] at hok
      obtain ⟨new_node, hnew, -⟩ := bind_eq_ok.1 hok
      -- the next element is that of the object
      obtain ⟨r, e', hr, he', hkept⟩ := unmarshal_spec_of (fun f hf hp _ _ h _ hm => ih f hf hp h hm)
        hplain hnew hmatch (ownFields fields)
        ⟨name, attributes base64 (ownFields fields), [], children base64 fields, []⟩ rest rfl
      refine ⟨.object r, e', ?_, he', hkept⟩
      rw [XercesXMLUnmarshal.process]
      simp only [child, visits, descendants, List.append_nil, List.cons_append,
        XercesXMLUnmarshal.nextElem, pure_eq_ok, ok_bind, ne_eq, not_true_eq_false, if_false, hr]
    | _ => exact hmatch.elim
  | vector => exact hplain.elim

/-- Every element is the next one when its object is processed, and every field is read from
    the element that was visited last. -/
theorem unmarshal_spec (hplain : PlainFields o) {node node' : XMLObject}
    (hok : XMLMarshal.serialize base64 node o = .ok node') (hmatch : MatchesFields target o)
    (cur : List (List UInt8 × Basic)) (e : XMLObject) (rest : List XMLObject)
    (he : e.attrs_ = attributes base64 cur) :
    ∃ r e', XercesXMLUnmarshal.serialize ⟨some e, some (visits (children base64 o) ++ rest)⟩
        target = .ok (false, r, ⟨some e', some rest⟩) ∧
      e'.attrs_ = attributes base64 (fieldsAfterAll cur o) ∧
      (RecoversFields r o ↔ AllKeptFields base64 cur target o) :=
  unmarshal_spec_of (fun _ _ hp _ _ h _ hm => process_readsAs hp h hm) hplain hok hmatch cur e rest
    he

/-! ### The round trip -/

/-- Where the parser returns the elements of the document, an object is recovered exactly when
    all its fields are kept. -/
theorem document_recovers_iff {xerces : List UInt8 → Option XMLObject} {root_tag : List UInt8}
    {x : Exchange}
    (hxerces : ∀ root, XMLMarshal.serialize base64 (.new root_tag) x.source = .ok root →
      xerces (root.toString (-1) 0) = some root) :
    x.Recovers base64 xerces root_tag ↔ x.Kept base64 := by
  have hrun : ∀ root, XMLMarshal.serialize base64 (.new root_tag) x.source = .ok root →
      ∃ s, XercesXMLUnmarshal.parse xerces (root.toString (-1) 0) = some s ∧
        ∃ r, XercesXMLUnmarshal.action s x.target = .ok (0, r) ∧
          (RecoversFields r x.source ↔ x.Kept base64) := by
    intro root hroot
    obtain ⟨r, e, hr, -, hkept⟩ := unmarshal_spec x.plain hroot x.matched (ownFields x.source) root
      [] (by rw [marshal_eq x.plain hroot]; rfl)
    have helements : descendants root = visits (children base64 x.source) ++ [] := by
      rw [marshal_eq x.plain hroot, List.append_nil]
      rfl
    refine ⟨⟨some root, some (descendants root)⟩, ?_, r, ?_, hkept⟩
    · rw [XercesXMLUnmarshal.parse, hxerces root hroot]
      rfl
    · rw [XercesXMLUnmarshal.action, helements, hr]
      rfl
  unfold Exchange.Recovers XMLMarshal.action
  constructor
  · intro h
    obtain ⟨xml_doc, hdoc, s, hs, r, hr, hrec⟩ := h
    obtain ⟨root, hroot, hdoc⟩ := bind_eq_ok.1 hdoc
    obtain rfl := Except.ok.inj hdoc
    obtain ⟨s', hs', r', hr', hkept⟩ := hrun root hroot
    obtain rfl := Option.some.inj (hs.symm.trans hs')
    rw [hr] at hr'
    obtain ⟨-, rfl⟩ := Prod.mk.inj (Except.ok.inj hr')
    exact hkept.1 hrec
  · intro h
    obtain ⟨root, hroot⟩ := marshal_ok h (.new root_tag)
    obtain ⟨s, hs, r, hr, hkept⟩ := hrun root hroot
    exact ⟨_, by rw [hroot]; rfl, s, hs, r, hr, hkept.2 h⟩

/-- A number, and an object that follows it. -/
private def nested : Exchange where
  source := [(ascii "n", .basic (.int ⟨.u8, 7, by decide⟩)),
    (ascii "in", .object [(ascii "b", .basic (.bool true))])]
  target := [(ascii "n", .basic (.int ⟨.u8, 0, by decide⟩)),
    (ascii "in", .object [(ascii "b", .basic (.bool false))])]
  matched := ⟨rfl, rfl, rfl, ⟨rfl, trivial, trivial⟩, trivial⟩
  plain := ⟨trivial, ⟨trivial, trivial⟩, trivial⟩

private def nestedDocument : XMLObject :=
  { XMLObject.new (ascii "o") with
    attrs_ := [(ascii "n", ascii "7")]
    elements_ := [{ XMLObject.new (ascii "in") with attrs_ := [(ascii "b", ascii "true")] }] }

private def readNested (xml_doc : List UInt8) : Option XMLObject :=
  if xml_doc = ascii "<o n=\"7\"><in b=\"true\"/></o>" then some nestedDocument else none

theorem document_recovers_iff_nested :
    nested.Recovers (fun _ => none) readNested (ascii "o") := by
  have hxerces : ∀ root, XMLMarshal.serialize (fun _ => none) (.new (ascii "o")) nested.source =
      .ok root → readNested (root.toString (-1) 0) = some root := by
    intro root hroot
    have hdocument : XMLMarshal.serialize (fun _ => none) (.new (ascii "o")) nested.source =
        .ok nestedDocument := by rfl
    obtain rfl := Except.ok.inj (hdocument.symm.trans hroot)
    have htext : nestedDocument.toString (-1) 0 = ascii "<o n=\"7\"><in b=\"true\"/></o>" := by
      decide
    rw [htext, readNested, if_pos rfl]
  refine (document_recovers_iff hxerces).2 ?_
  unfold Exchange.Kept
  have hn : KeptIn (fun _ => none) (ownFields nested.source) (ascii "n") []
      (.int ⟨.u8, 7, by decide⟩) :=
    ⟨⟨_, rfl⟩, fun _ => by unfold Kept; decide, fun h => absurd rfl h⟩
  have hb : KeptIn (fun _ => none) [(ascii "b", .bool true)] (ascii "b") [] (.bool true) :=
    ⟨⟨_, rfl⟩, fun _ => trivial, fun h => absurd rfl h⟩
  exact ⟨hn, ⟨hb, trivial⟩, trivial⟩

end Oasys.XMLSerialize
