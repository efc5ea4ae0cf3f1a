import Oasys.ForStd.Joined
import Oasys.Serialize.StringSerialize

/-!
# Table keys

Which keys of a type `MemoryTable` and `DurableObjectCache` tell apart. A key is made of
strings and integers, in objects and vectors of any depth. Its text is the text of these
parts, one after another, with dots between them, so what it shows of a string is what the
string is cut into at its own dots.

## Key results

- `tableKey_eq`, `tableKey_error`: the text of a key, and when there is none
- `separates_iff`: two keys have different texts when their parts fit and are cut into
  different segments
- `separates_of_dotless`: that is so for any two keys whose strings have no dot
-/

namespace Oasys.StringSerialize

/-! ### Keys -/

/-- A type of keys made of strings and integers. The names are those its `serialize` uses. -/
inductive KeyType where
  | int (kind : IntKind)
  | string
  | object (fields : List (List UInt8 × KeyType))
  | vector (builder : Value) (elem : KeyType)

mutual

/-- The value is one of the type. -/
def HasType : KeyType → Value → Prop
  | .int kind, .basic (.int i) => i.kind = kind
  | .string, .basic (.string _) => True
  | .object types, .object fields => HasFields types fields
  | .vector builder elem, .vector builder' elems =>
    builder' = builder ∧ ∀ e ∈ elems, HasType elem e
  | _, _ => False

/-- The same for the fields of an object. -/
def HasFields : List (List UInt8 × KeyType) → NamedObject → Prop
  | [], [] => True
  | (name, type) :: types, (name', v) :: fields =>
    name' = name ∧ HasType type v ∧ HasFields types fields
  | _, _ => False

end

/-- A key of a type. -/
structure Key (types : List (List UInt8 × KeyType)) where
  fields : NamedObject
  typed : HasFields types fields

/-- What a key is made of. A signed integer is the unsigned one it is cast to. -/
inductive Part where
  | number (n : Nat)
  | string (s : List UInt8)
  deriving DecidableEq, Repr

namespace Part

def text : Part → List UInt8
  | number n => Decimal.digits n
  | string s => s

/-- `StringBuffer` appends the part: the number has at most 15 digits, and the string no
    zero. -/
def Fits : Part → Prop
  | number n => n < 10 ^ 15
  | string s => 0 ∉ s

instance : DecidablePred Fits
  | number n => inferInstanceAs (Decidable (n < 10 ^ 15))
  | string s => inferInstanceAs (Decidable (0 ∉ s))

end Part

mutual

/-- The parts of a value, in the order they are processed in. -/
def parts : Value → List Part
  | .basic (.int i) => [.number i.cast]
  | .basic (.string s) => [.string s]
  | .object fields => objectParts fields
  | .vector _ elems => .number (Integer.size elems.length).cast :: elemParts elems
  -- no other value is of a key type
  | _ => []

def objectParts : NamedObject → List Part
  | [] => []
  | (_, v) :: fields => parts v ++ objectParts fields

def elemParts : List Value → List Part
  | [] => []
  | e :: elems => parts e ++ elemParts elems

end

namespace Key

variable {types : List (List UInt8 × KeyType)}

def Fits (k : Key types) : Prop := ∀ p ∈ objectParts k.fields, p.Fits

/-- What the parts of the key are cut into at the dots. -/
def segments (k : Key types) : List (List UInt8) :=
  Joined.segments 46 ((objectParts k.fields).map Part.text)

/-- Both keys have a text, and where they differ, so do the texts. -/
def Separates (k₁ k₂ : Key types) : Prop :=
  ∃ t₁ t₂, tableKey k₁.fields = .ok t₁ ∧ tableKey k₂.fields = .ok t₂ ∧ (k₁ ≠ k₂ → t₁ ≠ t₂)

end Key

/-! ### The text of a key -/

/-- The action as `tableKey` makes it, with a text in its buffer. -/
structure Holds (s : StringSerialize) (text : List UInt8) : Prop where
  options : s.options_ = ⟨false, false, false, true⟩
  sep : s.sep_ = 46
  buf : s.buf_.Holds text

/-- The parts are appended, each with a dot behind it, if they fit. -/
structure Appends (ps : List Part) (text : List UInt8) (r : Except Fault StringSerialize) :
    Prop where
  ok : (∀ p ∈ ps, p.Fits) →
    ∃ s, r = .ok s ∧ Holds s (text ++ (ps.map Part.text).flatMap (· ++ [46]))
  error : (∃ p ∈ ps, ¬ p.Fits) → ∃ e, r = .error e

variable {s : StringSerialize} {text : List UInt8}

theorem Holds.nil (h : Holds s text) : Appends [] text (.ok s) where
  ok _ := ⟨s, rfl, by simpa using h⟩
  error := by simp

theorem Appends.bind {ps qs : List Part} {r : Except Fault StringSerialize}
    {f : StringSerialize → Except Fault StringSerialize} (hr : Appends ps text r)
    (hf : ∀ s text, Holds s text → Appends qs text (f s)) : Appends (ps ++ qs) text (r >>= f) where
  ok hfits := by
    obtain ⟨s, rfl, hs⟩ := hr.ok fun p hp => hfits p (List.mem_append_left qs hp)
    obtain ⟨s', hf, hs'⟩ := (hf s _ hs).ok fun p hp => hfits p (List.mem_append_right ps hp)
    exact ⟨s', hf, by simpa using hs'⟩
  error hout := by
    by_cases hps : ∀ p ∈ ps, p.Fits
    · obtain ⟨s, rfl, hs⟩ := hr.ok hps
      obtain ⟨p, hp, hout⟩ := hout
      rcases List.mem_append.1 hp with hp | hp
      · exact absurd (hps p hp) hout
      · exact (hf s _ hs).error ⟨p, hp, hout⟩
    · obtain ⟨e, rfl⟩ := hr.error (by simpa using hps)
      exact ⟨e, rfl⟩

theorem Holds.processWith (h : Holds s text) (name type : List UInt8) {p : Part}
    {append : StringBuffer → Except Fault StringBuffer}
    (hok : p.Fits → ∃ b, append s.buf_ = .ok b ∧ b.Holds (text ++ p.text))
    (herror : ¬ p.Fits → ∃ e, append s.buf_ = .error e) :
    Appends [p] text (s.processWith name type append) := by
  have hpreamble : s.addPreamble name type = .ok s := by
    rw [addPreamble, h.options]
    simp [← h.options]
  have hschema : s.options_.SCHEMA_ONLY = false := by
    rw [h.options]
  constructor
  · intro hfits
    obtain ⟨b, happend, hb⟩ := hok (hfits p List.mem_cons_self)
    obtain ⟨b', hsep, hb'⟩ := hb.appendChar s.sep_
    refine ⟨{ s with buf_ := b' }, ?_, h.options, h.sep, by simpa [h.sep] using hb'⟩
    simp [StringSerialize.processWith, hpreamble, hschema, happend, hsep]
  · intro hout
    obtain ⟨e, happend⟩ := herror (by simpa using hout)
    exact ⟨e, by simp [StringSerialize.processWith, hpreamble, hschema, happend]⟩

theorem Holds.processInt (h : Holds s text) (name : List UInt8) (i : Integer) :
    Appends [.number i.cast] text (s.processInt name i) := by
  have hval : (UInt64.ofNat i.cast).toNat = i.cast := UInt64.toNat_ofNat_of_lt' i.cast_lt
  refine h.processWith name _ (fun hfits => ?_) (fun hout => ?_)
  · have hlt : (UInt64.ofNat i.cast).toNat < 10 ^ 15 := hval.symm ▸ hfits
    have happend := h.buf.appendInt hlt
    rwa [hval] at happend
  · exact s.buf_.appendInt_error (hval.symm ▸ hout)

theorem Holds.processString (h : Holds s text) (name str : List UInt8) :
    Appends [.string str] text (s.processString name str) :=
  h.processWith name _ h.buf.append
    fun hout => ⟨_, s.buf_.append_error (Decidable.not_not.1 hout)⟩

variable {fields : NamedObject}

private theorem Holds.serialize_of (hfields : ∀ f ∈ fields, ∀ name {s text}, Holds s text →
      Appends (parts f.2) text (s.process name f.2)) {s : StringSerialize} {text : List UInt8}
    (h : Holds s text) : Appends (objectParts fields) text (s.serialize fields) := by
  induction fields generalizing s text with
  | nil =>
    rw [StringSerialize.serialize]
    exact h.nil
  | cons f fields ih =>
    obtain ⟨name, v⟩ := f
    rw [StringSerialize.serialize, objectParts]
    apply (hfields _ List.mem_cons_self name h).bind
    intro s text h
    exact ih (fun f hf => hfields f (List.mem_cons_of_mem _ hf)) h

private theorem Holds.processElems_of {elems : List Value}
    (helems : ∀ e ∈ elems, ∀ name {s text}, Holds s text →
      Appends (parts e) text (s.process name e)) {s : StringSerialize} {text : List UInt8}
    (h : Holds s text) : Appends (elemParts elems) text (s.processElems elems) := by
  induction elems generalizing s text with
  | nil =>
    rw [StringSerialize.processElems]
    exact h.nil
  | cons e elems ih =>
    rw [StringSerialize.processElems, elemParts]
    apply (helems e List.mem_cons_self _ h).bind
    intro s text h
    exact ih (fun e he => helems e (List.mem_cons_of_mem _ he)) h

variable {types : List (List UInt8 × KeyType)}

private theorem HasFields.exists_type
    (h : HasFields types fields) : ∀ f ∈ fields, ∃ type, HasType type f.2 := by
  induction fields generalizing types with
  | nil => simp
  | cons f fields ih =>
    cases types with
    | nil => exact h.elim
    | cons type types =>
      obtain ⟨-, htype, htypes⟩ := h
      intro f' hf'
      rcases List.mem_cons.1 hf' with rfl | hf'
      · exact ⟨type.2, htype⟩
      · exact ih htypes f' hf'

variable {type : KeyType} {v : Value}

theorem Holds.process (htype : HasType type v) (name : List UInt8)
    {s : StringSerialize} {text : List UInt8} (h : Holds s text) :
    Appends (parts v) text (s.process name v) := by
  induction v using Value.ind generalizing type name s text with
  | basic x =>
    rw [StringSerialize.process]
    cases x with
    | int i => exact h.processInt name i
    | string str => exact h.processString name str
    -- the other values are of no key type
    | _ => cases type <;> exact htype.elim
  | object fields ih =>
    cases type with
    | object types =>
      rw [StringSerialize.process, parts]
      apply h.serialize_of
      intro f hf name s text h
      obtain ⟨type, htype⟩ := HasFields.exists_type htype f hf
      exact ih f hf htype name h
    | _ => exact htype.elim
  | vector builder elems _ ih =>
    cases type with
    | vector builder' elem =>
      rw [StringSerialize.process, parts]
      apply (h.processInt (ascii "size") (.size elems.length)).bind
      intro s text h
      apply h.processElems_of
      intro e he name s text h
      exact ih e he (htype.2 e he) name h
    | _ => exact htype.elim

theorem Holds.serialize (k : Key types)
    (h : Holds s text) : Appends (objectParts k.fields) text (s.serialize k.fields) := by
  apply h.serialize_of
  intro f hf name s text h
  obtain ⟨type, htype⟩ := HasFields.exists_type k.typed f hf
  exact h.process htype name

theorem Holds.endAction {texts : List (List UInt8)}
    (h : Holds s (texts.flatMap (· ++ [46]))) :
    ∃ s', s.endAction = .ok s' ∧ Holds s' ([46].intercalate texts) := by
  have hlen := h.buf.len
  unfold StringSerialize.endAction StringBuffer.length
  by_cases hnil : texts = []
  · subst hnil
    exact ⟨s, by simp [hlen], h⟩
  · have hbuf := h.buf
    rw [Joined.flatMap_concat_eq 46 hnil] at hbuf hlen
    have hne : s.buf_.buf_.len_ ≠ 0 := by
      rw [hlen, List.length_append]
      simp
    obtain ⟨b, htrim, hb⟩ := hbuf.trim
    exact ⟨{ s with buf_ := b }, by simp_all, h.options, h.sep, hb⟩

variable {k k₁ k₂ : Key types}

theorem tableKey_eq (hfits : k.Fits) :
    tableKey k.fields = .ok ([46].intercalate ((objectParts k.fields).map Part.text)) := by
  obtain ⟨b, hnew, hb⟩ := StringBuffer.new_ok (show 0 < 256 by decide)
  have h : Holds ⟨⟨false, false, false, true⟩, b, 46⟩ [] := ⟨rfl, rfl, hb⟩
  obtain ⟨s, hserialize, hs⟩ := (h.serialize k).ok hfits
  obtain ⟨s', hend, hs'⟩ := hs.endAction
  have hdata : s'.buf_.buf_.bytes.take s'.buf_.length = _ := hs'.buf.len ▸ hs'.buf.take
  simp [tableKey, StringSerialize.new, hnew, action, hserialize, hend, hs'.buf.data_eq, hdata]

theorem tableKey_error (hout : ¬ k.Fits) : ∃ e, tableKey k.fields = .error e := by
  obtain ⟨b, hnew, hb⟩ := StringBuffer.new_ok (show 0 < 256 by decide)
  have h : Holds ⟨⟨false, false, false, true⟩, b, 46⟩ [] := ⟨rfl, rfl, hb⟩
  obtain ⟨e, hserialize⟩ := (h.serialize k).error (by simpa [Key.Fits] using hout)
  exact ⟨e, by simp [tableKey, StringSerialize.new, hnew, action, hserialize]⟩

/-! ### Keys with different texts -/

private theorem objectParts_eq_nil {fields' : NamedObject}
    (hparts : ∀ f ∈ fields, ∀ {type v'}, HasType type f.2 → HasType type v' → parts f.2 = [] →
      parts v' = [])
    (htypes : HasFields types fields) (htypes' : HasFields types fields')
    (h : objectParts fields = []) : objectParts fields' = [] := by
  induction fields generalizing types fields' with
  | nil =>
    cases types with
    | cons => exact htypes.elim
    | nil =>
      cases fields' with
      | cons => exact htypes'.elim
      | nil => rfl
  | cons f fields ih =>
    cases types with
    | nil => exact htypes.elim
    | cons type types =>
      cases fields' with
      | nil => exact htypes'.elim
      | cons f' fields' =>
        obtain ⟨-, htype, htypes⟩ := htypes
        obtain ⟨-, htype', htypes'⟩ := htypes'
        rw [objectParts, List.append_eq_nil_iff] at h ⊢
        constructor
        · exact hparts f List.mem_cons_self htype htype' h.1
        · exact ih (fun f hf => hparts f (List.mem_cons_of_mem _ hf)) htypes htypes' h.2

theorem parts_eq_nil {v' : Value} (htype : HasType type v)
    (htype' : HasType type v') (h : parts v = []) : parts v' = [] := by
  induction v using Value.ind generalizing type v' with
  | object fields ih =>
    cases type with
    | object types =>
      cases v' with
      | object fields' =>
        rw [parts] at h ⊢
        exact objectParts_eq_nil ih htype htype' h
      | _ => exact htype'.elim
    | _ => exact htype.elim
  | vector => simp [parts] at h
  | basic x =>
    cases x with
    | int => simp [parts] at h
    | string => simp [parts] at h
    | _ => cases type <;> exact htype.elim

variable {types : List (List UInt8 × KeyType)}

theorem Key.parts_eq_nil_iff (k₁ k₂ : Key types) :
    objectParts k₁.fields = [] ↔ objectParts k₂.fields = [] :=
  ⟨objectParts_eq_nil (fun _ _ => parts_eq_nil) k₁.typed k₂.typed,
    objectParts_eq_nil (fun _ _ => parts_eq_nil) k₂.typed k₁.typed⟩

theorem tableKey_inj {t₁ t₂ : List UInt8} (h₁ : k₁.Fits) (h₂ : k₂.Fits)
    (ht₁ : tableKey k₁.fields = .ok t₁) (ht₂ : tableKey k₂.fields = .ok t₂) :
    t₁ = t₂ ↔ k₁.segments = k₂.segments := by
  have hnil := k₁.parts_eq_nil_iff k₂
  rw [tableKey_eq h₁, Except.ok.injEq] at ht₁
  rw [tableKey_eq h₂, Except.ok.injEq] at ht₂
  rw [← ht₁, ← ht₂]
  exact Joined.intercalate_inj 46 (by simpa using hnil)

theorem Key.fits_of_tableKey {t : List UInt8} (ht : tableKey k.fields = .ok t) : k.Fits := by
  by_contra hout
  obtain ⟨e, herror⟩ := tableKey_error hout
  rw [herror] at ht
  cases ht

theorem Key.Separates.segments_ne (h : k₁.Separates k₂) (hk : k₁ ≠ k₂) :
    k₁.segments ≠ k₂.segments := by
  obtain ⟨t₁, t₂, ht₁, ht₂, hne⟩ := h
  have hinj := tableKey_inj (fits_of_tableKey ht₁) (fits_of_tableKey ht₂) ht₁ ht₂
  exact fun hseg => hne hk (hinj.2 hseg)

theorem Key.separates_of_segments (h₁ : k₁.Fits) (h₂ : k₂.Fits)
    (hne : k₁ ≠ k₂ → k₁.segments ≠ k₂.segments) : k₁.Separates k₂ := by
  have ht₁ := tableKey_eq h₁
  have ht₂ := tableKey_eq h₂
  exact ⟨_, _, ht₁, ht₂, fun hk ht => hne hk ((tableKey_inj h₁ h₂ ht₁ ht₂).1 ht)⟩

/-- Two keys have texts that tell them apart exactly when all their parts fit and, where the
    keys differ, their parts are cut into different segments. -/
theorem separates_iff (k₁ k₂ : Key types) :
    k₁.Separates k₂ ↔ k₁.Fits ∧ k₂.Fits ∧ (k₁ ≠ k₂ → k₁.segments ≠ k₂.segments) := by
  constructor
  · intro h
    have hne := h.segments_ne
    obtain ⟨t₁, t₂, ht₁, ht₂, -⟩ := h
    exact ⟨Key.fits_of_tableKey ht₁, Key.fits_of_tableKey ht₂, hne⟩
  · intro h
    exact Key.separates_of_segments h.1 h.2.1 h.2.2

/-- A key of two strings. -/
private def pair (x y : String) :
    Key [(ascii "first", .string), (ascii "second", .string)] where
  fields := [(ascii "first", .basic (.string (ascii x))),
    (ascii "second", .basic (.string (ascii y)))]
  typed := ⟨rfl, trivial, rfl, trivial, trivial⟩

/-- A dot in a string is no different from the one between two strings. -/
theorem not_separates :
    ¬ ∀ (types : List (List UInt8 × KeyType)) (k₁ k₂ : Key types), k₁.Separates k₂ := by
  intro h
  have hsep := h _ (pair "a.b" "c") (pair "a" "b.c")
  apply hsep.segments_ne
  · intro heq
    have hfields := congrArg Key.fields heq
    simp [pair, ascii] at hfields
  · decide

/-! ### Keys without dots -/

mutual

/-- The number of elements of every vector is one that its `u_int` holds. -/
def Short : Value → Prop
  | .object fields => ShortFields fields
  | .vector _ elems => elems.length < 2 ^ 32 ∧ ShortElems elems
  | _ => True

def ShortFields : NamedObject → Prop
  | [] => True
  | (_, v) :: fields => Short v ∧ ShortFields fields

def ShortElems : List Value → Prop
  | [] => True
  | e :: elems => Short e ∧ ShortElems elems

end

/-- The texts of the parts of a value tell where the value ends, and which one it is. -/
def Readable (type : KeyType) (v : Value) : Prop :=
  ∀ {v' rest rest'}, HasType type v' → Short v' →
    (parts v).map Part.text ++ rest = (parts v').map Part.text ++ rest' → v = v' ∧ rest = rest'

private theorem basic_readable {x : Basic} {v' : Value}
    {rest rest' : List (List UInt8)} (htype : HasType type (.basic x)) (htype' : HasType type v')
    (h : (parts (.basic x)).map Part.text ++ rest = (parts v').map Part.text ++ rest') :
    .basic x = v' ∧ rest = rest' := by
  cases type with
  | int kind =>
    cases x with
    | int i =>
      cases v' with
      | basic y =>
        cases y with
        | int j =>
          simp only [parts, Part.text, List.map_cons, List.map_nil, List.cons_append,
            List.nil_append, List.cons.injEq] at h
          have hcast := Decimal.digits_injective h.1
          have hkind : i.kind = j.kind := htype.trans htype'.symm
          rw [Integer.eq_of_cast_eq hkind hcast]
          exact ⟨rfl, h.2⟩
        | _ => exact htype'.elim
      | _ => exact htype'.elim
    | _ => exact htype.elim
  | string =>
    cases x with
    | string str =>
      cases v' with
      | basic y =>
        cases y with
        | string str' => simpa [parts, Part.text] using h
        | _ => exact htype'.elim
      | _ => exact htype'.elim
    | _ => exact htype.elim
  | object => cases x <;> exact htype.elim
  | vector => cases x <;> exact htype.elim

private theorem fields_readable
    (hread : ∀ f ∈ fields, ∀ {type}, HasType type f.2 → Short f.2 → Readable type f.2)
    {fields' : NamedObject} {rest rest' : List (List UInt8)} (htypes : HasFields types fields)
    (hshort : ShortFields fields) (htypes' : HasFields types fields')
    (hshort' : ShortFields fields')
    (h : (objectParts fields).map Part.text ++ rest =
      (objectParts fields').map Part.text ++ rest') : fields = fields' ∧ rest = rest' := by
  induction fields generalizing types fields' with
  | nil =>
    cases types with
    | cons => exact htypes.elim
    | nil =>
      cases fields' with
      | cons => exact htypes'.elim
      | nil => exact ⟨rfl, h⟩
  | cons f fields ih =>
    cases types with
    | nil => exact htypes.elim
    | cons type types =>
      cases fields' with
      | nil => exact htypes'.elim
      | cons f' fields' =>
        obtain ⟨name, v⟩ := f
        obtain ⟨name', v'⟩ := f'
        obtain ⟨hname, htype, htypes⟩ := htypes
        obtain ⟨hname', htype', htypes'⟩ := htypes'
        simp only [objectParts, List.map_append, List.append_assoc] at h
        obtain ⟨rfl, htail⟩ := hread _ List.mem_cons_self htype hshort.1 htype' hshort'.1 h
        obtain ⟨rfl, hrest⟩ := ih (fun f hf => hread f (List.mem_cons_of_mem _ hf)) htypes hshort.2
          htypes' hshort'.2 htail
        exact ⟨by rw [hname, hname'], hrest⟩

private theorem elems_readable {elem : KeyType} {elems : List Value}
    (hread : ∀ e ∈ elems, HasType elem e → Short e → Readable elem e) {elems' : List Value}
    {rest rest' : List (List UInt8)} (htypes : ∀ e ∈ elems, HasType elem e)
    (hshort : ShortElems elems) (htypes' : ∀ e ∈ elems', HasType elem e)
    (hshort' : ShortElems elems') (hlen : elems.length = elems'.length)
    (h : (elemParts elems).map Part.text ++ rest = (elemParts elems').map Part.text ++ rest') :
    elems = elems' ∧ rest = rest' := by
  induction elems generalizing elems' with
  | nil =>
    cases elems' with
    | cons => cases hlen
    | nil => exact ⟨rfl, h⟩
  | cons e elems ih =>
    cases elems' with
    | nil => cases hlen
    | cons e' elems' =>
      simp only [elemParts, List.map_append, List.append_assoc] at h
      rw [List.forall_mem_cons] at htypes htypes' hread
      obtain ⟨rfl, htail⟩ := hread.1 htypes.1 hshort.1 htypes'.1 hshort'.1 h
      obtain ⟨rfl, hrest⟩ := ih hread.2 htypes.2 hshort.2 htypes'.2 hshort'.2
        (Nat.succ.inj hlen) htail
      exact ⟨rfl, hrest⟩

theorem readable (htype : HasType type v) (hshort : Short v) : Readable type v := by
  intro v' rest rest' htype' hshort' h
  induction v using Value.ind generalizing type v' rest rest' with
  | basic x => exact basic_readable htype htype' h
  | object fields ih =>
    cases type with
    | object types =>
      cases v' with
      | object fields' =>
        obtain ⟨rfl, hrest⟩ := fields_readable (fun f hf _ htype hshort _ _ _ htype' hshort' h =>
          ih f hf htype hshort htype' hshort' h) htype hshort htype' hshort' h
        exact ⟨rfl, hrest⟩
      | _ => exact htype'.elim
    | _ => exact htype.elim
  | vector builder elems _ ih =>
    cases type with
    | vector builder' elem =>
      cases v' with
      | vector builder'' elems' =>
        simp only [parts, Part.text, List.map_cons, List.cons_append, List.cons.injEq] at h
        -- the sizes are those that the vectors have
        have hsize := congrArg Integer.val (Integer.eq_of_cast_eq (i := .size elems.length)
          (j := .size elems'.length) rfl (Decimal.digits_injective h.1))
        have hlt := hshort.1
        have hlt' := hshort'.1
        have hlen : elems.length = elems'.length := by
          simp only [Integer.size, IntType.u32_conv] at hsize
          omega
        obtain ⟨rfl, hrest⟩ := elems_readable (fun e he htype hshort _ _ _ htype' hshort' h =>
          ih e he htype hshort htype' hshort' h) htype.2 hshort.2 htype'.2 hshort'.2 hlen h.2
        exact ⟨by rw [htype.1, htype'.1], hrest⟩
      | _ => exact htype'.elim
    | _ => exact htype.elim

def Key.Dotless (k : Key types) : Prop := ∀ s, .string s ∈ objectParts k.fields → 46 ∉ s

theorem Key.Dotless.segments_eq (h : k.Dotless) :
    k.segments = (objectParts k.fields).map Part.text := by
  apply Joined.segments_eq_self
  intro text htext
  obtain ⟨p, hp, rfl⟩ := List.mem_map.1 htext
  cases p with
  | number n => exact Decimal.not_mem_digits rfl
  | string s => exact h s hp

theorem separates_of_dotless (h₁ : k₁.Fits) (h₂ : k₂.Fits)
    (hdots₁ : k₁.Dotless) (hdots₂ : k₂.Dotless) (hshort₁ : ShortFields k₁.fields)
    (hshort₂ : ShortFields k₂.fields) : k₁.Separates k₂ := by
  apply Key.separates_of_segments h₁ h₂
  intro hk hseg
  rw [hdots₁.segments_eq, hdots₂.segments_eq] at hseg
  have hfields : k₁.fields = k₂.fields := And.left <| fields_readable
    (fun _ _ _ => readable) k₁.typed hshort₁ k₂.typed hshort₂ (congrArg (· ++ []) hseg)
  obtain ⟨fields, _⟩ := k₁
  obtain ⟨fields', _⟩ := k₂
  obtain rfl : fields = fields' := hfields
  exact hk rfl

/-- Two keys of two strings. -/
theorem separates_of_dotless_pair : (pair "ab" "c").Separates (pair "a" "bc") := by
  have hdots : ∀ x y, 46 ∉ ascii x → 46 ∉ ascii y → (pair x y).Dotless := by
    intro x y hx hy s hs
    simp only [pair, objectParts, parts, List.cons_append, List.nil_append, List.append_nil,
      List.mem_cons, Part.string.injEq, List.not_mem_nil, or_false] at hs
    rcases hs with rfl | rfl
    · exact hx
    · exact hy
  exact separates_of_dotless (by unfold Key.Fits; decide) (by unfold Key.Fits; decide)
    (hdots _ _ (by decide) (by decide)) (hdots _ _ (by decide) (by decide))
    ⟨trivial, trivial, trivial⟩ ⟨trivial, trivial, trivial⟩

end Oasys.StringSerialize
