import Oasys.Spec.KeyRoundTrip
import Oasys.Storage.FileSystemTable

/-!
# Paths of keys

The path of a key in a `FileSystemTable` is the directory, a slash, and the text of the key up
to its first NUL. What is asked of it is that it names one entry of the directory, another one
for every key, so that a `put` that makes its file finds the directory.

Both are told from the keys: `allHeld` are the bytes in which a slash or a NUL can be, and
`allLook` compares two keys as far as their paths go. A string with a slash names an entry of
another directory, and keys that differ behind a NUL, or in the upper half of a number of 64
bits, share a path.
-/

namespace Oasys

open Key

namespace Key

/-- The border that the table uses. -/
abbrev dash : Option (List UInt8) := some [45]

def cut (bytes : List UInt8) : List UInt8 := bytes.takeWhile (· != 0)

/-! ### What a path keeps -/

mutual

/-- The bytes of the strings, carriers and buffers of a field. -/
def held : Field → List UInt8
  | .fixed (.buf bp) => bp.bytes
  | .fixed _ => []
  | .carrier c => (c.buf_.getD []).take c.len_
  | .terminated c t => (c.buf_.getD []).takeWhile (· != t)
  | .string str => str
  | .object fields => allHeld fields
  | .vector _ elems => allHeld elems

def allHeld : SerializableObject → List UInt8
  | [] => []
  | f :: o => held f ++ allHeld o

end

mutual

/-- The buffer that a field begins with, if it does not begin with a number. -/
def lead : Field → Option (List UInt8)
  | .fixed (.buf bp) => some bp.bytes
  | .object fields => allLead fields
  | _ => none

def allLead : SerializableObject → Option (List UInt8)
  | [] => none
  | f :: _ => lead f

end

/-- How two keys compare. -/
inductive Look where
  /-- They are alike, and have no NUL. -/
  | same
  /-- They are alike up to a NUL. -/
  | cut
  /-- They differ before any NUL. -/
  | apart
  deriving DecidableEq, Repr

def Look.then : Look → Look → Look
  | .same, r => r
  | r, _ => r

/-- Bytes of the same number. -/
def lookBytes : List UInt8 → List UInt8 → Look
  | [], [] => .same
  | a :: bytes, b :: bytes' =>
    if a ≠ b then .apart else if a = 0 then .cut else lookBytes bytes bytes'
  | _, _ => .apart

def lookCounted (bytes bytes' : List UInt8) : Look :=
  if bytes.length = bytes'.length then lookBytes bytes bytes' else .apart

/-- Values of fixed size; of a number of 64 bits, the lower half. -/
def lookFixed : FixedField → FixedField → Look
  | .buf bp, .buf bq => lookBytes bp.bytes bq.bytes
  | x, y => if x.low = y.low then .same else .apart

mutual

/-- Fields of one type. -/
def look : Field → Field → Look
  | .fixed x, .fixed y => lookFixed x y
  | .carrier c, .carrier d =>
    lookCounted ((c.buf_.getD []).take c.len_) ((d.buf_.getD []).take d.len_)
  | .terminated c t, .terminated d t' =>
    lookCounted ((c.buf_.getD []).takeWhile (· != t)) ((d.buf_.getD []).takeWhile (· != t'))
  | .string str, .string str' => lookCounted str str'
  | .object fields, .object fields' => allLook fields fields'
  | .vector _ elems, .vector _ elems' =>
    if elems.length = elems'.length then allLook elems elems' else .apart
  | _, _ => .apart

def allLook : SerializableObject → SerializableObject → Look
  | [], [] => .same
  | f :: o, g :: o' => (look f g).then (allLook o o')
  | _, _ => .apart

end

/-! ### Bytes up to a NUL -/

theorem cut_append {bytes : List UInt8} (h : 0 ∉ bytes) (rest : List UInt8) :
    cut (bytes ++ rest) = bytes ++ cut rest := by
  unfold cut
  rw [List.takeWhile_append_of_pos]
  intro b hb
  simpa using fun hzero : b = 0 => h (hzero ▸ hb)

theorem cut_append_of_mem {bytes : List UInt8} (h : 0 ∈ bytes) (rest : List UInt8) :
    cut (bytes ++ rest) = cut bytes := by
  induction bytes with
  | nil => cases h
  | cons b bytes ih =>
    by_cases hb : b = 0
    · simp [cut, hb]
    · have hmem : 0 ∈ bytes := by simpa [Ne.symm hb] using h
      have htail := ih hmem
      unfold cut at htail ⊢
      simp [hb, htail]

def Look.Tells (t t' : List UInt8) : Look → Prop
  | same => t = t' ∧ 0 ∉ t
  | cut => ∀ rest rest', Key.cut (t ++ rest) = Key.cut (t' ++ rest')
  | apart => ∀ rest rest', Key.cut (t ++ rest) ≠ Key.cut (t' ++ rest')

variable {t t' u u' : List UInt8} {r r' : Look}

theorem Look.Tells.then (h : r.Tells t t') (h' : r'.Tells u u') :
    (r.then r').Tells (t ++ u) (t' ++ u') := by
  cases r with
  | same =>
    obtain ⟨rfl, ht⟩ := h
    cases r' with
    | same =>
      obtain ⟨rfl, hu⟩ := h'
      exact ⟨rfl, by simp [ht, hu]⟩
    | cut =>
      intro rest rest'
      rw [List.append_assoc, List.append_assoc, cut_append ht, cut_append ht, h' rest rest']
    | apart =>
      intro rest rest'
      rw [List.append_assoc, List.append_assoc, cut_append ht, cut_append ht]
      exact fun heq => h' rest rest' (List.append_cancel_left heq)
  | cut =>
    intro rest rest'
    rw [List.append_assoc, List.append_assoc]
    exact h _ _
  | apart =>
    intro rest rest'
    rw [List.append_assoc, List.append_assoc]
    exact h _ _

theorem tells_ite {P : Prop} [Decidable P] (hP : P ↔ t = t') (hlength : t.length = t'.length)
    (ht : 0 ∉ t) (ht' : 0 ∉ t') : (if P then Look.same else Look.apart).Tells t t' := by
  by_cases h : P
  · rw [if_pos h]
    exact ⟨hP.1 h, ht⟩
  · rw [if_neg h]
    intro rest rest' heq
    rw [cut_append ht, cut_append ht'] at heq
    exact h (hP.2 (List.append_inj_left heq hlength))

theorem lookBytes_tells (hlength : t.length = t'.length) : (lookBytes t t').Tells t t' := by
  induction t generalizing t' with
  | nil =>
    obtain rfl := List.length_eq_zero_iff.1 hlength.symm
    exact ⟨rfl, by simp⟩
  | cons a t ih =>
    cases t' with
    | nil => cases hlength
    | cons b t' =>
      unfold lookBytes
      by_cases hab : a = b
      · subst hab
        by_cases hzero : a = 0
        · -- both end here
          subst hzero
          intro rest rest'
          simp [cut]
        · have htail := ih (by simpa using hlength)
          rw [if_neg (by simp), if_neg hzero]
          have hhead : Look.Tells [a] [a] .same := ⟨rfl, by simpa using Ne.symm hzero⟩
          exact hhead.then htail
      · rw [if_pos hab]
        intro rest rest' heq
        -- at least one of the two bytes is kept
        by_cases ha : a = 0
        · have hb : b ≠ 0 := fun hb => hab (ha.trans hb.symm)
          simp [cut, ha, hb] at heq
        · by_cases hb : b = 0
          · simp [cut, ha, hb] at heq
          · simp [cut, ha, hb, hab] at heq

/-! ### Numbers -/

/-- A text without a byte that means something in a path. -/
structure Clean (text : List UInt8) : Prop where
  nul : 0 ∉ text
  slash : DirTree.slash ∉ text
  dot : 46 ∉ text

private theorem isDigit_ne {c : UInt8} (h : Hex.isDigit c = true) :
    c ≠ 0 ∧ c ≠ DirTree.slash ∧ c ≠ 46 := by
  refine ⟨?_, ?_, ?_⟩ <;> rintro rfl <;> cases h

theorem clean_pad {fill : UInt8} (hnul : fill ≠ 0) (hslash : fill ≠ DirTree.slash)
    (hdot : fill ≠ 46) (width n : Nat) : Clean (Hex.pad fill width (Hex.digits n)) := by
  have hall : ∀ c ∈ Hex.pad fill width (Hex.digits n), c ≠ 0 ∧ c ≠ DirTree.slash ∧ c ≠ 46 := by
    intro c hmem
    cases List.mem_append.1 hmem with
    | inl hmem =>
      rw [(List.mem_replicate.1 hmem).2]
      exact ⟨hnul, hslash, hdot⟩
    | inr hmem => exact isDigit_ne (Hex.isDigit_of_mem n c hmem)
  exact ⟨fun hmem => (hall _ hmem).1 rfl, fun hmem => (hall _ hmem).2.1 rfl,
    fun hmem => (hall _ hmem).2.2 rfl⟩

theorem clean_zeroHex (width : Nat) (i : UInt32) : Clean ((Format.zeroHex width).print i) :=
  clean_pad (by decide) (by decide) (by decide) width i.toNat

theorem clean_spaceHex (width : Nat) (i : UInt32) : Clean ((Format.spaceHex width).print i) :=
  clean_pad (by decide) (by decide) (by decide) width i.toNat

theorem clean_bool (b : Bool) : Clean ((Format.dec 1).print (if b then 1 else 0)) := by
  cases b <;> exact ⟨by decide, by decide, by decide⟩

theorem zeroHex_inj {width : Nat} {i j : UInt32} :
    (Format.zeroHex width).print i = (Format.zeroHex width).print j ↔ i = j := by
  refine ⟨fun heq => ?_, fun heq => heq ▸ rfl⟩
  have hnil : ([] : List UInt8).takeWhile Hex.isDigit = [] := rfl
  have hi := Hex.value_pad i.toNat width hnil
  have hj := Hex.value_pad j.toNat width hnil
  have hvalue : i.toNat = j.toNat := by
    rw [← hi, ← hj]
    exact congrArg (fun text => Hex.value (text ++ [])) heq
  exact UInt32.toNat_inj.1 hvalue

theorem spaceHex_inj {width : Nat} {i j : UInt32} :
    (Format.spaceHex width).print i = (Format.spaceHex width).print j ↔ i = j := by
  refine ⟨fun heq => ?_, fun heq => heq ▸ rfl⟩
  -- what is read back of one text is either number
  have hread := (strtoull_spaceHex i width 0).symm.trans
    ((congrArg (fun text => strtoull (text ++ List.replicate 0 0)) heq).trans
      (strtoull_spaceHex j width 0))
  have hlt := i.toNat_lt
  have hlt' := j.toNat_lt
  have hvalue := congrArg UInt64.toNat hread
  rw [UInt64.toNat_ofNat', UInt64.toNat_ofNat'] at hvalue
  apply UInt32.toNat_inj.1
  omega

theorem lenText_inj {n n' : Nat} (hn : n < 2 ^ 32) (hn' : n' < 2 ^ 32) :
    lenText n = lenText n' ↔ n = n' := by
  unfold lenText
  rw [zeroHex_inj, ← UInt32.toNat_inj, UInt32.toNat_ofNat_of_lt' hn, UInt32.toNat_ofNat_of_lt' hn']

/-! ### Comparing keys -/

theorem Look.Tells.append (h : r.Tells t t') (hu : 0 ∉ u) : r.Tells (t ++ u) (t' ++ u) := by
  have hsame : Look.Tells u u .same := ⟨rfl, hu⟩
  have hthen := h.then hsame
  cases r <;> exact hthen

/-- The text of a field in a path. -/
abbrev text (f : Field) : List UInt8 := texts dash (pieces f)

theorem texts_border (p : Piece) : texts dash [p, .border] = p.text dash ++ [45] := rfl

theorem lookFixed_tells {x y z : FixedField} (hx : x.SameType z) (hy : y.SameType z) :
    (lookFixed x y).Tells ((fixedPiece x).text dash) ((fixedPiece y).text dash) := by
  cases z with
  | u64 _ =>
    cases x with
    | u64 i =>
      cases y with
      | u64 j =>
        have hlow : FixedField.low (.u64 i) = FixedField.low (.u64 j) ↔
            (Format.spaceHex 16).print i.toUInt32 = (Format.spaceHex 16).print j.toUInt32 := by
          rw [spaceHex_inj, FixedField.low, FixedField.low, FixedField.u64.injEq,
            UInt32.toUInt64_inj]
        exact tells_ite hlow ((KeyMarshal.length_spaceHex _).trans
          (KeyMarshal.length_spaceHex _).symm) (clean_spaceHex 16 _).nul (clean_spaceHex 16 _).nul
      | _ => exact hy.elim
    | _ => exact hx.elim
  | u32 _ =>
    cases x with
    | u32 i =>
      cases y with
      | u32 j =>
        have hlow : FixedField.low (.u32 i) = FixedField.low (.u32 j) ↔
            (Format.zeroHex 8).print i = (Format.zeroHex 8).print j := by
          rw [zeroHex_inj]
          exact Iff.of_eq (FixedField.u32.injEq i j)
        exact tells_ite hlow ((KeyMarshal.length_zeroHex_eight _).trans
          (KeyMarshal.length_zeroHex_eight _).symm) (clean_zeroHex 8 _).nul (clean_zeroHex 8 _).nul
      | _ => exact hy.elim
    | _ => exact hx.elim
  | u16 _ =>
    cases x with
    | u16 i =>
      cases y with
      | u16 j =>
        have hlow : FixedField.low (.u16 i) = FixedField.low (.u16 j) ↔
            (Format.zeroHex 4).print i.toUInt32 = (Format.zeroHex 4).print j.toUInt32 := by
          rw [zeroHex_inj, UInt16.toUInt32_inj]
          exact Iff.of_eq (FixedField.u16.injEq i j)
        exact tells_ite hlow ((KeyMarshal.length_zeroHex_four _).trans
          (KeyMarshal.length_zeroHex_four _).symm) (clean_zeroHex 4 _).nul (clean_zeroHex 4 _).nul
      | _ => exact hy.elim
    | _ => exact hx.elim
  | u8 _ =>
    cases x with
    | u8 i =>
      cases y with
      | u8 j =>
        have hlow : FixedField.low (.u8 i) = FixedField.low (.u8 j) ↔
            (Format.zeroHex 2).print i.toUInt32 = (Format.zeroHex 2).print j.toUInt32 := by
          rw [zeroHex_inj, UInt8.toUInt32_inj]
          exact Iff.of_eq (FixedField.u8.injEq i j)
        exact tells_ite hlow ((KeyMarshal.length_zeroHex_two _).trans
          (KeyMarshal.length_zeroHex_two _).symm) (clean_zeroHex 2 _).nul (clean_zeroHex 2 _).nul
      | _ => exact hy.elim
    | _ => exact hx.elim
  | bool _ =>
    cases x with
    | bool b =>
      cases y with
      | bool b' =>
        have hlow : FixedField.low (.bool b) = FixedField.low (.bool b') ↔
            (Format.dec 1).print (if b then 1 else 0) =
              (Format.dec 1).print (if b' then 1 else 0) := by
          cases b <;> cases b' <;> decide
        have hlength : ((Format.dec 1).print (if b then 1 else 0)).length =
            ((Format.dec 1).print (if b' then 1 else 0)).length := by
          cases b <;> cases b' <;> rfl
        exact tells_ite hlow hlength (clean_bool b).nul (clean_bool b').nul
      | _ => exact hy.elim
    | _ => exact hx.elim
  | buf _ =>
    cases x with
    | buf bp =>
      cases y with
      | buf bq => exact lookBytes_tells (Eq.trans hx (Eq.symm hy))
      | _ => exact hy.elim
    | _ => exact hx.elim

theorem lookCounted_tells (ht : t.length < 2 ^ 32) (ht' : t'.length < 2 ^ 32) :
    (lookCounted t t').Tells (texts dash (countedPieces t)) (texts dash (countedPieces t')) := by
  have hlen : (if t.length = t'.length then Look.same else .apart).Tells (lenText t.length)
      (lenText t'.length) :=
    tells_ite (lenText_inj ht ht').symm ((KeyMarshal.length_zeroHex_eight _).trans
      (KeyMarshal.length_zeroHex_eight _).symm) (clean_zeroHex 8 _).nul (clean_zeroHex 8 _).nul
  unfold lookCounted
  by_cases hlength : t.length = t'.length
  · rw [if_pos hlength] at hlen ⊢
    exact hlen.then ((lookBytes_tells hlength).append (u := [45]) (by decide))
  · rw [if_neg hlength] at hlen ⊢
    intro rest rest'
    simp only [countedPieces, texts_cons, Piece.text, List.append_assoc]
    exact hlen _ _

mutual

/-- The numbers of bytes and elements that are put before them fit 32 bits. -/
def Counted : Field → Prop
  | .fixed _ => True
  | .carrier c => ((c.buf_.getD []).take c.len_).length < 2 ^ 32
  | .terminated c t => ((c.buf_.getD []).takeWhile (· != t)).length < 2 ^ 32
  | .string str => str.length < 2 ^ 32
  | .object fields => AllCounted fields
  | .vector _ elems => elems.length < 2 ^ 32 ∧ AllCounted elems

def AllCounted : SerializableObject → Prop
  | [] => True
  | f :: o => Counted f ∧ AllCounted o

end

private theorem allLook_tells_of {o : SerializableObject}
    (ih : ∀ f ∈ o, ∀ g p, Counted f → Counted g → f.SameType p → g.SameType p →
      (look f g).Tells (text f) (text g)) :
    ∀ {o' p}, AllCounted o → AllCounted o' → AllSameType o p → AllSameType o' p →
      (allLook o o').Tells (encodeAll dash o) (encodeAll dash o') := by
  induction o with
  | nil =>
    intro o' p _ _ hp hp'
    obtain rfl : p = [] := hp
    cases o' with
    | nil => exact ⟨rfl, by simp [encodeAll, allPieces]⟩
    | cons g o' =>
      obtain ⟨_, _, hnil, -⟩ := hp'
      cases hnil
  | cons f o iho =>
    intro o' p hf hf' hp hp'
    obtain ⟨q, p, rfl, hq, hp⟩ := hp
    cases o' with
    | nil => cases hp'
    | cons g o' =>
      obtain ⟨_, _, hcons, hq', hp'⟩ := hp'
      cases hcons
      have htail := iho (fun f' hf' => ih f' (List.mem_cons_of_mem f hf')) hf.2 hf'.2 hp hp'
      simp only [encodeAll, allPieces, texts_append]
      exact (ih f List.mem_cons_self g q hf.1 hf'.1 hq hq').then htail

private theorem eachLook_tells_of {elems : List Field}
    (ih : ∀ f ∈ elems, ∀ g p, Counted f → Counted g → f.SameType p → g.SameType p →
      (look f g).Tells (text f) (text g)) {p : Field} :
    ∀ {elems'}, elems.length = elems'.length → AllCounted elems → AllCounted elems' →
      EachSameType elems p → EachSameType elems' p →
      (allLook elems elems').Tells (encodeAll dash elems) (encodeAll dash elems') := by
  induction elems with
  | nil =>
    intro elems' hlength _ _ _ _
    obtain rfl := List.length_eq_zero_iff.1 hlength.symm
    exact ⟨rfl, by simp [encodeAll, allPieces]⟩
  | cons f elems ihe =>
    intro elems' hlength hf hf' hp hp'
    cases elems' with
    | nil => cases hlength
    | cons g elems' =>
      have htail := ihe (fun f' hf' => ih f' (List.mem_cons_of_mem f hf'))
        (by simpa using hlength) hf.2 hf'.2 hp.2 hp'.2
      simp only [encodeAll, allPieces, texts_append]
      exact (ih f List.mem_cons_self g p hf.1 hf'.1 hp.1 hp'.1).then htail

theorem look_tells (f : Field) : ∀ g p, Counted f → Counted g → f.SameType p → g.SameType p →
    (look f g).Tells (text f) (text g) := by
  induction f using Field.ind with
  | fixed x =>
    intro g p _ _ hp hp'
    obtain ⟨z, rfl, hx⟩ := hp
    cases g with
    | fixed y =>
      obtain ⟨_, hz, hy⟩ := hp'
      cases hz
      exact (lookFixed_tells hx hy).append (u := [45]) (by decide)
    | _ => simp [Field.SameType] at hp'
  | carrier c =>
    intro g p hf hg hp hp'
    obtain ⟨_, rfl⟩ := hp
    cases g with
    | carrier d => exact lookCounted_tells hf hg
    | _ => simp [Field.SameType] at hp'
  | terminated c t =>
    intro g p hf hg hp hp'
    obtain ⟨_, rfl⟩ := hp
    cases g with
    | terminated d t' => exact lookCounted_tells hf hg
    | _ => simp [Field.SameType] at hp'
  | string str =>
    intro g p hf hg hp hp'
    obtain ⟨_, rfl⟩ := hp
    cases g with
    | string str' => exact lookCounted_tells hf hg
    | _ => simp [Field.SameType] at hp'
  | object fields ih =>
    intro g p hf hg hp hp'
    obtain ⟨p, rfl, hp⟩ := hp
    cases g with
    | object fields' =>
      obtain ⟨_, heq, hp'⟩ := hp'
      cases heq
      have hfields := (allLook_tells_of ih hf hg hp hp').append (u := [45]) (by decide)
      simp only [text, pieces, texts_append]
      exact hfields
    | _ => simp [Field.SameType] at hp'
  | vector builder elems _ ih =>
    intro g p hf hg hp hp'
    obtain ⟨b, _, rfl, hp⟩ := hp
    cases g with
    | vector builder' elems' =>
      obtain ⟨_, _, heq, hp'⟩ := hp'
      cases heq
      have hlen : (if elems.length = elems'.length then Look.same else .apart).Tells
          (lenText elems.length) (lenText elems'.length) :=
        tells_ite (lenText_inj hf.1 hg.1).symm ((KeyMarshal.length_zeroHex_eight _).trans
          (KeyMarshal.length_zeroHex_eight _).symm) (clean_zeroHex 8 _).nul
          (clean_zeroHex 8 _).nul
      unfold look
      by_cases hlength : elems.length = elems'.length
      · rw [if_pos hlength] at hlen ⊢
        have helems := (eachLook_tells_of ih hlength hf.2 hg.2 hp hp').append (u := [45])
          (by decide)
        simp only [text, pieces, texts_append, texts_border]
        exact ((hlen.append (u := [45]) (by decide)).then helems)
      · rw [if_neg hlength] at hlen ⊢
        intro rest rest'
        simp only [text, pieces, texts_cons, texts_append, Piece.text, List.append_assoc,
          List.cons_append]
        exact hlen _ _
    | _ => simp [Field.SameType] at hp'

theorem allLook_tells {o o' p : SerializableObject} (ho : AllCounted o) (ho' : AllCounted o')
    (hp : AllSameType o p) (hp' : AllSameType o' p) :
    (allLook o o').Tells (encodeAll dash o) (encodeAll dash o') :=
  allLook_tells_of (fun f _ => look_tells f) ho ho' hp hp'

theorem cut_eq_iff {o o' p : SerializableObject} (ho : AllCounted o) (ho' : AllCounted o')
    (hp : AllSameType o p) (hp' : AllSameType o' p) :
    cut (encodeAll dash o) = cut (encodeAll dash o') ↔ allLook o o' ≠ .apart := by
  have htells := allLook_tells ho ho' hp hp'
  cases hlook : allLook o o' with
  | same =>
    rw [hlook] at htells
    exact iff_of_true (congrArg cut htells.1) (by decide)
  | cut =>
    rw [hlook] at htells
    have heq := htells [] []
    rw [List.append_nil, List.append_nil] at heq
    exact iff_of_true heq (by decide)
  | apart =>
    rw [hlook] at htells
    have hne := htells [] []
    rw [List.append_nil, List.append_nil] at hne
    exact iff_of_false hne (by simp)

private theorem allCounted_of {o : SerializableObject}
    (ih : ∀ f ∈ o, f.Fits → (text f).length < 2 ^ 32 → Counted f) (ho : AllFit o)
    (hlength : (encodeAll dash o).length < 2 ^ 32) : AllCounted o := by
  induction o with
  | nil => trivial
  | cons f o iho =>
    simp only [encodeAll, allPieces, texts_append, List.length_append] at hlength
    have hhead : (text f).length < 2 ^ 32 := by
      show (texts dash (pieces f)).length < 2 ^ 32
      omega
    refine ⟨ih f List.mem_cons_self ho.1 hhead, ?_⟩
    apply iho (fun g hg => ih g (List.mem_cons_of_mem f hg)) ho.2
    simp only [encodeAll]
    omega

theorem counted_of_short (f : Field) : f.Fits → (text f).length < 2 ^ 32 → Counted f := by
  -- the bytes after a number are part of the text
  have hcounted : ∀ bytes : List UInt8, (texts dash (countedPieces bytes)).length < 2 ^ 32 →
      bytes.length < 2 ^ 32 := by
    intro bytes hlength
    simp only [countedPieces, texts_cons, List.length_append, Piece.text] at hlength
    omega
  induction f using Field.ind with
  | fixed x => exact fun _ _ => trivial
  | carrier c => exact fun _ hlength => hcounted _ hlength
  | terminated c t => exact fun _ hlength => hcounted _ hlength
  | string str => exact fun hfits _ => hfits
  | object fields ih =>
    intro hfits hlength
    simp only [text, pieces, texts_append, List.length_append] at hlength
    exact allCounted_of ih hfits (by simp only [encodeAll]; omega)
  | vector builder elems _ ih =>
    intro hfits hlength
    simp only [text, pieces, texts_append, List.length_append] at hlength
    exact ⟨hfits.1, allCounted_of ih hfits.2 (by simp only [encodeAll]; omega)⟩

theorem allCounted_of_short {o : SerializableObject} (ho : AllFit o)
    (hlength : (encodeAll dash o).length < 2 ^ 32) : AllCounted o :=
  allCounted_of (fun f _ => counted_of_short f) ho hlength

/-! ### Room for a key -/

/-- Where there is room for the pieces of a field, what is added to the memory is filled. -/
private def Fills (ps : List Piece) : Prop :=
  ∀ len cap cap', room dash ps len cap = some cap' →
    len ≤ cap → cap' = max cap (len + (texts dash ps).length)

private theorem Fills.append {ps qs : List Piece} (hps : Fills ps) (hqs : Fills qs) :
    Fills (ps ++ qs) := by
  intro len cap cap' hroom hle
  rw [room_append] at hroom
  obtain ⟨cap₁, hroom₁, hroom₂⟩ := Option.bind_eq_some_iff.1 hroom
  have h₁ := hps len cap cap₁ hroom₁ hle
  have h₂ := hqs _ cap₁ cap' hroom₂ (by omega)
  rw [texts_append, List.length_append]
  omega

private theorem room_border {len cap cap' : Nat} (h : Piece.border.room dash len cap = some cap') :
    len < max cap 1 ∧ cap' = max cap 1 := by
  have hroom : Piece.border.room dash len cap =
      if len < max cap 1 ∧ len + 1 ≤ max cap 1 then some (max cap 1) else none := rfl
  rw [hroom] at h
  split at h
  · rename_i hlt
    exact ⟨hlt.1, (Option.some.inj h).symm⟩
  · cases h

private theorem room_data {bytes : List UInt8} {len cap cap' : Nat}
    (h : (Piece.data bytes).room dash len cap = some cap') :
    len < cap' ∧ cap' = max cap (len + bytes.length) := by
  unfold Piece.room at h
  dsimp only at h
  split at h
  · rename_i hlt
    obtain rfl := Option.some.inj h
    exact ⟨hlt, rfl⟩
  · cases h

private theorem room_nul {len cap cap' : Nat} (h : Piece.nul.room dash len cap = some cap') :
    len < cap' ∧ cap' = max cap 1 := by
  have hroom : Piece.nul.room dash len cap =
      if len < max cap 1 then some (max cap 1) else none := rfl
  rw [hroom] at h
  split at h
  · rename_i hlt
    obtain rfl := Option.some.inj h
    exact ⟨hlt, rfl⟩
  · cases h

private theorem fills_int (t : List UInt8) : Fills [.int t, .border] := by
  intro len cap cap' hroom hle
  rw [room, Piece.room, Option.bind_some, room_singleton] at hroom
  obtain ⟨hlt, rfl⟩ := room_border hroom
  have htext : (texts dash [.int t, .border]).length = t.length + 1 := by
    rw [texts_border, List.length_append]
    rfl
  simp only [Piece.text] at hlt
  omega

private theorem fills_data (bytes : List UInt8) : Fills [.data bytes, .border] := by
  intro len cap cap' hroom hle
  rw [room] at hroom
  obtain ⟨cap₁, hroom₁, hroom₂⟩ := Option.bind_eq_some_iff.1 hroom
  rw [room_singleton] at hroom₂
  obtain ⟨-, rfl⟩ := room_data hroom₁
  obtain ⟨hlt, rfl⟩ := room_border hroom₂
  have htext : (texts dash [.data bytes, .border]).length = bytes.length + 1 := by
    rw [texts_border, List.length_append]
    rfl
  simp only [Piece.text] at hlt
  omega

private theorem fills_counted (bytes : List UInt8) : Fills (countedPieces bytes) := by
  intro len cap cap' hroom hle
  rw [countedPieces, room, Piece.room, Option.bind_some, room] at hroom
  obtain ⟨cap₁, hroom₁, hroom₂⟩ := Option.bind_eq_some_iff.1 hroom
  rw [room_singleton] at hroom₂
  obtain ⟨-, rfl⟩ := room_data hroom₁
  obtain ⟨hlt, rfl⟩ := room_border hroom₂
  have htext : (texts dash (countedPieces bytes)).length =
      (lenText bytes.length).length + (bytes.length + 1) := by
    rw [countedPieces, texts_cons, texts_border, List.length_append, List.length_append]
    rfl
  simp only [Piece.text] at hlt ⊢
  omega

private theorem Fills.object {ps : List Piece} (h : Fills ps) : Fills (ps ++ [.nul, .border]) := by
  intro len cap cap' hroom hle
  rw [room_append] at hroom
  obtain ⟨cap₁, hroom₁, hroom⟩ := Option.bind_eq_some_iff.1 hroom
  rw [room] at hroom
  obtain ⟨cap₂, hroom₂, hroom₃⟩ := Option.bind_eq_some_iff.1 hroom
  rw [room_singleton] at hroom₃
  have h₁ := h len cap cap₁ hroom₁ hle
  obtain ⟨hnul, rfl⟩ := room_nul hroom₂
  obtain ⟨hlt, rfl⟩ := room_border hroom₃
  have htext : (texts dash (ps ++ [.nul, .border])).length = (texts dash ps).length + 1 := by
    rw [texts_append, List.length_append]
    rfl
  simp only [Piece.text, List.length_nil] at hlt
  omega

private theorem allFills_of {o : SerializableObject} (ih : ∀ f ∈ o, Fills (pieces f)) :
    Fills (allPieces o) := by
  induction o with
  | nil =>
    intro len cap cap' hroom hle
    obtain rfl := Option.some.inj hroom
    simp only [allPieces, texts_nil, List.length_nil]
    omega
  | cons f o iho =>
    exact (ih f List.mem_cons_self).append (iho fun g hg => ih g (List.mem_cons_of_mem f hg))

private theorem fills_pieces (f : Field) : Fills (pieces f) := by
  induction f using Field.ind with
  | fixed x =>
    cases x with
    | buf bp => exact fills_data bp.bytes
    | _ => exact fills_int _
  | carrier c => exact fills_counted _
  | terminated c t => exact fills_counted _
  | string str => exact fills_counted _
  | object fields ih => exact (allFills_of ih).object
  | vector builder elems _ ih => exact (fills_int _).append (allFills_of ih).object

theorem roomy_iff {cap : Nat} (hcap : 0 < cap) (o : SerializableObject) :
    Roomy dash cap o ↔ (encodeAll dash o).length < cap := by
  refine ⟨fun hroomy => ?_, roomy_of_lt⟩
  unfold Roomy at hroomy
  obtain ⟨cap', hroom⟩ := Option.isSome_iff_exists.1 hroomy
  rw [room_append] at hroom
  obtain ⟨cap₁, hroom₁, hroom₂⟩ := Option.bind_eq_some_iff.1 hroom
  have h₁ := allFills_of (fun f _ => fills_pieces f) 0 cap cap₁ hroom₁ (Nat.zero_le _)
  rw [room_singleton] at hroom₂
  -- the NUL of the action finds a free byte only where the memory has not grown
  obtain ⟨hlt, rfl⟩ := room_nul hroom₂
  simp only [encodeAll]
  omega

/-! ### Slashes -/

/-- A slash before a NUL comes from what the field holds. -/
private def Shows (t h : List UInt8) : Prop :=
  ∀ rest rest', (DirTree.slash ∈ cut rest ↔ DirTree.slash ∈ cut rest') →
    (DirTree.slash ∈ cut (t ++ rest) ↔ DirTree.slash ∈ cut (h ++ rest'))

private theorem Shows.append {t h t' h' : List UInt8} (hth : Shows t h) (hth' : Shows t' h') :
    Shows (t ++ t') (h ++ h') := by
  intro rest rest' hrest
  rw [List.append_assoc, List.append_assoc]
  exact hth _ _ (hth' _ _ hrest)

private theorem Shows.clean {t : List UInt8} (ht : Clean t) : Shows t [] := by
  intro rest rest' hrest
  rw [cut_append ht.nul, List.mem_append, List.nil_append, ← hrest]
  exact or_iff_right ht.slash

private theorem Shows.bytes (bytes : List UInt8) : Shows bytes bytes := by
  intro rest rest' hrest
  by_cases hzero : 0 ∈ bytes
  · rw [cut_append_of_mem hzero, cut_append_of_mem hzero]
  · rw [cut_append hzero, cut_append hzero, List.mem_append, List.mem_append, hrest]

private theorem Shows.border {t h : List UInt8} (hth : Shows t h) : Shows (t ++ [45]) h := by
  have hborder : Clean [45] := ⟨by decide, by decide, by decide⟩
  have happend := hth.append (.clean hborder)
  rwa [List.append_nil] at happend

private theorem Shows.number {t h : List UInt8} (n : Nat) (hth : Shows t h) :
    Shows (lenText n ++ t) h := by
  have happend := (Shows.clean (clean_zeroHex 8 (.ofNat n))).append hth
  rwa [List.nil_append] at happend

private theorem allShows_of {o : SerializableObject} (ih : ∀ f ∈ o, Shows (text f) (held f)) :
    Shows (encodeAll dash o) (allHeld o) := by
  induction o with
  | nil => exact fun rest rest' hrest => hrest
  | cons f o iho =>
    simp only [encodeAll, allPieces, texts_append, allHeld]
    exact (ih f List.mem_cons_self).append (iho fun g hg => ih g (List.mem_cons_of_mem f hg))

private theorem shows_text (f : Field) : Shows (text f) (held f) := by
  have hcounted : ∀ bytes, Shows (texts dash (countedPieces bytes)) bytes := fun bytes =>
    .number bytes.length (.border (.bytes bytes))
  induction f using Field.ind with
  | fixed x =>
    cases x with
    | u64 i => exact .border (.clean (clean_spaceHex 16 _))
    | u32 i => exact .border (.clean (clean_zeroHex 8 _))
    | u16 i => exact .border (.clean (clean_zeroHex 4 _))
    | u8 i => exact .border (.clean (clean_zeroHex 2 _))
    | bool b => exact .border (.clean (clean_bool b))
    | buf bp => exact .border (.bytes bp.bytes)
  | carrier c => exact hcounted _
  | terminated c t => exact hcounted _
  | string str => exact hcounted str
  | object fields ih =>
    simp only [text, pieces, texts_append, held]
    exact (allShows_of ih).border
  | vector builder elems _ ih =>
    have hnumber : Shows (texts dash [.int (lenText elems.length), .border]) [] :=
      .border (.clean (clean_zeroHex 8 _))
    simp only [text, pieces, texts_append, held]
    exact hnumber.append (allShows_of ih).border

/-- A path has a slash behind its directory exactly when there is one in what the key holds,
    before any NUL. -/
theorem slash_mem_iff (o : SerializableObject) :
    DirTree.slash ∈ cut (encodeAll dash o) ↔ DirTree.slash ∈ cut (allHeld o) := by
  have hshows := allShows_of (fun f _ => shows_text f) (o := o) [] [] Iff.rfl
  rwa [List.append_nil, List.append_nil] at hshows

/-! ### Names that are no file's -/

/-- The name is the directory's own, or that of the directory above. -/
def Improper (name : List UInt8) : Prop := name = [] ∨ name = DirTree.dot ∨ name = DirTree.dotdot

instance (name : List UInt8) : Decidable (Improper name) := inferInstanceAs (Decidable (_ ∨ _ ∨ _))

private theorem proper_of_clean {t : List UInt8} (ht : Clean t) (hne : t ≠ []) (rest : List UInt8) :
    ¬ Improper (cut (t ++ rest)) := by
  rw [cut_append ht.nul]
  cases t with
  | nil => exact absurd rfl hne
  | cons c t =>
    have hdot : c ≠ 46 := fun hc => ht.dot (by simp [hc])
    rintro (hname | hname | hname)
    · cases hname
    · exact hdot (List.cons.inj hname).1
    · exact hdot (List.cons.inj hname).1

/-- What begins with a buffer begins with such a name exactly if the buffer does, and ends
    there. -/
private theorem improper_bytes_iff (bytes rest : List UInt8) :
    Improper (cut (bytes ++ 45 :: rest)) ↔ 0 ∈ bytes ∧ Improper (cut bytes) := by
  by_cases hzero : 0 ∈ bytes
  · rw [cut_append_of_mem hzero]
    exact (and_iff_right hzero).symm
  · rw [cut_append hzero]
    refine iff_of_false ?_ fun h => hzero h.1
    -- the border is part of the name
    have hborder : 45 ∈ bytes ++ cut (45 :: rest) := by simp [cut]
    rintro (hname | hname | hname) <;> rw [hname] at hborder <;> revert hborder <;> decide

private def Leads (bytes : Option (List UInt8)) : Prop :=
  ∃ b, bytes = some b ∧ 0 ∈ b ∧ Improper (cut b)

private theorem length_print {format : Format} {i : UInt32} {n : Nat}
    (h : (format.print i).length = n + 1) : format.print i ≠ [] := by
  intro hnil
  rw [hnil] at h
  cases h

private theorem improper_text_iff (f : Field) : ∀ rest,
    Improper (cut (text f ++ rest)) ↔ Leads (lead f) := by
  -- what begins with a number
  have hnone : ∀ {t : List UInt8}, Clean t → t ≠ [] → ∀ rest,
      Improper (cut (t ++ rest)) ↔ Leads none := by
    intro t ht hne rest
    refine iff_of_false (proper_of_clean ht hne rest) ?_
    rintro ⟨b, hb, -⟩
    cases hb
  have hcounted : ∀ bytes rest,
      Improper (cut (texts dash (countedPieces bytes) ++ rest)) ↔ Leads none := by
    intro bytes rest
    rw [countedPieces, texts_cons, List.append_assoc]
    exact hnone (clean_zeroHex 8 _) (length_print (KeyMarshal.length_zeroHex_eight _)) _
  induction f using Field.ind with
  | fixed x =>
    intro rest
    cases x with
    | u64 i =>
      simp only [text, pieces, texts_border, List.append_assoc]
      exact hnone (clean_spaceHex 16 _) (length_print (KeyMarshal.length_spaceHex _)) _
    | u32 i =>
      simp only [text, pieces, texts_border, List.append_assoc]
      exact hnone (clean_zeroHex 8 _) (length_print (KeyMarshal.length_zeroHex_eight _)) _
    | u16 i =>
      simp only [text, pieces, texts_border, List.append_assoc]
      exact hnone (clean_zeroHex 4 _) (length_print (KeyMarshal.length_zeroHex_four _)) _
    | u8 i =>
      simp only [text, pieces, texts_border, List.append_assoc]
      exact hnone (clean_zeroHex 2 _) (length_print (KeyMarshal.length_zeroHex_two _)) _
    | bool b =>
      simp only [text, pieces, texts_border, List.append_assoc]
      exact hnone (clean_bool b) (by cases b <;> decide) _
    | buf bp =>
      simp only [text, pieces, texts_border, List.append_assoc]
      refine (improper_bytes_iff bp.bytes rest).trans ⟨fun h => ⟨bp.bytes, rfl, h⟩, ?_⟩
      rintro ⟨_, hb, h⟩
      cases hb
      exact h
  | carrier c => exact hcounted _
  | terminated c t => exact hcounted _
  | string str => exact hcounted str
  | object fields ih =>
    intro rest
    cases fields with
    | nil =>
      have hborder : Clean [45] := ⟨by decide, by decide, by decide⟩
      exact hnone hborder (by decide) rest
    | cons f fields =>
      simp only [text, pieces, allPieces, texts_append, List.append_assoc]
      exact ih f List.mem_cons_self _
  | vector builder elems _ _ =>
    intro rest
    simp only [text, pieces, texts_append, texts_border, List.append_assoc]
    exact hnone (clean_zeroHex 8 _) (length_print (KeyMarshal.length_zeroHex_eight _)) _

/-- The text of a key begins with such a name if there is no text, or it begins with a buffer
    that does. -/
theorem improper_iff (o : SerializableObject) :
    Improper (cut (encodeAll dash o)) ↔
      o = [] ∨ ∃ bytes, allLead o = some bytes ∧ 0 ∈ bytes ∧ Improper (cut bytes) := by
  cases o with
  | nil => exact iff_of_true (.inl rfl) (.inl rfl)
  | cons f o =>
    simp only [encodeAll, allPieces, texts_append]
    rw [improper_text_iff f]
    simp [Leads, allLead]

end Key

/-! ### The path of a key -/

theorem Marshal.findTerminator_takeWhile {t : UInt8} {buf : List UInt8} (h : t ∈ buf) :
    findTerminator t buf = .ok (buf.takeWhile (· != t)).length := by
  induction buf with
  | nil => cases h
  | cons b buf ih =>
    unfold findTerminator
    by_cases hb : b = t
    · simp [hb]
    · have hmem : t ∈ buf := by simpa [Ne.symm hb] using h
      simp [hb, ih hmem]

theorem KeyMarshal.action_nul {m m' : KeyMarshal} {o o' : SerializableObject} {code : Int}
    (h : m.action o = .ok (code, m', o')) : ∃ more, m'.buf_.buf_ = some (m'.key ++ 0 :: more) := by
  obtain ⟨⟨m₁, o₁⟩, -, hrest⟩ := bind_eq_ok.1 h
  obtain ⟨m₂, hend, hdone⟩ := bind_eq_ok.1 hrest
  cases hdone
  obtain ⟨p, hp, hrest⟩ := bind_eq_ok.1 hend
  obtain ⟨b, hstore, hdone⟩ := bind_eq_ok.1 hrest
  cases hdone
  -- the memory was there, or else `end` would have failed
  by_cases hlt : (m₁.buf_.reserve 1).len_ < (m₁.buf_.reserve 1).buf_len_
  · rw [ExpandableBuffer.endBuf_eq hlt] at hp
    cases hp
    unfold ExpandableBuffer.store at hstore
    split at hstore
    · obtain rfl := Except.ok.inj hstore
      cases hbuf : (m₁.buf_.reserve 1).buf_ with
      | none =>
        unfold ExpandableBuffer.buf_len_ ExpandableBuffer.bytes at hlt
        rw [hbuf] at hlt
        exact absurd hlt (Nat.not_lt_zero _)
      | some buf =>
        unfold ExpandableBuffer.buf_len_ ExpandableBuffer.bytes at hlt
        rw [hbuf, Option.getD_some] at hlt
        refine ⟨buf.drop ((m₁.buf_.reserve 1).len_ + 1), ?_⟩
        simp [key, ExpandableBuffer.bytes, Nat.min_eq_left (Nat.le_of_lt hlt)]
    · cases hstore
  · rw [ExpandableBuffer.endBuf_error hlt] at hp
    cases hp

namespace FileSystemTable

variable {T : FileSystemTable} {key key' p : SerializableObject} {path : Path}

theorem filename_eq (hkey : AllFit key) (hlength : (encodeAll dash key).length < 512) :
    T.filename key = .ok (some (T.path_ ++ DirTree.slash :: cut (encodeAll dash key))) := by
  have hroomy : Roomy dash ((some (List.replicate 512 (0 : UInt8))).getD []).length key := by
    rw [Option.getD_some, List.length_replicate]
    exact roomy_of_lt hlength
  obtain ⟨m', o', haction, htext⟩ := KeyMarshal.action_of_roomy hkey hroomy
  obtain ⟨more, hbuf⟩ := KeyMarshal.action_nul haction
  -- the C string ends at the first NUL, which is the one behind the key at the latest
  have hname : cString (m'.key ++ 0 :: more) = .ok (cut (encodeAll dash key)) := by
    have hfind : Marshal.findTerminator 0 (m'.key ++ 0 :: more) =
        .ok (cut (m'.key ++ 0 :: more)).length := Marshal.findTerminator_takeWhile (by simp)
    have hcut : cut (m'.key ++ 0 :: more) = cut (encodeAll dash key) := by
      rw [← htext]
      by_cases hzero : 0 ∈ m'.key
      · exact cut_append_of_mem hzero _
      · have hself := cut_append hzero []
        rw [List.append_nil] at hself
        rw [cut_append hzero, hself]
        simp [cut]
    have htake : (m'.key ++ 0 :: more).take (cut (m'.key ++ 0 :: more)).length =
        cut (m'.key ++ 0 :: more) := by
      have hleft : (cut (m'.key ++ 0 :: more) ++ (m'.key ++ 0 :: more).dropWhile (· != 0)).take
          (cut (m'.key ++ 0 :: more)).length = cut (m'.key ++ 0 :: more) := List.take_left
      rwa [cut, List.takeWhile_append_dropWhile] at hleft
    unfold cString
    rw [hfind, ok_bind, htake, hcut]
    rfl
  have hraw : m'.buf_.rawBuf = .ok (m'.key ++ 0 :: more) := by
    unfold ExpandableBuffer.rawBuf ExpandableBuffer.bytes
    rw [hbuf]
    rfl
  unfold filename
  dsimp only
  rw [haction, ok_bind]
  dsimp only
  rw [if_neg (by simp), hraw, ok_bind, hname]
  rfl

theorem length_of_filename (hkey : AllFit key) {res : Option Path}
    (h : T.filename key = .ok res) : (encodeAll dash key).length < 512 := by
  obtain ⟨⟨code, m', o'⟩, haction, -⟩ := bind_eq_ok.1 h
  have hroomy := KeyMarshal.roomy_of_action hkey haction
  rw [Option.getD_some, List.length_replicate] at hroomy
  exact (roomy_iff (by decide) key).1 hroomy

/-! ### What is asked of paths -/

def EntryOf (dir path : Path) : Prop := ∃ name, path = dir ++ DirTree.slash :: name ∧
  DirTree.Entry name

/-- The paths of two keys are of entries of the table's directory, different ones for different
    keys, and a `put` with `DS_CREATE` finds the directory of the file, where the table's is
    there. -/
structure KeyPaths (T : FileSystemTable) (key key' : SerializableObject) : Prop where
  entry : ∃ path, T.filename key = .ok (some path) ∧ EntryOf T.path_ path
  entry' : ∃ path, T.filename key' = .ok (some path) ∧ EntryOf T.path_ path
  injective : ¬ AllSame key key' → T.filename key ≠ T.filename key'
  create : ∀ path, T.filename key = .ok (some path) → ∀ (t : DirTree) (cwd d : t.Dir),
    t.walk (t.start cwd (T.path_ ++ [DirTree.slash])) (T.path_.splitOn DirTree.slash) = .ok d →
    ∀ flags : DurableStoreFlags, flags.DS_CREATE = true →
      putOpen t cwd path flags ≠ .error .assertFailed

/-- A key that has the path of an entry: it is short, has a field, no slash before a NUL, and
    does not begin with a buffer of one or two dots, or none, before a NUL. -/
structure Plain (key : SerializableObject) : Prop where
  short : (encodeAll dash key).length < 512
  field : key ≠ []
  slash : DirTree.slash ∉ cut (allHeld key)
  lead : ∀ bytes, allLead key = some bytes → 0 ∈ bytes → ¬ Improper (cut bytes)

theorem entry_iff_plain (hkey : AllFit key) :
    (∃ path, T.filename key = .ok (some path) ∧ EntryOf T.path_ path) ↔ Plain key := by
  constructor
  · intro ⟨path, hpath, name, hname, hentry⟩
    have hlength := length_of_filename hkey hpath
    rw [filename_eq hkey hlength] at hpath
    -- the name is what follows the directory
    have hsame : cut (encodeAll dash key) = name := by
      rw [hname] at hpath
      exact (List.cons.inj (List.append_cancel_left (Option.some.inj (Except.ok.inj hpath)))).2
    obtain ⟨hslash, hproper⟩ := hentry
    rw [← hsame] at hslash hproper
    have himproper : ¬ Improper (cut (encodeAll dash key)) := by
      unfold Improper
      simpa only [not_or] using hproper
    rw [improper_iff, not_or] at himproper
    refine ⟨hlength, himproper.1, fun hmem => hslash ((slash_mem_iff key).2 hmem), ?_⟩
    exact fun bytes hlead hzero hname => himproper.2 ⟨bytes, hlead, hzero, hname⟩
  · intro ⟨hlength, hfield, hslash, hlead⟩
    refine ⟨_, filename_eq hkey hlength, _, rfl,
      fun hmem => hslash ((slash_mem_iff key).1 hmem), ?_⟩
    have himproper : ¬ Improper (cut (encodeAll dash key)) := by
      rw [improper_iff, not_or]
      exact ⟨hfield, fun ⟨bytes, hsome, hzero, hname⟩ => hlead bytes hsome hzero hname⟩
    unfold Improper at himproper
    simpa only [not_or] using himproper

theorem putOpen_entry (hentry : EntryOf T.path_ path) {t : DirTree} {cwd d : t.Dir}
    (hdir : t.walk (t.start cwd (T.path_ ++ [DirTree.slash])) (T.path_.splitOn DirTree.slash) =
      .ok d) {flags : DurableStoreFlags} (hcreate : flags.DS_CREATE = true) :
    putOpen t cwd path flags ≠ .error .assertFailed := by
  obtain ⟨name, rfl, hname⟩ := hentry
  unfold putOpen
  obtain hopen | ⟨hexcl, hopen⟩ | hopen :=
    DirTree.openFile_entry_creat hname (show (openFlags flags).creat = true from hcreate) hdir
  · rw [hopen]
    simp
  · -- `EEXIST` comes from `O_EXCL` only
    have hflag : flags.DS_EXCL = true := hexcl
    rw [hopen]
    simp [hflag]
  · rw [hopen]
    simp

/-- The paths of two keys of one type are as they should be exactly when both keys are plain,
    and differ, if they do, in a number of at most 32 bits, in the lower half of a larger one,
    or in a byte before any NUL. -/
theorem keyPaths_iff (hkey : AllFit key) (hkey' : AllFit key') (htype : AllSameType key p)
    (htype' : AllSameType key' p) :
    KeyPaths T key key' ↔
      Plain key ∧ Plain key' ∧ (¬ AllSame key key' → allLook key key' = .apart) := by
  -- short keys have one path exactly when they look alike
  have hinj : (encodeAll dash key).length < 512 → (encodeAll dash key').length < 512 →
      (T.filename key ≠ T.filename key' ↔ allLook key key' = .apart) := by
    intro hshort hshort'
    have hcut := cut_eq_iff (allCounted_of_short hkey (by omega))
      (allCounted_of_short hkey' (by omega)) htype htype'
    rw [filename_eq hkey hshort, filename_eq hkey' hshort', ← not_iff_not, not_not, ← ne_eq,
      ← hcut]
    simp
  constructor
  · intro h
    have hplain := (entry_iff_plain hkey).1 h.entry
    have hplain' := (entry_iff_plain hkey').1 h.entry'
    exact ⟨hplain, hplain', fun hne => (hinj hplain.short hplain'.short).1 (h.injective hne)⟩
  · intro ⟨hplain, hplain', happart⟩
    refine ⟨(entry_iff_plain hkey).2 hplain, (entry_iff_plain hkey').2 hplain',
      fun hne => (hinj hplain.short hplain'.short).2 (happart hne), ?_⟩
    intro path hpath t cwd d hdir flags hcreate
    obtain ⟨path', hpath', hentry⟩ := (entry_iff_plain (T := T) hkey).2 hplain
    obtain rfl := Option.some.inj (Except.ok.inj (hpath.symm.trans hpath'))
    exact putOpen_entry hentry hdir hcreate

/-- Two strings without slashes. -/
theorem keyPaths_iff_strings :
    KeyPaths ⟨[116], false⟩ [.string [97, 98]] [.string [99, 46]] := by
  have hfit : ∀ str : List UInt8, str.length < 2 ^ 32 → AllFit [.string str] := fun _ h =>
    ⟨h, trivial⟩
  have htype : ∀ str : List UInt8, AllSameType [.string str] [.string []] := fun _ =>
    ⟨_, _, rfl, ⟨_, rfl⟩, rfl⟩
  refine (keyPaths_iff (hfit _ (by decide)) (hfit _ (by decide)) (htype _) (htype _)).2
    ⟨⟨by decide, by simp, by decide, ?_⟩, ⟨by decide, by simp, by decide, ?_⟩, fun _ => by decide⟩
  · exact fun bytes hlead => nomatch hlead
  · exact fun bytes hlead => nomatch hlead

/-- A directory with nothing but the directory of a table in it. -/
def emptyTable (name : List UInt8) : DirTree where
  node way := if way = [] ∨ way = [name] then some .dir else none
  root := if_pos (.inl rfl)
  closed way entry h := by
    cases way with
    | nil => exact if_pos (.inl rfl)
    | cons first way => simp at h

/-- Without the condition they are not: a string with a slash has the path of an entry of a
    directory that is not there, and the assertion of `put` fails. -/
theorem not_keyPaths_slash : ¬ ∀ (T : FileSystemTable) (key key' p : SerializableObject),
    AllFit key → AllFit key' → AllSameType key p → AllSameType key' p → KeyPaths T key key' := by
  intro h
  have hshort : ([97, 47, 98] : List UInt8).length < 2 ^ 32 := by decide
  have hfit : AllFit [.string [97, 47, 98]] := ⟨hshort, trivial⟩
  have htype : AllSameType [.string [97, 47, 98]] [.string []] := ⟨_, _, rfl, ⟨_, rfl⟩, rfl⟩
  have hpaths := h ⟨[116], false⟩ _ _ _ hfit hfit htype htype
  have hpath := filename_eq (T := ⟨[116], false⟩) hfit (by decide)
  have hfails := hpaths.create _ hpath (emptyTable [116]) ⟨[], rfl⟩ ⟨[[116]], rfl⟩ rfl
    ⟨true, false⟩ rfl
  exact hfails rfl

end FileSystemTable

end Oasys
