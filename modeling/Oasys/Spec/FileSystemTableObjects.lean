import Oasys.Spec.RoundTrip
import Oasys.Storage.FileSystemTable

/-!
# FileSystemTable: the objects

What `put` writes for an object, and what `get` makes of it. An object that is read back
has lost what its carriers pointed at, so that it is the object that was written exactly if
no carrier had bytes (`AllSame.dangle`, `AllSame.bare_of_dangle`). Bytes behind those that
were written do not matter.
-/

namespace Oasys

open Wire (encode encodeAll)

/-! ### Objects whose carriers are empty -/

mutual

/-- No carrier of the field has bytes; one with a terminator always has. -/
def Field.bare : Field → Bool
  | .fixed _ => true
  | .carrier c => c.len_ = 0
  | .terminated _ _ => false
  | .string _ => true
  | .object fields => allBare fields
  | .vector _ elems => allBare elems

def allBare : SerializableObject → Bool
  | [] => true
  | f :: o => f.bare && allBare o

end

variable {o r : SerializableObject}

private theorem noneTerminated_of_allBare
    (h : ∀ f ∈ o, f.bare = true → f.NoTerminated) (hbare : allBare o = true) :
    NoneTerminated o := by
  induction o with
  | nil => trivial
  | cons f o ih =>
    obtain ⟨hf, hrest⟩ := Bool.and_eq_true_iff.1 hbare
    exact ⟨h f (by simp) hf, ih (fun g hg => h g (by simp [hg])) hrest⟩

theorem Field.noTerminated_of_bare (f : Field) (hbare : f.bare = true) : f.NoTerminated := by
  induction f using Field.ind with
  | fixed x => trivial
  | carrier c => trivial
  | terminated c t => cases hbare
  | string str => trivial
  | object fields ih => exact noneTerminated_of_allBare ih hbare
  | vector builder elems _ ih => exact noneTerminated_of_allBare ih hbare

theorem noneTerminated_of_bare (hbare : allBare o = true) : NoneTerminated o :=
  noneTerminated_of_allBare (fun f _ => f.noTerminated_of_bare) hbare

private theorem allSame_dangle_of
    (h : ∀ f ∈ o, f.bare = true → ∀ g, f.Same g → f.Same g.dangle) (hbare : allBare o = true)
    {r : SerializableObject} (hr : AllSame o r) : AllSame o (dangleAll r) := by
  induction o generalizing r with
  | nil =>
    obtain rfl : r = [] := hr
    rfl
  | cons f o ih =>
    obtain ⟨hf, hrest⟩ := Bool.and_eq_true_iff.1 hbare
    obtain ⟨g, r, rfl, hg, hr⟩ := hr
    exact ⟨g.dangle, _, rfl, h f (by simp) hf g hg,
      ih (fun g hg => h g (by simp [hg])) hrest hr⟩

theorem Field.Same.dangle (f : Field) (hbare : f.bare = true) {g : Field} (h : f.Same g) :
    f.Same g.dangle := by
  induction f using Field.ind generalizing g with
  | fixed x =>
    obtain rfl : g = .fixed x := h
    rfl
  | carrier c =>
    obtain ⟨d, rfl, hlen, -⟩ := h
    have hzero : c.len_ = 0 := of_decide_eq_true hbare
    refine ⟨d.dangle, rfl, hlen, ?_⟩
    show readBytes c.buf_ c.len_ = readBytes d.dangle.buf_ d.len_
    rw [← hlen, hzero, readBytes_zero, readBytes_zero]
  | terminated c t => cases hbare
  | string str =>
    obtain rfl : g = .string str := h
    rfl
  | object fields ih =>
    obtain ⟨fields', rfl, hsame⟩ := h
    exact ⟨_, rfl, allSame_dangle_of (fun f hf hb g => ih f hf hb) hbare hsame⟩
  | vector builder elems _ ih =>
    obtain ⟨builder', elems', rfl, hsame⟩ := h
    exact ⟨_, _, rfl, allSame_dangle_of (fun f hf hb g => ih f hf hb) hbare hsame⟩

theorem AllSame.dangle (hbare : allBare o = true) (h : AllSame o r) : AllSame o (dangleAll r) :=
  allSame_dangle_of (fun f _ hf _ => Field.Same.dangle f hf) hbare h

private theorem len_eq_zero_of_dangle {c d : BufferCarrier} {data : List UInt8}
    (hread : readBytes c.buf_ c.len_ = .ok data) (h : c.Same d.dangle) : c.len_ = 0 := by
  obtain ⟨hlen, hsame⟩ := h
  rw [hread] at hsame
  have hd : readBytes (d.buf_.map fun _ => []) d.len_ = .ok data := hsame.symm
  rw [show c.len_ = d.len_ from hlen]
  by_contra hne
  cases hbuf : d.buf_ with
  | none =>
    rw [hbuf, Option.map_none, readBytes, if_neg hne] at hd
    cases hd
  | some mem =>
    rw [hbuf, Option.map_some, readBytes, if_neg (by simpa using hne)] at hd
    cases hd

private theorem allBare_of_dangle
    (h : ∀ f ∈ o, f.Fits → ∀ g : Field, f.Same g.dangle → f.bare = true) (ho : AllFit o)
    {r : SerializableObject} (hr : AllSame o (dangleAll r)) : allBare o = true := by
  induction o generalizing r with
  | nil => rfl
  | cons f o ih =>
    obtain ⟨g, o', heq, hg, ho'⟩ := hr
    cases r with
    | nil => cases heq
    | cons g₀ r =>
      obtain ⟨rfl, rfl⟩ := List.cons.inj heq
      rw [allBare, h f (by simp) ho.1 g₀ hg, ih (fun g hg => h g (by simp [hg])) ho.2 ho']
      rfl

/-- A field that is the same without the buffer it was read from has no bytes in carriers. -/
theorem Field.bare_of_dangle (f : Field) (hf : f.Fits) {g : Field} (h : f.Same g.dangle) :
    f.bare = true := by
  induction f using Field.ind generalizing g with
  | fixed x => rfl
  | carrier c =>
    obtain ⟨-, data, hread⟩ := hf
    obtain ⟨d, hd, hsame⟩ := h
    cases g <;> cases hd
    exact decide_eq_true (len_eq_zero_of_dangle hread hsame)
  | terminated c t =>
    obtain ⟨data, mem, hbuf, ht, -⟩ := hf
    obtain ⟨d, hd, -, hsame⟩ := h
    cases g <;> cases hd
    rename_i d
    -- the terminator would have to be found
    have hnil : d.dangle.buf_.map (throughTerminator t) = d.buf_.map fun _ => [] := by
      show (d.buf_.map _).map _ = _
      rw [Option.map_map]
      rfl
    rw [hnil, hbuf, Option.map_some, throughTerminator_append ht] at hsame
    cases hbuf' : d.buf_ with
    | none =>
      rw [hbuf'] at hsame
      cases hsame
    | some mem' =>
      rw [hbuf', Option.map_some] at hsame
      simp at hsame
  | string str => rfl
  | object fields ih =>
    obtain ⟨fields', hd, hsame⟩ := h
    cases g <;> cases hd
    exact allBare_of_dangle (fun f hmem hfit g => ih f hmem hfit) hf hsame
  | vector builder elems _ ih =>
    obtain ⟨builder', elems', hd, hsame⟩ := h
    cases g <;> cases hd
    exact allBare_of_dangle (fun f hmem hfit g => ih f hmem hfit) hf.2 hsame

theorem AllSame.bare_of_dangle (ho : AllFit o) (h : AllSame o (dangleAll r)) : allBare o = true :=
  allBare_of_dangle (fun f _ hf _ => f.bare_of_dangle hf) ho h

private theorem allSame_of_dangle
    (h : ∀ f ∈ o, f.bare = true → ∀ g : Field, f.Same g.dangle → f.Same g)
    (hbare : allBare o = true) {r : SerializableObject} (hr : AllSame o (dangleAll r)) :
    AllSame o r := by
  induction o generalizing r with
  | nil =>
    cases r with
    | nil => rfl
    | cons g r => cases hr
  | cons f o ih =>
    obtain ⟨hf, hrest⟩ := Bool.and_eq_true_iff.1 hbare
    cases r with
    | nil =>
      obtain ⟨g, r, hcons, -⟩ := hr
      cases hcons
    | cons g r =>
      obtain ⟨_, _, hcons, hg, hr⟩ := hr
      obtain ⟨rfl, rfl⟩ := List.cons.inj hcons
      exact ⟨g, r, rfl, h f (by simp) hf g hg, ih (fun g hg => h g (by simp [hg])) hrest hr⟩

theorem Field.Same.of_dangle (f : Field) (hbare : f.bare = true) {g : Field}
    (h : f.Same g.dangle) : f.Same g := by
  induction f using Field.ind generalizing g with
  | fixed x =>
    have hd : g.dangle = .fixed x := h
    cases g <;> cases hd
    rfl
  | carrier c =>
    obtain ⟨d, hd, hlen, -⟩ := h
    cases g <;> cases hd
    rename_i d
    have hzero : c.len_ = 0 := of_decide_eq_true hbare
    have hlen' : c.len_ = d.len_ := hlen
    refine ⟨d, rfl, hlen', ?_⟩
    rw [← hlen', hzero, readBytes_zero, readBytes_zero]
  | terminated c t => cases hbare
  | string str =>
    have hd : g.dangle = .string str := h
    cases g <;> cases hd
    rfl
  | object fields ih =>
    obtain ⟨fields', hd, hsame⟩ := h
    cases g <;> cases hd
    exact ⟨_, rfl, allSame_of_dangle (fun f hf hb g => ih f hf hb) hbare hsame⟩
  | vector builder elems _ ih =>
    obtain ⟨builder', elems', hd, hsame⟩ := h
    cases g <;> cases hd
    exact ⟨_, _, rfl, allSame_of_dangle (fun f hf hb g => ih f hf hb) hbare hsame⟩

/-- An object that is freed with the buffer it was read from was the right one exactly if it
    was right before and no carrier has bytes. -/
theorem allSame_dangle_iff (ho : AllFit o) :
    AllSame o (dangleAll r) ↔ AllSame o r ∧ allBare o = true := by
  constructor
  · intro h
    have hbare := AllSame.bare_of_dangle ho h
    exact ⟨allSame_of_dangle (fun f _ hf _ => Field.Same.of_dangle f hf) hbare h, hbare⟩
  · intro ⟨h, hbare⟩
    exact h.dangle hbare

namespace FileSystemTable

variable {T : FileSystemTable}

/-! ### What is in a file -/

def image (T : FileSystemTable) (typecode : UInt32) (data : SerializableObject) : List UInt8 :=
  (if T.multitype_ then encode (.fixed (.u32 typecode)) else []) ++ encodeAll data

theorem marshal_eq {o : SerializableObject} (ho : AllFit o) (typecode : UInt32) :
    T.marshal typecode o = .ok (some (T.image typecode o)) := by
  obtain ⟨m, hnew, hcrc, herr, hvalid, hnil, hroom⟩ :=
    Marshal.newExpandable_spec ⟨some (List.replicate 4096 0), 0⟩ false false
  -- the type code, where there is one
  have htype : ∃ m₁, T.processTypecode m typecode = .ok m₁ ∧ m.Wrote m₁
      (if T.multitype_ then encode (.fixed (.u32 typecode)) else []) := by
    unfold processTypecode
    cases T.multitype_ with
    | false => exact ⟨m, rfl, .refl herr hvalid⟩
    | true =>
      obtain ⟨m₁, hput, hw⟩ := Marshal.putAll_wrote [(FixedField.u32 typecode).bytes] herr hvalid
        (hroom _)
      have heq : m.processU32 typecode = m.processFixed (.u32 typecode) := rfl
      rw [List.flatten_singleton] at hw
      exact ⟨m₁, by rw [if_pos rfl, heq, Marshal.processFixed_eq, hput], hw⟩
  obtain ⟨m₁, hprocess, hw₁⟩ := htype
  obtain ⟨m₂, haction, hw₂⟩ := Marshal.action_wrote (hw₁.useCrc_eq.trans hcrc) hw₁.valid ho
    (hw₁.room _ (hroom _))
  have hwritten : m₂.written = T.image typecode o := by
    rw [hw₂.written_eq]
    show m₁.written ++ encodeAll o = _
    rw [hw₁.written_eq, hnil]
    rfl
  unfold marshal
  simp only [hnew, hprocess, haction, bind, Except.bind, hwritten]
  rfl

section Read

variable {c : Unmarshal.Setting} {l : Nat → UInt32} {u : Unmarshal} {o p : SerializableObject}
  {rest : List UInt8}

theorem action_recovers (h : Unmarshal.At c l u (.start (encodeAll o ++ rest)))
    (hcrc : c.useCrc = false) (ho : AllFit o) (hbare : allBare o = true) (hop : AllSameType o p)
    (hp : AllFresh p) : ∃ u' r, u.action p = .ok (0, u', r) ∧ AllSame o (dangleAll r) := by
  obtain ⟨u', r, haction, hsame⟩ :=
    (h.action_recovers_iff hcrc ho hop hp).2 (noneTerminated_of_bare hbare)
  exact ⟨u', r, haction, hsame.dangle hbare⟩

theorem typecode_recovers {typecode : UInt32} {bs : List UInt8} (i : UInt32)
    (h : Unmarshal.At c l u (.start (encode (.fixed (.u32 typecode)) ++ bs))) :
    ∃ u', u.processU32 i = .ok (u', typecode) ∧ Unmarshal.At c l u' (.start bs) := by
  have hexpect : Wire.expectU32 typecode.toNat
      (Cursor.start (encode (.fixed (.u32 typecode)) ++ bs)).left = some bs := by
    unfold Wire.expectU32
    rw [if_pos typecode.toNat_lt, Wire.expectBytes_eq_some]
    rfl
  obtain ⟨u', hread, hat⟩ := h.processU32 i
  rw [(Wire.expectU32_eq_some rfl).1 hexpect] at hread hat
  refine ⟨u', ?_, hat⟩
  rw [hread, Option.elim_some, UInt32.ofNat_toNat]

end Read

end FileSystemTable

end Oasys
