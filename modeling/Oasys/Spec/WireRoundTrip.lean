import Oasys.Spec.UnmarshalCorrect

/-!
# What is read back

`expect f` checks that an input begins with bytes from which the reader gets `f` back,
and returns what follows them (`expect_iff`). For a `bool` that is true any non-zero
byte will do. There are no such bytes for a carrier with a terminator: the reader gives
it a length that counts the terminator twice.
-/

namespace Oasys

/-! ### Types of fields -/

mutual

/-- `g` is a field of the same type as `f`; the elements of a vector are of the type of
    the element that `g` builds. -/
def Field.SameType : Field → Field → Prop
  | .fixed x, g => ∃ y, g = .fixed y ∧ x.SameType y
  | .carrier _, g => ∃ d, g = .carrier d
  | .terminated _ t, g => ∃ d, g = .terminated d t
  | .string _, g => ∃ str, g = .string str
  | .object fields, g => ∃ fields', g = .object fields' ∧ AllSameType fields fields'
  | .vector _ elems, g => ∃ builder elems', g = .vector builder elems' ∧
      EachSameType elems builder

def AllSameType : SerializableObject → SerializableObject → Prop
  | [], o' => o' = []
  | f :: o, o' => ∃ g o'', o' = g :: o'' ∧ Field.SameType f g ∧ AllSameType o o''

def EachSameType : List Field → Field → Prop
  | [], _ => True
  | e :: es, g => Field.SameType e g ∧ EachSameType es g

end

mutual

/-- The field has no carrier with a terminator. -/
def Field.NoTerminated : Field → Prop
  | .fixed _ => True
  | .carrier _ => True
  | .terminated _ _ => False
  | .string _ => True
  | .object fields => NoneTerminated fields
  | .vector _ elems => NoneTerminated elems

def NoneTerminated : SerializableObject → Prop
  | [] => True
  | f :: o => Field.NoTerminated f ∧ NoneTerminated o

end

mutual

/-- The carriers with a terminator report the length of their data with the
    terminator. -/
def Field.Closed : Field → Prop
  | .fixed _ => True
  | .carrier _ => True
  | .terminated c t => ∃ mem, c.buf_ = some mem ∧ c.len_ = (throughTerminator t mem).length
  | .string _ => True
  | .object fields => AllClosed fields
  | .vector _ elems => AllClosed elems

def AllClosed : SerializableObject → Prop
  | [] => True
  | f :: o => Field.Closed f ∧ AllClosed o

end

theorem AllClosed.mem {o : SerializableObject} (h : AllClosed o) : ∀ f ∈ o, f.Closed := by
  induction o with
  | nil => simp
  | cons g o ih =>
    intro f hf
    cases List.mem_cons.mp hf with
    | inl hfg => exact hfg ▸ h.1
    | inr hfo => exact ih h.2 f hfo

theorem EachSameType.mem {elems : List Field} {g : Field} (h : EachSameType elems g) :
    ∀ e ∈ elems, e.SameType g := by
  induction elems with
  | nil => simp
  | cons e' elems ih =>
    intro e he
    cases List.mem_cons.mp he with
    | inl hee => exact hee ▸ h.1
    | inr hes => exact ih h.2 e hes

theorem AllSame.length_eq {o o' : SerializableObject} (h : AllSame o o') :
    o'.length = o.length := by
  induction o generalizing o' with
  | nil =>
    have hnil : o' = [] := h
    rw [hnil]
  | cons f o ih =>
    obtain ⟨g, o'', rfl, -, ho⟩ := h
    rw [List.length_cons, List.length_cons, ih ho]

theorem allSame_cons {f g : Field} {o o' : SerializableObject} :
    AllSame (f :: o) (g :: o') ↔ f.Same g ∧ AllSame o o' := by
  constructor
  · intro ⟨_, _, heq, hf, ho⟩
    cases heq
    exact ⟨hf, ho⟩
  · exact fun ⟨hf, ho⟩ => ⟨g, o', rfl, hf, ho⟩

namespace Wire

/-! ### Expected bytes -/

def expectBytes (data bs : List UInt8) : Option (List UInt8) :=
  if data <+: bs then some (bs.drop data.length) else none

def expectU32 (n : Nat) (bs : List UInt8) : Option (List UInt8) :=
  if n < 2 ^ 32 then expectBytes (BigEndian.bytes 4 n) bs else none

mutual

/-- The input begins with bytes that are read as the field. -/
def expect : Field → List UInt8 → Option (List UInt8)
  | .fixed x, bs =>
    if x.width ≤ bs.length ∧ x.ofBytes (bs.take x.width) = x then some (bs.drop x.width) else none
  | .carrier c, bs =>
    match readBytes c.buf_ c.len_ with
    | .ok data => (expectU32 c.len_ bs).bind (expectBytes data)
    | .error _ => none
  | .terminated _ _, _ => none
  | .string str, bs => (expectU32 str.length bs).bind (expectBytes str)
  | .object fields, bs => expectAll fields bs
  | .vector _ elems, bs => (expectU32 elems.length bs).bind (expectAll elems)

def expectAll : SerializableObject → List UInt8 → Option (List UInt8)
  | [], bs => some bs
  | f :: o, bs => (expect f bs).bind (expectAll o)

end

theorem expectBytes_eq_some {data bs rest : List UInt8} :
    expectBytes data bs = some rest ↔ bs = data ++ rest := by
  unfold expectBytes
  constructor
  · intro h
    split at h
    · rename_i hpre
      obtain ⟨r, rfl⟩ := hpre
      cases h
      simp
    · cases h
  · rintro rfl
    simp

theorem expectU32_eq_some {n : Nat} {s : Cursor UInt8} {rest : List UInt8} (hout : s.out = false) :
    expectU32 n s.left = some rest ↔ readU32 s = ({ s with left := rest }, some n) := by
  constructor
  · intro h
    unfold expectU32 at h
    split at h
    · rename_i hn
      have hleft := expectBytes_eq_some.mp h
      have hlen : 4 ≤ s.left.length := by rw [hleft]; simp
      have htake : s.left.take 4 = BigEndian.bytes 4 n := by
        rw [hleft, List.take_left' (by simp)]
      have hdrop : s.left.drop 4 = rest := by
        rw [hleft, List.drop_left' (by simp)]
      rw [readU32, Cursor.take_of_le hout hlen, htake, hdrop]
      simp [BigEndian.value_bytes_of_lt (w := 4) hn]
    · cases h
  · intro h
    obtain ⟨htake, rfl, hlt⟩ := readU32_eq_some h
    obtain ⟨_, hlen, _, hs'⟩ := Cursor.take_eq_some htake
    have hrest : rest = s.left.drop 4 := congrArg Cursor.left hs'
    have hbytes : BigEndian.bytes 4 (BigEndian.value (s.left.take 4)) = s.left.take 4 := by
      have := BigEndian.bytes_value (s.left.take 4)
      rwa [List.length_take_of_le hlen] at this
    unfold expectU32
    rw [if_pos hlt, hbytes, expectBytes_eq_some, hrest, List.take_append_drop]

/-! ### What is expected is what is read -/

variable {s : Cursor UInt8} {rest : List UInt8}

private theorem readU32_none_out {s' : Cursor UInt8} (h : readU32 s = (s', none)) :
    s'.out = true :=
  Cursor.out_of_take_eq_none (readU32_eq_none h)

private theorem readU32_some_eq {s' : Cursor UInt8} {n : Nat} (h : readU32 s = (s', some n)) :
    s.out = false ∧ s' = { s with left := s'.left } := by
  obtain ⟨htake, -, -⟩ := readU32_eq_some h
  obtain ⟨hout, _, _, hs'⟩ := Cursor.take_eq_some htake
  exact ⟨hout, by rw [hs']⟩

theorem expect_fixed_iff {x y : FixedField} (hxy : x.SameType y) (hout : s.out = false) :
    expect (.fixed x) s.left = some rest ↔ (s.take y.width).1.out = false ∧
      (s.take y.width).1.left = rest ∧ (s.take y.width).2.elim y y.ofBytes = x := by
  simp only [expect, hxy.width_eq, hxy.ofBytes_eq]
  by_cases hn : y.width ≤ s.left.length
  · simp [Cursor.take_of_le hout hn, hn, hout, and_comm]
  · simp [Cursor.take_of_lt hout (Nat.lt_of_not_le hn), hn]

theorem expect_carrier_iff {c d : BufferCarrier} (hout : s.out = false) :
    expect (.carrier c) s.left = some rest ↔ (readCarrier s d).1.out = false ∧
      (readCarrier s d).1.left = rest ∧ c.Same (readCarrier s d).2 := by
  constructor
  · intro h
    unfold expect at h
    split at h
    · rename_i data hdata
      obtain ⟨mid, hlen, hbody⟩ := Option.bind_eq_some_iff.mp h
      have hread := (expectU32_eq_some hout).mp hlen
      have hmid := expectBytes_eq_some.mp hbody
      have hsize := length_of_readBytes hdata
      unfold readCarrier
      rw [hread]
      dsimp only
      by_cases h0 : c.len_ = 0
      · rw [if_pos h0]
        have hnil : data = [] := List.length_eq_zero_iff.mp (hsize.trans h0)
        rw [hnil, List.nil_append] at hmid
        exact ⟨hout, hmid, h0, by rw [hdata, hnil]; rfl⟩
      · have hle : c.len_ ≤ mid.length := by rw [hmid, List.length_append]; omega
        have htake := Cursor.take_of_le (s := { s with left := mid }) hout hle
        rw [if_neg h0, htake]
        refine ⟨hout, ?_, rfl, ?_⟩
        · rw [hmid, List.drop_left' hsize]
        · rw [hdata, readBytes, if_pos hle, hmid, List.take_left' hsize]
    · cases h
  · intro h
    obtain ⟨hout', hleft, hlen, hdata⟩ := h
    unfold readCarrier at hout' hleft hlen hdata
    cases hread : readU32 s with
    | mk s₁ n =>
      rw [hread] at hout' hleft hlen hdata
      cases n with
      | none =>
        -- the cursor has run out
        rw [show s₁.mark.out = s₁.out from rfl, readU32_none_out hread] at hout'
        cases hout'
      | some n =>
        have hs₁ := (readU32_some_eq hread).2
        have hprefix : expectU32 n s.left = some s₁.left := by
          rw [expectU32_eq_some hout, hread, ← hs₁]
        dsimp only at hout' hleft hlen hdata
        by_cases h0 : n = 0
        · rw [if_pos h0] at hleft hlen hdata
          have hlen0 : c.len_ = 0 := hlen
          rw [expect, hdata]
          show (expectU32 c.len_ s.left).bind (expectBytes []) = some rest
          rw [hlen0, ← h0, hprefix, ← hleft]
          exact expectBytes_eq_some.mpr rfl
        · rw [if_neg h0] at hout' hleft hlen hdata
          cases hbody : s₁.take n with
          | mk s₂ bs =>
            rw [hbody] at hout' hleft hlen hdata
            cases bs with
            | none =>
              rw [show s₂.mark.out = s₂.out from rfl, Cursor.out_of_take_eq_none hbody] at hout'
              cases hout'
            | some bs =>
              obtain ⟨_, hle, _, hs₂⟩ := Cursor.take_eq_some hbody
              have hlen' : c.len_ = n := hlen
              rw [expect, hdata]
              simp only [readBytes, if_pos hle]
              rw [hlen', hprefix]
              show expectBytes (s₁.left.take n) s₁.left = some rest
              rw [expectBytes_eq_some, ← hleft, hs₂, List.take_append_drop]

theorem expect_string_iff {str : List UInt8} (init : List UInt8) (hout : s.out = false) :
    expect (.string str) s.left = some rest ↔ (readString s init).1.out = false ∧
      (readString s init).1.left = rest ∧ (readString s init).2 = str := by
  constructor
  · intro h
    obtain ⟨mid, hlen, hbody⟩ := Option.bind_eq_some_iff.mp h
    have hread := (expectU32_eq_some hout).mp hlen
    have hmid := expectBytes_eq_some.mp hbody
    have hle : str.length ≤ mid.length := by rw [hmid, List.length_append]; omega
    have htake := Cursor.take_of_le (s := { s with left := mid }) hout hle
    unfold readString
    rw [hread]
    dsimp only
    rw [htake]
    refine ⟨hout, ?_, ?_⟩
    · rw [hmid, List.drop_left' rfl]
    · show mid.take str.length = str
      rw [hmid, List.take_left' rfl]
  · intro ⟨hout', hleft, hstr⟩
    unfold readString at hout' hleft hstr
    cases hread : readU32 s with
    | mk s₁ n =>
      rw [hread] at hout' hleft hstr
      cases n with
      | none =>
        rw [readU32_none_out hread] at hout'
        cases hout'
      | some n =>
        have hs₁ := (readU32_some_eq hread).2
        dsimp only at hout' hleft hstr
        cases hbody : s₁.take n with
        | mk s₂ bs =>
          rw [hbody] at hout' hleft hstr
          cases bs with
          | none =>
            rw [Cursor.out_of_take_eq_none hbody] at hout'
            cases hout'
          | some bs =>
            obtain ⟨_, hle, hbs, hs₂⟩ := Cursor.take_eq_some hbody
            have hstr' : bs = str := hstr
            have hlen : str.length = n := by rw [← hstr', hbs, List.length_take_of_le hle]
            have hprefix : expectU32 n s.left = some s₁.left := by
              rw [expectU32_eq_some hout, hread, ← hs₁]
            rw [expect, hlen, hprefix]
            show expectBytes str s₁.left = some rest
            rw [expectBytes_eq_some, ← hleft, hs₂, ← hstr', hbs, List.take_append_drop]

theorem length_readEach (rd : Cursor UInt8 → Cursor UInt8 × Field) (n : Nat) (s : Cursor UInt8) :
    (readEach rd n s).2.length = n := by
  induction n generalizing s with
  | zero => rfl
  | succ n ih => rw [readEach_succ, List.length_cons, ih]

def ReadsAs (s : Cursor UInt8) (f g : Field) (rest : List UInt8) : Prop :=
  (readField s g).1.out = false ∧ (readField s g).1.left = rest ∧ f.Same (readField s g).2

def AllReadsAs (s : Cursor UInt8) (o p : SerializableObject) (rest : List UInt8) : Prop :=
  (readAll s p).1.out = false ∧ (readAll s p).1.left = rest ∧ AllSame o (readAll s p).2

private theorem expectAll_elems_iff {elems : List Field} {builder : Field}
    (h : ∀ e ∈ elems, ∀ (s : Cursor UInt8) rest, s.out = false →
      (expect e s.left = some rest ↔ ReadsAs s e builder rest)) (hout : s.out = false) :
    expectAll elems s.left = some rest ↔
      (readEach (fun s => readField s builder) elems.length s).1.out = false ∧
      (readEach (fun s => readField s builder) elems.length s).1.left = rest ∧
      AllSame elems (readEach (fun s => readField s builder) elems.length s).2 := by
  induction elems generalizing s with
  | nil =>
    show some s.left = some rest ↔ s.out = false ∧ s.left = rest ∧ _
    simp [hout, AllSame]
  | cons e elems ih =>
    have hadv := readEach_advances (readField_advances builder) elems.length (readField s builder).1
    rw [List.length_cons, readEach_succ]
    dsimp only
    rw [allSame_cons, expectAll, Option.bind_eq_some_iff]
    constructor
    · intro ⟨mid, hhead, htail⟩
      obtain ⟨ho, hl, hsame⟩ := (h e (by simp) s mid hout).mp hhead
      rw [← hl, ih (fun e' he' => h e' (by simp [he'])) ho] at htail
      exact ⟨htail.1, htail.2.1, hsame, htail.2.2⟩
    · intro ⟨ho, hl, hsame, hsames⟩
      have ho' := hadv.out_eq_false ho
      refine ⟨_, (h e (by simp) s _ hout).mpr ⟨ho', rfl, hsame⟩, ?_⟩
      rw [ih (fun e' he' => h e' (by simp [he'])) ho']
      exact ⟨ho, hl, hsames⟩

private theorem expectAll_iff_of {o p : SerializableObject} (hop : AllSameType o p)
    (hp : AllFresh p)
    (h : ∀ f ∈ o, ∀ g (s : Cursor UInt8) rest, f.SameType g → g.Fresh → s.out = false →
      (expect f s.left = some rest ↔ ReadsAs s f g rest)) (hout : s.out = false) :
    expectAll o s.left = some rest ↔ AllReadsAs s o p rest := by
  unfold AllReadsAs
  induction o generalizing p s with
  | nil =>
    have hnil : p = [] := hop
    subst hnil
    show some s.left = some rest ↔ s.out = false ∧ s.left = rest ∧ _
    simp [hout, AllSame]
  | cons f o ih =>
    obtain ⟨g, p', rfl, hfg, hop'⟩ := hop
    have hadv := readAll_advances p' (readField s g).1
    rw [readAll_cons]
    dsimp only
    rw [allSame_cons, expectAll, Option.bind_eq_some_iff]
    constructor
    · intro ⟨mid, hhead, htail⟩
      obtain ⟨ho, hl, hsame⟩ := (h f (by simp) g s mid hfg hp.1 hout).mp hhead
      rw [← hl, ih hop' hp.2 (fun f' hf' => h f' (by simp [hf'])) ho] at htail
      exact ⟨htail.1, htail.2.1, hsame, htail.2.2⟩
    · intro ⟨ho, hl, hsame, hsames⟩
      have ho' := hadv.out_eq_false ho
      refine ⟨_, (h f (by simp) g s _ hfg hp.1 hout).mpr ⟨ho', rfl, hsame⟩, ?_⟩
      rw [ih hop' hp.2 (fun f' hf' => h f' (by simp [hf'])) ho']
      exact ⟨ho, hl, hsames⟩

/-- What is expected of a field is that reading it gives it back. -/
theorem expect_iff (f : Field) (hf : f.Closed) : ∀ g (s : Cursor UInt8) rest, f.SameType g →
    g.Fresh → s.out = false → (expect f s.left = some rest ↔ ReadsAs s f g rest) := by
  induction f using Field.ind with
  | fixed x =>
    intro g s rest hfg _ hout
    obtain ⟨y, rfl, hxy⟩ := hfg
    rw [expect_fixed_iff hxy hout]
    unfold ReadsAs
    simp only [readField, Field.Same, Field.fixed.injEq]
  | carrier c =>
    intro g s rest hfg _ hout
    obtain ⟨d, rfl⟩ := hfg
    rw [expect_carrier_iff (d := d) hout]
    unfold ReadsAs
    simp [readField, Field.Same]
  | terminated c t =>
    intro g s rest hfg _ hout
    obtain ⟨d, rfl⟩ := hfg
    obtain ⟨mem, hmem, hlen⟩ := hf
    constructor
    · intro h
      cases h
    · -- the length read is one more than that of the data
      intro h
      obtain ⟨hout', _, d', hd', hsame⟩ := h
      obtain rfl : (readTerminated s d t).2 = d' := by injection hd'
      have hout'' : (readTerminated s d t).1.out = false := hout'
      unfold readTerminated at hout'' hsame
      cases hscan : s.takeThrough (· == t) with
      | mk s' bs =>
        rw [hscan] at hout'' hsame
        cases bs with
        | none =>
          rw [Cursor.out_of_takeThrough_eq_none hscan] at hout''
          cases hout''
        | some bs =>
          obtain ⟨k, hk, hbs⟩ := Cursor.takeThrough_eq_some hscan
          obtain ⟨hlen', hdata⟩ := hsame
          have hthrough : throughTerminator t mem = bs := by
            simpa [hmem, throughTerminator, hk, hbs] using hdata
          have hlen'' : c.len_ = bs.length + 1 := hlen'
          rw [hthrough] at hlen
          omega
  | string str =>
    intro g s rest hfg _ hout
    obtain ⟨init, rfl⟩ := hfg
    rw [expect_string_iff init hout]
    unfold ReadsAs
    simp [readField, Field.Same]
  | object fields ih =>
    intro g s rest hfg hg hout
    obtain ⟨fields', rfl, hff⟩ := hfg
    have h : expectAll fields s.left = some rest ↔ AllReadsAs s fields fields' rest :=
      expectAll_iff_of hff hg (fun f hfm => ih f hfm (hf.mem f hfm)) hout
    rw [expect, h]
    unfold ReadsAs AllReadsAs
    simp [readField, Field.Same]
  | vector builder₀ elems _ ih =>
    intro g s rest hfg hg hout
    obtain ⟨builder, elems', rfl, hee⟩ := hfg
    obtain ⟨hb, rfl⟩ := hg
    have hf' : AllClosed elems := hf
    have helems : ∀ s : Cursor UInt8, s.out = false → (expectAll elems s.left = some rest ↔ _) :=
      fun s hout => expectAll_elems_iff
        (fun e he s rest hout => ih e he (hf'.mem e he) builder s rest (hee.mem e he) hb hout) hout
    unfold ReadsAs
    simp only [expect, readField, Option.bind_eq_some_iff]
    constructor
    · intro h
      obtain ⟨mid, hlen, hbody⟩ := h
      have hread := (expectU32_eq_some hout).mp hlen
      obtain ⟨ho, hl, hsame⟩ := (helems { s with left := mid } hout).mp hbody
      rw [hread]
      exact ⟨ho, hl, builder, _, rfl, hsame⟩
    · intro h
      obtain ⟨hout', hleft, b', elems', hb', hsame⟩ := h
      cases hread : readU32 s with
      | mk s₁ n =>
        rw [hread] at hout' hleft hb'
        cases n with
        | none =>
          rw [readU32_none_out hread] at hout'
          cases hout'
        | some n =>
          obtain ⟨_, hs₁⟩ := readU32_some_eq hread
          injection hb' with _ helems'
          rw [← helems'] at hsame
          have hn : n = elems.length := by
            rw [← hsame.length_eq, length_readEach]
          refine ⟨s₁.left, ?_, ?_⟩
          · rw [expectU32_eq_some hout, hread, ← hs₁, hn]
          · rw [helems s₁ (by rw [hs₁]; exact hout)]
            rw [← hn]
            exact ⟨hout', hleft, hsame⟩

theorem expectAll_iff {o p : SerializableObject} (ho : AllClosed o) (hop : AllSameType o p)
    (hp : AllFresh p) (hout : s.out = false) :
    expectAll o s.left = some rest ↔ AllReadsAs s o p rest :=
  expectAll_iff_of hop hp (fun f hf => expect_iff f (ho.mem f hf)) hout

/-! ### Carriers with a terminator -/

private theorem noneTerminated_of {o : SerializableObject}
    (h : ∀ f ∈ o, ∀ bs rest, expect f bs = some rest → f.NoTerminated) :
    ∀ {bs rest : List UInt8}, expectAll o bs = some rest → NoneTerminated o := by
  induction o with
  | nil => exact fun _ => trivial
  | cons f o ih =>
    intro bs rest ho
    obtain ⟨mid, hf, hrest⟩ := Option.bind_eq_some_iff.mp ho
    exact ⟨h f (by simp) bs mid hf, ih (fun g hg => h g (by simp [hg])) hrest⟩

theorem noTerminated_of_expect (f : Field) :
    ∀ bs rest, expect f bs = some rest → f.NoTerminated := by
  induction f using Field.ind with
  | fixed x => exact fun _ _ _ => trivial
  | carrier c => exact fun _ _ _ => trivial
  | terminated c t => exact fun _ _ h => nomatch h
  | string str => exact fun _ _ _ => trivial
  | object fields ih => exact fun _ _ h => noneTerminated_of ih h
  | vector builder elems _ ih =>
    intro bs rest h
    obtain ⟨mid, _, hbody⟩ := Option.bind_eq_some_iff.mp h
    exact noneTerminated_of ih hbody

theorem noneTerminated_of_expectAll {o : SerializableObject} {bs rest : List UInt8}
    (h : expectAll o bs = some rest) : NoneTerminated o :=
  noneTerminated_of (fun f _ => noTerminated_of_expect f) h

end Wire

/-! ### Encoding -/

mutual

/-- The values fit their length prefixes and can be read, and a carrier with a
    terminator holds data that ends with it and does not contain it before. -/
def Field.Fits : Field → Prop
  | .fixed _ => True
  | .carrier c => c.len_ < 2 ^ 32 ∧ ∃ data, readBytes c.buf_ c.len_ = .ok data
  | .terminated c t => ∃ data mem, c.buf_ = some (data ++ t :: mem) ∧ t ∉ data ∧
      c.len_ = data.length + 1
  | .string str => str.length < 2 ^ 32
  | .object fields => AllFit fields
  | .vector _ elems => elems.length < 2 ^ 32 ∧ AllFit elems

def AllFit : SerializableObject → Prop
  | [] => True
  | f :: o => Field.Fits f ∧ AllFit o

end

theorem AllFit.mem {o : SerializableObject} (h : AllFit o) : ∀ f ∈ o, f.Fits := by
  induction o with
  | nil => simp
  | cons g o ih =>
    intro f hf
    cases List.mem_cons.mp hf with
    | inl hfg => exact hfg ▸ h.1
    | inr hfo => exact ih h.2 f hfo

theorem throughTerminator_append {t : UInt8} {data mem : List UInt8} (h : t ∉ data) :
    throughTerminator t (data ++ t :: mem) = data ++ [t] := by
  have hfind : (data ++ t :: mem).findIdx? (· == t) = some data.length := by
    rw [List.findIdx?_append, List.findIdx?_eq_none_iff.mpr]
    · simp [List.findIdx?_cons]
    · intro x hx
      simpa using fun hxt : x = t => h (hxt ▸ hx)
  simp [throughTerminator, hfind, List.take_append]

theorem Marshal.findTerminator_append {t : UInt8} {data : List UInt8} (hdata : t ∉ data)
    (mem : List UInt8) : Marshal.findTerminator t (data ++ t :: mem) = .ok data.length := by
  induction data with
  | nil =>
    rw [List.nil_append, Marshal.findTerminator, if_pos rfl]
    rfl
  | cons b data ih =>
    rw [List.mem_cons, not_or] at hdata
    rw [List.cons_append, Marshal.findTerminator, if_neg (Ne.symm hdata.1), ih hdata.2]
    rfl

namespace Wire

mutual

/-- The bytes of a field. Lengths are passed on in 32 bits. -/
def encode : Field → List UInt8
  | .fixed x => x.bytes
  | .carrier c => BigEndian.bytes 4 c.len_ ++ (c.buf_.getD []).take (c.len_ % 2 ^ 32)
  | .terminated c t =>
    let data := throughTerminator t (c.buf_.getD [])
    data.take (data.length % 2 ^ 32)
  | .string str => BigEndian.bytes 4 str.length ++ str.take (str.length % 2 ^ 32)
  | .object fields => encodeAll fields
  | .vector _ elems => BigEndian.bytes 4 elems.length ++ encodeAll elems

def encodeAll : SerializableObject → List UInt8
  | [] => []
  | f :: o => encode f ++ encodeAll o

end

private theorem expectU32_bytes {n : Nat} (h : n < 2 ^ 32) (bs : List UInt8) :
    expectU32 n (BigEndian.bytes 4 n ++ bs) = some bs := by
  rw [expectU32, if_pos h, expectBytes_eq_some]

private theorem expectAll_encodeAll_of {o : SerializableObject}
    (h : ∀ f ∈ o, f.Fits → f.NoTerminated → ∀ rest, expect f (encode f ++ rest) = some rest)
    (ho : AllFit o) (hn : NoneTerminated o) (rest : List UInt8) :
    expectAll o (encodeAll o ++ rest) = some rest := by
  induction o with
  | nil => rfl
  | cons f o ih =>
    rw [encodeAll, expectAll, List.append_assoc, h f (by simp) ho.1 hn.1]
    exact ih (fun g hg => h g (by simp [hg])) ho.2 hn.2

theorem expect_encode (f : Field) (hf : f.Fits) (hn : f.NoTerminated) (rest : List UInt8) :
    expect f (encode f ++ rest) = some rest := by
  induction f using Field.ind generalizing rest with
  | fixed x =>
    have hle : x.width ≤ (x.bytes ++ rest).length := by simp
    have htake : (x.bytes ++ rest).take x.width = x.bytes := List.take_left' (by simp)
    have hdrop : (x.bytes ++ rest).drop x.width = rest := List.drop_left' (by simp)
    rw [encode, expect, htake, hdrop, if_pos ⟨hle, x.ofBytes_bytes⟩]
  | carrier c =>
    obtain ⟨hlen, data, hdata⟩ := hf
    have hbytes := bytes_of_readBytes hdata
    rw [encode, expect, hdata, Nat.mod_eq_of_lt hlen, hbytes, List.append_assoc]
    show (expectU32 c.len_ _).bind (expectBytes data) = _
    rw [expectU32_bytes hlen]
    exact expectBytes_eq_some.mpr rfl
  | terminated c t => exact hn.elim
  | string str =>
    rw [encode, expect, Nat.mod_eq_of_lt hf, List.take_length, List.append_assoc,
      expectU32_bytes hf]
    exact expectBytes_eq_some.mpr rfl
  | object fields ih => exact expectAll_encodeAll_of ih hf hn rest
  | vector builder elems _ ih =>
    rw [encode, expect, List.append_assoc, expectU32_bytes hf.1]
    exact expectAll_encodeAll_of ih hf.2 hn rest

theorem expectAll_encodeAll {o : SerializableObject} (ho : AllFit o) (hn : NoneTerminated o)
    (rest : List UInt8) : expectAll o (encodeAll o ++ rest) = some rest :=
  expectAll_encodeAll_of (fun f _ => expect_encode f) ho hn rest

end Wire

private theorem AllFit.closed_of {o : SerializableObject} (h : ∀ f ∈ o, f.Fits → f.Closed)
    (ho : AllFit o) : AllClosed o := by
  induction o with
  | nil => trivial
  | cons f o ih => exact ⟨h f (by simp) ho.1, ih (fun g hg => h g (by simp [hg])) ho.2⟩

theorem Field.Fits.closed (f : Field) (hf : f.Fits) : f.Closed := by
  induction f using Field.ind with
  | fixed x => trivial
  | carrier c => trivial
  | terminated c t =>
    obtain ⟨data, mem, hbuf, ht, hlen⟩ := hf
    exact ⟨_, hbuf, by rw [throughTerminator_append ht, hlen]; simp⟩
  | string str => trivial
  | object fields ih => exact AllFit.closed_of ih hf
  | vector builder elems _ ih => exact AllFit.closed_of ih hf.2

theorem AllFit.closed {o : SerializableObject} (ho : AllFit o) : AllClosed o :=
  closed_of (fun f _ => Field.Fits.closed f) ho

end Oasys
