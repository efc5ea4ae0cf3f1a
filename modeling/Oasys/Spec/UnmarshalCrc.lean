import Oasys.Spec.UnmarshalAction

/-!
# Unmarshal with a CRC

What `USE_CRC` should do for an action: report every buffer whose last four bytes are
not the CRC-32 of the bytes before them, and otherwise decode the fields as if these
four bytes were not there. `Protects` states it, and `protects_iff` says when it holds.
There are three ways to miss it, all in `begin_action`: the check reads in front of a
buffer of less than four bytes; a mismatch is an error only for an action with a log;
and the four bytes are still there for the fields to take.
-/

namespace Oasys.Unmarshal

open Wire (readU32 readCarrier readTerminated readString readEach readField readAll
  readU32_eq_none readU32_eq_some readEach_advances readField_advances readAll_advances
  readU32_extend readCarrier_extend readTerminated_extend readString_extend readField_extend)

/-! ### Two runs side by side -/

/-- Two runs of a part of `Unmarshal`, over a buffer that has `more` at its end and over
    one that has not: both fail in the same way, or both arrive at `s'` with equal
    results. -/
inductive SameStep (c d : Setting) (more : List UInt8) {α : Type} (Eq : α → α → Prop)
    (s' : Cursor UInt8) :
    Except Fault (Unmarshal × α) → Except Fault (Unmarshal × α) → Prop where
  | ok {l u v x y} (hu : At c l u (s'.extend more)) (hv : At d l v s') (heq : Eq y x) :
      SameStep c d more Eq s' (.ok (u, x)) (.ok (v, y))
  | error (e : Fault) : SameStep c d more Eq s' (.error e) (.error e)

variable {c d : Setting} {more : List UInt8} {l : Nat → UInt32} {u v : Unmarshal}
  {s s' s'' : Cursor UInt8}

namespace SameStep

theorem mark {α : Type} {Eq : α → α → Prop} {r r' : Except Fault (Unmarshal × α)}
    (h : SameStep c d more Eq s' r r') : SameStep c d more Eq s'.mark r r' := by
  cases h with
  | ok hu hv heq => exact .ok hu.mark hv.mark heq
  | error e => exact .error e

variable {α β γ : Type} {P : α → α → Prop} {Q : β → β → Prop} {R : γ → γ → Prop}

theorem map {r r' : Except Fault (Unmarshal × α)} (hr : SameStep c d more P s' r r')
    {k k' : Unmarshal × α → Except Fault (Unmarshal × β)} {f : α → β}
    (hk : ∀ u x, r = .ok (u, x) → k (u, x) = .ok (u, f x))
    (hk' : ∀ u x, r' = .ok (u, x) → k' (u, x) = .ok (u, f x))
    (hPQ : ∀ x y, P y x → Q (f y) (f x)) :
    SameStep c d more Q s' (r >>= k) (r' >>= k') := by
  cases hr with
  | @ok l u v x y hu hv heq =>
    show SameStep c d more Q s' (k (u, x)) (k' (v, y))
    rw [hk u x rfl, hk' v y rfl]
    exact .ok hu hv (hPQ x y heq)
  | error e => exact .error e

theorem seq {r r' : Except Fault (Unmarshal × α)} (hr : SameStep c d more P s' r r')
    {k k' : Unmarshal → Except Fault (Unmarshal × β)}
    (hk : ∀ l u v, At c l u (s'.extend more) → At d l v s' →
      SameStep c d more Q s'' (k u) (k' v)) {f : α → β → γ}
    (hR : ∀ x y x' y', P y x → Q y' x' → R (f y y') (f x x')) :
    SameStep c d more R s''
      (do
        let (u, x) ← r
        let (u, y) ← k u
        return (u, f x y))
      (do
        let (u, x) ← r'
        let (u, y) ← k' u
        return (u, f x y)) := by
  cases hr with
  | @ok l u v x y hu hv heq =>
    have h := hk l u v hu hv
    show SameStep c d more R s'' (k u >>= fun q => pure (q.1, f x q.2))
      (k' v >>= fun q => pure (q.1, f y q.2))
    generalize k u = t at h ⊢
    generalize k' v = t' at h ⊢
    cases h with
    | ok hu' hv' heq' => exact .ok hu' hv' (hR _ _ _ _ heq heq')
    | error e => exact .error e
  | error e => exact .error e

end SameStep

/-! ### The fields -/

theorem sameStep_fillCarrier (hlog : c.log = d.log) (hu : At c l u (s.extend more))
    (hv : At d l v s) (b : BufferCarrier) (len : UInt32)
    (hroom : more.length ≤ ((s.extend more).take len.toNat).1.left.length) :
    SameStep c d more BufferCarrier.Same (s.take len.toNat).1 (u.fillCarrier b len)
      (v.fillCarrier b len) := by
  by_cases hlen : len = 0
  · -- an empty carrier reads nothing
    have hfill : ∀ w : Unmarshal, w.fillCarrier b len = .ok (w, .new) := by
      intro w
      simp [fillCarrier, hlen, BufferCarrier.setBuf, BufferCarrier.new]
    have hzero : len.toNat = 0 := by rw [hlen]; rfl
    rw [hfill, hfill, hzero, Cursor.take_zero]
    exact .ok hu hv ⟨rfl, rfl⟩
  · have htake' := Cursor.take_extend hroom
    cases htake : s.take len.toNat with
    | mk s' bs =>
      rw [htake] at htake'
      cases bs with
      | some bs =>
        obtain ⟨u', hfill, hat⟩ := hu.fillCarrier_some b hlen htake'
        obtain ⟨v', hfill', hat'⟩ := hv.fillCarrier_some b hlen htake
        obtain ⟨_, hle, _, _⟩ := Cursor.take_eq_some htake
        rw [hfill, hfill']
        refine .ok hat hat' ⟨rfl, ?_⟩
        have hle' : len.toNat ≤ (s.left ++ more).length := by
          rw [List.length_append]; omega
        simp only [readBytes, Cursor.extend_left, if_pos hle, if_pos hle',
          List.take_append_of_le_length hle]
      | none =>
        obtain ⟨u', hfill, hat⟩ := hu.fillCarrier_none b hlen htake'
        obtain ⟨v', hfill', hat'⟩ := hv.fillCarrier_none b hlen htake
        rw [hfill, hfill', hlog]
        by_cases h : d.log = true
        · rw [if_pos h, if_pos h]
          exact .error _
        · rw [if_neg h, if_neg h]
          exact .ok hat hat' ⟨rfl, rfl⟩

theorem sameStep_processCarrier (hlog : c.log = d.log) (hu : At c l u (s.extend more))
    (hv : At d l v s) (b : BufferCarrier)
    (hroom : more.length ≤ (readCarrier (s.extend more) b).1.left.length) :
    SameStep c d more BufferCarrier.Same (readCarrier s b).1 (u.processCarrier b)
      (v.processCarrier b) := by
  have hext := readU32_extend (readCarrier_extend hroom).1
  obtain ⟨u₁, hulen, hu₁⟩ := hu.newLocal.processU32 (l 0)
  obtain ⟨v₁, hvlen, hv₁⟩ := hv.newLocal.processU32 (l 0)
  have hurun : u.processCarrier b = u₁.fillCarrier b ((readU32 s).2.elim (l 0) .ofNat) := by
    show u.newLocal.2.processU32 (u.uninitialised 0) >>= (fun q => q.1.fillCarrier b q.2) = _
    rw [hu.locals_eq, hulen, hext]
    rfl
  have hvrun : v.processCarrier b = v₁.fillCarrier b ((readU32 s).2.elim (l 0) .ofNat) := by
    show v.newLocal.2.processU32 (v.uninitialised 0) >>= (fun q => q.1.fillCarrier b q.2) = _
    rw [hv.locals_eq, hvlen]
    rfl
  rw [hurun, hvrun]
  rw [hext] at hu₁
  unfold readCarrier at hroom ⊢
  rw [hext] at hroom
  cases hread : readU32 s with
  | mk s₁ n =>
    rw [hread] at hu₁ hv₁ hroom
    cases n with
    | none =>
      -- the length is what the local happened to hold, the same in both runs
      have hout : s₁.out = true := Cursor.out_of_take_eq_none (readU32_eq_none hread)
      have hstay : s₁.take (l 0).toNat = (s₁, none) := Cursor.take_of_out hout _
      have hstep := sameStep_fillCarrier hlog hu₁ hv₁ b (l 0)
        (by rw [Cursor.take_of_out (s := s₁.extend more) hout]; exact hroom)
      rw [hstay] at hstep
      exact hstep.mark
    | some n =>
      have hn : (UInt32.ofNat n).toNat = n :=
        UInt32.toNat_ofNat_of_lt' (readU32_eq_some hread).2.2
      dsimp only at hroom ⊢
      by_cases h0 : n = 0
      · have hstep := sameStep_fillCarrier hlog hu₁ hv₁ b (.ofNat n)
          (by rw [hn, h0, Cursor.take_zero]; simp)
        rw [hn] at hstep
        subst h0
        rw [Cursor.take_zero] at hstep
        exact hstep
      · rw [if_neg h0] at hroom
        have hbody : more.length ≤ ((s₁.extend more).take n).1.left.length := by
          refine Nat.le_trans hroom ?_
          split
          · rename_i hbody
            rw [hbody]
          · rename_i hbody
            rw [hbody]
            exact Nat.le_refl _
        have hstep := sameStep_fillCarrier hlog hu₁ hv₁ b (.ofNat n) (by rwa [hn])
        rw [hn] at hstep
        rw [if_neg h0]
        cases htake : s₁.take n with
        | mk s₂ bs =>
          rw [htake] at hstep
          cases bs with
          | none => exact hstep.mark
          | some bs => exact hstep

theorem sameStep_processEach {proc : Unmarshal → Except Fault (Unmarshal × Field)}
    {rd : Cursor UInt8 → Cursor UInt8 × Field} (hadv : ∀ s : Cursor UInt8, s.Advances (rd s).1)
    (hext : ∀ s : Cursor UInt8, more.length ≤ (rd (s.extend more)).1.left.length →
      (rd (s.extend more)).1 = (rd s).1.extend more)
    (hproc : ∀ l u v s, At c l u (s.extend more) → At d l v s →
      more.length ≤ (rd (s.extend more)).1.left.length →
      SameStep c d more Field.Same (rd s).1 (proc u) (proc v))
    (hu : At c l u (s.extend more)) (hv : At d l v s) {n : Nat}
    (hroom : more.length ≤ (readEach rd n (s.extend more)).1.left.length) :
    SameStep c d more AllSame (readEach rd n s).1 (processEach proc n u)
      (processEach proc n v) := by
  induction n generalizing l u v s with
  | zero => exact .ok hu hv rfl
  | succ n ih =>
    have hhead := Nat.le_trans hroom (readEach_advances hadv n _).length_le
    rw [Wire.readEach_succ] at hroom
    simp only [hext s hhead] at hroom
    exact (hproc l u v s hu hv hhead).seq (fun _ _ _ hu' hv' => ih hu' hv' hroom)
      (fun _ _ _ _ hx hy => ⟨_, _, rfl, hx, hy⟩)

theorem sameStep_processAll_of {o : SerializableObject}
    (hproc : ∀ f ∈ o, ∀ l u v s, At c l u (s.extend more) → At d l v s →
      more.length ≤ (readField (s.extend more) f).1.left.length →
      SameStep c d more Field.Same (readField s f).1 (u.process f) (v.process f))
    (hu : At c l u (s.extend more)) (hv : At d l v s)
    (hroom : more.length ≤ (readAll (s.extend more) o).1.left.length) :
    SameStep c d more AllSame (readAll s o).1 (u.processAll o) (v.processAll o) := by
  induction o generalizing l u v s with
  | nil => exact .ok hu hv rfl
  | cons f o ih =>
    have hhead := Nat.le_trans hroom (readAll_advances o _).length_le
    rw [Wire.readAll_cons] at hroom
    simp only [readField_extend f s hhead] at hroom
    exact (hproc f (by simp) l u v s hu hv hhead).seq
      (fun _ _ _ hu' hv' => ih (fun g hg => hproc g (by simp [hg])) hu' hv' hroom)
      (fun _ _ _ _ hx hy => ⟨_, _, rfl, hx, hy⟩)

/-- While the run over the longer buffer leaves the end alone, both runs do the same. -/
theorem sameStep_process (hlog : c.log = d.log) (f : Field) (hf : f.Fresh) :
    ∀ l u v s, At c l u (s.extend more) → At d l v s →
      more.length ≤ (readField (s.extend more) f).1.left.length →
      SameStep c d more Field.Same (readField s f).1 (u.process f) (v.process f) := by
  induction f using Field.ind with
  | fixed x =>
    intro l u v s hu hv hroom
    obtain ⟨u', hx, hat⟩ := hu.processFixed x
    obtain ⟨v', hx', hat'⟩ := hv.processFixed x
    rw [Cursor.take_extend hroom] at hx hat
    show SameStep _ _ _ _ _ (u.processFixed x >>= fun q => pure (q.1, Field.fixed q.2))
      (v.processFixed x >>= fun q => pure (q.1, Field.fixed q.2))
    rw [hx, hx']
    exact .ok hat hat' rfl
  | carrier b =>
    intro l u v s hu hv hroom
    exact (sameStep_processCarrier hlog hu hv b hroom).map (fun _ _ _ => rfl) (fun _ _ _ => rfl)
      (fun x y h => ⟨x, rfl, h⟩)
  | terminated b t =>
    intro l u v s hu hv hroom
    obtain ⟨u', hb, hat⟩ := hu.processTerminated b t
    obtain ⟨v', hb', hat'⟩ := hv.processTerminated b t
    obtain ⟨hcur, hsame⟩ := readTerminated_extend hroom
    rw [hcur] at hat
    show SameStep _ _ _ _ _
      (u.processTerminated b t >>= fun q => pure (q.1, Field.terminated q.2 t))
      (v.processTerminated b t >>= fun q => pure (q.1, Field.terminated q.2 t))
    rw [hb, hb']
    exact .ok hat hat' ⟨_, rfl, hsame⟩
  | string str =>
    intro l u v s hu hv hroom
    obtain ⟨u', hstr, hat⟩ := hu.processString str
    obtain ⟨v', hstr', hat'⟩ := hv.processString str
    rw [readString_extend hroom] at hstr hat
    show SameStep _ _ _ _ _ (u.processString str >>= fun q => pure (q.1, Field.string q.2))
      (v.processString str >>= fun q => pure (q.1, Field.string q.2))
    rw [hstr, hstr']
    exact .ok hat hat' rfl
  | object fields ih =>
    intro l u v s hu hv hroom
    exact (sameStep_processAll_of (fun f hfm => ih f hfm (hf.mem f hfm)) hu hv hroom).map
      (fun _ _ _ => rfl) (fun _ _ _ => rfl) (fun x y h => ⟨x, rfl, h⟩)
  | vector builder elems ihb _ =>
    intro l u v s hu hv hroom
    obtain ⟨hb, rfl⟩ := hf
    have hprefix : more.length ≤ (readU32 (s.extend more)).1.left.length := by
      refine Nat.le_trans hroom ?_
      simp only [readField]
      split
      · rename_i hread
        rw [hread]
      · rename_i s₁ n hread
        rw [hread]
        exact (readEach_advances (readField_advances builder) n s₁).length_le
    obtain ⟨u₁, hulen, hu₁⟩ := hu.processU32 0
    obtain ⟨v₁, hvlen, hv₁⟩ := hv.processU32 0
    rw [readU32_extend hprefix] at hulen hu₁
    simp only [readField, readU32_extend hprefix] at hroom
    rw [process_vector, process_vector, hulen, hvlen]
    simp only [readField]
    cases hread : readU32 s with
    | mk s₁ n =>
      rw [hread] at hu₁ hv₁ hroom
      cases n with
      | none => exact .ok hu₁ hv₁ ⟨_, _, rfl, rfl⟩
      | some n =>
        have hn : (UInt32.ofNat n).toNat = n :=
          UInt32.toNat_ofNat_of_lt' (readU32_eq_some hread).2.2
        show SameStep _ _ _ _ _ (processEach (fun u => u.process builder) (UInt32.ofNat n).toNat u₁
            >>= fun r => pure (r.1, Field.vector builder r.2))
          (processEach (fun u => u.process builder) (UInt32.ofNat n).toNat v₁
            >>= fun r => pure (r.1, Field.vector builder r.2))
        rw [hn]
        exact (sameStep_processEach (readField_advances builder) (readField_extend builder) (ihb hb)
          hu₁ hv₁ hroom).map (fun _ _ _ => rfl) (fun _ _ _ => rfl)
          (fun x y h => ⟨builder, x, rfl, h⟩)

theorem sameStep_processAll (hlog : c.log = d.log) {o : SerializableObject} (ho : AllFresh o)
    (hu : At c l u (s.extend more)) (hv : At d l v s)
    (hroom : more.length ≤ (readAll (s.extend more) o).1.left.length) :
    SameStep c d more AllSame (readAll s o).1 (u.processAll o) (v.processAll o) :=
  sameStep_processAll_of (fun f hf => sameStep_process hlog f (ho.mem f hf)) hu hv hroom

/-! ### Protection -/

/-- The two actions end alike: in the same fault, or with the same code, the same offset
    and equal fields. -/
def SameRun : Except Fault (Int × Unmarshal × SerializableObject) →
    Except Fault (Int × Unmarshal × SerializableObject) → Prop
  | .ok (code, u, o), .ok (code', u', o') => code = code' ∧ u.offset_ = u'.offset_ ∧ AllSame o' o
  | .error e, .error e' => e = e'
  | _, _ => False

/-- With a log or without, and whatever uninitialised locals hold: a buffer whose CRC is
    wrong is reported, and a buffer whose CRC is good is decoded as it is without
    `USE_CRC` and without its last four bytes. -/
def Protects (o : SerializableObject) (buf : List UInt8) : Prop :=
  ∀ (log_ : Bool) (locals : Nat → UInt32),
    (¬ GoodCrc buf → ∃ u' o', (new buf true log_ locals).action o = .ok (-1, u', o')) ∧
    (GoodCrc buf → SameRun ((new buf true log_ locals).action o)
      ((new (buf.take (buf.length - 4)) false log_ locals).action o))

/-- The condition under which the CRC protects an object: the buffer has four bytes; if
    they are wrong, the bytes of the object run out all the same, and outside of vectors
    it has no carrier with a length prefix; if they are good, the object leaves them
    unread. -/
def Untouched (o : SerializableObject) (buf : List UInt8) : Prop :=
  4 ≤ buf.length ∧
    (¬ GoodCrc buf → (readAll (.start buf) o).1.out = true ∧
      (readAll ⟨buf, true, false⟩ o).1.marked = false) ∧
    (GoodCrc buf → 4 ≤ (readAll (.start buf) o).1.left.length)

instance (o : SerializableObject) (buf : List UInt8) : Decidable (Untouched o buf) :=
  inferInstanceAs (Decidable (_ ∧ _ ∧ _))

variable {o : SerializableObject} {buf : List UInt8}

theorem reports_of_untouched (ho : AllFresh o) (h : Untouched o buf) (hbad : ¬ GoodCrc buf)
    (log_ : Bool) (locals : Nat → UInt32) :
    ∃ u' o', (new buf true log_ locals).action o = .ok (-1, u', o') := by
  obtain ⟨hlen, hwrong, -⟩ := h
  obtain ⟨hout, hm⟩ := hwrong hbad
  have hat : At ⟨buf, true, log_, false⟩ locals (new buf true log_ locals) (.start buf) :=
    at_new fun h => nomatch h
  cases log_ with
  | false =>
    obtain ⟨_, u', o', hact, -, -⟩ := hat.action_quiet (fun _ => hlen) ho rfl
    have hcur : Setting.cursor ⟨buf, true, false, false⟩ buf = .start buf := rfl
    rw [Cursor.start_left, hcur, hout] at hact
    exact ⟨u', o', hact⟩
  | true =>
    have hcur : Setting.cursor ⟨buf, true, true, false⟩ buf = ⟨buf, true, false⟩ := by
      simp [Setting.cursor, hbad]
    obtain ⟨_, u', hact, -⟩ := hat.action_unmarked (fun _ => hlen) ho
      (by rw [Cursor.start_left, hcur]; exact hm)
    rw [Cursor.start_left, hcur, ((readAll_advances o ⟨buf, true, false⟩).out rfl).1] at hact
    exact ⟨u', _, hact⟩

theorem decodes_of_untouched (ho : AllFresh o) (h : Untouched o buf) (hgood : GoodCrc buf)
    (log_ : Bool) (locals : Nat → UInt32) :
    SameRun ((new buf true log_ locals).action o)
      ((new (buf.take (buf.length - 4)) false log_ locals).action o) := by
  obtain ⟨hlen, -, hroom⟩ := h
  have hat : At ⟨buf, true, log_, false⟩ locals (new buf true log_ locals) (.start buf) :=
    at_new fun h => Bool.noConfusion h
  have hat' : At ⟨buf.take (buf.length - 4), false, log_, false⟩ locals
      (new (buf.take (buf.length - 4)) false log_ locals) (.start (buf.take (buf.length - 4))) :=
    at_new fun h => Bool.noConfusion h
  have hcur : Setting.cursor ⟨buf, true, log_, false⟩ buf =
      (Cursor.start (buf.take (buf.length - 4))).extend (buf.drop (buf.length - 4)) := by
    simp [Setting.cursor, hgood, Cursor.extend, Cursor.start]
  have hmore : (buf.drop (buf.length - 4)).length = 4 := by rw [List.length_drop]; omega
  obtain ⟨u, hu, hact⟩ := hat.action_eq (fun _ => hlen) o
  obtain ⟨v, hv, hact'⟩ := hat'.action_eq (fun h => Bool.noConfusion h) o
  rw [Cursor.start_left, hcur] at hu
  change At _ locals v (.start (buf.take (buf.length - 4))) at hv
  -- the buffer is the one without its CRC, and four more bytes
  have hstart : Cursor.start buf =
      (Cursor.start (buf.take (buf.length - 4))).extend (buf.drop (buf.length - 4)) := by
    simp [Cursor.extend, Cursor.start]
  have hroom' : (buf.drop (buf.length - 4)).length ≤
      (readAll ((Cursor.start (buf.take (buf.length - 4))).extend (buf.drop (buf.length - 4)))
        o).1.left.length := by
    rw [hmore, ← hstart]
    exact hroom hgood
  have hstep := sameStep_processAll (c := ⟨buf, true, log_, false⟩)
    (d := ⟨buf.take (buf.length - 4), false, log_, false⟩) rfl ho hu hv hroom'
  rw [hact, hact']
  generalize u.processAll o = r at hstep ⊢
  generalize v.processAll o = r' at hstep ⊢
  cases hstep with
  | error e => rfl
  | @ok _ u' v' _ _ hu' hv' hsame =>
    refine ⟨?_, ?_, hsame⟩
    · rw [hu'.error_eq, hv'.error_eq, Cursor.extend_out]
    · show u'.offset_ = v'.offset_
      have hleft := hu'.length_left
      have hleft' := hv'.length_left
      have hle := hu'.offset_le
      have hle' := hv'.offset_le
      rw [Cursor.extend_left, List.length_append, hmore] at hleft
      simp only [List.length_take] at hle hleft hle' hleft'
      omega

/-- The CRC protects a newly built object exactly under that condition. -/
theorem protects_iff (ho : AllFresh o) : Protects o buf ↔ Untouched o buf := by
  refine ⟨fun hprot => ?_, fun h log_ locals =>
    ⟨fun hbad => reports_of_untouched ho h hbad log_ locals,
      fun hgood => decodes_of_untouched ho h hgood log_ locals⟩⟩
  have hlen : 4 ≤ buf.length := by
    by_contra hshort
    obtain ⟨_, _, hrun⟩ := (hprot false fun _ => 0).1 fun hgood => hshort hgood.1
    rw [action_short (Nat.lt_of_not_le hshort)] at hrun
    cases hrun
  have hquiet : At ⟨buf, true, false, false⟩ (fun _ => 0) (new buf true false fun _ => 0)
    (.start buf) := at_new fun h => Bool.noConfusion h
  obtain ⟨_, u', o', hact, hat, -⟩ := hquiet.action_quiet (fun _ => hlen) ho rfl
  have hcur : Setting.cursor ⟨buf, true, false, false⟩ (Cursor.start buf).left = .start buf := rfl
  rw [hcur] at hact hat
  refine ⟨hlen, fun hbad => ⟨?_, ?_⟩, fun hgood => ?_⟩
  · -- without a log, only running out of bytes is reported
    obtain ⟨_, _, hrun⟩ := (hprot false fun _ => 0).1 hbad
    rw [hact] at hrun
    by_contra hout
    rw [if_neg hout] at hrun
    cases hrun
  · -- with one, a carrier makes the action read through null
    obtain ⟨_, _, hrun⟩ := (hprot true fun _ => 1).1 hbad
    have hloud : At ⟨buf, true, true, true⟩ (fun _ => 1) (new buf true true fun _ => 1)
      (.start buf) := at_new fun _ _ => by decide
    have hcur' : Setting.cursor ⟨buf, true, true, true⟩ (Cursor.start buf).left =
        ⟨buf, true, false⟩ := by
      simp [Setting.cursor, hbad]
    by_contra hm
    rw [hloud.action_marked (fun _ => hlen) ho rfl rfl
      (by rw [hcur']; exact Bool.not_eq_false _ ▸ hm)] at hrun
    cases hrun
  · -- what reaches into the last four bytes ends behind the shorter buffer
    have hat' : At ⟨buf.take (buf.length - 4), false, false, false⟩ (fun _ => 0)
      (new (buf.take (buf.length - 4)) false false fun _ => 0)
      (.start (buf.take (buf.length - 4))) := at_new fun h => Bool.noConfusion h
    obtain ⟨_, v', _, hact', hv', -⟩ := hat'.action_quiet (fun h => Bool.noConfusion h) ho rfl
    have hsame := (hprot false fun _ => 0).2 hgood
    rw [hact, hact'] at hsame
    have hoff := hsame.2.1
    have hleft := hat.length_left
    have hle := hat.offset_le
    have hle' := hv'.offset_le
    simp only [List.length_take] at hleft hle hle'
    omega

/-- A byte followed by its CRC-32 is protected. -/
theorem protects_iff_u8 : Protects [.fixed (.u8 0)] [65, 0xD3, 0xD9, 0x9E, 0x8B] :=
  (protects_iff (by simp [AllFresh, Field.Fresh])).mpr (by decide +kernel)

/-- An action without a log accepts a wrong CRC. -/
theorem not_protects_silent : ¬ Protects [.fixed (.u8 0)] [65, 0, 0, 0, 0] := by
  intro h
  obtain ⟨u', o', hrun⟩ := (h false fun _ => 0).1 (by decide +kernel)
  have hact : ((new [65, 0, 0, 0, 0] true false fun _ => 0).action [.fixed (.u8 0)]).map
      (fun r => r.1) = .ok 0 := by decide +kernel
  rw [hrun] at hact
  cases hact

end Oasys.Unmarshal
