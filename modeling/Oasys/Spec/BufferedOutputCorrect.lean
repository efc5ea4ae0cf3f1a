import Oasys.Io.BufferedOutput
import Oasys.Spec.StreamBufferCorrect

/-!
# Correctness of BufferedOutput

Whatever the client takes at a time, what it has taken and what is still in the buffer are
what has been written (`flushLoop_ok`, and from it the runs). The loop of `flush` goes on after
a write that takes nothing, so it ends exactly where the client does not stall: takes nothing
any more from some write on.

`vformat_buf` formats again where the text does not fit, into a space that has no room for the
terminator, which then stands where the last character should be.
-/

namespace Oasys.Io.BufferedOutput

/-! ### flush -/

/-- What a client takes of `n` bytes, up to an error if there is one; `none` where it would be
    asked again. -/
def accepted (n : Nat) : List Acceptance → Option Nat
  | [] => if n = 0 then some 0 else none
  | a :: answers =>
    if n = 0 then some 0
    else
      match a with
      | .error _ => some 0
      | .took k =>
        let taken := min k (min n (2 ^ 31 - 1))
        (accepted (n - taken) answers).map (taken + ·)

@[simp] theorem accepted_zero (answers : List Acceptance) : accepted 0 answers = some 0 := by
  cases answers <;> rfl

theorem accepted_nil {n : Nat} (h : 0 < n) : accepted n [] = none := by
  rw [accepted, if_neg (by omega)]

theorem accepted_error {n : Nat} (h : 0 < n) (e : Nat) (answers : List Acceptance) :
    accepted n (.error e :: answers) = some 0 := by
  rw [accepted, if_neg (by omega)]

theorem accepted_took {n : Nat} (h : 0 < n) (k : Nat) (answers : List Acceptance) :
    accepted n (.took k :: answers) =
      (accepted (n - min k (min n (2 ^ 31 - 1))) answers).map (min k (min n (2 ^ 31 - 1)) + ·) := by
  rw [accepted, if_neg (by omega)]

section Flush

variable {B : Build} {o : BufferedOutput} {total : Int} {answers : List Acceptance} {r : Output}
  {n t : Nat}

theorem flushLoop_done (hempty : o.buf_.fullbytes = 0) (answers : List Acceptance) :
    flushLoop B total o answers = .ok { ret := total, output := o, taken := [] } := by
  rw [flushLoop.eq_def, if_neg (by omega)]
  rfl

theorem flushLoop_error (hleft : 0 < o.buf_.fullbytes) (n : Nat) (answers : List Acceptance) :
    flushLoop B total o (.error n :: answers) =
      .ok { ret := -(n + 1), output := o, taken := [] } := by
  have hneg : Acceptance.write (.error n) o.buf_.fullbytes < 0 := by
    simp only [Acceptance.write]
    omega
  rw [flushLoop, if_pos hleft]
  dsimp only
  rw [if_pos hneg]
  rfl

theorem flushLoop_took (B : Build) (total : Int) (hleft : 0 < o.buf_.fullbytes) (k : Nat)
    (answers : List Acceptance) :
    ∃ b, b.bytes = o.buf_.bytes.drop (min k (min o.buf_.fullbytes (2 ^ 31 - 1))) ∧
      flushLoop B total o (.took k :: answers) = (do
        let total ← IntType.int.arith B
          (total + (min k (min o.buf_.fullbytes (2 ^ 31 - 1)) : Nat))
        let r ← flushLoop B total { o with buf_ := b } answers
        pure { r with taken :=
          o.buf_.bytes.take (min k (min o.buf_.fullbytes (2 ^ 31 - 1))) ++ r.taken }) := by
  have hwrite : Acceptance.write (.took k) o.buf_.fullbytes =
      (min k (min o.buf_.fullbytes (2 ^ 31 - 1)) : Nat) := by
    simp only [Acceptance.write]
    omega
  have hle : min k (min o.buf_.fullbytes (2 ^ 31 - 1)) ≤ o.buf_.fullbytes := by omega
  generalize min k (min o.buf_.fullbytes (2 ^ 31 - 1)) = taken at *
  obtain ⟨b, hconsume, hbytes⟩ := StreamBuffer.consume_spec hle
  refine ⟨b, hbytes, ?_⟩
  rw [flushLoop, if_pos hleft]
  dsimp only
  rw [hwrite, if_neg (by omega), Int.toNat_natCast, hconsume]
  rfl

theorem fullbytes_of_drop {b : StreamBuffer} (h : b.bytes = o.buf_.bytes.drop n) :
    b.fullbytes = o.buf_.fullbytes - n := by
  rw [← StreamBuffer.length_bytes, h, List.length_drop, StreamBuffer.length_bytes]

/-- What `flush` has delivered, why it has returned, and that it leaves the limit alone. -/
theorem flushLoop_ok (h : flushLoop B total o answers = .ok r) :
    r.taken ++ r.output.buf_.bytes = o.buf_.bytes ∧
      (r.output.buf_.fullbytes = 0 ∨ ∃ n, .error n ∈ answers) ∧
      r.output.flush_limit_ = o.flush_limit_ := by
  -- the induction is on the writes of the client
  induction answers generalizing o total r with
  | nil =>
    rw [flushLoop] at h
    split at h
    · cases h
    · rename_i hempty
      obtain rfl := Except.ok.inj h
      exact ⟨rfl, .inl (by simpa using hempty), rfl⟩
  | cons a answers ih =>
    by_cases hempty : o.buf_.fullbytes = 0
    · rw [flushLoop_done hempty] at h
      obtain rfl := Except.ok.inj h
      exact ⟨rfl, .inl hempty, rfl⟩
    have hleft : 0 < o.buf_.fullbytes := by omega
    cases a with
    | error n =>
      rw [flushLoop_error hleft] at h
      obtain rfl := Except.ok.inj h
      exact ⟨rfl, .inr ⟨n, List.mem_cons_self⟩, rfl⟩
    | took k =>
      obtain ⟨b, hb, hround⟩ := flushLoop_took B total hleft k answers
      rw [hround] at h
      obtain ⟨total', -, h⟩ := bind_eq_ok.1 h
      obtain ⟨r', hrest, h⟩ := bind_eq_ok.1 h
      obtain rfl := Except.ok.inj h
      obtain ⟨hbytes, hwhy, hlimit⟩ := ih hrest
      refine ⟨?_, hwhy.imp_right fun ⟨n, hn⟩ => ⟨n, List.mem_cons_of_mem _ hn⟩, hlimit⟩
      dsimp only at hbytes ⊢
      rw [List.append_assoc, hbytes, hb, List.take_append_drop]

theorem flushLoop_accepted (h : flushLoop B total o answers = .ok r) :
    accepted o.buf_.fullbytes answers = some r.taken.length := by
  induction answers generalizing o total r with
  | nil =>
    rw [flushLoop] at h
    split at h
    · cases h
    · rename_i hempty
      obtain rfl := Except.ok.inj h
      rw [Nat.eq_zero_of_not_pos hempty]
      rfl
  | cons a answers ih =>
    by_cases hempty : o.buf_.fullbytes = 0
    · rw [flushLoop_done hempty] at h
      obtain rfl := Except.ok.inj h
      rw [hempty]
      rfl
    have hleft : 0 < o.buf_.fullbytes := by omega
    cases a with
    | error n =>
      rw [flushLoop_error hleft] at h
      obtain rfl := Except.ok.inj h
      exact accepted_error hleft n answers
    | took k =>
      obtain ⟨b, hb, hround⟩ := flushLoop_took B total hleft k answers
      rw [hround] at h
      obtain ⟨total', -, h⟩ := bind_eq_ok.1 h
      obtain ⟨r', hrest, h⟩ := bind_eq_ok.1 h
      obtain rfl := Except.ok.inj h
      have hrest := ih hrest
      rw [fullbytes_of_drop hb] at hrest
      rw [accepted_took hleft, hrest, Option.map_some, List.length_append, List.length_take,
        StreamBuffer.length_bytes]
      congr 2
      omega

theorem arith_add {total : Int} {k : Nat} (hnonneg : B.wrapv = false → 0 ≤ total) :
    if B.wrapv = true ∨ total + k < 2 ^ 31 then
      ∃ total', IntType.int.arith B (total + k) = .ok total' ∧
        (B.wrapv = false → total' = total + k)
    else ∀ total', IntType.int.arith B (total + k) ≠ .ok total' := by
  by_cases hwrapv : B.wrapv = true
  · rw [if_pos (.inl hwrapv),
      IntType.arith_of_wraps (by decide) (by simp [IntType.Undefined, hwrapv])]
    exact ⟨_, rfl, fun h => by simp [hwrapv] at h⟩
  · rw [Bool.not_eq_true] at hwrapv
    have hpos := hnonneg hwrapv
    by_cases hlt : total + k < 2 ^ 31
    · have hrange : IntType.int.InRange (total + k) := by
        simp only [IntType.InRange, IntType.max, IntType.min, IntType.size, IntType.int, if_true]
        omega
      rw [if_pos (.inr hlt), IntType.arith_of_inRange B hrange]
      exact ⟨_, rfl, fun _ => rfl⟩
    · have hrange : ¬ IntType.int.InRange (total + k) := by
        simp only [IntType.InRange, IntType.max, IntType.min, IntType.size, IntType.int, if_true]
        omega
      rw [if_neg (by simp [hwrapv]; omega),
        IntType.arith_of_undefined ⟨by decide, rfl, hwrapv⟩ hrange]
      intro total' heq
      cases heq

/-- `flush` returns where the client has taken everything or failed, and where what it has
    taken is an `int`. -/
theorem flushLoop_returns_iff (hnonneg : B.wrapv = false → 0 ≤ total ∧ total < 2 ^ 31) :
    (∃ r, flushLoop B total o answers = .ok r) ↔
      ∃ t, accepted o.buf_.fullbytes answers = some t ∧ (B.wrapv = true ∨ total + t < 2 ^ 31) := by
  have hfits : B.wrapv = true ∨ total + (0 : Nat) < 2 ^ 31 := by
    cases hwrapv : B.wrapv with
    | true => exact .inl rfl
    | false => exact .inr (by have := hnonneg hwrapv; omega)
  -- the induction is on the writes of the client
  induction answers generalizing o total with
  | nil =>
    by_cases hempty : o.buf_.fullbytes = 0
    · rw [flushLoop_done hempty, hempty, accepted_zero]
      exact iff_of_true ⟨_, rfl⟩ ⟨0, rfl, hfits⟩
    · rw [flushLoop.eq_def, if_pos (by omega), accepted_nil (by omega)]
      exact iff_of_false nofun nofun
  | cons a answers ih =>
    by_cases hempty : o.buf_.fullbytes = 0
    · rw [flushLoop_done hempty, hempty, accepted_zero]
      exact iff_of_true ⟨_, rfl⟩ ⟨0, rfl, hfits⟩
    have hleft : 0 < o.buf_.fullbytes := by omega
    cases a with
    | error n =>
      rw [flushLoop_error hleft, accepted_error hleft]
      exact iff_of_true ⟨_, rfl⟩ ⟨0, rfl, hfits⟩
    | took k =>
      obtain ⟨b, hb, hround⟩ := flushLoop_took B total hleft k answers
      rw [hround, accepted_took hleft]
      have hrest := fullbytes_of_drop hb
      generalize min k (min o.buf_.fullbytes (2 ^ 31 - 1)) = taken at *
      rw [← hrest]
      have hadd := arith_add (k := taken) fun h => (hnonneg h).1
      split at hadd
      · rename_i hsum
        obtain ⟨total', harith, hexact⟩ := hadd
        have hnonneg' : B.wrapv = false → 0 ≤ total' ∧ total' < 2 ^ 31 := by
          intro hwrapv
          have := hnonneg hwrapv
          have := hexact hwrapv
          simp only [hwrapv, Bool.false_eq_true, false_or] at hsum
          omega
        have hfits' : B.wrapv = true ∨ total' + (0 : Nat) < 2 ^ 31 := by
          cases hwrapv : B.wrapv with
          | true => exact .inl rfl
          | false => exact .inr (by have := hnonneg' hwrapv; omega)
        have hih := ih (o := { o with buf_ := b }) hnonneg' hfits'
        have hsame : ∀ t : Nat, (B.wrapv = true ∨ total' + t < 2 ^ 31) ↔
            (B.wrapv = true ∨ total + (taken + t : Nat) < 2 ^ 31) := by
          intro t
          cases hwrapv : B.wrapv with
          | true => simp
          | false =>
            have := hexact hwrapv
            simp only [Bool.false_eq_true, false_or]
            omega
        rw [harith, ok_bind]
        constructor
        · rintro ⟨r, hr⟩
          obtain ⟨r', hr', -⟩ := bind_eq_ok.1 hr
          obtain ⟨t, ht, hlt⟩ := hih.1 ⟨r', hr'⟩
          exact ⟨taken + t, by rw [ht]; rfl, (hsame t).1 hlt⟩
        · rintro ⟨t, ht, hlt⟩
          obtain ⟨t', ht', rfl⟩ := Option.map_eq_some_iff.1 ht
          obtain ⟨r', hr'⟩ := hih.2 ⟨t', ht', (hsame t').2 hlt⟩
          exact ⟨_, bind_eq_ok.2 ⟨r', hr', rfl⟩⟩
      · rename_i hsum
        refine iff_of_false ?_ ?_
        · rintro ⟨r, hr⟩
          obtain ⟨total', htotal', -⟩ := bind_eq_ok.1 hr
          exact hadd total' htotal'
        · rintro ⟨t, ht, hlt⟩
          obtain ⟨t', -, rfl⟩ := Option.map_eq_some_iff.1 ht
          refine hsum (hlt.imp_right fun hlt => ?_)
          push_cast at hlt
          omega

end Flush

/-! ### Clients that stall -/

def firstAnswers (client : Nat → Acceptance) : Nat → List Acceptance
  | 0 => []
  | k + 1 => client 0 :: firstAnswers (fun i => client (i + 1)) k

/-- From some write on, before it has failed or taken all of `n` bytes, the client takes
    nothing any more. -/
def Stalls (client : Nat → Acceptance) (n : Nat) : Prop :=
  ∃ k, accepted n (firstAnswers client k) = none ∧ ∀ i, k ≤ i → client i = .took 0

section Stalling

variable {client : Nat → Acceptance} {n k t : Nat} {a : Acceptance}

theorem mem_firstAnswers : a ∈ firstAnswers client k ↔ ∃ i, i < k ∧ client i = a := by
  induction k generalizing client with
  | zero => simp [firstAnswers]
  | succ k ih =>
    rw [firstAnswers, List.mem_cons, ih]
    constructor
    · rintro (rfl | ⟨i, hi, rfl⟩)
      · exact ⟨0, by omega, rfl⟩
      · exact ⟨i + 1, by omega, rfl⟩
    · rintro ⟨i, hi, rfl⟩
      cases i with
      | zero => exact .inl rfl
      | succ i => exact .inr ⟨i, by omega, rfl⟩

theorem accepted_mono (h : accepted n (firstAnswers client k) = some t) {k' : Nat} (hle : k ≤ k') :
    accepted n (firstAnswers client k') = some t := by
  induction k generalizing client n t k' with
  | zero =>
    by_cases hn : n = 0
    · subst hn
      rw [accepted_zero] at h ⊢
      exact h
    · rw [firstAnswers, accepted_nil (by omega)] at h
      cases h
  | succ k ih =>
    obtain ⟨k', rfl⟩ := Nat.exists_eq_add_of_le' (Nat.lt_of_lt_of_le (Nat.succ_pos k) hle)
    by_cases hn : n = 0
    · subst hn
      rw [accepted_zero] at h ⊢
      exact h
    have hpos : 0 < n := by omega
    rw [firstAnswers] at h ⊢
    cases ha : client 0 with
    | error e =>
      rw [ha, accepted_error hpos] at h
      rw [accepted_error hpos, h]
    | took m =>
      rw [ha, accepted_took hpos] at h
      obtain ⟨t', ht', rfl⟩ := Option.map_eq_some_iff.1 h
      rw [accepted_took hpos, ih ht' (by omega)]
      rfl

theorem accepted_succ_eq_none {m : Nat} (hpos : 0 < n) (hclient : client 0 = .took m) :
    accepted n (firstAnswers client (k + 1)) = none ↔
      accepted (n - min m (min n (2 ^ 31 - 1))) (firstAnswers (fun i => client (i + 1)) k) =
        none := by
  rw [firstAnswers, hclient, accepted_took hpos, Option.map_eq_none_iff]

theorem pos_of_accepted_eq_none {answers : List Acceptance} (h : accepted n answers = none) :
    0 < n := by
  apply Nat.pos_of_ne_zero
  rintro rfl
  rw [accepted_zero] at h
  cases h

theorem accepted_of_zeros (h : accepted n (firstAnswers client k) = none)
    (hzeros : ∀ i, k ≤ i → client i = .took 0) (j : Nat) :
    accepted n (firstAnswers client (k + j)) = none := by
  have hpos := pos_of_accepted_eq_none h
  induction k generalizing client n with
  | zero =>
    induction j generalizing client with
    | zero => exact h
    | succ j ih =>
      rw [Nat.zero_add, accepted_succ_eq_none hpos (hzeros 0 (Nat.le_refl 0))]
      have hrest : accepted n (firstAnswers (fun i => client (i + 1)) (0 + j)) = none :=
        ih h fun i _ => hzeros (i + 1) (by omega)
      simpa using hrest
  | succ k ih =>
    rw [Nat.add_right_comm]
    cases ha : client 0 with
    | error e =>
      rw [firstAnswers, ha, accepted_error hpos] at h
      cases h
    | took m =>
      rw [accepted_succ_eq_none hpos ha] at h ⊢
      exact ih h (fun i hi => hzeros (i + 1) (by omega)) (pos_of_accepted_eq_none h)

theorem Stalls.succ {m : Nat} (hpos : 0 < n) (hclient : client 0 = .took m)
    (h : Stalls (fun i => client (i + 1)) (n - min m (min n (2 ^ 31 - 1)))) : Stalls client n := by
  obtain ⟨k, hnone, hzeros⟩ := h
  refine ⟨k + 1, (accepted_succ_eq_none hpos hclient).2 hnone, fun i hi => ?_⟩
  obtain ⟨i, rfl⟩ := Nat.exists_eq_add_of_le' (Nat.lt_of_lt_of_le (Nat.succ_pos k) hi)
  exact hzeros i (by omega)

theorem accepted_one_ne_none {e : Nat} (hpos : 0 < n) (hclient : client 0 = .error e) :
    accepted n (firstAnswers client 1) ≠ none := by
  rw [firstAnswers, hclient, accepted_error hpos]
  exact nofun

theorem never_succ {m : Nat} (hpos : 0 < n) (hclient : client 0 = .took m)
    (h : ∀ k, accepted n (firstAnswers client k) = none) :
    0 < n - min m (min n (2 ^ 31 - 1)) ∧
      ∀ k, accepted (n - min m (min n (2 ^ 31 - 1))) (firstAnswers (fun i => client (i + 1)) k) =
        none := by
  have hnever := fun k => (accepted_succ_eq_none hpos hclient).1 (h (k + 1))
  exact ⟨pos_of_accepted_eq_none (hnever 0), hnever⟩

theorem stalls_of_never (h : ∀ k, accepted n (firstAnswers client k) = none) :
    Stalls client n := by
  have hpos := pos_of_accepted_eq_none (h 0)
  by_cases hall : ∀ i, client i = .took 0
  · exact ⟨0, h 0, fun i _ => hall i⟩
  obtain ⟨i, hi⟩ := not_forall.1 hall
  clear hall
  -- the induction is on the bytes that are left, and on the writes up to one that takes some
  induction n using Nat.strong_induction_on generalizing client i with
  | h n ihn =>
    induction i generalizing client with
    | zero =>
      cases ha : client 0 with
      | error e => exact absurd (h 1) (accepted_one_ne_none hpos ha)
      | took m =>
        have hm : 0 < m := by
          apply Nat.pos_of_ne_zero
          rintro rfl
          exact hi ha
        obtain ⟨hrest, hnever⟩ := never_succ hpos ha h
        apply Stalls.succ hpos ha
        by_cases hall : ∀ i, client (i + 1) = .took 0
        · exact ⟨0, hnever 0, fun i _ => hall i⟩
        obtain ⟨j, hj⟩ := not_forall.1 hall
        exact ihn _ (by omega) hnever hrest j hj
    | succ i ih =>
      cases ha : client 0 with
      | error e => exact absurd (h 1) (accepted_one_ne_none hpos ha)
      | took m =>
        obtain ⟨hrest, hnever⟩ := never_succ hpos ha h
        apply Stalls.succ hpos ha
        by_cases hless : n - min m (min n (2 ^ 31 - 1)) < n
        · exact ihn _ hless hnever hrest i hi
        · have hsame : n - min m (min n (2 ^ 31 - 1)) = n := by omega
          rw [hsame] at hnever ⊢
          exact ih hnever hi

theorem accepted_iff_not_stalls :
    (∃ k t, accepted n (firstAnswers client k) = some t) ↔ ¬ Stalls client n := by
  constructor
  · rintro ⟨k, t, ht⟩ ⟨k', hnone, hzeros⟩
    have hnever := accepted_of_zeros hnone hzeros k
    rw [accepted_mono ht (Nat.le_add_left k k')] at hnever
    cases hnever
  · intro hstalls
    by_contra hnever
    apply hstalls
    apply stalls_of_never
    intro k
    by_contra hsome
    obtain ⟨t, ht⟩ := Option.ne_none_iff_exists'.1 hsome
    exact hnever ⟨k, t, ht⟩

end Stalling

/-! ### Runs -/

/-- What the flush that a call makes has to deliver, if it makes one. -/
def pending (o : BufferedOutput) : Op → List UInt8
  | .write data =>
    if o.flush_limit_ > 0 && o.buf_.fullbytes + data.length > o.flush_limit_ then
      o.buf_.bytes ++ data
    else []
  | .flush => o.buf_.bytes
  | .setFlushLimit _ => []

/-- Among its first writes the client has failed, or reported the end of file. -/
def Ended (client : Nat → Acceptance) (k : Nat) : Prop :=
  ∃ i, i < k ∧ (client i = .took 0 ∨ ∃ e, client i = .error e)

/-- A call returns after finitely many writes of the client, and where it flushes that is with
    everything delivered or at the end of the client. -/
def Returns (B : Build) (o : BufferedOutput) (client : Nat → Acceptance) (call : Op) : Prop :=
  ∃ k r, call.run B o (firstAnswers client k) = .ok r ∧
    (pending o call = [] ∨ r.output.buf_.fullbytes = 0 ∨ Ended client k)

/-- The client does not stall on `n` bytes, and where the overflow of an `int` is undefined it
    takes fewer than 2^31 of them. -/
def Flushable (B : Build) (client : Nat → Acceptance) (n : Nat) : Prop :=
  ¬ Stalls client n ∧
    (B.wrapv = true ∨ ∀ k t, accepted n (firstAnswers client k) = some t → t < 2 ^ 31)

/-- After every run the stream is what has been taken and what is buffered, and every call
    returns. -/
def Delivers (B : Build) (limit : Nat) : Prop :=
  ∀ s, (system B limit).Reachable s →
    s.taken ++ s.output.buf_.bytes = s.written ∧
      ∀ client call, call ≠ .write [] → Returns B s.output client call

section Calls

variable {B : Build} {o : BufferedOutput} {client : Nat → Acceptance} {call : Op} {r : Output}

theorem flushable_zero : Flushable B client 0 := by
  refine ⟨?_, .inr fun k t ht => ?_⟩
  · rintro ⟨k, hnone, -⟩
    exact absurd (pos_of_accepted_eq_none hnone) (Nat.lt_irrefl 0)
  · rw [accepted_zero] at ht
    obtain rfl := Option.some.inj ht
    omega

theorem flush_returns_iff :
    (∃ k r, o.flush B (firstAnswers client k) = .ok r) ↔ Flushable B client o.buf_.fullbytes := by
  have hone : ∀ k, (∃ r, o.flush B (firstAnswers client k) = .ok r) ↔
      ∃ t, accepted o.buf_.fullbytes (firstAnswers client k) = some t ∧
        (B.wrapv = true ∨ (0 : Int) + t < 2 ^ 31) :=
    fun k => flushLoop_returns_iff fun _ => by omega
  rw [Flushable, ← accepted_iff_not_stalls]
  constructor
  · rintro ⟨k, hr⟩
    obtain ⟨t, ht, hfits⟩ := (hone k).1 hr
    refine ⟨⟨k, t, ht⟩, hfits.imp_right fun hlt k' t' ht' => ?_⟩
    -- what the client takes does not depend on how long it is watched
    have hmono := accepted_mono ht (Nat.le_max_left k k')
    rw [accepted_mono ht' (Nat.le_max_right k k')] at hmono
    obtain rfl := Option.some.inj hmono
    omega
  · rintro ⟨⟨k, t, ht⟩, hfits⟩
    obtain ⟨r, hr⟩ := (hone k).2 ⟨t, ht, hfits.imp_right fun hlt => by have := hlt k t ht; omega⟩
    exact ⟨k, r, hr⟩

theorem flush_ended {k : Nat} (h : o.flush B (firstAnswers client k) = .ok r) :
    r.output.buf_.fullbytes = 0 ∨ Ended client k := by
  obtain ⟨-, hwhy, -⟩ := flushLoop_ok h
  apply hwhy.imp_right
  rintro ⟨e, he⟩
  obtain ⟨i, hi, hclient⟩ := mem_firstAnswers.1 he
  exact ⟨i, hi, .inr ⟨e, hclient⟩⟩

theorem write_eq (B : Build) (o : BufferedOutput) {data : List UInt8} (hne : data ≠ []) :
    ∃ b, b.bytes = o.buf_.bytes ++ data ∧ ∀ answers,
      o.write B data data.length answers =
        flushOverLimit B { o with buf_ := b } (IntType.int.conv data.length) answers := by
  have hlength := mt List.eq_nil_of_length_eq_zero hne
  obtain ⟨b, hreserve, hbytes, hroom⟩ := o.buf_.reserve_spec data.length
  obtain ⟨b', hfill, hbytes'⟩ := StreamBuffer.fill_spec hroom
  refine ⟨b', by rw [hbytes', hbytes], fun answers => ?_⟩
  rw [write, if_neg hlength, pure_bind]
  dsimp only
  rw [hreserve, ok_bind, if_neg (Nat.lt_irrefl _), List.take_length]
  simp only [hfill, ok_bind]

theorem fullbytes_of_append {b : StreamBuffer} {data : List UInt8}
    (h : b.bytes = o.buf_.bytes ++ data) : b.fullbytes = o.buf_.fullbytes + data.length := by
  rw [← StreamBuffer.length_bytes, h, List.length_append, StreamBuffer.length_bytes]

theorem run_ok {answers : List Acceptance} (hne : call ≠ .write [])
    (h : call.run B o answers = .ok r) :
    r.taken ++ r.output.buf_.bytes = o.buf_.bytes ++ call.written := by
  cases call with
  | setFlushLimit limit =>
    obtain rfl := Except.ok.inj h
    exact (List.append_nil _).symm
  | flush => exact (flushLoop_ok h).1.trans (List.append_nil _).symm
  | write data =>
    have hdata : data ≠ [] := by
      rintro rfl
      exact hne rfl
    obtain ⟨b, hb, hwrite⟩ := write_eq B o hdata
    rw [Op.run, hwrite, flushOverLimit] at h
    dsimp only at h
    split at h
    · obtain ⟨r', hflush, h⟩ := bind_eq_ok.1 h
      obtain rfl := Except.ok.inj h
      exact (flushLoop_ok hflush).1.trans hb
    · obtain rfl := Except.ok.inj h
      exact hb

theorem returns_iff (hne : call ≠ .write []) :
    Returns B o client call ↔ Flushable B client (pending o call).length := by
  cases call with
  | setFlushLimit limit => exact iff_of_true ⟨0, _, rfl, .inl rfl⟩ flushable_zero
  | flush =>
    rw [pending, StreamBuffer.length_bytes, ← flush_returns_iff]
    constructor
    · rintro ⟨k, r, hr, -⟩
      exact ⟨k, r, hr⟩
    · rintro ⟨k, r, hr⟩
      exact ⟨k, r, hr, .inr (flush_ended hr)⟩
  | write data =>
    have hdata : data ≠ [] := by
      rintro rfl
      exact hne rfl
    obtain ⟨b, hb, hwrite⟩ := write_eq B o hdata
    have hfull := fullbytes_of_append hb
    by_cases hover : (o.flush_limit_ > 0 && b.fullbytes > o.flush_limit_) = true
    · have hpending : (pending o (.write data)).length = b.fullbytes := by
        rw [pending, ← hfull, if_pos hover, ← hb, StreamBuffer.length_bytes]
      rw [hpending, ← flush_returns_iff (o := { o with buf_ := b })]
      simp only [Returns, Op.run, hwrite, flushOverLimit, if_pos hover]
      constructor
      · rintro ⟨k, r, hr, -⟩
        obtain ⟨r', hflush, -⟩ := bind_eq_ok.1 hr
        exact ⟨k, r', hflush⟩
      · rintro ⟨k, r, hflush⟩
        have hended : r.output.buf_.fullbytes = 0 ∨ Ended client k := flush_ended hflush
        exact ⟨k, { r with ret := IntType.int.conv data.length },
          bind_eq_ok.2 ⟨r, hflush, rfl⟩, .inr hended⟩
    · have hpending : pending o (.write data) = [] := by rw [pending, ← hfull, if_neg hover]
      rw [hpending]
      have hkept : flushOverLimit B { o with buf_ := b } (IntType.int.conv data.length)
          (firstAnswers client 0) =
          .ok { ret := IntType.int.conv data.length, output := { o with buf_ := b },
                taken := [] } := by
        rw [flushOverLimit, if_neg hover]
        rfl
      exact iff_of_true ⟨0, _, (hwrite _).trans hkept, .inl hpending⟩ flushable_zero

theorem stream_of_reachable {limit : Nat} {s : State} (h : (system B limit).Reachable s) :
    s.taken ++ s.output.buf_.bytes = s.written := by
  refine h.invariant (P := fun s => s.taken ++ s.output.buf_.bytes = s.written) ?_ ?_
  · rintro s rfl
    simp [new, setFlushLimit]
  · rintro s a s' hs - ⟨hne, r, hr, rfl⟩
    dsimp only
    rw [List.append_assoc, run_ok hne hr, ← List.append_assoc, hs]

/-- After every run the stream is what has been taken and what is buffered, and a call returns
    exactly where the client does not stall on what is to be flushed, and where what it takes is
    an `int`. -/
theorem delivers_iff_flushable {limit : Nat} {s : State} (h : (system B limit).Reachable s) :
    s.taken ++ s.output.buf_.bytes = s.written ∧
      ∀ client call, call ≠ .write [] →
        (Returns B s.output client call ↔
          Flushable B client (pending s.output call).length) :=
  ⟨stream_of_reachable h, fun _ _ hne => returns_iff hne⟩

/-- Three bytes over a limit of two: the client takes one, nothing, and one more, and fails. -/
theorem delivers_iff_flushable_short_writes :
    ∃ s, (system ⟨true, false⟩ 2).Reachable s ∧ s.taken = [1, 2] ∧ s.written = [1, 2, 3] ∧
      s.taken ++ s.output.buf_.bytes = s.written ∧
      ∀ client call, call ≠ .write [] →
        (Returns ⟨true, false⟩ s.output client call ↔
          Flushable ⟨true, false⟩ client (pending s.output call).length) := by
  have hrun : ((Op.write [1, 2, 3]).run ⟨true, false⟩ (new.setFlushLimit 2)
      [.took 1, .took 0, .took 1, .error 4]).toOption.map Output.taken = some [1, 2] := by
    decide +kernel
  cases hwrite : (Op.write [1, 2, 3]).run ⟨true, false⟩ (new.setFlushLimit 2)
      [.took 1, .took 0, .took 1, .error 4] with
  | error f =>
    rw [hwrite] at hrun
    cases hrun
  | ok r =>
    rw [hwrite] at hrun
    have hreached : (system ⟨true, false⟩ 2).Reachable _ :=
      .step (a := (.write [1, 2, 3], _)) (.init rfl) trivial ⟨by decide, r, hwrite, rfl⟩
    exact ⟨_, hreached, Option.some.inj hrun, rfl, delivers_iff_flushable hreached⟩

/-- The client reports the end of file to every write, and `flush` never returns. -/
theorem not_delivers : ¬ Delivers ⟨true, false⟩ 256 := by
  intro h
  have hrun : ((Op.write [1]).run ⟨true, false⟩ (new.setFlushLimit 256) []).toOption.map
      (·.output.buf_.fullbytes) = some 1 := by
    decide +kernel
  cases hwrite : (Op.write [1]).run ⟨true, false⟩ (new.setFlushLimit 256) [] with
  | error f =>
    rw [hwrite] at hrun
    cases hrun
  | ok r =>
    rw [hwrite] at hrun
    have hone : r.output.buf_.fullbytes = 1 := Option.some.inj hrun
    have hreached : (system ⟨true, false⟩ 256).Reachable _ :=
      .step (a := (.write [1], [])) (.init rfl) trivial ⟨by decide, r, hwrite, rfl⟩
    have hreturns := (h _ hreached).2 (fun _ => .took 0) .flush (by decide)
    obtain ⟨hstalls, -⟩ := (returns_iff (by decide)).1 hreturns
    apply hstalls
    rw [pending, StreamBuffer.length_bytes, hone]
    exact ⟨0, rfl, fun _ _ => rfl⟩

end Calls

/-! ### Formatted output -/

section Memory

variable {b : StreamBuffer} {mem : List UInt8} {n : Nat}

def back (b : StreamBuffer) : List UInt8 := b.buf_.drop b.end_

theorem length_front (b : StreamBuffer) : (front b).length = b.end_ := by
  rw [front, List.length_take, Nat.min_eq_left b.end_le]

theorem store_spec (h : mem.length ≤ b.tailbytes) :
    ∃ b', store b (front b ++ mem) = .ok b' ∧ b'.bytes = b.bytes ∧
      b'.tailbytes = b.tailbytes ∧ (back b').take mem.length = mem := by
  have hend := b.end_le
  have hlength : (front b ++ mem).length = b.end_ + mem.length := by
    rw [List.length_append, length_front]
  have hfits : (front b ++ mem).length ≤ b.buf_.length := by
    simp only [StreamBuffer.tailbytes, StreamBuffer.size_] at h
    omega
  have htake : (b.buf_.take b.end_).drop b.start_ = b.bytes := by
    rw [List.drop_take, StreamBuffer.bytes, StreamBuffer.fullbytes]
  rw [store, dif_pos hfits]
  refine ⟨_, rfl, ?_, ?_, ?_⟩
  · simp only [StreamBuffer.bytes, StreamBuffer.fullbytes]
    rw [← List.drop_take, ← List.drop_take, List.append_assoc,
      List.take_append_of_le_length (by rw [length_front]),
      List.take_of_length_le (by rw [length_front])]
    rfl
  · simp only [StreamBuffer.tailbytes, StreamBuffer.size_, List.length_append, List.length_drop,
      length_front] at hfits ⊢
    omega
  · simp only [back]
    rw [List.append_assoc, List.drop_append_of_le_length (by rw [length_front]),
      List.drop_of_length_le (by rw [length_front]), List.nil_append, List.take_left]

theorem fillLen_spec (h : n ≤ b.tailbytes) :
    ∃ b', fillLen b n = .ok b' ∧ b'.bytes = b.bytes ++ (back b).take n := by
  have hback : (back b).length = b.tailbytes := by
    rw [back, List.length_drop, StreamBuffer.tailbytes, StreamBuffer.size_]
  have hlength : ((back b).take n).length ≤ b.tailbytes := by
    rw [List.length_take]
    omega
  obtain ⟨b', hfill, hbytes⟩ := StreamBuffer.fill_spec hlength
  refine ⟨b', ?_, hbytes⟩
  rw [fillLen, decide_eq_true (by omega), decide_eq_true (by omega)]
  exact hfill

theorem fillLen_ok {len : Int} {b' : StreamBuffer} (h : fillLen b len = .ok b') :
    0 ≤ len ∧ len ≤ b.tailbytes := by
  rw [fillLen] at h
  obtain ⟨hpos, h⟩ := assert_bind_eq_ok.1 h
  obtain ⟨hroom, -⟩ := assert_bind_eq_ok.1 h
  exact ⟨of_decide_eq_true hpos, of_decide_eq_true hroom⟩

end Memory

/-- The `size_t` that an `int` is converted to. -/
def strsz (nfree : Int) : Nat := (IntType.u64.conv nfree).toNat

/-- The text that has no room for its terminator is formatted again, with the terminator in
    place of its last character, and is right nevertheless. -/
def Agrees (fmt again : List Conversion) : Prop :=
  Conversion.Fits ((Conversion.expandAll fmt).length - 1) [] again ∧
    (Conversion.expandAll again).length = (Conversion.expandAll fmt).length ∧
    (Conversion.expandAll again).take ((Conversion.expandAll fmt).length - 1) ++ [0] =
      Conversion.expandAll fmt

/-- There is room for the text and its terminator. -/
def Room (b : StreamBuffer) (fmt again : List Conversion) : Prop :=
  strsz (IntType.int.conv b.tailbytes) ≠ 0 ∧
    Conversion.Fits (strsz (IntType.int.conv b.tailbytes) - 1) [] fmt ∧
    ((Conversion.expandAll fmt).length < IntType.int.conv b.tailbytes ∨ Agrees fmt again)

section Formatting

variable {b : StreamBuffer} {fmt again : List Conversion} {nfree : Int}

theorem logVsnprintfEnd_spec (hpos : 0 < strsz nfree)
    (hfits : Conversion.Fits (strsz nfree - 1) [] fmt)
    (hroom : min (Conversion.expandAll fmt).length (strsz nfree - 1) + 1 ≤ b.tailbytes) :
    ∃ b', logVsnprintfEnd b nfree fmt = .ok (b', (Conversion.expandAll fmt).length) ∧
      b'.bytes = b.bytes ∧ b'.tailbytes = b.tailbytes ∧
      (back b').take (min (Conversion.expandAll fmt).length (strsz nfree - 1) + 1) =
        (Conversion.expandAll fmt).take (strsz nfree - 1) ++ [0] := by
  have hlength : ((Conversion.expandAll fmt).take (strsz nfree - 1) ++ [0]).length =
      min (Conversion.expandAll fmt).length (strsz nfree - 1) + 1 := by
    rw [List.length_append, List.length_take, Nat.min_comm]
    rfl
  rw [← hlength] at hroom ⊢
  obtain ⟨b', hstore, hbytes, htail, htake⟩ := store_spec hroom
  have hprint := logVsnprintf_eq (front b) hpos hfits
  rw [List.append_assoc] at hprint
  refine ⟨b', ?_, hbytes, htail, htake⟩
  rw [logVsnprintfEnd, show (IntType.u64.conv nfree).toNat = strsz nfree from rfl, hprint, ok_bind]
  dsimp only
  rw [hstore, ok_bind]
  rfl

theorem logVsnprintfEnd_fails
    (h : strsz nfree = 0 ∨ Conversion.Overflows (strsz nfree - 1) fmt) {b' : StreamBuffer}
    {len : Int} (hok : logVsnprintfEnd b nfree fmt = .ok (b', len)) : len = -1 := by
  have hprint : ∃ mem, logVsnprintf (front b) (strsz nfree) fmt = .ok (mem, -1) := by
    rcases h with hzero | hlong
    · rw [logVsnprintf, if_pos hzero]
      exact ⟨_, rfl⟩
    · exact logVsnprintf_overflows _ hlong
  obtain ⟨mem, hprint⟩ := hprint
  rw [logVsnprintfEnd, show (IntType.u64.conv nfree).toNat = strsz nfree from rfl, hprint,
    ok_bind] at hok
  obtain ⟨b'', -, hok⟩ := bind_eq_ok.1 hok
  exact (Prod.mk.inj (Except.ok.inj hok)).2.symm

theorem conv_spec (n : Nat) :
    (0 ≤ IntType.int.conv n ∧ IntType.int.conv n ≤ n ∧
      strsz (IntType.int.conv n) = (IntType.int.conv n).toNat) ∨
    (IntType.int.conv n < 0 ∧ 2 ^ 31 ≤ n ∧ 2 ^ 31 < strsz (IntType.int.conv n)) := by
  have hconv := IntType.int_conv n
  have hwide := IntType.u64_conv (IntType.int.conv n)
  unfold strsz
  generalize IntType.u64.conv (IntType.int.conv n) = wide at *
  generalize IntType.int.conv n = c at *
  omega

/-- `reserve`, and the second formatting: it has no room for the terminator. -/
def formatAgain (b : StreamBuffer) (again : List Conversion) (len : Int) :
    Except Fault (StreamBuffer × Int) := do
  let b ← b.reserve (IntType.u64.conv len).toNat
  let nfree := len
  let (b, len) ← logVsnprintfEnd b nfree again
  assert (len ≤ nfree)
  let b ← fillLen b len
  pure (b, len)

/-- The formatting of `vformat_buf`, without the flush. -/
def formatInto (b : StreamBuffer) (fmt again : List Conversion) :
    Except Fault (StreamBuffer × Int) := do
  let nfree := IntType.int.conv b.tailbytes
  let (b, len) ← logVsnprintfEnd b nfree fmt
  assert (len ≠ -1)
  if len ≥ nfree then formatAgain b again len
  else do
    let b ← fillLen b len
    pure (b, len)

theorem vformatBuf_eq (B : Build) (o : BufferedOutput) (fmt again : List Conversion)
    (answers : List Acceptance) :
    o.vformatBuf B fmt again answers = (do
      let (buf_, len) ← formatInto o.buf_ fmt again
      flushOverLimit B { o with buf_ } len answers) := by
  simp only [vformatBuf, formatInto, formatAgain, bind_assoc, pure_bind]
  apply bind_congr
  intro x
  apply bind_congr
  intro _
  split <;> simp only [bind_assoc, pure_bind]

theorem formatAgain_iff (hscan : Conversion.Scanned ((Conversion.expandAll fmt).length - 1) again)
    (hshort : (Conversion.expandAll fmt).length < 2 ^ 31) :
    (∃ b', formatAgain b again (Conversion.expandAll fmt).length =
        .ok (b', (Conversion.expandAll fmt).length) ∧
      b'.bytes = b.bytes ++ Conversion.expandAll fmt) ↔ Agrees fmt again := by
  have hstrsz : strsz (Conversion.expandAll fmt).length = (Conversion.expandAll fmt).length := by
    rw [strsz, IntType.u64_conv]
    omega
  unfold Agrees
  generalize Conversion.expandAll fmt = text at *
  obtain ⟨b₁, hreserve, hbytes₁, hroom₁⟩ := b.reserve_spec text.length
  have hagain : formatAgain b again text.length = (do
      let (b', len) ← logVsnprintfEnd b₁ text.length again
      assert (len ≤ (text.length : Int))
      let b' ← fillLen b' len
      pure (b', len)) := by
    rw [formatAgain, show (IntType.u64.conv text.length).toNat = text.length from hstrsz, hreserve,
      ok_bind]
  rw [hagain]
  by_cases hfails : strsz text.length = 0 ∨ Conversion.Overflows (strsz text.length - 1) again
  · -- a length of -1 is filled
    refine iff_of_false ?_ ?_
    · rintro ⟨b', hok, -⟩
      obtain ⟨⟨b₂, len⟩, hprint, hok⟩ := bind_eq_ok.1 hok
      obtain rfl := logVsnprintfEnd_fails hfails hprint
      obtain ⟨-, hok⟩ := assert_bind_eq_ok.1 hok
      obtain ⟨b₃, hfill, -⟩ := bind_eq_ok.1 hok
      have hneg := (fillLen_ok hfill).1
      omega
    · rintro ⟨hfits, -, hlast⟩
      rw [hstrsz] at hfails
      rcases hfails with hzero | hlong
      · rw [List.eq_nil_of_length_eq_zero hzero] at hlast
        simp at hlast
      · exact hlong.not_fits hfits
  · obtain ⟨hne, hlong⟩ := not_or.1 hfails
    rw [hstrsz] at hne hlong
    have hfits := hscan.resolve_right hlong
    have hpos : 0 < text.length := Nat.pos_of_ne_zero hne
    have hsize : 0 < strsz text.length := by omega
    obtain ⟨b₂, hprint, hbytes₂, htail₂, htake⟩ :=
      logVsnprintfEnd_spec (b := b₁) hsize (by rwa [hstrsz]) (by rw [hstrsz]; omega)
    rw [hstrsz] at htake
    rw [hprint, ok_bind]
    dsimp only
    generalize Conversion.expandAll again = text' at *
    by_cases hle : text'.length ≤ text.length
    · obtain ⟨b₃, hfill, hbytes₃⟩ := fillLen_spec (b := b₂) (n := text'.length) (by omega)
      rw [decide_eq_true (by omega), assert_true, ok_bind, hfill, ok_bind]
      constructor
      · rintro ⟨b', hok, hbytes⟩
        obtain ⟨rfl, hlen⟩ := Prod.mk.inj (Except.ok.inj hok)
        have hlen : text'.length = text.length := by omega
        rw [hbytes₃, hbytes₂, hbytes₁, List.append_right_inj] at hbytes
        refine ⟨hfits, hlen, ?_⟩
        refine (htake.symm.trans ?_).trans hbytes
        congr 1
        omega
      · rintro ⟨-, hlen, hlast⟩
        refine ⟨b₃, by rw [hlen]; rfl, ?_⟩
        rw [hbytes₃, hbytes₂, hbytes₁, List.append_right_inj]
        refine Eq.trans ?_ (htake.trans hlast)
        congr 1
        omega
    · refine iff_of_false ?_ ?_
      · rintro ⟨b', hok, -⟩
        have := (assert_bind_eq_ok.1 hok).1
        simp only [decide_eq_true_eq] at this
        omega
      · rintro ⟨-, hlen, -⟩
        omega

theorem formatInto_iff
    (hscan : strsz (IntType.int.conv b.tailbytes) ≠ 0 →
      Conversion.Scanned (strsz (IntType.int.conv b.tailbytes) - 1) fmt)
    (hagain : IntType.int.conv b.tailbytes ≤ (Conversion.expandAll fmt).length →
      Conversion.Scanned ((Conversion.expandAll fmt).length - 1) again) :
    (∃ b', formatInto b fmt again = .ok (b', (Conversion.expandAll fmt).length) ∧
      b'.bytes = b.bytes ++ Conversion.expandAll fmt) ↔ Room b fmt again := by
  rw [formatInto, Room]
  have hconv := conv_spec b.tailbytes
  generalize IntType.int.conv b.tailbytes = nfree at *
  by_cases hfails : strsz nfree = 0 ∨ Conversion.Overflows (strsz nfree - 1) fmt
  · -- the first formatting fails, and so does the assertion on it
    refine iff_of_false ?_ ?_
    · rintro ⟨b', hok, -⟩
      obtain ⟨⟨b₁, len⟩, hprint, hok⟩ := bind_eq_ok.1 hok
      obtain rfl := logVsnprintfEnd_fails hfails hprint
      exact absurd (assert_bind_eq_ok.1 hok).1 (by decide)
    · rintro ⟨hne, hfits, -⟩
      rcases hfails with hzero | hlong
      · exact hne hzero
      · exact hlong.not_fits hfits
  · obtain ⟨hne, hlong⟩ := not_or.1 hfails
    have hfits := (hscan hne).resolve_right hlong
    have hshort : (Conversion.expandAll fmt).length < 2 ^ 31 := hfits.length_lt (by simp)
    obtain ⟨b₁, hprint, hbytes₁, htail₁, htake⟩ :=
      logVsnprintfEnd_spec (b := b) (Nat.pos_of_ne_zero hne) hfits (by omega)
    rw [hprint, ok_bind]
    dsimp only
    rw [decide_eq_true (by omega), assert_true, ok_bind]
    by_cases hless : (Conversion.expandAll fmt).length < nfree
    · rw [if_neg (by omega)]
      refine iff_of_true ?_ ⟨hne, hfits, .inl hless⟩
      obtain ⟨b₂, hfill, hbytes₂⟩ :=
        fillLen_spec (b := b₁) (n := (Conversion.expandAll fmt).length) (by omega)
      rw [hfill]
      refine ⟨b₂, rfl, ?_⟩
      have htext := congrArg (List.take (Conversion.expandAll fmt).length) htake
      rw [List.take_take, Nat.min_eq_left (by omega),
        List.take_of_length_le (by omega : _ ≤ strsz nfree - 1), List.take_left] at htext
      rw [hbytes₂, hbytes₁, htext]
    · rw [if_pos (by omega)]
      have hiff := formatAgain_iff (b := b₁) (hagain (by omega)) hshort
      rw [hbytes₁] at hiff
      rw [hiff]
      constructor
      · intro hagrees
        exact ⟨hne, hfits, .inr hagrees⟩
      · rintro ⟨-, -, hroom⟩
        exact hroom.resolve_left hless

end Formatting

/-- A call has added exactly a text to the stream, and returned its length. -/
structure Appends (o : BufferedOutput) (text : List UInt8) (r : Output) : Prop where
  stream : r.taken ++ r.output.buf_.bytes = o.buf_.bytes ++ text
  ret : r.ret = text.length

/-- A call, given so many answers of its clients, returns and adds exactly a text. -/
def Exact (o : BufferedOutput) (text : List UInt8) (call : Nat → Nat → Except Fault Output) :
    Prop :=
  ∃ k k' r, call k k' = .ok r ∧ Appends o text r

/-- The flush at the end of a call returns, if there is one, with `n` bytes in the buffer. -/
def Flushes (B : Build) (limit : Nat) (client : Nat → Acceptance) (n : Nat) : Prop :=
  (limit > 0 && n > limit) = true → Flushable B client n

/-- What that flush leaves in the buffer can be flushed. -/
def FlushesRest (B : Build) (limit : Nat) (client client' : Nat → Acceptance) (n : Nat) : Prop :=
  if (limit > 0 && n > limit) = true then
    ∀ k t, accepted n (firstAnswers client k) = some t → Flushable B client' (n - t)
  else Flushable B client' n

section Exactness

variable {B : Build} {o : BufferedOutput} {client client' : Nat → Acceptance} {ret : Int}
  {r : Output} {fmt again : List Conversion}

theorem flushOverLimit_ok {answers : List Acceptance}
    (h : flushOverLimit B o ret answers = .ok r) :
    r.taken ++ r.output.buf_.bytes = o.buf_.bytes ∧ r.ret = ret := by
  rw [flushOverLimit] at h
  split at h
  · obtain ⟨r', hflush, h⟩ := bind_eq_ok.1 h
    obtain rfl := Except.ok.inj h
    exact ⟨(flushLoop_ok hflush).1, rfl⟩
  · obtain rfl := Except.ok.inj h
    exact ⟨rfl, rfl⟩

theorem flushOverLimit_returns_iff :
    (∃ k r, flushOverLimit B o ret (firstAnswers client k) = .ok r) ↔
      Flushes B o.flush_limit_ client o.buf_.fullbytes := by
  rw [Flushes]
  by_cases hover : (o.flush_limit_ > 0 && o.buf_.fullbytes > o.flush_limit_) = true
  · simp only [flushOverLimit, if_pos hover]
    rw [← flush_returns_iff]
    constructor
    · rintro ⟨k, r, hr⟩ -
      obtain ⟨r', hflush, -⟩ := bind_eq_ok.1 hr
      exact ⟨k, r', hflush⟩
    · intro h
      obtain ⟨k, r, hflush⟩ := h hover
      exact ⟨k, _, bind_eq_ok.2 ⟨r, hflush, rfl⟩⟩
  · simp only [flushOverLimit, if_neg hover]
    exact iff_of_true ⟨0, _, rfl⟩ fun h => absurd h hover

theorem flushesRest_iff {k : Nat}
    (h : flushOverLimit B o ret (firstAnswers client k) = .ok r) :
    FlushesRest B o.flush_limit_ client client' o.buf_.fullbytes ↔
      Flushable B client' r.output.buf_.fullbytes := by
  have hbytes := congrArg List.length (flushOverLimit_ok h).1
  rw [List.length_append, StreamBuffer.length_bytes, StreamBuffer.length_bytes] at hbytes
  rw [flushOverLimit] at h
  rw [FlushesRest]
  split at h
  · rename_i hover
    obtain ⟨r', hflush, h⟩ := bind_eq_ok.1 h
    obtain rfl := Except.ok.inj h
    have haccepted := flushLoop_accepted hflush
    rw [if_pos hover]
    dsimp only at hbytes ⊢
    have hrest : o.buf_.fullbytes - r'.taken.length = r'.output.buf_.fullbytes := by omega
    constructor
    · intro hall
      have hflushable := hall k _ haccepted
      rwa [hrest] at hflushable
    · intro hflushable k' t ht
      have hmono := accepted_mono haccepted (Nat.le_max_left k k')
      rw [accepted_mono ht (Nat.le_max_right k k')] at hmono
      obtain rfl := Option.some.inj hmono
      rwa [hrest]
  · rename_i hover
    obtain rfl := Except.ok.inj h
    rw [if_neg hover]

theorem vformatBuf_iff
    (hscan : strsz (IntType.int.conv o.buf_.tailbytes) ≠ 0 →
      Conversion.Scanned (strsz (IntType.int.conv o.buf_.tailbytes) - 1) fmt)
    (hagain : IntType.int.conv o.buf_.tailbytes ≤ (Conversion.expandAll fmt).length →
      Conversion.Scanned ((Conversion.expandAll fmt).length - 1) again) :
    Exact o (Conversion.expandAll fmt) (fun k _ =>
        o.vformatBuf B fmt again (firstAnswers client k)) ↔
      Room o.buf_ fmt again ∧ Flushes B o.flush_limit_ client
        (o.buf_.fullbytes + (Conversion.expandAll fmt).length) := by
  simp only [Exact, vformatBuf_eq, ← formatInto_iff hscan hagain]
  constructor
  · rintro ⟨k, -, r, hok, hstream, hret⟩
    obtain ⟨⟨b, len⟩, hformat, hflush⟩ := bind_eq_ok.1 hok
    obtain ⟨hkept, hlen⟩ := flushOverLimit_ok hflush
    obtain rfl := hlen.symm.trans hret
    have hbytes : b.bytes = _ := hkept.symm.trans hstream
    refine ⟨⟨b, hformat, hbytes⟩, ?_⟩
    rw [← fullbytes_of_append hbytes]
    exact (flushOverLimit_returns_iff (o := { o with buf_ := b })).1 ⟨k, r, hflush⟩
  · rintro ⟨⟨b, hformat, hbytes⟩, hflushes⟩
    rw [← fullbytes_of_append hbytes] at hflushes
    have hreturns : ∃ k r, flushOverLimit B { o with buf_ := b } (Conversion.expandAll fmt).length
        (firstAnswers client k) = .ok r := flushOverLimit_returns_iff.2 hflushes
    obtain ⟨k, r, hflush⟩ := hreturns
    obtain ⟨hkept, hlen⟩ := flushOverLimit_ok hflush
    exact ⟨k, 0, r, bind_eq_ok.2 ⟨_, hformat, hflush⟩, hkept.trans hbytes, hlen⟩

theorem vformatBuf_rest {k : Nat} (hok : o.vformatBuf B fmt again (firstAnswers client k) = .ok r)
    (h : Appends o (Conversion.expandAll fmt) r) :
    FlushesRest B o.flush_limit_ client client'
        (o.buf_.fullbytes + (Conversion.expandAll fmt).length) ↔
      Flushable B client' r.output.buf_.fullbytes := by
  rw [vformatBuf_eq] at hok
  obtain ⟨⟨b, len⟩, hformat, hflush⟩ := bind_eq_ok.1 hok
  have hbytes : b.bytes = _ := (flushOverLimit_ok hflush).1.symm.trans h.stream
  rw [← fullbytes_of_append hbytes]
  exact flushesRest_iff (o := { o with buf_ := b }) hflush

/-- What `vformat_buf`, `format_buf` and `printf` add to the stream and return is exactly the text
    where there is room for it and for its terminator, and the flushes return. -/
theorem formats_iff_room
    (hscan : strsz (IntType.int.conv o.buf_.tailbytes) ≠ 0 →
      Conversion.Scanned (strsz (IntType.int.conv o.buf_.tailbytes) - 1) fmt)
    (hagain : IntType.int.conv o.buf_.tailbytes ≤ (Conversion.expandAll fmt).length →
      Conversion.Scanned ((Conversion.expandAll fmt).length - 1) again) :
    (Exact o (Conversion.expandAll fmt) (fun k _ =>
        o.vformatBuf B fmt again (firstAnswers client k)) ↔
      Room o.buf_ fmt again ∧ Flushes B o.flush_limit_ client
        (o.buf_.fullbytes + (Conversion.expandAll fmt).length)) ∧
    (Exact o (Conversion.expandAll fmt) (fun k _ =>
        o.formatBuf B fmt again (firstAnswers client k)) ↔
      Room o.buf_ fmt again ∧ Flushes B o.flush_limit_ client
        (o.buf_.fullbytes + (Conversion.expandAll fmt).length)) ∧
    (Exact o (Conversion.expandAll fmt) (fun k k' =>
        o.printf B fmt again (firstAnswers client k) (firstAnswers client' k')) ↔
      Room o.buf_ fmt again ∧
        Flushes B o.flush_limit_ client (o.buf_.fullbytes + (Conversion.expandAll fmt).length) ∧
        FlushesRest B o.flush_limit_ client client'
          (o.buf_.fullbytes + (Conversion.expandAll fmt).length)) := by
  have hvformat : Exact o (Conversion.expandAll fmt) (fun k _ =>
      o.vformatBuf B fmt again (firstAnswers client k)) ↔ _ := vformatBuf_iff hscan hagain
  refine ⟨hvformat, hvformat, ?_⟩
  rw [← and_assoc, ← hvformat]
  constructor
  · rintro ⟨k, k', r, hok, hstream, hret⟩
    obtain ⟨r₁, hfirst, hok⟩ := bind_eq_ok.1 hok
    obtain ⟨r₂, hsecond, hok⟩ := bind_eq_ok.1 hok
    obtain rfl := Except.ok.inj hok
    have happends : Appends o (Conversion.expandAll fmt) r₁ := by
      refine ⟨?_, hret⟩
      rw [← hstream, ← (flushLoop_ok hsecond).1]
      exact (List.append_assoc _ _ _).symm
    exact ⟨⟨k, 0, r₁, hfirst, happends⟩,
      (vformatBuf_rest hfirst happends).2 (flush_returns_iff.1 ⟨k', r₂, hsecond⟩)⟩
  · rintro ⟨⟨k, _, r₁, hfirst, happends⟩, hrest⟩
    obtain ⟨k', r₂, hsecond⟩ := flush_returns_iff.2 ((vformatBuf_rest hfirst happends).1 hrest)
    refine ⟨k, k', _, bind_eq_ok.2 ⟨r₁, hfirst, bind_eq_ok.2 ⟨r₂, hsecond, rfl⟩⟩, ?_, happends.ret⟩
    dsimp only
    rw [List.append_assoc, (flushLoop_ok hsecond).1, happends.stream]

theorem tailbytes_new : IntType.int.conv new.buf_.tailbytes = 1024 := by
  have htail : ∀ size, (StreamBuffer.new size).tailbytes = if size = 0 then 4 else size := by
    intro size
    simp only [StreamBuffer.tailbytes, StreamBuffer.size_, StreamBuffer.new,
      List.length_replicate, Nat.sub_zero]
  rw [new, htail, if_neg (by decide)]
  exact IntType.int_conv_of_lt (by decide)

/-- `printf` of two characters, with a client that takes one byte at a time. -/
theorem formats_iff_room_short :
    Exact new [104, 105] fun k k' => new.printf ⟨true, false⟩ [.printed [104, 105]] []
      (firstAnswers (fun _ => .took 1) k) (firstAnswers (fun _ => .took 1) k') := by
  have hstrsz : strsz 1024 = 1024 := by decide
  have hfits : Conversion.Fits 1023 [] [.printed [104, 105]] := ⟨nofun, by decide, trivial⟩
  have hroom : Room new.buf_ [.printed [104, 105]] [] := by
    rw [Room, tailbytes_new, hstrsz]
    exact ⟨by decide, hfits, .inl (by decide)⟩
  have hflushable : Flushable ⟨true, false⟩ (fun _ => .took 1) 2 :=
    ⟨accepted_iff_not_stalls.1 ⟨2, 2, rfl⟩, .inl rfl⟩
  have hscan : strsz (IntType.int.conv new.buf_.tailbytes) ≠ 0 →
      Conversion.Scanned (strsz (IntType.int.conv new.buf_.tailbytes) - 1)
        [.printed [104, 105]] := by
    rw [tailbytes_new, hstrsz]
    exact fun _ => .inl hfits
  have hagain : IntType.int.conv new.buf_.tailbytes ≤
      (Conversion.expandAll [.printed [104, 105]]).length →
      Conversion.Scanned ((Conversion.expandAll [.printed [104, 105]]).length - 1) [] :=
    fun _ => .inl trivial
  exact (formats_iff_room hscan hagain).2.2.2 ⟨hroom, nofun, hflushable⟩

/-- A text that fits but for its terminator: its last character is lost. -/
theorem not_formats_exact_fit :
    ¬ Exact new (List.replicate 1024 120) fun k _ =>
      new.formatBuf ⟨true, false⟩ [.printed (List.replicate 1024 120)]
        [.printed (List.replicate 1024 120)] (firstAnswers (fun _ => .took 1024) k) := by
  have hexpand : Conversion.expandAll [.printed (List.replicate 1024 120)] =
      List.replicate 1024 120 := rfl
  have hprinted : ∀ c ∈ [Conversion.printed (List.replicate 1024 120)],
      Conversion.IsPrinted c := by
    intro c hc
    exact ⟨_, List.mem_singleton.1 hc⟩
  intro hexact
  obtain ⟨⟨-, -, hroom⟩, -⟩ :=
    (vformatBuf_iff (fun _ => Conversion.scanned_of_printed hprinted)
      fun _ => Conversion.scanned_of_printed hprinted).1 hexact
  rw [hexpand, tailbytes_new, List.length_replicate] at hroom
  rcases hroom with hless | ⟨-, -, hlast⟩
  · exact absurd hless (by omega)
  · rw [hexpand] at hlast
    have hget := congrArg List.getLast? hlast
    rw [List.getLast?_concat, List.getLast?_replicate] at hget
    exact absurd hget (by decide)

end Exactness

end Oasys.Io.BufferedOutput
