import Oasys.ForStd.Transition
import Oasys.Io.BufferedInput
import Oasys.Spec.StreamBufferCorrect
import Mathlib.Data.List.Infix

/-!
# BufferedInput preserves the stream

What has been returned, followed by what is in the buffer, is what the client has delivered,
however it is cut into chunks: each member takes bytes only from the front of the buffer, and
`internal_read` adds the bytes of one chunk at its end. `FirstAt` says where a line ends.

The members keep their counts in an `int`. `Careful` keeps what is unread below `2 ^ 31`
bytes, and a terminator from being empty.
-/

namespace Oasys.Io

/-! ### Where a line ends -/

/-- The first occurrence of the terminator is `k` bytes on. -/
def FirstAt (nl rest : List UInt8) (k : Nat) : Prop :=
  nl <+: rest.drop k ∧ ∀ j < k, ¬ nl <+: rest.drop j

/-- The bytes up to and including the first terminator. -/
def IsLine (nl rest out : List UInt8) : Prop :=
  ∃ k, FirstAt nl rest k ∧ out = rest.take (k + nl.length)

def NoLine (nl rest : List UInt8) : Prop := ∀ k, ¬ nl <+: rest.drop k

section Lines

variable {nl rest : List UInt8} {c : UInt8} {k : Nat}

theorem FirstAt.cons (h : FirstAt nl rest k) (hne : ¬ nl <+: c :: rest) :
    FirstAt nl (c :: rest) (k + 1) := by
  refine ⟨h.1, fun j hj => ?_⟩
  cases j with
  | zero => exact hne
  | succ j => exact h.2 j (by omega)

theorem NoLine.cons (h : NoLine nl rest) (hne : ¬ nl <+: c :: rest) : NoLine nl (c :: rest) := by
  intro j
  cases j with
  | zero => exact hne
  | succ j => exact h j

theorem noLine_of_length (h : rest.length < nl.length) : NoLine nl rest := by
  intro j hprefix
  have hlength := hprefix.length_le
  rw [List.length_drop] at hlength
  omega

theorem FirstAt.length_le (h : FirstAt nl rest k) : k + nl.length ≤ rest.length ∨ nl = [] := by
  have hlength := h.1.length_le
  rw [List.length_drop] at hlength
  by_cases hk : k ≤ rest.length
  · omega
  · right
    exact List.eq_nil_of_length_eq_zero (by omega)

/-- The loop of `find_nl` finds the first terminator, if the offsets fit an `int`. -/
theorem findNlLoop_spec (hnl : nl ≠ []) {rest : List UInt8} : ∀ {offset : Nat},
    offset + rest.length < 2 ^ 31 →
    (BufferedInput.findNlLoop nl offset rest = -1 ∧ NoLine nl rest) ∨
      ∃ k, BufferedInput.findNlLoop nl offset rest = ((offset + k : Nat) : Int) ∧
        FirstAt nl rest k := by
  -- the induction is on the bytes that are left
  induction rest with
  | nil =>
    intro offset _
    refine .inl ⟨rfl, noLine_of_length ?_⟩
    simpa using List.length_pos_iff.2 hnl
  | cons c rest ih =>
    intro offset hfits
    rw [List.length_cons] at hfits
    have hnext : ¬ nl <+: c :: rest →
        (BufferedInput.findNlLoop nl (offset + 1) rest = -1 ∧ NoLine nl (c :: rest)) ∨
          ∃ k, BufferedInput.findNlLoop nl (offset + 1) rest = ((offset + k : Nat) : Int) ∧
            FirstAt nl (c :: rest) k := by
      intro hne
      have hrest : offset + 1 + rest.length < 2 ^ 31 := by omega
      obtain ⟨hnone, hno⟩ | ⟨k, hsome, hfirst⟩ := ih hrest
      · exact .inl ⟨hnone, hno.cons hne⟩
      · exact .inr ⟨k + 1, by rw [hsome]; congr 1; omega, hfirst.cons hne⟩
    unfold BufferedInput.findNlLoop
    split
    · rw [IntType.int_conv_of_lt (by rw [List.length_cons]; omega)]
      split
      · -- too few bytes are left
        rename_i hshort
        exact .inl ⟨rfl, noLine_of_length (by omega)⟩
      · split
        · rename_i hprefix
          refine .inr ⟨0, ?_, ?_⟩
          · rw [IntType.int_conv_of_lt (by omega), Nat.add_zero]
          · exact ⟨List.isPrefixOf_iff_prefix.1 hprefix, fun j hj => absurd hj (Nat.not_lt_zero j)⟩
        · rename_i hprefix
          exact hnext fun h => hprefix (List.isPrefixOf_iff_prefix.2 h)
    · -- `memchr` goes past it
      rename_i hc
      apply hnext
      rintro ⟨tail, htail⟩
      cases nl with
      | nil => exact hnl rfl
      | cons d nl =>
        rw [List.cons_append] at htail
        exact hc (List.cons.inj htail).1.symm

end Lines

/-! ### The client -/

namespace Delivery

def ends : Delivery → Bool
  | .bytes data => data.isEmpty
  | .error _ => true

def size : Delivery → Nat
  | .bytes data => data.length
  | .error _ => 0

theorem read_spec (d : Delivery) {len : Nat} (hlen : 0 < len) :
    (d.read len).2.length ≤ len ∧ (d.read len).2.length ≤ d.size ∧
      (d.ends = true → (d.read len).1 ≤ 0) ∧
      (d.ends = false → (d.read len).1 = (d.read len).2.length ∧ (d.read len).2 ≠ []) := by
  cases d with
  | bytes data =>
    refine ⟨?_, by simp [read, size], fun hends => ?_, fun hends => ⟨rfl, ?_⟩⟩
    · simp only [read, List.length_take]
      omega
    · simp [read, List.isEmpty_iff.1 hends]
    · have hpos : 0 < data.length := List.length_pos_iff.2 (List.isEmpty_eq_false_iff.1 hends)
      apply List.length_pos_iff.1
      simp only [read, List.length_take]
      omega
  | error n =>
    refine ⟨Nat.zero_le _, Nat.zero_le _, fun _ => ?_, fun hends => by cases hends⟩
    simp only [read]
    omega

end Delivery

/-! ### The members -/

namespace BufferedInput

variable {i : BufferedInput} {d : Delivery} {ds : List Delivery} {len : Nat} {nl : List UInt8}

def unread (i : BufferedInput) : List UInt8 := i.buf_.bytes

@[simp] theorem length_unread (i : BufferedInput) : i.unread.length = i.buf_.fullbytes :=
  StreamBuffer.length_bytes i.buf_

def sizes (ds : List Delivery) : Nat := (ds.map Delivery.size).sum

/-- What a member does to the stream: it returns bytes from the front of what was unread and
    of what has been delivered meanwhile, and it counts them. -/
structure Takes (i : BufferedInput) (r : Input) : Prop where
  stream : r.out ++ r.input.unread = i.unread ++ r.delivered
  count : r.ret.toNat = r.out.length

theorem Takes.trans {r r' : Input} (hadded : r.input.unread = i.unread ++ r.delivered)
    (h : r.input.Takes r') : i.Takes { r' with delivered := r.delivered ++ r'.delivered } where
  stream := by
    rw [h.stream, hadded, List.append_assoc]
  count := h.count

theorem Takes.ends {r : Input} (hout : r.out = [])
    (hadded : r.input.unread = i.unread ++ r.delivered) (hret : r.ret ≤ 0) : i.Takes r where
  stream := by rw [hout, hadded, List.nil_append]
  count := by
    rw [hout, Int.toNat_of_nonpos hret]
    rfl

theorem Takes.finish {r : Input} {n : Nat} (hle : n ≤ i.buf_.fullbytes) (hret : r.ret = n)
    (hout : r.out = i.unread.take n) (hunread : r.input.unread = i.unread.drop n)
    (hdelivered : r.delivered = []) : i.Takes r where
  stream := by rw [hout, hunread, hdelivered, List.take_append_drop, List.append_nil]
  count := by
    rw [hret, hout, Int.toNat_natCast, List.length_take, length_unread]
    omega

theorem internalRead_ends (hlen : i.buf_.fullbytes < len) (hends : d.ends = true) :
    ∃ r, i.internalRead len d = .ok r ∧ r.ret ≤ 0 ∧ r.delivered = [] ∧ i.Takes r := by
  obtain ⟨buf_, hreserve, hbytes, hroom⟩ := i.buf_.reserve_spec len
  have hpos : 0 < buf_.tailbytes := by omega
  obtain ⟨-, -, hstops, -⟩ := d.read_spec hpos
  have hcc := hstops hends
  -- whatever the result is, the buffer has the bytes it had
  have hdone : ∀ input : BufferedInput, input.buf_ = buf_ → ∃ r,
      (.ok { ret := (d.read buf_.tailbytes).1, out := [], input, delivered := [] } :
        Except Fault Input) = .ok r ∧ r.ret ≤ 0 ∧ r.delivered = [] ∧ i.Takes r := by
    intro input hbuf
    refine ⟨_, rfl, hcc, rfl, .ends rfl ?_ hcc⟩
    simp [unread, hbuf, hbytes]
  unfold internalRead
  rw [decide_eq_true (by omega), decide_eq_true hlen]
  simp only [assert_true, hreserve, bind, Except.bind]
  split
  · exact hdone _ rfl
  · split
    · exact hdone _ rfl
    · rw [if_pos (by omega)]
      exact hdone _ rfl

theorem internalRead_goes (hlen : i.buf_.fullbytes < len) (hends : d.ends = false) :
    ∃ r, i.internalRead len d = .ok r ∧ r.input.unread = i.unread ++ r.delivered ∧
      i.buf_.fullbytes < r.input.buf_.fullbytes ∧
      r.input.buf_.fullbytes ≤ i.buf_.fullbytes + d.size ∧
      r.ret = IntType.int.conv (min r.input.buf_.fullbytes len : Nat) ∧
      ∃ n, len ≤ n ∧ r.delivered = (d.read n).2 := by
  obtain ⟨buf_, hreserve, hbytes, hroom⟩ := i.buf_.reserve_spec len
  have hpos : 0 < buf_.tailbytes := by omega
  obtain ⟨hfits, hsize, -, hgoes⟩ := d.read_spec hpos
  obtain ⟨hcc, hne⟩ := hgoes hends
  have hlength := List.length_pos_iff.2 hne
  obtain ⟨buf_', hfill, hbytes'⟩ := StreamBuffer.fill_spec hfits
  -- what is delivered goes behind what is unread
  have hadded : buf_'.bytes = i.unread ++ (d.read buf_.tailbytes).2 := by
    rw [hbytes', hbytes]
    rfl
  have hfull := congrArg List.length hadded
  rw [List.length_append, StreamBuffer.length_bytes, length_unread] at hfull
  refine ⟨⟨IntType.int.conv (min buf_'.fullbytes len : Nat), [], { i with buf_ := buf_' },
    (d.read buf_.tailbytes).2⟩, ?_, hadded, ?_, ?_, rfl, _, hroom, rfl⟩
  · unfold internalRead
    rw [decide_eq_true (by omega), decide_eq_true hlen]
    simp only [assert_true, hreserve, bind, Except.bind]
    rw [if_neg (by unfold IOTIMEOUT; omega), if_neg (by omega), if_neg (by omega), hfill]
    rfl
  · show _ < buf_'.fullbytes
    omega
  · show buf_'.fullbytes ≤ _
    omega

theorem finish_spec {n : Nat} (hle : n ≤ i.buf_.fullbytes) :
    ∃ r, i.finish n n = .ok r ∧ r.ret = n ∧ r.out = i.unread.take n ∧
      r.input.unread = i.unread.drop n ∧ r.delivered = [] := by
  obtain ⟨buf_, hconsume, hbytes⟩ := StreamBuffer.consume_spec hle
  unfold finish
  rw [hconsume]
  exact ⟨_, rfl, rfl, by simp [unread], hbytes, rfl⟩

/-- The deliveries give out only where none of them ends the member. -/
def Short (ds : List Delivery) (f : Fault) : Prop := f = .outOfFuel ∧ ∀ d ∈ ds, d.ends = false

theorem Short.nil : Short [] .outOfFuel := ⟨rfl, nofun⟩

theorem Short.cons {f : Fault} (h : Short ds f) (hends : d.ends = false) : Short (d :: ds) f := by
  refine ⟨h.1, fun d' hd' => ?_⟩
  cases hd' with
  | head => exact hends
  | tail _ hmem => exact h.2 d' hmem

theorem sizes_cons (d : Delivery) (ds : List Delivery) : sizes (d :: ds) = d.size + sizes ds := by
  simp [sizes]

theorem toSize_natCast {n : Nat} (h : n < 2 ^ 64) : toSize n = n := by
  unfold toSize
  omega

theorem readLine_found {k : Nat} (hnl : nl ≠ []) (hfits : i.buf_.fullbytes < 2 ^ 31)
    (hsome : i.findNl nl = k) (hfirst : FirstAt nl i.unread k) (ds : List Delivery) :
    ∃ r, readLine nl i ds = .ok r ∧ i.Takes r ∧ IsLine nl (i.unread ++ r.delivered) r.out := by
  have hle : k + nl.length ≤ i.buf_.fullbytes := by
    have hlength := hfirst.length_le.resolve_right hnl
    rwa [length_unread] at hlength
  have hn : i.findNl nl + nl.length = ((k + nl.length : Nat) : Int) := by
    rw [hsome]
    omega
  obtain ⟨r, hfinish, hret, hout, hunread, hdelivered⟩ := finish_spec hle
  refine ⟨r, ?_, .finish hle hret hout hunread hdelivered, k, ?_, ?_⟩
  · unfold readLine
    rw [if_neg (by omega)]
    simp only [hn]
    rw [IntType.int_conv_of_lt (by omega), toSize_natCast (by omega), hfinish]
  · rwa [hdelivered, List.append_nil]
  · rw [hdelivered, List.append_nil, hout]

/-- `read_line` returns the bytes up to the first terminator, or none if there is no
    terminator in what it has got. -/
theorem readLine_spec (hnl : nl ≠ []) {ds : List Delivery} : ∀ {i : BufferedInput},
    i.buf_.fullbytes + sizes ds < 2 ^ 31 →
    (∀ f, readLine nl i ds = .error f → Short ds f) ∧
      ∀ r, readLine nl i ds = .ok r → i.Takes r ∧
        (IsLine nl (i.unread ++ r.delivered) r.out ∨
          r.ret ≤ 0 ∧ NoLine nl (i.unread ++ r.delivered)) := by
  -- the induction is on the deliveries, of which a round of the loop uses up one
  induction ds with
  | nil =>
    intro i hfits
    have hlength : 0 + i.unread.length < 2 ^ 31 := by
      rw [length_unread]
      omega
    obtain ⟨hnone, -⟩ | ⟨k, hsome, hfirst⟩ := findNlLoop_spec hnl hlength
    · have hendl : i.findNl nl = -1 := hnone
      unfold readLine
      simp only [hendl, if_true]
      exact ⟨fun f hf => (Except.error.inj hf) ▸ Short.nil, nofun⟩
    · rw [Nat.zero_add] at hsome
      obtain ⟨r, hrun, htakes, hline⟩ := readLine_found hnl (by omega) hsome hfirst []
      rw [hrun]
      exact ⟨nofun, fun r' hr' => Except.ok.inj hr' ▸ ⟨htakes, .inl hline⟩⟩
  | cons d ds ih =>
    intro i hfits
    rw [sizes_cons] at hfits
    have hlength : 0 + i.unread.length < 2 ^ 31 := by
      rw [length_unread]
      omega
    obtain ⟨hnone, hno⟩ | ⟨k, hsome, hfirst⟩ := findNlLoop_spec hnl hlength
    swap
    · rw [Nat.zero_add] at hsome
      obtain ⟨r, hrun, htakes, hline⟩ := readLine_found hnl (by omega) hsome hfirst (d :: ds)
      rw [hrun]
      exact ⟨nofun, fun r' hr' => Except.ok.inj hr' ▸ ⟨htakes, .inl hline⟩⟩
    -- no terminator yet: another chunk is read
    have hendl : i.findNl nl = -1 := hnone
    have hahead : i.buf_.fullbytes < i.buf_.fullbytes + READ_AHEAD := by
      unfold READ_AHEAD
      omega
    unfold readLine
    simp only [hendl, if_true]
    cases hends : d.ends with
    | true =>
      obtain ⟨r, hread, hret, hdelivered, htakes⟩ := internalRead_ends hahead hends
      simp only [hread, bind, Except.bind]
      rw [if_pos hret]
      refine ⟨nofun, fun r' hr' => Except.ok.inj hr' ▸ ⟨htakes, .inr ⟨hret, ?_⟩⟩⟩
      rwa [hdelivered, List.append_nil]
    | false =>
      obtain ⟨r, hread, hadded, hmore, hsize, hret, -⟩ := internalRead_goes hahead hends
      rw [IntType.int_conv_of_lt (by omega)] at hret
      simp only [hread, bind, Except.bind]
      rw [if_neg (by omega)]
      obtain ⟨herror, hok⟩ := ih (i := r.input) (by omega)
      cases hrest : readLine nl r.input ds with
      | error f => exact ⟨fun f' hf' => Except.error.inj hf' ▸ (herror f hrest).cons hends, nofun⟩
      | ok r' =>
        obtain ⟨htakes, hline⟩ := hok r' hrest
        refine ⟨nofun, fun r'' hr'' => Except.ok.inj hr'' ▸ ⟨.trans hadded htakes, ?_⟩⟩
        rw [hadded, List.append_assoc] at hline
        exact hline

/-- The loop of `read_bytes` returns what was asked for, or nothing. -/
theorem readBytesLoop_spec (len : Nat) {ds : List Delivery} : ∀ {i : BufferedInput} {total : Nat},
    i.buf_.fullbytes + sizes ds < 2 ^ 31 → (total < len ↔ i.buf_.fullbytes < len) →
    (∀ f, readBytesLoop len total i ds = .error f → Short ds f) ∧
      ∀ r, readBytesLoop len total i ds = .ok r → i.Takes r ∧ (r.out.length = len ∨ r.ret ≤ 0) := by
  have hdone : ∀ {i : BufferedInput} {total : Nat} (ds : List Delivery),
      i.buf_.fullbytes < 2 ^ 31 → (total < len ↔ i.buf_.fullbytes < len) → ¬ total < len →
      ∃ r, readBytesLoop len total i ds = .ok r ∧ i.Takes r ∧ r.out.length = len := by
    intro i total ds hfits hiff htotal
    have hle : len ≤ i.buf_.fullbytes := by omega
    obtain ⟨r, hfinish, hret, hout, hunread, hdelivered⟩ := finish_spec hle
    refine ⟨r, ?_, .finish hle hret hout hunread hdelivered, ?_⟩
    · unfold readBytesLoop
      rw [if_neg htotal, IntType.int_conv_of_lt (by omega), hfinish]
    · rw [hout, List.length_take, length_unread]
      omega
  -- the induction is on the deliveries, of which a round of the loop uses up one
  induction ds with
  | nil =>
    intro i total hfits hiff
    by_cases htotal : total < len
    · unfold readBytesLoop
      rw [if_pos htotal]
      exact ⟨fun f hf => (Except.error.inj hf) ▸ Short.nil, nofun⟩
    · obtain ⟨r, hrun, htakes, hlength⟩ := hdone [] (by omega) hiff htotal
      rw [hrun]
      exact ⟨nofun, fun r' hr' => Except.ok.inj hr' ▸ ⟨htakes, .inl hlength⟩⟩
  | cons d ds ih =>
    intro i total hfits hiff
    rw [sizes_cons] at hfits
    by_cases htotal : total < len
    swap
    · obtain ⟨r, hrun, htakes, hlength⟩ := hdone (d :: ds) (by omega) hiff htotal
      rw [hrun]
      exact ⟨nofun, fun r' hr' => Except.ok.inj hr' ▸ ⟨htakes, .inl hlength⟩⟩
    have hless := hiff.1 htotal
    unfold readBytesLoop
    rw [if_pos htotal]
    cases hends : d.ends with
    | true =>
      obtain ⟨r, hread, hret, -, htakes⟩ := internalRead_ends hless hends
      simp only [hread, bind, Except.bind]
      rw [if_pos hret]
      exact ⟨nofun, fun r' hr' => Except.ok.inj hr' ▸ ⟨htakes, .inr hret⟩⟩
    | false =>
      obtain ⟨r, hread, hadded, hmore, hsize, hret, -⟩ := internalRead_goes hless hends
      rw [IntType.int_conv_of_lt (by omega)] at hret
      simp only [hread, bind, Except.bind]
      rw [if_neg (by omega)]
      -- the result of `internal_read` is good as the total
      have htotal' : r.ret.toNat < len ↔ r.input.buf_.fullbytes < len := by omega
      obtain ⟨herror, hok⟩ := ih (by omega) htotal'
      cases hrest : readBytesLoop len r.ret.toNat r.input ds with
      | error f => exact ⟨fun f' hf' => Except.error.inj hf' ▸ (herror f hrest).cons hends, nofun⟩
      | ok r' =>
        obtain ⟨htakes, hlength⟩ := hok r' hrest
        exact ⟨nofun, fun r'' hr'' => Except.ok.inj hr'' ▸ ⟨.trans hadded htakes, hlength⟩⟩

theorem tailbytes_pos (hempty : i.buf_.fullbytes = 0) : 0 < i.buf_.tailbytes := by
  have h₁ := i.buf_.start_le
  have h₂ := i.buf_.size_pos
  unfold StreamBuffer.fullbytes at hempty
  have h₃ := i.buf_.reset (by omega)
  unfold StreamBuffer.tailbytes StreamBuffer.size_
  omega

/-- A member that takes bytes from a buffer that is not empty, filled first if it has to be. -/
theorem fillFirst_spec {f : BufferedInput → Except Fault Input}
    (hfits : i.buf_.fullbytes + sizes ds < 2 ^ 31)
    (hf : ∀ i : BufferedInput, 0 < i.buf_.fullbytes → i.buf_.fullbytes < 2 ^ 31 →
      ∃ r, f i = .ok r ∧ i.Takes r) :
    (∀ e, i.fillFirst ds f = .error e → Short ds e) ∧
      ∀ r, i.fillFirst ds f = .ok r → i.Takes r := by
  unfold fillFirst
  split
  swap
  · obtain ⟨r, hrun, htakes⟩ := hf i (by omega) (by omega)
    rw [hrun]
    exact ⟨nofun, fun r' hr' => Except.ok.inj hr' ▸ htakes⟩
  rename_i hempty
  -- the buffer is empty: read once, and take what has come
  cases ds with
  | nil => exact ⟨fun f hf => (Except.error.inj hf) ▸ Short.nil, nofun⟩
  | cons d ds =>
    rw [sizes_cons] at hfits
    have hroom : i.buf_.fullbytes < i.buf_.tailbytes := by
      rw [hempty]
      exact tailbytes_pos hempty
    dsimp only
    cases hends : d.ends with
    | true =>
      obtain ⟨r, hread, hret, -, htakes⟩ := internalRead_ends hroom hends
      simp only [hread, bind, Except.bind]
      rw [if_pos hret]
      exact ⟨nofun, fun r' hr' => Except.ok.inj hr' ▸ htakes⟩
    | false =>
      obtain ⟨r, hread, hadded, hmore, hsize, hret, -⟩ := internalRead_goes hroom hends
      rw [IntType.int_conv_of_lt (by omega)] at hret
      simp only [hread, bind, Except.bind]
      rw [if_neg (by omega), decide_eq_true (by omega)]
      obtain ⟨r', hrun, htakes⟩ := hf r.input (by omega) (by omega)
      simp only [assert_true, hrun]
      exact ⟨nofun, fun r'' hr'' => Except.ok.inj hr'' ▸ .trans hadded htakes⟩

theorem readSomeBytes_spec (hfits : i.buf_.fullbytes + sizes ds < 2 ^ 31) :
    (∀ f, i.readSomeBytes ds = .error f → Short ds f) ∧
      ∀ r, i.readSomeBytes ds = .ok r → i.Takes r := by
  refine fillFirst_spec hfits fun i _ hlt => ?_
  obtain ⟨r, hfinish, hret, hout, hunread, hdelivered⟩ := finish_spec (Nat.le_refl i.buf_.fullbytes)
  refine ⟨r, ?_, .finish (Nat.le_refl _) hret hout hunread hdelivered⟩
  simp only [IntType.int_conv_of_lt hlt]
  rw [toSize_natCast (by omega), hfinish]

theorem getChar_spec (hfits : i.buf_.fullbytes + sizes ds < 2 ^ 31) :
    (∀ f, i.getChar ds = .error f → Short ds f) ∧
      ∀ r, i.getChar ds = .ok r → i.Takes r := by
  refine fillFirst_spec hfits fun i hpos _ => ?_
  have hone : 1 ≤ i.buf_.fullbytes := hpos
  obtain ⟨r, hfinish, hret, hout, hunread, hdelivered⟩ := finish_spec hone
  exact ⟨r, hfinish, .finish hone hret hout hunread hdelivered⟩

/-! ### The runs -/

/-- A `BufferedInput`, what the client has delivered, and what has been returned. -/
structure State where
  input : BufferedInput
  delivered : List UInt8
  returned : List UInt8

/-- The calls, each with what the client delivers meanwhile. -/
inductive Op where
  | readLine (nl : List UInt8) (ds : List Delivery)
  | readBytes (len : Nat) (ds : List Delivery)
  | readSomeBytes (ds : List Delivery)
  | getChar (ds : List Delivery)
  deriving DecidableEq, Repr

def Op.deliveries : Op → List Delivery
  | .readLine _ ds | .readBytes _ ds | .readSomeBytes ds | .getChar ds => ds

/-- A call. -/
def Op.run (i : BufferedInput) : Op → Except Fault Input
  | .readLine nl ds => i.readLine nl ds
  | .readBytes len ds => i.readBytes len ds
  | .readSomeBytes ds => i.readSomeBytes ds
  | .getChar ds => i.getChar ds

/-- What a call leaves. -/
def exec (s : State) (op : Op) : Except Fault State := do
  let r ← op.run s.input
  pure
    { input := r.input
      delivered := s.delivered ++ r.delivered
      returned := s.returned ++ r.out }

theorem exec_eq (s : State) (op : Op) {r : Input} (hrun : op.run s.input = .ok r) :
    exec s op = .ok
      { input := r.input
        delivered := s.delivered ++ r.delivered
        returned := s.returned ++ r.out } := by
  unfold exec
  rw [hrun]
  rfl

/-- A terminator is a string of C, and `read_bytes` is asked for something. -/
def Enabled : Op → Prop
  | .readLine nl _ => 0 ∉ nl
  | .readBytes len _ => 0 < len
  | _ => True

def system : TransitionSystem State Op where
  init s := s = { input := .new, delivered := [], returned := [] }
  step s op s' := Enabled op ∧ exec s op = .ok s'

/-- What is unread, with what the client delivers during the call, is less than an `int` can
    count, and a terminator is not empty. -/
def Careful (s : State) (op : Op) : Prop :=
  s.input.buf_.fullbytes + sizes op.deliveries < 2 ^ 31 ∧ ∀ ds, op ≠ .readLine [] ds

/-- What a call does. It only fails where the client delivers nothing any more; it takes bytes
    from the front of the stream; a line ends at the first terminator, and `read_bytes` returns
    as many as it was asked for. Where there is nothing to return the result is not positive. -/
def Reads (s : State) (op : Op) : Prop :=
  (∀ f, op.run s.input = .error f → Short op.deliveries f) ∧
    ∀ r, op.run s.input = .ok r → s.input.Takes r ∧
      match op with
      | .readLine nl _ =>
        IsLine nl (s.input.unread ++ r.delivered) r.out ∨
          r.ret ≤ 0 ∧ NoLine nl (s.input.unread ++ r.delivered)
      | .readBytes len _ => r.out.length = len ∨ r.ret ≤ 0
      | _ => True

theorem reads_of_careful {s : State} {op : Op} (henabled : Enabled op) (hcareful : Careful s op) :
    Reads s op := by
  obtain ⟨hfits, hnl⟩ := hcareful
  cases op with
  | readLine nl ds => exact readLine_spec (fun hnil => hnl ds (by rw [hnil])) hfits
  | readBytes len ds =>
    have hlen : decide (len > 0) = true := decide_eq_true henabled
    have hrun : readBytes len s.input ds =
        readBytesLoop len s.input.buf_.fullbytes s.input ds := by
      unfold readBytes
      rw [hlen]
      rfl
    have hfits : s.input.buf_.fullbytes + sizes ds < 2 ^ 31 := hfits
    have hspec := readBytesLoop_spec len hfits Iff.rfl
    rw [← hrun] at hspec
    exact hspec
  | readSomeBytes ds =>
    obtain ⟨herror, hok⟩ := readSomeBytes_spec hfits
    exact ⟨herror, fun r hr => ⟨hok r hr, trivial⟩⟩
  | getChar ds =>
    obtain ⟨herror, hok⟩ := getChar_spec hfits
    exact ⟨herror, fun r hr => ⟨hok r hr, trivial⟩⟩

/-- In every run whose calls are careful, what has been returned and what is unread are the
    stream, and the next careful call does what it should. -/
theorem preserved_of_careful {s : State} (hs : system.ReachableWith Careful s) :
    s.returned ++ s.input.unread = s.delivered ∧
      ∀ op, Enabled op → Careful s op → Reads s op := by
  refine ⟨?_, fun op => reads_of_careful⟩
  apply hs.invariant
  · rintro s rfl
    simp [unread, new]
  · intro s op s' hstream hcareful hstep
    obtain ⟨henabled, hexec⟩ := hstep
    obtain ⟨r, hrun, hrest⟩ := bind_eq_ok.1 hexec
    obtain rfl := Except.ok.inj hrest
    have htakes := ((reads_of_careful henabled hcareful).2 r hrun).1
    show (s.returned ++ r.out) ++ r.input.unread = s.delivered ++ r.delivered
    rw [List.append_assoc, htakes.stream, ← List.append_assoc, hstream]

def splitChunks : List Delivery := [.bytes [97, 13], .bytes [10, 98]]

/-- A line whose terminator comes in two chunks. -/
theorem preserved_of_careful_split : ∃ s : State, s.returned = [97, 13, 10] ∧
    s.delivered = [97, 13, 10, 98] ∧ s.returned ++ s.input.unread = s.delivered ∧
      Reads s (.readSomeBytes []) := by
  have hrun : (readLine [13, 10] new splitChunks).toOption.map
      (fun r => (r.out, r.delivered, r.input.buf_.fullbytes)) =
        some ([97, 13, 10], [97, 13, 10, 98], 1) := by
    decide +kernel
  cases hline : readLine [13, 10] new splitChunks with
  | error f =>
    rw [hline] at hrun
    cases hrun
  | ok r =>
    rw [hline] at hrun
    obtain ⟨hout, hrest⟩ := Prod.mk.inj (Option.some.inj hrun)
    obtain ⟨hdelivered, hfull⟩ := Prod.mk.inj hrest
    have hreached : system.ReachableWith Careful _ :=
      .step (a := .readLine [13, 10] splitChunks) (.init rfl) ⟨by decide, nofun⟩
        ⟨(by decide : (0 : UInt8) ∉ [13, 10]), exec_eq _ _ hline⟩
    obtain ⟨hstream, hnext⟩ := preserved_of_careful hreached
    have hcareful : r.input.buf_.fullbytes + sizes [] < 2 ^ 31 := by
      rw [hfull]
      decide
    exact ⟨_, hout, hdelivered, hstream, hnext (.readSomeBytes []) trivial ⟨hcareful, nofun⟩⟩

/-- `read_bytes` of `2 ^ 31` bytes leaves them in the buffer: as an `int` their number is
    negative. -/
theorem readBytes_huge (hempty : i.buf_.fullbytes = 0) {data : List UInt8}
    (hdata : data.length = 2 ^ 31 - 1) :
    ∃ r, readBytes (2 ^ 31) i [.bytes data, .bytes [0]] = .ok r ∧
      r.input.buf_.fullbytes = 2 ^ 31 := by
  have hgoes : (Delivery.bytes data).ends = false := by
    apply List.isEmpty_eq_false_iff.2
    apply List.length_pos_iff.1
    omega
  have hless : i.buf_.fullbytes < 2 ^ 31 := by omega
  obtain ⟨r, hread, hadded, -, -, hret, n, hn, hdelivered⟩ := internalRead_goes hless hgoes
  -- one byte is missing after the first read, and comes with the second
  have hfull : r.input.buf_.fullbytes = 2 ^ 31 - 1 := by
    have hlength : r.delivered.length = 2 ^ 31 - 1 := by
      rw [hdelivered]
      simp only [Delivery.read, List.length_take]
      omega
    have := congrArg List.length hadded
    rw [List.length_append, length_unread, length_unread] at this
    omega
  rw [hfull, IntType.int_conv_of_lt (by omega)] at hret
  have hless' : r.input.buf_.fullbytes < 2 ^ 31 := by omega
  obtain ⟨r', hread', -, hmore, hsize, hret', -⟩ :=
    internalRead_goes (d := .bytes [0]) hless' rfl
  have hfull' : r'.input.buf_.fullbytes = 2 ^ 31 := by
    have : Delivery.size (.bytes [0]) = 1 := rfl
    omega
  -- the count of `2 ^ 31` wraps around
  have hnegative : r'.ret ≤ 0 := by
    rw [hret', hfull', IntType.int_conv]
    omega
  refine ⟨{ r' with delivered := r.delivered ++ r'.delivered }, ?_, hfull'⟩
  unfold readBytes readBytesLoop
  rw [decide_eq_true (by omega), if_pos (by omega)]
  simp only [assert_true, hread, bind, Except.bind]
  rw [if_neg (by omega)]
  unfold readBytesLoop
  rw [if_pos (by omega)]
  simp only [hread', bind, Except.bind]
  rw [if_pos hnegative]
  rfl

/-- Without the condition the calls do not: after that, `read_some_bytes` fails the assertion
    of `consume`. -/
theorem not_reads_huge : ¬ ∀ s : State, system.Reachable s →
    s.returned ++ s.input.unread = s.delivered ∧ ∀ op, Enabled op → Reads s op := by
  intro h
  obtain ⟨data, hdata⟩ : ∃ data : List UInt8, data.length = 2 ^ 31 - 1 :=
    ⟨List.replicate _ 0, List.length_replicate⟩
  obtain ⟨r, hrun, hfull⟩ := readBytes_huge (i := .new) rfl hdata
  have hexec : exec { input := .new, delivered := [], returned := [] }
      (.readBytes (2 ^ 31) [.bytes data, .bytes [0]]) =
        .ok { input := r.input, delivered := [] ++ r.delivered, returned := [] ++ r.out } :=
    exec_eq _ (.readBytes (2 ^ 31) [.bytes data, .bytes [0]]) hrun
  have hlen : Enabled (.readBytes (2 ^ 31) [.bytes data, .bytes [0]]) := by
    unfold Enabled
    omega
  have hreached : system.Reachable _ := .step (.init rfl) trivial ⟨hlen, hexec⟩
  have hfails : readSomeBytes r.input [] = .error .assertFailed := by
    have hcc : IntType.int.conv ((2 ^ 31 : Nat) : Int) = -2 ^ 31 := by
      rw [IntType.int_conv]
      omega
    have hsize : ¬ toSize (-2 ^ 31) ≤ r.input.buf_.fullbytes := by
      unfold toSize
      omega
    unfold readSomeBytes fillFirst
    rw [if_neg (by omega)]
    dsimp only
    rw [hfull, hcc]
    unfold finish StreamBuffer.consume
    rw [dif_neg hsize]
    rfl
  obtain ⟨hshort, -⟩ := ((h _ hreached).2 (.readSomeBytes []) trivial).1 _ hfails
  cases hshort

end BufferedInput

end Oasys.Io
