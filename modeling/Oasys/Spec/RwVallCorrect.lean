import Oasys.Io.RwData

/-!
# Correctness of rwvall

`rwvall` transfers the bytes of its vectors in order, each once, however short the transfers
are. `COWIoVec` copies the array of the caller when the first transfer is short; `Copied`
says which bytes its copy stands for after `m` of them are gone.

The destructor frees the pointer into the copy and not the copy: by the end that pointer is
null. So an array from `malloc` is not freed, and with more than 16 vectors there is one
once a transfer is short.
-/

namespace Oasys.Io

/-! ### Bytes of vectors -/

@[simp] theorem addresses_nil : addresses [] = [] := rfl

@[simp] theorem addresses_cons (v : IoVec) (iov : List IoVec) :
    addresses (v :: iov) = List.range' v.iov_base v.iov_len ++ addresses iov := List.flatMap_cons

@[simp] theorem totalLen_nil : totalLen [] = 0 := rfl

@[simp] theorem totalLen_cons (v : IoVec) (iov : List IoVec) :
    totalLen (v :: iov) = v.iov_len + totalLen iov := by
  unfold totalLen
  rw [List.map_cons, List.sum_cons]

@[simp] theorem length_addresses (iov : List IoVec) : (addresses iov).length = totalLen iov := by
  induction iov with
  | nil => rfl
  | cons v iov ih => rw [addresses_cons, List.length_append, List.length_range', ih, totalLen_cons]

/-! ### COWIoVec -/

namespace COWIoVec

variable {c : COWIoVec} {iov : List IoVec} {m cc : Nat}

@[simp] theorem array_setArray (c : COWIoVec) (a : IovArray) (es : List IoVec) :
    (c.setArray a es).array a = es := by
  cases a <;> rfl

@[simp] theorem setArray_left (c : COWIoVec) (a : IovArray) (es : List IoVec) :
    (c.setArray a es).bytes_left_ = c.bytes_left_ := by
  cases a <;> rfl

theorem setArray_frame {a : IovArray} (ha : a ≠ .caller) (hsome : c.array a ≠ [])
    (es : List IoVec) :
    (c.setArray a es).caller = c.caller ∧ (c.setArray a es).bytes_left_ = c.bytes_left_ ∧
      (c.setArray a es).copied_ = c.copied_ ∧ (c.setArray a es).iov_ = c.iov_ ∧
      (c.setArray a es).iovcnt_ = c.iovcnt_ ∧
      (c.setArray a es).dynamic_iov_.isSome = c.dynamic_iov_.isSome := by
  cases a with
  | caller => exact absurd rfl ha
  | static_iov_ => exact ⟨rfl, rfl, rfl, rfl, rfl, rfl⟩
  | dynamic_iov_ =>
    refine ⟨rfl, rfl, rfl, rfl, rfl, ?_⟩
    cases hdynamic : c.dynamic_iov_ with
    | none => exact absurd (by unfold array; rw [hdynamic]; rfl) hsome
    | some _ => rfl

/-- The pointer is at the entries `es`, the last ones of an array of the object. -/
structure Points (c : COWIoVec) (a : IovArray) (k : Nat) (es : List IoVec) : Prop where
  own : a ≠ .caller
  pointer : c.iov_ = some (a, k)
  rest : (c.array a).drop k = es
  count : c.iovcnt_ = es.length

theorem Points.entries {a : IovArray} {k : Nat} {es : List IoVec} (h : c.Points a k es) :
    c.entries = .ok es := by
  unfold COWIoVec.entries
  rw [h.pointer]
  dsimp only
  rw [h.rest, h.count, List.take_length, if_pos rfl]
  rfl

theorem consumeLoop_spec {a : IovArray} {es : List IoVec} : ∀ {k cc : Nat} {c : COWIoVec},
    c.Points a k es → cc ≤ totalLen es →
    ∃ c' k' es', consumeLoop es.length cc c = .ok c' ∧ c'.Points a k' es' ∧
      addresses es' = (addresses es).drop cc ∧ c'.caller = c.caller ∧
      c'.bytes_left_ = c.bytes_left_ ∧ c'.copied_ = c.copied_ ∧
      c'.dynamic_iov_.isSome = c.dynamic_iov_.isSome := by
  -- the induction is on the entries that are left
  induction es with
  | nil =>
    intro k cc c hpoints hcc
    obtain rfl : cc = 0 := by simpa using hcc
    exact ⟨c, k, [], rfl, hpoints, rfl, rfl, rfl, rfl, rfl⟩
  | cons v es ih =>
    intro k cc c hpoints hcc
    unfold consumeLoop
    by_cases hzero : cc > 0
    · have hget : (c.array a)[k]? = some v := by
        rw [← List.head?_drop, hpoints.rest]
        rfl
      rw [if_pos hzero, List.length_cons]
      dsimp only
      rw [hpoints.pointer]
      dsimp only
      rw [hget]
      dsimp only
      by_cases hwhole : v.iov_len ≤ cc
      · -- the whole entry
        rw [if_pos hwhole]
        have hnext : ({ c with iovcnt_ := es.length, iov_ := some (a, k + 1) } :
            COWIoVec).Points a (k + 1) es := by
          refine ⟨hpoints.own, rfl, ?_, rfl⟩
          have hdrop := congrArg (List.drop 1) hpoints.rest
          rw [List.drop_drop] at hdrop
          cases a <;> exact hdrop
        have hless : cc - v.iov_len ≤ totalLen es := by
          rw [totalLen_cons] at hcc
          omega
        obtain ⟨c', k', es', hrun, hpoints', haddresses, hframe⟩ :=
          ih hnext hless
        have hgone : (List.range' v.iov_base v.iov_len).drop cc = [] :=
          List.drop_of_length_le (by rw [List.length_range']; exact hwhole)
        refine ⟨c', k', es', hrun, hpoints', ?_, hframe⟩
        rw [haddresses, addresses_cons, List.drop_append, hgone, List.length_range',
          List.nil_append]
      · -- a part of it
        rw [if_neg hwhole]
        have hne : c.array a ≠ [] := by
          intro hnil
          rw [hnil] at hget
          cases hget
        obtain ⟨hcaller, hleft, hcopied, hpointer, hcount, hsome⟩ :=
          setArray_frame hpoints.own hne ((c.array a).set k ⟨v.iov_base + cc, v.iov_len - cc⟩)
        refine ⟨_, k, ⟨v.iov_base + cc, v.iov_len - cc⟩ :: es, rfl,
          ⟨hpoints.own, ?_, ?_, ?_⟩, ?_, hcaller, hleft, hcopied, hsome⟩
        · rw [hpointer, hpoints.pointer]
        · have hk : k < (c.array a).length := (List.getElem?_eq_some_iff.1 hget).1
          rw [array_setArray, List.drop_set, if_neg (Nat.lt_irrefl k), Nat.sub_self,
            hpoints.rest, List.set_cons_zero]
        · rw [hcount, hpoints.count, List.length_cons, List.length_cons]
        · rw [addresses_cons, addresses_cons, List.drop_append, List.length_range',
            List.drop_range', Nat.sub_eq_zero_of_le (Nat.le_of_not_le hwhole), List.drop_zero,
            Nat.mul_one]
    · obtain rfl : cc = 0 := Nat.eq_zero_of_not_pos hzero
      exact ⟨c, k, v :: es, if_neg hzero, hpoints, rfl, rfl, rfl, rfl, rfl⟩

/-- The object has a copy of the vectors, of which `m` bytes are gone. -/
structure Copied (c : COWIoVec) (iov : List IoVec) (m : Nat) : Prop where
  caller : c.caller = iov
  left : c.bytes_left_ = totalLen iov - m
  copied : c.copied_ = true
  dynamic : c.dynamic_iov_.isSome = decide (16 < iov.length)
  rest : 0 < c.bytes_left_ → ∃ a k es, c.Points a k es ∧ addresses es = (addresses iov).drop m
  done : c.bytes_left_ = 0 → c.iov_ = none

theorem consume_copied {a : IovArray} {k : Nat} {es : List IoVec} (hcaller : c.caller = iov)
    (hleft : c.bytes_left_ = totalLen iov - m) (hcopied : c.copied_ = true)
    (hdynamic : c.dynamic_iov_.isSome = decide (16 < iov.length)) (hpoints : c.Points a k es)
    (haddresses : addresses es = (addresses iov).drop m) (hcc : cc ≤ totalLen iov - m) :
    ∃ c', (do
        let c ← consumeLoop c.iovcnt_ cc { c with bytes_left_ := c.bytes_left_ - cc }
        pure (if c.bytes_left_ = 0 then { c with iov_ := none } else c) :
          Except Fault COWIoVec) = .ok c' ∧ Copied c' iov (m + cc) := by
  have hlength : totalLen es = totalLen iov - m := by
    rw [← length_addresses, haddresses, List.length_drop, length_addresses]
  have hpoints₁ : ({ c with bytes_left_ := c.bytes_left_ - cc } : COWIoVec).Points a k es := by
    refine ⟨hpoints.own, hpoints.pointer, ?_, hpoints.count⟩
    rw [← hpoints.rest]
    cases a <;> rfl
  have hle : cc ≤ totalLen es := by
    rw [hlength]
    exact hcc
  obtain ⟨c', k', es', hrun, hpoints', haddresses', hcaller', hleft', hcopied', hsome'⟩ :=
    consumeLoop_spec hpoints₁ hle
  have hleft₁ : c'.bytes_left_ = totalLen iov - (m + cc) := by
    rw [hleft']
    show c.bytes_left_ - cc = _
    rw [hleft]
    omega
  rw [(congrArg (fun n => consumeLoop n cc _) hpoints.count).trans hrun]
  refine ⟨if c'.bytes_left_ = 0 then { c' with iov_ := none } else c', rfl, ?_⟩
  split
  · -- nothing is left, and the pointer is cleared
    rename_i hzero
    exact ⟨hcaller'.trans hcaller, hleft₁, hcopied'.trans hcopied, hsome'.trans hdynamic,
      fun hpos => absurd hpos (by rw [hzero]; exact Nat.lt_irrefl 0), fun _ => rfl⟩
  · rename_i hpos
    refine ⟨hcaller'.trans hcaller, hleft₁, hcopied'.trans hcopied, hsome'.trans hdynamic,
      fun _ => ⟨a, k', es', hpoints', ?_⟩, fun hzero => absurd hzero hpos⟩
    rw [haddresses', haddresses, List.drop_drop]

theorem Copied.consume (h : Copied c iov m) (cc : Nat) (hleft : 0 < c.bytes_left_)
    (hcc : cc ≤ c.bytes_left_) : ∃ c', c.consume cc = .ok c' ∧ Copied c' iov (m + cc) := by
  obtain ⟨a, k, es, hpoints, haddresses⟩ := h.rest hleft
  have hle : cc ≤ totalLen iov - m := by
    rw [← h.left]
    exact hcc
  obtain ⟨c', hrun, hcopied⟩ :=
    consume_copied h.caller h.left h.copied h.dynamic hpoints haddresses hle
  refine ⟨c', ?_, hcopied⟩
  unfold COWIoVec.consume
  rw [decide_eq_true hcc, h.copied]
  exact hrun

theorem entries_new (iov : List IoVec) : (COWIoVec.new iov).entries = .ok iov := by
  show (if (List.take iov.length (List.drop 0 iov)).length = iov.length then
    pure (List.take iov.length (List.drop 0 iov)) else throw Fault.outOfBounds) = _
  rw [List.drop_zero, List.take_length, if_pos rfl]
  rfl

theorem copy_new (iov : List IoVec) : ∃ c a, (COWIoVec.new iov).copy = .ok c ∧ c.Points a 0 iov ∧
    c.caller = iov ∧ c.bytes_left_ = totalLen iov % 2 ^ 64 ∧ c.copied_ = true ∧
    c.dynamic_iov_.isSome = decide (16 < iov.length) := by
  unfold COWIoVec.copy
  rw [entries_new]
  -- more than 16 vectors do not fit the static array
  by_cases hcount : iov.length ≤ 16
  · have hstatic : (COWIoVec.new iov).iovcnt_ ≤ 16 := hcount
    refine ⟨{ COWIoVec.new iov with
        copied_ := true, static_iov_ := iov, iov_ := some (.static_iov_, 0) }, .static_iov_,
      ?_, ⟨nofun, rfl, rfl, rfl⟩, rfl, rfl, rfl, ?_⟩
    · simp [COWIoVec.new, hcount]
    · exact (decide_eq_false (by omega)).symm
  · refine ⟨{ COWIoVec.new iov with
        copied_ := true, dynamic_iov_ := some iov, iov_ := some (.dynamic_iov_, 0) },
      .dynamic_iov_, ?_, ⟨nofun, rfl, rfl, rfl⟩, rfl, rfl, rfl, ?_⟩
    · simp [COWIoVec.new, hcount]
    · exact (decide_eq_true (by omega)).symm

theorem consume_new (hfits : totalLen iov < 2 ^ 64) (hcc : cc < totalLen iov) :
    ∃ c, (COWIoVec.new iov).consume cc = .ok c ∧ Copied c iov cc := by
  have hleft : (COWIoVec.new iov).bytes_left_ = totalLen iov := Nat.mod_eq_of_lt hfits
  obtain ⟨c₁, a, hcopy, hpoints, hcaller, hleft₁, hcopied, hdynamic⟩ := copy_new iov
  rw [Nat.mod_eq_of_lt hfits] at hleft₁
  have hle₁ : cc ≤ totalLen iov - 0 := by omega
  -- nothing was gone from the vectors when they were copied
  obtain ⟨c', hrun, hcopied'⟩ := consume_copied (m := 0) hcaller (by rw [hleft₁, Nat.sub_zero])
    hcopied hdynamic hpoints (by rw [List.drop_zero]) hle₁
  rw [Nat.zero_add] at hcopied'
  refine ⟨c', ?_, hcopied'⟩
  have hle : decide (cc ≤ (COWIoVec.new iov).bytes_left_) = true := by
    rw [hleft]
    exact decide_eq_true (by omega)
  have hshort : ((!(COWIoVec.new iov).copied_ && decide (cc = (COWIoVec.new iov).bytes_left_)) =
      true) = False := by
    rw [hleft, decide_eq_false (by omega), Bool.and_false]
    simp
  unfold COWIoVec.consume
  rw [hle]
  simp only [hshort, if_false, assert_true]
  show ((COWIoVec.new iov).copy >>= _) = _
  rw [hcopy]
  exact hrun

theorem consume_new_all (hfits : totalLen iov < 2 ^ 64) :
    (COWIoVec.new iov).consume (totalLen iov) =
      .ok { COWIoVec.new iov with iov_ := none, bytes_left_ := 0 } := by
  have hleft : (COWIoVec.new iov).bytes_left_ = totalLen iov := Nat.mod_eq_of_lt hfits
  unfold COWIoVec.consume
  rw [hleft, decide_eq_true (Nat.le_refl _)]
  simp [COWIoVec.new]

theorem consumeLoop_left {iovcnt : Nat} {c' : COWIoVec}
    (hrun : consumeLoop iovcnt cc c = .ok c') : c'.bytes_left_ = c.bytes_left_ := by
  induction iovcnt generalizing cc c with
  | zero =>
    unfold consumeLoop at hrun
    split at hrun
    · cases hrun
    · rw [← Except.ok.inj hrun]
  | succ iovcnt ih =>
    unfold consumeLoop at hrun
    split at hrun
    · dsimp only at hrun
      split at hrun
      · cases hrun
      · split at hrun
        · cases hrun
        · split at hrun
          · have hleft := ih hrun
            exact hleft
          · rw [← Except.ok.inj hrun, setArray_left]
    · rw [← Except.ok.inj hrun]

theorem consume_left {c' : COWIoVec} (hrun : c.consume cc = .ok c') :
    cc ≤ c.bytes_left_ ∧ c'.bytes_left_ = c.bytes_left_ - cc := by
  have hle : cc ≤ c.bytes_left_ := by
    by_contra hlt
    obtain ⟨_, hassert, -⟩ := bind_eq_ok.1 hrun
    rw [decide_eq_false hlt] at hassert
    cases hassert
  refine ⟨hle, ?_⟩
  obtain ⟨-, -, hrest⟩ := bind_eq_ok.1 hrun
  split at hrest
  · rename_i hall
    obtain rfl := Except.ok.inj hrest
    simp only [Bool.and_eq_true, decide_eq_true_eq] at hall
    show 0 = _
    rw [hall.2, Nat.sub_self]
  · -- the rest of `consume`, of an object that counts the same
    have hloop : ∀ c₁ : COWIoVec, c₁.bytes_left_ = c.bytes_left_ → (do
        let c ← consumeLoop c₁.iovcnt_ cc { c₁ with bytes_left_ := c₁.bytes_left_ - cc }
        pure (if c.bytes_left_ = 0 then { c with iov_ := none } else c) :
          Except Fault COWIoVec) = .ok c' → c'.bytes_left_ = c.bytes_left_ - cc := by
      intro c₁ hsame hrun₁
      obtain ⟨c₂, hloop, hrun₂⟩ := bind_eq_ok.1 hrun₁
      have hleft := consumeLoop_left hloop
      rw [← Except.ok.inj hrun₂, ← hsame]
      split
      · exact hleft
      · exact hleft
    split at hrest
    · exact hloop c rfl hrest
    · obtain ⟨c₁, hcopy, hrest⟩ := bind_eq_ok.1 hrest
      refine hloop c₁ ?_ hrest
      obtain ⟨-, -, hcopy⟩ := bind_eq_ok.1 hcopy
      obtain ⟨iov, -, hcopy⟩ := bind_eq_ok.1 hcopy
      split at hcopy
      · rw [← Except.ok.inj hcopy]
      · rw [← Except.ok.inj hcopy]

end COWIoVec

/-! ### What a call of rwdata transfers -/

section Transfer

variable {intr : Option Int} {polled ignore_eagain : Bool} {start : Option Timeval}
  {timeout now : Int} {steps : List RwStep} {cc t : Int}

private theorem decide_and_isNone {p : Prop} [Decidable p] (hstart : p → start.isSome) :
    (decide p && start.isNone) = false := by
  by_cases hp : p
  · rw [← Option.not_isSome, hstart hp, Bool.not_true, Bool.and_false]
  · rw [decide_eq_false hp, Bool.false_and]

/-- `poll_with_notifier` is not called, or says that the descriptor is ready. -/
def RwStep.ready (intr : Option Int) (poll_fd : PollFd) (polled : Bool) (s : RwStep) : Bool :=
  !polled || (s.polls.find? fun p => !p.interrupted).elim false fun p =>
    match pollResult intr [poll_fd] p with
    | .ok (cc, _) => !(cc = IOERROR || cc = IOTIMEOUT || cc = IOINTR)
    | .error _ => false

/-- How much a call of `rwdata` transfers, and when; `none` where it transfers nothing. -/
def transfer (intr : Option Int) (poll_fd : PollFd) (polled ignore_eagain : Bool) :
    List RwStep → Option (Int × Int)
  | [] => none
  | s :: steps =>
    if s.ready intr poll_fd polled then
      if s.retried ignore_eagain then transfer intr poll_fd polled ignore_eagain steps
      else if s.cc > 0 then some (s.cc, s.now)
      else none
    else none

theorem adjusted_ok (htimeout : -1 ≤ timeout) (hstart : -1 < timeout → start.isSome) (now : Int) :
    ∃ timeout', adjusted timeout start now = .ok timeout' ∧ -1 ≤ timeout' ∧
      (-1 < timeout' ↔ -1 < timeout) := by
  unfold adjusted
  split
  · rename_i hpos
    obtain ⟨start, rfl⟩ := Option.isSome_iff_exists.1 (hstart (by omega))
    unfold adjustTimeout
    dsimp only
    split
    · exact ⟨0, rfl, by omega, by omega⟩
    · exact ⟨_, rfl, by omega, by omega⟩
  · exact ⟨timeout, rfl, htimeout, Iff.rfl⟩

theorem pollLoop_ok {polls : List Poll} {p : Poll}
    (hfind : polls.find? (fun p => !p.interrupted) = some p) : ∀ {timeout : Int} (now : Int),
    -1 ≤ timeout → (-1 < timeout → start.isSome) →
    ∃ now' waits, pollLoop start timeout now polls = .ok (p, now', waits) := by
  -- the induction is on the polls; after an interrupted one the timeout is adjusted
  induction polls with
  | nil => cases hfind
  | cons q polls ih =>
    intro timeout now htimeout hstart
    unfold pollLoop
    by_cases hq : q.interrupted = true
    · rw [List.find?_cons_of_neg (by simp [hq])] at hfind
      rw [if_pos hq]
      obtain ⟨timeout', hadjusted, htimeout', hsame⟩ := adjusted_ok htimeout hstart q.now
      obtain ⟨now', waits, hrun⟩ := ih hfind q.now htimeout' fun h => hstart (hsame.1 h)
      refine ⟨now', (timeout, now) :: waits, ?_⟩
      rw [hadjusted]
      show (pollLoop start timeout' q.now polls >>= _) = _
      rw [hrun]
      rfl
    · rw [List.find?_cons_of_pos (by simp [hq])] at hfind
      obtain rfl := Option.some.inj hfind
      rw [if_neg hq]
      exact ⟨_, _, rfl⟩

theorem rwdataPoll_ready {poll_fd : PollFd} {s : RwStep} (htimeout : -1 ≤ timeout)
    (hstart : -1 < timeout → start.isSome) (hready : s.ready intr poll_fd polled = true)
    (hpolled : polled = (intr.isSome || decide (timeout > -1))) (now : Int) :
    ∃ r, rwdataPoll poll_fd start intr timeout now s.polls = .ok r ∧
      (r.cc = IOERROR || r.cc = IOTIMEOUT || r.cc = IOINTR) = false := by
  unfold rwdataPoll
  rw [← hpolled]
  cases hp : polled with
  | false => exact ⟨_, rfl, rfl⟩
  | true =>
    -- the first poll that is not interrupted decides
    unfold RwStep.ready at hready
    rw [hp, Bool.not_true, Bool.false_or] at hready
    cases hfind : s.polls.find? (fun p => !p.interrupted) with
    | none =>
      rw [hfind] at hready
      cases hready
    | some p =>
      rw [hfind, Option.elim_some] at hready
      split at hready
      swap
      · cases hready
      rename_i cc fds hresult
      obtain ⟨now', waits, hloop⟩ := pollLoop_ok hfind now htimeout hstart
      have hpositive : timeout > 0 → start.isSome := fun hpos => hstart (by omega)
      have hrun : pollWithNotifier intr [poll_fd] timeout start now s.polls =
          .ok ({ cc, now := now', transferred := [], waits }, fds) := by
        unfold pollWithNotifier
        rw [decide_and_isNone hpositive, decide_eq_true htimeout]
        show (pollLoop start timeout now s.polls >>= _) = _
        rw [hloop]
        show (pollResult intr [poll_fd] p >>= _) = _
        rw [hresult]
        rfl
      refine ⟨{ cc, now := now', transferred := [], waits }, ?_, by simpa using hready⟩
      rw [if_pos rfl, hrun]
      rfl

theorem rwdataLoop_transfer {poll_fd : PollFd} (iov : List IoVec)
    (htransfer : transfer intr poll_fd polled ignore_eagain steps = some (cc, t)) :
    ∀ {timeout : Int} (now : Int), -1 ≤ timeout → (-1 < timeout → start.isSome) →
    polled = (intr.isSome || decide (timeout > -1)) →
    ∃ waits, rwdataLoop poll_fd iov start intr ignore_eagain timeout now steps =
      .ok { cc, now := t, transferred := (addresses iov).take cc.toNat, waits } := by
  -- the induction is on the rounds of the loop, which go on while the call is to be retried
  induction steps with
  | nil => cases htransfer
  | cons s steps ih =>
    intro timeout now htimeout hstart hpolled
    unfold transfer at htransfer
    split at htransfer
    swap
    · cases htransfer
    rename_i hready
    obtain ⟨r, hr, hgoes⟩ := rwdataPoll_ready htimeout hstart hready hpolled now
    unfold rwdataLoop
    rw [hr]
    dsimp only [bind, Except.bind]
    rw [hgoes, if_neg Bool.false_ne_true]
    split at htransfer
    · rename_i hretried
      rw [if_pos hretried]
      obtain ⟨timeout', hadjusted, htimeout', hsame⟩ := adjusted_ok htimeout hstart s.now
      obtain ⟨waits, hrun⟩ := ih htransfer s.now htimeout' (fun h => hstart (hsame.1 h)) (by
        rw [hpolled, decide_eq_decide.2 hsame.symm])
      refine ⟨r.waits ++ waits, ?_⟩
      rw [hadjusted]
      show (rwdataLoop poll_fd iov start intr ignore_eagain timeout' s.now steps >>= _) = _
      rw [hrun]
      rfl
    · rename_i hretried
      rw [if_neg hretried]
      split at htransfer
      · rename_i hpos
        obtain ⟨rfl, rfl⟩ := Prod.mk.inj (Option.some.inj htransfer)
        refine ⟨r.waits, ?_⟩
        rw [if_neg (by omega)]
        rfl
      · cases htransfer

theorem transfer_pos {poll_fd : PollFd}
    (htransfer : transfer intr poll_fd polled ignore_eagain steps = some (cc, t)) : 0 < cc := by
  fun_induction transfer intr poll_fd polled ignore_eagain steps with
  | case1 => cases htransfer
  | case2 s steps _ _ ih => exact ih htransfer
  | case3 s steps _ _ hpos =>
    obtain ⟨rfl, -⟩ := Prod.mk.inj (Option.some.inj htransfer)
    exact hpos
  | case4 => cases htransfer
  | case5 => cases htransfer

end Transfer

/-! ### The run -/

section Run

variable {op : IO_Op_t} {fd : Int} {iov : List IoVec} {start : Option Timeval}
  {intr : Option Int} {timeout now total_bytes : Int} {cow_iov cow_iov' : COWIoVec}
  {rounds : List (List RwStep)} {steps : List RwStep} {ccs : List Nat} {cc m : Nat} {r : Done}

/-- The call of `rwdata` with this timeout transfers `cc` bytes. -/
def Transfers (op : IO_Op_t) (fd : Int) (intr : Option Int) (timeout : Int)
    (steps : List RwStep) (cc : Nat) : Prop :=
  ∃ poll_fd t, pollFd op fd = .ok poll_fd ∧
    transfer intr poll_fd (intr.isSome || timeout > -1) true steps = some ((cc : Int), t)

theorem Transfers.congr {timeout' : Int} (h : Transfers op fd intr timeout steps cc)
    (hsame : -1 < timeout' ↔ -1 < timeout) : Transfers op fd intr timeout' steps cc := by
  unfold Transfers at *
  rwa [show decide (timeout' > -1) = decide (timeout > -1) from decide_eq_decide.2 hsame]

theorem Transfers.pos (h : Transfers op fd intr timeout steps cc) : 0 < cc := by
  obtain ⟨_, _, -, htransfer⟩ := h
  exact Int.ofNat_lt.1 (transfer_pos htransfer)

theorem rwdata_transfers (hop : op = .READV ∨ op = .WRITEV) (htimeout : -1 ≤ timeout)
    (hstart : -1 < timeout → start.isSome) (h : Transfers op fd intr timeout steps cc)
    (iov : List IoVec) (now : Int) :
    ∃ t waits, rwdata op fd (some iov) 0 timeout none start intr true now steps =
      .ok { cc, now := t, transferred := (addresses iov).take cc, waits } := by
  obtain ⟨poll_fd, t, hfd, htransfer⟩ := h
  obtain ⟨waits, hrun⟩ := rwdataLoop_transfer iov htransfer now htimeout hstart rfl
  have hasserts : rwdataAsserts op (some iov) 0 timeout none start = .ok () := by
    unfold rwdataAsserts
    rw [decide_and_isNone hstart, decide_eq_true htimeout]
    obtain rfl | rfl := hop <;> rfl
  have hvectors : vectors op (some iov) none = .ok iov := by
    obtain rfl | rfl := hop <;> rfl
  refine ⟨t, waits, ?_⟩
  unfold rwdata
  rw [hasserts, hfd, hvectors]
  exact hrun

theorem rwvallLoop_done (hleft : cow_iov.bytes_left_ = 0) (rounds : List (List RwStep)) :
    rwvallLoop op fd start intr total_bytes cow_iov timeout now rounds =
      .ok ({ cc := total_bytes, now, transferred := [], waits := [] }, cow_iov) := by
  unfold rwvallLoop
  rw [hleft]
  rfl

theorem rwvallLoop_round {es : List IoVec} (hop : op = .READV ∨ op = .WRITEV)
    (htimeout : -1 ≤ timeout) (hstart : -1 < timeout → start.isSome)
    (h : Transfers op fd intr timeout steps cc) (hleft : 0 < cow_iov.bytes_left_)
    (hentries : cow_iov.entries = .ok es) (hconsume : cow_iov.consume cc = .ok cow_iov')
    (total_bytes now : Int) (rounds : List (List RwStep)) :
    ∃ timeout' t waits, -1 ≤ timeout' ∧ (-1 < timeout' ↔ -1 < timeout) ∧
      rwvallLoop op fd start intr total_bytes cow_iov timeout now (steps :: rounds) = (do
        let (rest, cow_iov) ←
          rwvallLoop op fd start intr total_bytes cow_iov' timeout' t rounds
        pure ({ rest with
          transferred := (addresses es).take cc ++ rest.transferred
          waits := waits ++ rest.waits }, cow_iov)) := by
  obtain ⟨t, waits, hrun⟩ := rwdata_transfers hop htimeout hstart h es now
  obtain ⟨timeout', hadjusted, htimeout', hsame⟩ := adjusted_ok htimeout hstart t
  have hpos := h.pos
  refine ⟨timeout', t, waits, htimeout', hsame, ?_⟩
  -- only the round itself is unfolded, the rest of the loop is on the right
  conv_lhs => unfold rwvallLoop
  rw [if_pos hleft, hentries]
  dsimp only [bind, Except.bind]
  rw [hrun]
  dsimp only
  rw [if_neg (by omega), Int.toNat_natCast, hconsume]
  dsimp only
  rw [hadjusted]

/-- The rounds after the first short transfer transfer what is left. -/
theorem rwvallLoop_copied (hop : op = .READV ∨ op = .WRITEV)
    (hrounds : List.Forall₂ (Transfers op fd intr timeout) rounds ccs) (total_bytes : Int) :
    ∀ {timeout' : Int} (now : Int) {cow_iov : COWIoVec} {m : Nat}, -1 ≤ timeout' →
    (-1 < timeout' ↔ -1 < timeout) → (-1 < timeout → start.isSome) →
    cow_iov.Copied iov m → m + ccs.sum = totalLen iov →
    ∃ r cow_iov', rwvallLoop op fd start intr total_bytes cow_iov timeout' now rounds =
      .ok (r, cow_iov') ∧ r.cc = total_bytes ∧ r.transferred = (addresses iov).drop m ∧
      cow_iov'.Copied iov (totalLen iov) := by
  -- the induction is on the rounds, each of which leaves a copy with more bytes gone
  induction hrounds with
  | nil =>
    intro timeout' now cow_iov m _ _ _ hcopied hsum
    obtain rfl : m = totalLen iov := hsum
    have hleft : cow_iov.bytes_left_ = 0 := by
      rw [hcopied.left, Nat.sub_self]
    refine ⟨_, cow_iov, rwvallLoop_done hleft [], rfl, ?_, hcopied⟩
    rw [List.drop_of_length_le (Nat.le_of_eq (length_addresses iov))]
  | cons hsteps _ ih =>
    rename_i steps cc rounds ccs _
    intro timeout' now cow_iov m htimeout hsame hstart hcopied hsum
    rw [List.sum_cons] at hsum
    have hsteps' := hsteps.congr hsame
    have hstart' : -1 < timeout' → start.isSome := fun h => hstart (hsame.1 h)
    have hpos := hsteps.pos
    have hleft : cow_iov.bytes_left_ = totalLen iov - m := hcopied.left
    obtain ⟨a, k, es, hpoints, haddresses⟩ := hcopied.rest (by omega)
    obtain ⟨c₁, hconsume, hcopied₁⟩ := hcopied.consume cc (by omega) (by omega)
    obtain ⟨timeout₁, t, waits, htimeout₁, hsame₁, hround⟩ := rwvallLoop_round hop htimeout
      hstart' hsteps' (by omega) hpoints.entries hconsume total_bytes now rounds
    obtain ⟨r, c₂, hrun, hcc, htransferred, hcopied₂⟩ := ih t htimeout₁ (hsame₁.trans hsame)
      hstart hcopied₁ (by omega)
    refine ⟨{ r with
      transferred := (addresses es).take cc ++ r.transferred
      waits := waits ++ r.waits }, c₂, by rw [hround, hrun]; rfl, hcc, ?_, hcopied₂⟩
    show (addresses es).take cc ++ r.transferred = _
    rw [htransferred, haddresses, ← List.drop_drop, List.take_append_drop]

theorem rwvallLoop_cc (hrun : rwvallLoop op fd start intr total_bytes cow_iov timeout now rounds =
    .ok (r, cow_iov')) : r.cc = total_bytes ∨ r.cc ≤ 0 := by
  -- the result of a round is returned only where it is not positive
  induction rounds generalizing cow_iov timeout now r with
  | nil =>
    unfold rwvallLoop at hrun
    split at hrun
    · cases hrun
    · cases hrun
      exact .inl rfl
  | cons steps rounds ih =>
    unfold rwvallLoop at hrun
    split at hrun
    · obtain ⟨es, -, hrun⟩ := bind_eq_ok.1 hrun
      obtain ⟨r₁, -, hrun⟩ := bind_eq_ok.1 hrun
      split at hrun
      · cases hrun
        exact .inr ‹_›
      · obtain ⟨c₁, -, hrun⟩ := bind_eq_ok.1 hrun
        obtain ⟨timeout₁, -, hrun⟩ := bind_eq_ok.1 hrun
        obtain ⟨⟨rest, c₂⟩, hrest, hrun⟩ := bind_eq_ok.1 hrun
        cases hrun
        show rest.cc = total_bytes ∨ rest.cc ≤ 0
        exact ih hrest
    · cases hrun
      exact .inl rfl

theorem COWIoVec.Copied.freed_iff (h : cow_iov.Copied iov (totalLen iov)) :
    cow_iov.freed = cow_iov.allocated ↔ iov.length ≤ 16 := by
  have hnull : cow_iov.iov_ = none := h.done (by rw [h.left, Nat.sub_self])
  unfold COWIoVec.freed COWIoVec.allocated
  rw [h.dynamic, hnull]
  by_cases hcount : 16 < iov.length
  · simp [hcount]
  · simp [hcount, Nat.le_of_not_lt hcount]

/-- The bytes go across in order, each once, the total is returned, the array of the caller is
    as it was, and what `free` gets is what `malloc` has returned. -/
def TransfersAll (iov : List IoVec) (res : Except Fault (Done × COWIoVec)) : Prop :=
  ∃ r cow_iov, res = .ok (r, cow_iov) ∧ r.cc = totalLen iov ∧ r.transferred = addresses iov ∧
    cow_iov.caller = iov ∧ cow_iov.freed = cow_iov.allocated

theorem rwvall_eq_loop (hop : op = .READV ∨ op = .WRITEV)
    (hstart : timeout ≠ -1 → start.isSome) {iov : List IoVec} (hfits : totalLen iov < 2 ^ 31)
    {now : Int} :
    rwvall op fd iov timeout start intr now rounds =
      rwvallLoop op fd start intr (totalLen iov) (.new iov) timeout now rounds := by
  have hleft : (COWIoVec.new iov).bytes_left_ = totalLen iov := Nat.mod_eq_of_lt (by omega)
  unfold rwvall
  dsimp only
  rw [hleft, IntType.int_conv_of_lt hfits, decide_and_isNone hstart]
  obtain rfl | rfl := hop <;> rfl

theorem rwvall_run (hop : op = .READV ∨ op = .WRITEV) (htimeout : -1 ≤ timeout)
    (hstart : timeout ≠ -1 → start.isSome)
    (hrounds : List.Forall₂ (Transfers op fd intr timeout) rounds ccs)
    {iov : List IoVec} (hsum : ccs.sum = totalLen iov) (hfits : totalLen iov < 2 ^ 31)
    (now : Int) :
    ∃ r cow_iov, rwvall op fd iov timeout start intr now rounds = .ok (r, cow_iov) ∧
      r.cc = totalLen iov ∧ r.transferred = addresses iov ∧ cow_iov.caller = iov ∧
      (cow_iov.freed = cow_iov.allocated ↔ iov.length ≤ 16 ∨ ccs.length ≤ 1) := by
  have hfits' : totalLen iov < 2 ^ 64 := by omega
  have hleft : (COWIoVec.new iov).bytes_left_ = totalLen iov := Nat.mod_eq_of_lt hfits'
  have hpositive : -1 < timeout → start.isSome := fun h => hstart (by omega)
  rw [rwvall_eq_loop hop hstart hfits]
  cases hrounds with
  | nil =>
    -- there is nothing to transfer
    have hzero : totalLen iov = 0 := hsum.symm
    refine ⟨_, _, rwvallLoop_done (by rw [hleft, hzero]) [], rfl, ?_, rfl, ?_⟩
    · exact (List.eq_nil_of_length_eq_zero (by rw [length_addresses, hzero])).symm
    · exact iff_of_true rfl (.inr (Nat.zero_le 1))
  | cons hsteps hrest =>
    rename_i steps cc rounds ccs
    rw [List.sum_cons] at hsum
    have hpos := hsteps.pos
    have hentries := COWIoVec.entries_new iov
    by_cases hall : cc = totalLen iov
    · -- the first transfer takes everything
      have hnone : ccs = [] := by
        cases hrest with
        | nil => rfl
        | cons hsteps' _ =>
          have hpos' := hsteps'.pos
          rw [List.sum_cons] at hsum
          omega
      have hconsume : (COWIoVec.new iov).consume cc =
          .ok { COWIoVec.new iov with iov_ := none, bytes_left_ := 0 } := by
        rw [hall]
        exact COWIoVec.consume_new_all hfits'
      obtain ⟨timeout', t, waits, -, -, hround⟩ := rwvallLoop_round hop htimeout
        hpositive hsteps (by omega) hentries hconsume (totalLen iov) now rounds
      refine ⟨{
          cc := totalLen iov
          now := t
          transferred := (addresses iov).take cc ++ []
          waits := waits ++ [] },
        { COWIoVec.new iov with iov_ := none, bytes_left_ := 0 }, ?_, rfl, ?_, rfl, ?_⟩
      · rw [hround, rwvallLoop_done rfl rounds]
        rfl
      · rw [List.append_nil, List.take_of_length_le (by rw [length_addresses, hall])]
      · rw [hnone]
        exact iff_of_true rfl (.inr (Nat.le_refl 1))
    · -- the first transfer is short
      have hshort : cc < totalLen iov := by omega
      obtain ⟨c₁, hconsume, hcopied₁⟩ := COWIoVec.consume_new hfits' hshort
      obtain ⟨timeout', t, waits, htimeout', hsame, hround⟩ := rwvallLoop_round hop htimeout
        hpositive hsteps (by omega) hentries hconsume (totalLen iov) now rounds
      obtain ⟨r, c₂, hrun, hcc, htransferred, hcopied₂⟩ := rwvallLoop_copied hop hrest
        (totalLen iov) t htimeout' hsame hpositive hcopied₁ hsum
      refine ⟨{ r with
        transferred := (addresses iov).take cc ++ r.transferred
        waits := waits ++ r.waits }, c₂, by rw [hround, hrun]; rfl, hcc, ?_, hcopied₂.caller, ?_⟩
      · show (addresses iov).take cc ++ r.transferred = _
        rw [htransferred, List.take_append_drop]
      · rw [hcopied₂.freed_iff]
        have hmore : ccs ≠ [] := by
          rintro rfl
          exact hall hsum
        have hlength : ¬ (cc :: ccs).length ≤ 1 := by
          rw [List.length_cons]
          have := List.length_pos_iff.2 hmore
          omega
        rw [or_iff_left hlength]

/-- Whatever the vectors are and however short the transfers, `rwvall` transfers everything
    once and frees what it has allocated exactly where the total fits an `int`, and where
    the vectors fit the static array or the first transfer takes them all. -/
theorem rwvall_transfersAll_iff (hop : op = .READV ∨ op = .WRITEV) (htimeout : -1 ≤ timeout)
    (hstart : timeout ≠ -1 → start.isSome)
    (hrounds : List.Forall₂ (Transfers op fd intr timeout) rounds ccs)
    (hsum : ccs.sum = totalLen iov) (now : Int) :
    TransfersAll iov (rwvall op fd iov timeout start intr now rounds) ↔
      totalLen iov < 2 ^ 31 ∧ (iov.length ≤ 16 ∨ ccs.length ≤ 1) := by
  constructor
  · rintro ⟨r, c, hrun, hcc, htransferred, hcaller, hfreed⟩
    -- a total that does not fit an `int` is not what is returned
    have hfits : totalLen iov < 2 ^ 31 := by
      obtain ⟨-, -, hrest⟩ := bind_eq_ok.1 hrun
      obtain ⟨-, -, hloop⟩ := bind_eq_ok.1 hrest
      have hint := rwvallLoop_cc hloop
      rw [hcc, IntType.int_conv] at hint
      omega
    obtain ⟨r', c', hrun', -, -, -, hiff⟩ :=
      rwvall_run hop htimeout hstart hrounds hsum hfits now
    obtain ⟨-, rfl⟩ := Prod.mk.inj (Except.ok.inj (hrun'.symm.trans hrun))
    exact ⟨hfits, hiff.1 hfreed⟩
  · rintro ⟨hfits, hcond⟩
    obtain ⟨r, c, hrun, hcc, htransferred, hcaller, hiff⟩ :=
      rwvall_run hop htimeout hstart hrounds hsum hfits now
    exact ⟨r, c, hrun, hcc, htransferred, hcaller, hiff.2 hcond⟩

end Run

/-- A call of `rwdata` without a timeout that transfers `cc` bytes at once. -/
def oneStep (cc : Nat) : List RwStep := [{ polls := [], cc, errno := .other, now := 0 }]

/-- Two vectors, of which the second is transferred in two parts. -/
theorem rwvall_transfersAll_two : TransfersAll [⟨0, 2⟩, ⟨10, 3⟩]
    (rwvall .WRITEV 1 [⟨0, 2⟩, ⟨10, 3⟩] (-1) none none 0 [oneStep 3, oneStep 2]) := by
  have hrounds : List.Forall₂ (Transfers .WRITEV 1 none (-1)) [oneStep 3, oneStep 2] [3, 2] :=
    .cons ⟨_, 0, rfl, rfl⟩ (.cons ⟨_, 0, rfl, rfl⟩ .nil)
  exact (rwvall_transfersAll_iff (.inr rfl) (by decide) (fun h => absurd rfl h) hrounds rfl 0).2
    ⟨by decide, .inl (by decide)⟩

/-- Without the condition it does not: of seventeen vectors the first goes alone, and the null
    pointer is freed. -/
theorem not_rwvall_transfersAll_short : ¬ ∀ (op : IO_Op_t) (fd : Int) (iov : List IoVec)
    (timeout : Int) (start : Option Timeval) (intr : Option Int) (now : Int)
    (rounds : List (List RwStep)) (ccs : List Nat), op = .READV ∨ op = .WRITEV → -1 ≤ timeout →
    (timeout ≠ -1 → start.isSome) → List.Forall₂ (Transfers op fd intr timeout) rounds ccs →
    ccs.sum = totalLen iov →
    TransfersAll iov (rwvall op fd iov timeout start intr now rounds) := by
  intro h
  have hrounds : List.Forall₂ (Transfers .WRITEV 1 none (-1)) [oneStep 1, oneStep 16] [1, 16] :=
    .cons ⟨_, 0, rfl, rfl⟩ (.cons ⟨_, 0, rfl, rfl⟩ .nil)
  obtain ⟨r, c, hrun, -, -, -, hfreed⟩ := h .WRITEV 1 (List.replicate 17 ⟨0, 1⟩) (-1) none none 0
    _ _ (.inr rfl) (by decide) (fun h => absurd rfl h) hrounds rfl
  have hsum : [1, 16].sum = totalLen (List.replicate 17 ⟨0, 1⟩) := rfl
  obtain ⟨r', c', hrun', -, -, -, hiff⟩ := rwvall_run (.inr rfl) (by decide)
    (fun h => absurd rfl h) hrounds hsum (by decide) 0
  obtain ⟨-, rfl⟩ := Prod.mk.inj (Except.ok.inj (hrun'.symm.trans hrun))
  exact absurd (hiff.1 hfreed) (by decide)

end Oasys.Io
