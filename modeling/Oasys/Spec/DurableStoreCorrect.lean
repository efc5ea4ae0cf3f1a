import Oasys.ForStd.Transition
import Oasys.Storage.DurableStore

/-!
# DurableStore transactions

How many transactions may end without being saved durably. `end_transaction` counts them
in `num_nondurable_transactions_` and has one saved when the count passes
`max_nondurable_transactions_`; it starts to count again whenever it has asked for a
durable end, whether or not the implementation has managed one.

In runs where no durable end fails with transactions counted, and the count stays in the
range of `int`, the count is the number of transactions since the last one that was saved.
-/

namespace Oasys.DurableStore

/-! ### The runs -/

/-- The calls of a client, each with what the implementation answers. -/
inductive Op where
  | beginTransaction (ret : Int) (txid : Option Nat)
  | endTransaction (ret : Int)
  | makeTransactionDurable
  deriving DecidableEq, Repr

/-- A store, and what its transactions came to. -/
structure State where
  store : DurableStore
  /-- The transactions that ended without being durable since the last one that ended
      durably and successfully. -/
  nondurable : Nat
  deriving DecidableEq, Repr

/-- The transaction that ends now is to be durable. -/
def State.beDurable (s : State) : Bool :=
  s.store.beDurable (s.store.num_nondurable_transactions_ + 1)

/-- What a call leaves. -/
def exec (B : Build) (s : State) : Op → Except Fault State
  | .beginTransaction ret txid => pure { s with store := (s.store.beginTransaction ret txid).2 }
  | .endTransaction ret => do
    let (_, store) ← s.store.endTransaction B ret
    let nondurable :=
      if s.beDurable then if ret = DS_OK then 0 else s.nondurable else s.nondurable + 1
    pure { store, nondurable }
  | .makeTransactionDurable => pure { s with store := s.store.makeTransactionDurable }

/-- A store of any configuration, under any sequence of calls that return. -/
def system (B : Build) : TransitionSystem State Op where
  init s := ∃ max_nondurable_transactions, IntType.int.InRange max_nondurable_transactions ∧
    s = ⟨createStore max_nondurable_transactions, 0⟩
  step s op s' := exec B s op = .ok s'

/-- No durable end fails with transactions counted, and the count stays in the range of
    `int`. -/
def Careful (s : State) : Op → Prop
  | .endTransaction ret =>
    s.store.num_nondurable_transactions_ < IntType.int.max ∧
      (s.beDurable → ret = DS_OK ∨ s.store.num_nondurable_transactions_ = 0)
  | _ => True

/-- No more transactions than allowed have ended without being durable. -/
def Bounded (s : State) : Prop := s.nondurable ≤ s.store.max_nondurable_transactions_.toNat

/-! ### The invariant -/

/-- The count is right, and it is bounded. -/
structure Inv (s : State) : Prop where
  count : s.store.num_nondurable_transactions_ = s.nondurable
  bounded : Bounded s

section Steps

variable {B : Build} {s s' : State} {op : Op}

theorem arith_count (B : Build) (h : Inv s)
    (hlt : s.store.num_nondurable_transactions_ < IntType.int.max) :
    IntType.int.arith B (s.store.num_nondurable_transactions_ + 1) =
      .ok (s.store.num_nondurable_transactions_ + 1) := by
  have hcount := h.count
  have hmin : IntType.int.min ≤ 0 := by decide
  exact IntType.arith_of_inRange B ⟨by omega, by omega⟩

theorem exec_durable (h : Inv s) (hlt : s.store.num_nondurable_transactions_ < IntType.int.max)
    (hdurable : s.beDurable = true) (ret : Int) :
    exec B s (.endTransaction ret) = .ok
      { store := { s.store with
          open_txid_ := none
          durably_close_next_transaction_ := false
          num_nondurable_transactions_ := 0 }
        nondurable := if ret = DS_OK then 0 else s.nondurable } := by
  have hbe : s.store.beDurable (s.store.num_nondurable_transactions_ + 1) = true := hdurable
  simp only [exec, endTransaction, arith_count B h hlt, hbe, hdurable, bind, Except.bind, pure,
    Except.pure, if_true]

theorem exec_nondurable (h : Inv s)
    (hlt : s.store.num_nondurable_transactions_ < IntType.int.max)
    (hdurable : s.beDurable = false) (ret : Int) :
    exec B s (.endTransaction ret) = .ok
      { store := { s.store with
          open_txid_ := none
          num_nondurable_transactions_ := s.store.num_nondurable_transactions_ + 1 }
        nondurable := s.nondurable + 1 } := by
  have hbe : s.store.beDurable (s.store.num_nondurable_transactions_ + 1) = false := hdurable
  simp only [exec, endTransaction, arith_count B h hlt, hbe, hdurable, bind, Except.bind, pure,
    Except.pure, Bool.false_eq_true, if_false]

theorem beginTransaction_counts (d : DurableStore) (ret : Int) (txid : Option Nat) :
    (d.beginTransaction ret txid).2.num_nondurable_transactions_ =
        d.num_nondurable_transactions_ ∧
      (d.beginTransaction ret txid).2.max_nondurable_transactions_ =
        d.max_nondurable_transactions_ := by
  unfold beginTransaction
  split
  · exact ⟨rfl, rfl⟩
  · split <;> exact ⟨rfl, rfl⟩

/-- The step lemma: a careful call returns, and keeps the count right. -/
theorem Inv.exec (h : Inv s) (hcareful : Careful s op) : ∃ s', exec B s op = .ok s' ∧ Inv s' := by
  have hcount := h.count
  have hbounded := h.bounded
  cases op with
  | beginTransaction ret txid =>
    obtain ⟨hnum, hmax⟩ := beginTransaction_counts s.store ret txid
    refine ⟨_, rfl, hnum.trans hcount, ?_⟩
    show s.nondurable ≤ (s.store.beginTransaction ret txid).2.max_nondurable_transactions_.toNat
    rw [hmax]
    exact hbounded
  | makeTransactionDurable => exact ⟨_, rfl, hcount, hbounded⟩
  | endTransaction ret =>
    obtain ⟨hlt, hends⟩ := hcareful
    cases hdurable : s.beDurable with
    | true =>
      refine ⟨_, exec_durable h hlt hdurable ret, ?_, ?_⟩
      · -- a durable end that fails finds nothing counted
        show (0 : Int) = ((if ret = DS_OK then 0 else s.nondurable : Nat) : Int)
        split
        · rfl
        · rename_i hfailed
          obtain hok | hzero := hends hdurable
          · exact absurd hok hfailed
          · omega
      · show (if ret = DS_OK then 0 else s.nondurable) ≤
          s.store.max_nondurable_transactions_.toNat
        split
        · exact Nat.zero_le _
        · exact hbounded
    | false =>
      refine ⟨_, exec_nondurable h hlt hdurable ret, ?_, ?_⟩
      · show s.store.num_nondurable_transactions_ + 1 = ((s.nondurable + 1 : Nat) : Int)
        omega
      · -- it is not durable because the count has not passed the maximum
        have hle : s.store.num_nondurable_transactions_ + 1 ≤
            s.store.max_nondurable_transactions_ := by
          simp only [State.beDurable, DurableStore.beDurable, Bool.or_eq_false_iff,
            decide_eq_false_iff_not] at hdurable
          omega
        show s.nondurable + 1 ≤ s.store.max_nondurable_transactions_.toNat
        omega

end Steps

/-- In every run whose calls are careful, no more transactions than allowed end without
    being durable between two that are saved, and the next careful call returns. -/
theorem bounded_of_careful (B : Build) {s : State} (hs : (system B).ReachableWith Careful s) :
    Bounded s ∧ ∀ op, Careful s op → ∃ s', exec B s op = .ok s' := by
  have hinv : Inv s := by
    apply hs.invariant
    · rintro s ⟨max_nondurable_transactions, -, rfl⟩
      exact ⟨rfl, Nat.zero_le _⟩
    · intro s op s' hinv hcareful hstep
      obtain ⟨s₁, hexec, hinv₁⟩ := hinv.exec (B := B) hcareful
      rw [show exec B s op = .ok s' from hstep] at hexec
      exact Except.ok.inj hexec ▸ hinv₁
  refine ⟨hinv.bounded, fun op hcareful => ?_⟩
  obtain ⟨s', hexec, -⟩ := hinv.exec (B := B) hcareful
  exact ⟨s', hexec⟩

/-- Two transactions with one allowed: the second one is to be saved. -/
theorem bounded_of_careful_two :
    Bounded ⟨⟨none, false, 1, 1⟩, 1⟩ ∧
      ∃ s', exec ⟨false, false⟩ ⟨⟨none, false, 1, 1⟩, 1⟩ (.endTransaction DS_OK) = .ok s' := by
  have hinit : (system ⟨false, false⟩).ReachableWith Careful ⟨createStore 1, 0⟩ :=
    .init ⟨1, by decide, rfl⟩
  have hfirst : (system ⟨false, false⟩).ReachableWith Careful ⟨⟨none, false, 1, 1⟩, 1⟩ :=
    .step (a := .endTransaction DS_OK) hinit ⟨by decide, fun _ => .inl rfl⟩ rfl
  obtain ⟨hbounded, hnext⟩ := bounded_of_careful ⟨false, false⟩ hfirst
  exact ⟨hbounded, hnext (.endTransaction DS_OK) ⟨by decide, fun _ => .inl rfl⟩⟩

/-- Without the condition they do not: the count starts again after a durable end that
    fails. -/
theorem not_bounded_failed_end : ¬ ∀ s : State, (system ⟨false, false⟩).Reachable s →
    Bounded s := by
  intro h
  have hinit : (system ⟨false, false⟩).Reachable ⟨createStore 1, 0⟩ :=
    .init ⟨1, by decide, rfl⟩
  -- a transaction that begins changes nothing but the handle
  have hends : ∀ {s s' : State} {r : Int}, (system ⟨false, false⟩).Reachable s →
      exec ⟨false, false⟩ { s with store := (s.store.beginTransaction DS_OK (some 1)).2 }
        (.endTransaction r) = .ok s' → (system ⟨false, false⟩).Reachable s' :=
    fun hs hexec => .step (.step (a := .beginTransaction DS_OK (some 1)) hs trivial rfl) trivial
      hexec
  have hfirst : (system ⟨false, false⟩).Reachable ⟨⟨none, false, 1, 1⟩, 1⟩ :=
    hends (r := DS_OK) hinit rfl
  -- the second transaction is to be saved, and is not
  have hfails : (system ⟨false, false⟩).Reachable ⟨⟨none, false, 0, 1⟩, 1⟩ :=
    hends (r := DS_ERR) hfirst rfl
  have hthird : (system ⟨false, false⟩).Reachable ⟨⟨none, false, 1, 1⟩, 2⟩ :=
    hends (r := DS_OK) hfails rfl
  have htwo : (2 : Nat) ≤ (1 : Int).toNat := h _ hthird
  exact absurd htwo (by decide)

/-! ### Where the condition does not hold -/

section Careless

variable {B : Build} {s : State}

/-- Transactions that end while fewer are counted than allowed are not durable. -/
theorem run_nondurable (hflag : s.store.durably_close_next_transaction_ = false)
    (hmax : s.store.max_nondurable_transactions_ ≤ IntType.int.max)
    (hpos : 0 ≤ s.store.num_nondurable_transactions_) (k : Nat)
    (hk : s.store.num_nondurable_transactions_ + k ≤ s.store.max_nondurable_transactions_) :
    ∃ s', (List.replicate k (Op.endTransaction DS_OK)).foldlM (exec B) s = .ok s' ∧
      s'.nondurable = s.nondurable + k ∧
      s'.store.max_nondurable_transactions_ = s.store.max_nondurable_transactions_ := by
  -- the count stays below the maximum, so no end of a transaction is durable
  induction k generalizing s with
  | zero => exact ⟨s, rfl, rfl, rfl⟩
  | succ k ih =>
    have hmin : IntType.int.min ≤ 0 := by decide
    have harith : IntType.int.arith B (s.store.num_nondurable_transactions_ + 1) =
        .ok (s.store.num_nondurable_transactions_ + 1) :=
      IntType.arith_of_inRange B ⟨by omega, by omega⟩
    have hbe : s.store.beDurable (s.store.num_nondurable_transactions_ + 1) = false := by
      simp only [beDurable, hflag, Bool.false_or, decide_eq_false_iff_not]
      omega
    have hexec : exec B s (.endTransaction DS_OK) = .ok
        { store := { s.store with
            open_txid_ := none
            num_nondurable_transactions_ := s.store.num_nondurable_transactions_ + 1 }
          nondurable := s.nondurable + 1 } := by
      simp only [exec, endTransaction, State.beDurable, harith, hbe, bind, Except.bind, pure,
        Except.pure, Bool.false_eq_true, if_false]
    obtain ⟨s', hrun, hcount, hsame⟩ := ih (s := ⟨{ s.store with
        open_txid_ := none
        num_nondurable_transactions_ := s.store.num_nondurable_transactions_ + 1 },
      s.nondurable + 1⟩) hflag hmax (by dsimp only; omega) (by dsimp only; omega)
    refine ⟨s', ?_, ?_, hsame⟩
    · rw [List.replicate_succ, List.foldlM_cons, hexec]
      exact hrun
    · rw [hcount]
      dsimp only
      omega

/-- A durable end that fails with transactions counted lets more of them go by than
    allowed. -/
theorem unbounded_of_careless (h : Inv s)
    (hmax : s.store.max_nondurable_transactions_ ≤ IntType.int.max)
    (hlt : s.store.num_nondurable_transactions_ < IntType.int.max)
    (hdurable : s.beDurable = true) {ret : Int} (hfails : ret ≠ DS_OK)
    (hcounted : s.store.num_nondurable_transactions_ ≠ 0) :
    ∃ (ops : List Op) (s' : State),
      (.endTransaction ret :: ops).foldlM (exec B) s = .ok s' ∧ ¬ Bounded s' := by
  have hcount := h.count
  have hbounded := h.bounded
  unfold Bounded at hbounded
  -- the end has reset the count although the store was not synced; now count up again
  obtain ⟨s', hrun, hsum, hsame⟩ := run_nondurable (B := B)
    (s := ⟨{ s.store with
        open_txid_ := none
        durably_close_next_transaction_ := false
        num_nondurable_transactions_ := 0 },
      if ret = DS_OK then 0 else s.nondurable⟩) rfl hmax (Int.le_refl 0)
    s.store.max_nondurable_transactions_.toNat (by dsimp only; omega)
  refine ⟨List.replicate s.store.max_nondurable_transactions_.toNat (.endTransaction DS_OK), s',
    ?_, ?_⟩
  · rw [List.foldlM_cons, exec_durable h hlt hdurable ret]
    exact hrun
  · unfold Bounded
    rw [hsame, hsum, if_neg hfails]
    dsimp only
    omega

/-- One transaction is counted, and no more may be. -/
theorem unbounded_of_careless_one :
    ∃ (ops : List Op) (s' : State), (.endTransaction DS_ERR :: ops).foldlM (exec ⟨false, false⟩)
      ⟨⟨none, true, 1, 1⟩, 1⟩ = .ok s' ∧ ¬ Bounded s' :=
  unbounded_of_careless ⟨rfl, by unfold Bounded; decide⟩ (by decide) (by decide) (by decide)
    (show DS_ERR ≠ DS_OK by decide) (by decide)

end Careless

end Oasys.DurableStore
