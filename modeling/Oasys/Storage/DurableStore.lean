import Oasys.Util.IntType

/-!
# DurableStore

The result codes and the flags of `storage/DurableStore.h` that the tables and their
object cache use, and the transactions of `storage/DurableStore.cc`. What the
implementation behind `impl_` answers to a call is a parameter of the call.
-/

namespace Oasys

inductive DurableStoreResult where
  | DS_OK
  | DS_NOTFOUND
  | DS_EXISTS
  | DS_BADTYPE
  | DS_ERR
  deriving DecidableEq, Repr

/-- The bits of `DurableStoreFlags_t` that `put` looks at. -/
structure DurableStoreFlags where
  DS_CREATE : Bool
  DS_EXCL : Bool
  deriving DecidableEq, Repr

/-- The transactions of a `DurableStore`. The handle of a transaction is a number, and
    `none` stands for `NULL`; `tx_counter_` is only logged. -/
structure DurableStore where
  open_txid_ : Option Nat
  durably_close_next_transaction_ : Bool
  /-- An `int`, as is `max_nondurable_transactions_`. -/
  num_nondurable_transactions_ : Int
  max_nondurable_transactions_ : Int
  deriving DecidableEq, Repr

namespace DurableStore

/-! The results of the implementation, which may return any `int`. -/

def DS_OK : Int := 0
def DS_BUSY : Int := -3
def DS_ERR : Int := -1000

/-- The store that the constructor and `create_store` leave. -/
def createStore (max_nondurable_transactions : Int) : DurableStore where
  open_txid_ := none
  durably_close_next_transaction_ := false
  num_nondurable_transactions_ := 0
  max_nondurable_transactions_ := max_nondurable_transactions

/-- `begin_transaction`, where the implementation returns `ret` and leaves `txid`. -/
def beginTransaction (d : DurableStore) (ret : Int) (txid : Option Nat) : Int × DurableStore :=
  if d.open_txid_.isSome then (DS_OK, d)
  else if ret = DS_ERR then (DS_ERR, { d with open_txid_ := txid })
  else (DS_OK, { d with open_txid_ := txid })

/-- Whether `end_transaction` has the implementation commit durably, once it has counted
    the transaction. -/
def beDurable (d : DurableStore) (num_nondurable_transactions : Int) : Bool :=
  d.durably_close_next_transaction_ ||
    num_nondurable_transactions > d.max_nondurable_transactions_

/-- `end_transaction`, where the implementation returns `ret`. -/
def endTransaction (B : Build) (d : DurableStore) (ret : Int) :
    Except Fault (Int × DurableStore) := do
  let num_nondurable_transactions_ ← IntType.int.arith B (d.num_nondurable_transactions_ + 1)
  let code := if ret = DS_OK then ret else DS_BUSY
  if d.beDurable num_nondurable_transactions_ then
    return (code, { d with
      open_txid_ := none
      durably_close_next_transaction_ := false
      num_nondurable_transactions_ := 0 })
  else
    return (code, { d with open_txid_ := none, num_nondurable_transactions_ })

def makeTransactionDurable (d : DurableStore) : DurableStore :=
  { d with durably_close_next_transaction_ := true }

end DurableStore

end Oasys
