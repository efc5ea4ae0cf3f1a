import Oasys.Storage.DurableTable

/-!
# InternalKeyDurableTable

`storage/InternalKeyDurableTable.tcc`: a single-type table for objects that have their keys in
themselves. What a call of the table may not return is a panic. A client gives an object its
content before a call that stores it. The log, `do_init` and the iterator are left out.
-/

namespace Oasys

/-- The table, with the `durable_key` of the stored class and the constructor of the shim. -/
structure InternalKeyDurableTable (Store Key CacheKey Content Id : Type) where
  table_ : DurableTable Store Key CacheKey Content
  durableKey : Content → Id
  shim : Id → Key

namespace InternalKeyDurableTable

open DurableTable (State UNKNOWN_TYPE)

variable {Store Key CacheKey Ptr Content Id : Type} [DecidableEq CacheKey] [DecidableEq Ptr]
  [DecidableEq Id]

def add (t : InternalKeyDurableTable Store Key CacheKey Content Id)
    (s : State Store CacheKey Ptr Content) (data : Ptr) :
    Except Fault (Bool × State Store CacheKey Ptr Content) := do
  let (err, s) ← t.table_.put s (t.shim (t.durableKey (s.heap data))) UNKNOWN_TYPE data
    { DS_CREATE := true, DS_EXCL := true }
  if err = .DS_EXISTS then return (false, s)
  if err ≠ .DS_OK then throw .panic
  return (true, s)

def get (t : InternalKeyDurableTable Store Key CacheKey Content Id)
    (s : State Store CacheKey Ptr Content) (key : Id) (address : Ptr) :
    Except Fault (Option Ptr × State Store CacheKey Ptr Content) := do
  let ((err, data), s) ← t.table_.get s (t.shim key) address
  if err = .DS_NOTFOUND then return (none, s)
  if err ≠ .DS_OK then throw .panic
  match data with
  | none => throw .assertFailed
  | some data => do
    assert (t.durableKey (s.heap data) = key)
    return (some data, s)

def update (t : InternalKeyDurableTable Store Key CacheKey Content Id)
    (s : State Store CacheKey Ptr Content) (data : Ptr) :
    Except Fault (Bool × State Store CacheKey Ptr Content) := do
  let (err, s) ← t.table_.put s (t.shim (t.durableKey (s.heap data))) UNKNOWN_TYPE data
    { DS_CREATE := false, DS_EXCL := false }
  if err = .DS_NOTFOUND then return (false, s)
  if err ≠ .DS_OK then throw .panic
  return (true, s)

def del (t : InternalKeyDurableTable Store Key CacheKey Content Id)
    (s : State Store CacheKey Ptr Content) (key : Id) :
    Except Fault (Bool × State Store CacheKey Ptr Content) := do
  let (err, s) ← t.table_.del s (t.shim key)
  if err = .DS_NOTFOUND then return (false, s)
  if err ≠ .DS_OK then throw .panic
  return (true, s)

inductive Call (Ptr Content Id : Type) where
  | add (data : Ptr) (content : Content)
  /-- With the address a new object would have. -/
  | get (key : Id) (address : Ptr)
  | update (data : Ptr) (content : Content)
  | del (key : Id)

/-- What a client sees of a call. -/
inductive Outcome (Content : Type) where
  | done (success : Bool)
  | got (content : Option Content)
  deriving DecidableEq, Repr

def exec (t : InternalKeyDurableTable Store Key CacheKey Content Id)
    (s : State Store CacheKey Ptr Content) :
    Call Ptr Content Id → Except Fault (Outcome Content × State Store CacheKey Ptr Content)
  | .add data content => do
    let (success, s) ← t.add { s with heap := Function.update s.heap data content } data
    return (.done success, s)
  | .get key address => do
    let (data, s) ← t.get s key address
    return (.got (data.map s.heap), s)
  | .update data content => do
    let (success, s) ← t.update { s with heap := Function.update s.heap data content } data
    return (.done success, s)
  | .del key => do
    let (success, s) ← t.del s key
    return (.done success, s)

end InternalKeyDurableTable

end Oasys
