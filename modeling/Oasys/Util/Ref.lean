import Oasys.Debug.DebugUtils
import Mathlib.Logic.Function.Basic

/-!
# Ref

`util/Ref.h`, `util/TempRef.h` and `util/RefCountedObject.cc`: objects that count the `Ref`s
on them and delete themselves when there is none left. `delete` runs the destructor of the
object, which may use `Ref`s in turn before the call returns, so a state has the calls of
`no_more_refs` that are under way on a stack. What an operation does after `del_ref` waits
there with them. The debugging strings are left out.
-/

namespace Oasys.Ref

variable {Obj Var Temp : Type}

/-- What `release`, `assign` or the destructor does once `del_ref` has returned. -/
structure Rest (Obj Var Temp : Type) where
  ref : Var
  /-- The value that `object_` gets. -/
  object_ : Option Obj
  /-- The `TempRef` to release. -/
  temp : Option Temp
  /-- It is the destructor, so that the `Ref` is gone in the end. -/
  ends : Bool
  deriving DecidableEq, Repr

/-- A call of `no_more_refs` under way. -/
structure Frame (Obj Var Temp : Type) where
  object : Obj
  rest : Rest Obj Var Temp
  deriving DecidableEq, Repr

/-- The objects with their counts, and the `Ref`s and `TempRef`s that exist with the object
    each points to. -/
structure State (Obj Var Temp : Type) where
  refcount_ : Obj → Nat
  /-- How often `no_more_refs` has been called. -/
  no_more_refs : Obj → Nat
  refs : Var → Option (Option Obj)
  temps : Temp → Option (Option Obj)
  stack : List (Frame Obj Var Temp)
  /-- The objects that had a reference added to them, for the statements. -/
  held : Obj → Bool

/-- Every object new, and no `Ref` yet. -/
def State.init : State Obj Var Temp where
  refcount_ := fun _ => 0
  no_more_refs := fun _ => 0
  refs := fun _ => none
  temps := fun _ => none
  stack := []
  held := fun _ => false

/-- A use of an object, which must not have been deleted. -/
def touch (s : State Obj Var Temp) (o : Obj) : Except Fault Unit :=
  if s.no_more_refs o = 0 then pure () else throw .useAfterFree

/-- The pointer in a `Ref`. -/
def object (s : State Obj Var Temp) (v : Var) : Except Fault (Option Obj) :=
  match s.refs v with
  | some object_ => pure object_
  | none => throw .useAfterFree

/-- The pointer in a `TempRef`. -/
def tempObject (s : State Obj Var Temp) (t : Temp) : Except Fault (Option Obj) :=
  match s.temps t with
  | some object_ => pure object_
  | none => throw .useAfterFree

variable [DecidableEq Obj] [DecidableEq Var] [DecidableEq Temp]

def addRef (s : State Obj Var Temp) (o : Obj) : Except Fault (State Obj Var Temp) := do
  touch s o
  let value := (s.refcount_ o + 1) % 2 ^ 32
  assert (value > 0)
  return { s with
    refcount_ := Function.update s.refcount_ o value
    held := Function.update s.held o true }

/-- `del_ref` up to where it calls `no_more_refs`, and whether it does. -/
def delRef (s : State Obj Var Temp) (o : Obj) : Except Fault (State Obj Var Temp × Bool) := do
  touch s o
  assert (s.refcount_ o > 0)
  let value := (s.refcount_ o + (2 ^ 32 - 1)) % 2 ^ 32
  let s := { s with refcount_ := Function.update s.refcount_ o value }
  if value = 0 then
    let no_more_refs := Function.update s.no_more_refs o (s.no_more_refs o + 1)
    return ({ s with no_more_refs := no_more_refs }, true)
  return (s, false)

/-- The call of `add_ref` where a pointer is not null. -/
def addRef? (s : State Obj Var Temp) : Option Obj → Except Fault (State Obj Var Temp)
  | none => pure s
  | some o => addRef s o

/-- `release` of a `TempRef`. -/
def releaseTemp (s : State Obj Var Temp) (t : Temp) : Except Fault (State Obj Var Temp) := do
  let _ ← tempObject s t
  return { s with temps := Function.update s.temps t (some none) }

/-- The end of an operation, after `del_ref`. -/
def finish (s : State Obj Var Temp) (r : Rest Obj Var Temp) :
    Except Fault (State Obj Var Temp) := do
  let _ ← object s r.ref
  let s := { s with
    refs := Function.update s.refs r.ref (if r.ends then none else some r.object_) }
  match r.temp with
  | none => pure s
  | some t => releaseTemp s t

/-- The call of `del_ref` on the object of a `Ref` that has one, and the rest. -/
def letGo (s : State Obj Var Temp) (r : Rest Obj Var Temp) :
    Except Fault (State Obj Var Temp) := do
  match ← object s r.ref with
  | none => finish s r
  | some o =>
    match ← delRef s o with
    | (s, true) => pure { s with stack := ⟨o, r⟩ :: s.stack }
    | (s, false) => finish s r

/-- The constructors of a `Ref`, with the pointer it starts with. -/
def construct (s : State Obj Var Temp) (v : Var) (object_ : Option Obj) :
    Except Fault (State Obj Var Temp) := do
  let s ← addRef? s object_
  return { s with refs := Function.update s.refs v (some object_) }

/-- `assign`, and the release of the `TempRef` that the pointer comes from. -/
def assign (s : State Obj Var Temp) (v : Var) (new_obj : Option Obj) (temp : Option Temp) :
    Except Fault (State Obj Var Temp) := do
  let object_ ← object s v
  if object_ ≠ new_obj then
    let s ← addRef? s new_obj
    letGo s ⟨v, new_obj, temp, false⟩
  else
    match temp with
    | none => pure s
    | some t => releaseTemp s t

def release (s : State Obj Var Temp) (v : Var) : Except Fault (State Obj Var Temp) :=
  letGo s ⟨v, none, none, false⟩

/-- `~Ref`. -/
def destroy (s : State Obj Var Temp) (v : Var) : Except Fault (State Obj Var Temp) :=
  letGo s ⟨v, none, none, true⟩

inductive Op (Obj Var Temp : Type) where
  /-- `Ref(object)`, or `Ref()`. -/
  | new (v : Var) (x : Option Obj)
  /-- `Ref(const TempRef temp)`. -/
  | newTemp (v : Var) (t : Temp)
  /-- `Ref(const Ref& other)`. -/
  | newRef (v other : Var)
  /-- `operator=(_Type* o)`. -/
  | assign (v : Var) (x : Option Obj)
  /-- `operator=(const Ref& other)`. -/
  | assignRef (v other : Var)
  /-- `operator=(const TempRef& temp)`. -/
  | assignTemp (v : Var) (t : Temp)
  | release (v : Var)
  | destroy (v : Var)
  /-- `TempRef(object)`. -/
  | temp (t : Temp) (x : Option Obj)
  /-- `~TempRef`. -/
  | destroyTemp (t : Temp)
  deriving DecidableEq, Repr

/-- An operation up to its end, or to the destructor that it starts. -/
def apply (s : State Obj Var Temp) : Op Obj Var Temp → Except Fault (State Obj Var Temp)
  | .new v x => construct s v x
  | .newTemp v t => do
    -- the parameter is a copy, which leaves the argument null
    let object_ ← tempObject s t
    let s ← releaseTemp s t
    construct s v object_
  | .newRef v other => do
    let object_ ← object s other
    construct s v object_
  | .assign v x => assign s v x none
  | .assignRef v other => do
    let object_ ← object s other
    assign s v object_ none
  | .assignTemp v t => do
    let object_ ← tempObject s t
    assign s v object_ (some t)
  | .release v => release s v
  | .destroy v => destroy s v
  | .temp t x => pure { s with temps := Function.update s.temps t (some x) }
  | .destroyTemp t => do
    match ← tempObject s t with
    | none => pure { s with temps := Function.update s.temps t none }
    | some _ => throw .panic

/-- A step: an operation of the program or of the destructor that runs, or the return of that
    destructor. -/
def next (s : State Obj Var Temp) : Option (Op Obj Var Temp) → Except Fault (State Obj Var Temp)
  | some op => apply s op
  | none =>
    match s.stack with
    | [] => pure s
    | f :: stack => finish { s with stack } f.rest

end Oasys.Ref
