import Mathlib.Algebra.Order.Ring.Int

/-!
# Faults

The ways a run of the library ends other than by returning. `ASSERT` and `PANIC`
end the process by design; the rest is behavior C++ leaves undefined, which a
model must not silently give a value to.
-/

namespace Oasys

/-- Why a run stopped without returning. -/
inductive Fault where
  /-- `ASSERT` found its condition false. -/
  | assertFailed
  /-- `PANIC` was reached. -/
  | panic
  /-- A read or a write through a null pointer. -/
  | nullDeref
  /-- A read or a write outside the buffer it goes to. -/
  | outOfBounds
  /-- A signed expression whose value its type does not hold. -/
  | overflow
  /-- An integer division by zero. -/
  | divByZero
  /-- A use of an object that does not exist, or not any more. -/
  | useAfterFree
  /-- A use of a container iterator that an earlier call invalidated. -/
  | invalidIterator
  /-- A use of the value of a variable that was given none. -/
  | indeterminate
  /-- A loop was given fewer iterations than it makes. -/
  | outOfFuel
  deriving DecidableEq, Repr

/-- The `ASSERT` macro. -/
def assert (x : Bool) : Except Fault Unit :=
  if x then pure () else throw .assertFailed

@[simp] theorem assert_true : assert true = .ok () := rfl

@[simp] theorem assert_false : assert false = .error .assertFailed := rfl

@[simp] theorem pure_eq_ok {α : Type} (a : α) : (pure a : Except Fault α) = .ok a := rfl

@[simp] theorem throw_eq_error {α : Type} (e : Fault) : (throw e : Except Fault α) = .error e := rfl

@[simp] theorem ok_bind {α β : Type} (a : α) (f : α → Except Fault β) :
    ((.ok a : Except Fault α) >>= f) = f a := rfl

@[simp] theorem error_bind {α β : Type} (e : Fault) (f : α → Except Fault β) :
    ((.error e : Except Fault α) >>= f) = .error e := rfl

theorem bind_eq_ok {α β : Type} {x : Except Fault α} {f : α → Except Fault β} {b : β} :
    x >>= f = .ok b ↔ ∃ a, x = .ok a ∧ f a = .ok b := by
  cases x with
  | error e => simp
  | ok a => simp

theorem assert_bind_eq_ok {α : Type} {x : Bool} {f : Unit → Except Fault α} {a : α} :
    assert x >>= f = .ok a ↔ x = true ∧ f () = .ok a := by
  cases x with
  | false => simp
  | true => simp

theorem map_ok {α β : Type} (f : α → β) (a : α) :
    f <$> (.ok a : Except Fault α) = .ok (f a) := rfl

theorem map_eq_ok {α β : Type} {f : α → β} {x : Except Fault α} {b : β} :
    f <$> x = .ok b ↔ ∃ a, x = .ok a ∧ f a = b := by
  cases x with
  | error e => simp [Functor.map, Except.map]
  | ok a => simp [Functor.map, Except.map]

/-- The build options the models depend on. -/
structure Build where
  /-- Signed overflow wraps around (`-fwrapv`); otherwise it is undefined. -/
  wrapv : Bool
  /-- `NDEBUG` is defined, which compiles the consistency checks out. -/
  ndebug : Bool
  deriving DecidableEq, Repr

end Oasys
