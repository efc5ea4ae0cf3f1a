import Oasys.Debug.DebugUtils

/-!
# Glob

`util/Glob.cc`: patterns with `*`, matched with a stack of a fixed size. A pointer into a
string is what is left of the string, without its terminator.
-/

namespace Oasys.Glob

/-- Where a match is in the pattern and in the string. -/
structure State where
  pat_ : List Char
  to_match_ : List Char
  deriving DecidableEq, Repr

def STACK_SIZE : Nat := 32

/-- The state that is given up. -/
def noMatch : State := ⟨[], "NO_MATCH".toList⟩

/-- The next character or `*` of one state, and the state to start for what is after a `*`. -/
def advance (state : State) : Except Fault (State × Option State) :=
  match state.pat_, state.to_match_ with
  | '*' :: pat, c :: to_match =>
    pure (⟨'*' :: pat, to_match⟩, if pat.head? = some c then some ⟨pat, c :: to_match⟩ else none)
  -- over the end of the string
  | '*' :: _, [] => throw .outOfBounds
  | p :: pat, c :: to_match => pure (if p = c then ⟨pat, to_match⟩ else noMatch, none)
  | _ :: _, [] => pure (noMatch, none)
  | [], _ :: _ => pure (noMatch, none)
  -- over the end of both
  | [], [] => throw .outOfBounds

/-- The first loop of a round, over the states that the round starts with. No result means
    that the stack is full. -/
def round : List State → List State → List State → Except Fault (Option (List State))
  | [], done, pushed => pure (some (done ++ pushed))
  | state :: stk, done, pushed => do
    let (state, new) ← advance state
    match new with
    | none => round stk (done ++ [state]) pushed
    | some new =>
      if done.length + 1 + stk.length + pushed.length = STACK_SIZE then pure none
      else round stk (done ++ [state]) (pushed ++ [new])

/-- A state that has come to the end. -/
def accepts (state : State) : Bool :=
  (state.pat_ = [] || state.pat_ = ['*']) && state.to_match_ = []

/-- A state that goes on. -/
def alive (state : State) : Bool := state.pat_ ≠ [] && state.to_match_ ≠ []

/-- The rounds. -/
def rounds : Nat → List State → Except Fault Bool
  | _, [] => pure false
  | 0, _ :: _ => throw .outOfFuel
  | fuel + 1, stk => do
    match ← round stk [] [] with
    | none => pure false
    | some stk =>
      if stk.any accepts then pure true
      else rounds fuel (stk.filter alive)

def fixedGlob (pat str : List Char) : Except Fault Bool :=
  if pat = [] ∧ str = [] then pure true
  else rounds (pat.length + str.length + 1) [⟨pat, str⟩]

end Oasys.Glob
