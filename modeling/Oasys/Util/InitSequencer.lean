import Oasys.Debug.DebugUtils
import Mathlib.Order.Defs.LinearOrder

/-!
# InitSequencer

`util/InitSequencer.cc`: initialization steps with the names of the steps they depend on,
and the sequencer that runs those that a target needs, in an order in which each comes
after its dependencies. A loop over a stack and a recursion take the number of rounds and
the depth that they may use.
-/

namespace Oasys.InitSequencer

variable {ν : Type} [LinearOrder ν]

/-- A single step in the dependency ordering. -/
structure InitStep (ν : Type) where
  name_ : ν
  dependencies_ : List ν
  /-- The step is an `InitConfigStep`. -/
  config : Bool
  done_ : Bool
  /-- Mark for dependency checking. -/
  mark_ : Bool
  /-- Finishing time for the topological sort. -/
  time_ : Int
  deriving DecidableEq, Repr

/-- A step as its constructor leaves it. -/
def InitStep.new (name : ν) (deps : List ν) (config : Bool) : InitStep ν :=
  ⟨name, deps, config, false, false, -1⟩

/-- Adds a dependency to a predefined step. -/
structure InitExtraDependency (ν : Type) where
  new_dep_ : ν
  depender_ : ν
  deriving DecidableEq, Repr

/-- The steps under their names, in the order in which the map goes through them. -/
@[ext] structure StepMap (ν : Type) [LinearOrder ν] where
  steps : List (InitStep ν)
  sorted : (steps.map InitStep.name_).Pairwise (· < ·)

namespace StepMap

/-- The names in a map. -/
def names (m : StepMap ν) : List ν := m.steps.map InitStep.name_

def empty : StepMap ν := ⟨[], List.Pairwise.nil⟩

def find? (m : StepMap ν) (name : ν) : Option (InitStep ν) :=
  m.steps.find? fun step => step.name_ = name

/-- A change to every step that leaves the names as they are. -/
def map (m : StepMap ν) (f : InitStep ν → InitStep ν) (hf : ∀ step, (f step).name_ = step.name_) :
    StepMap ν where
  steps := m.steps.map f
  sorted := by
    have : InitStep.name_ ∘ f = InitStep.name_ := funext hf
    simpa [this] using m.sorted

/-- A change to one step. -/
def modify (m : StepMap ν) (name : ν) (f : InitStep ν → InitStep ν)
    (hf : ∀ step, (f step).name_ = step.name_) : StepMap ν :=
  m.map (fun step => if step.name_ = name then f step else step) fun step => by
    split
    · exact hf step
    · rfl

/-- Puts a step in its place. A step that has its name already stays. -/
def insertInto (step : InitStep ν) : List (InitStep ν) → List (InitStep ν)
  | [] => [step]
  | t :: rest =>
    if step.name_ < t.name_ then step :: t :: rest
    else if step.name_ = t.name_ then t :: rest
    else t :: insertInto step rest

theorem mem_names_insertInto {step : InitStep ν} {steps : List (InitStep ν)} {x : ν}
    (h : x ∈ (insertInto step steps).map InitStep.name_) :
    x = step.name_ ∨ x ∈ steps.map InitStep.name_ := by
  induction steps with
  | nil => simpa [insertInto] using h
  | cons t rest ih =>
    rw [insertInto] at h
    split at h
    · simpa using h
    · split at h
      · exact .inr h
      · simp only [List.map_cons, List.mem_cons] at h ⊢
        rcases h with h | h
        · simp [h]
        · exact (ih h).imp_right .inr

theorem sorted_insertInto (step : InitStep ν) {steps : List (InitStep ν)}
    (h : (steps.map InitStep.name_).Pairwise (· < ·)) :
    ((insertInto step steps).map InitStep.name_).Pairwise (· < ·) := by
  induction steps with
  | nil => simp [insertInto]
  | cons t rest ih =>
    obtain ⟨hlt, hrest⟩ := List.pairwise_cons.1 h
    rw [insertInto]
    split
    · rename_i hstep
      refine List.pairwise_cons.2 ⟨fun x hx => ?_, h⟩
      rcases List.mem_cons.1 hx with rfl | hx
      · exact hstep
      · exact lt_trans hstep (hlt x hx)
    · split
      · exact h
      · rename_i hnlt hne
        refine List.pairwise_cons.2 ⟨fun x hx => ?_, ih hrest⟩
        rcases mem_names_insertInto hx with rfl | hx
        · exact lt_of_le_of_ne (not_lt.1 hnlt) (Ne.symm hne)
        · exact hlt x hx

def insert (m : StepMap ν) (step : InitStep ν) : StepMap ν :=
  ⟨insertInto step m.steps, sorted_insertInto step m.sorted⟩

end StepMap

/-- An `InitSequencer`. -/
structure State (ν : Type) [LinearOrder ν] where
  steps_ : StepMap ν
  dfs_time_ : Int
  extra_dependencies_ : List (InitExtraDependency ν)

/-- `add_step`, which ignores a step whose name is known. -/
def addStep (s : State ν) (step : InitStep ν) : State ν :=
  { s with steps_ := s.steps_.insert step }

/-- `operator[]` of the map, which gives a null pointer for a name that it lacks. -/
def deref (m : StepMap ν) (name : ν) : Except Fault (InitStep ν) :=
  match m.find? name with
  | some step => pure step
  | none => throw .nullDeref

def getStep (m : StepMap ν) (name : ν) : Except Fault (InitStep ν) := do
  assert (m.find? name).isSome
  deref m name

def addDep (m : StepMap ν) (name dep : ν) : StepMap ν :=
  m.modify name (fun step => { step with dependencies_ := step.dependencies_ ++ [dep] })
    fun _ => rfl

/-- The loop of `add_extra_deps`. -/
def addDeps : List (InitExtraDependency ν) → StepMap ν → Except Fault (StepMap ν)
  | [], m => pure m
  | i :: rest, m => do
    assert (m.find? i.new_dep_).isSome
    assert (m.find? i.depender_).isSome
    addDeps rest (addDep m i.depender_ i.new_dep_)

/-- `add_extra_deps`, which clears them after the first add. -/
def addExtraDeps (s : State ν) : Except Fault (State ν) := do
  let steps_ ← addDeps s.extra_dependencies_ s.steps_
  return { s with steps_, extra_dependencies_ := [] }

/-- The loop of `mark_dep` over the dependencies of a step. -/
def pushDeps (m : StepMap ν) : List ν → List ν → Except Fault (List ν)
  | [], step_stack => pure step_stack
  | i :: dependencies, step_stack =>
    match m.find? i with
    | none => throw .panic
    | some dep => pushDeps m dependencies (if dep.mark_ then step_stack else i :: step_stack)

def setMark (m : StepMap ν) (name : ν) : StepMap ν :=
  m.modify name (fun step => { step with mark_ := true }) fun _ => rfl

/-- The loop of `mark_dep` over the stack, whose top is at the front. -/
def markLoop : Nat → StepMap ν → List ν → Except Fault (StepMap ν)
  | _, m, [] => pure m
  | 0, _, _ :: _ => throw .outOfFuel
  | fuel + 1, m, name :: step_stack => do
    let step ← deref m name
    let m := if step.mark_ then m else setMark m name
    let step_stack ← pushDeps m step.dependencies_ step_stack
    markLoop fuel m step_stack

/-- The rounds of the loop: one for the target, and one for every dependency. -/
def markFuel (m : StepMap ν) : Nat :=
  1 + (m.steps.map fun step => step.dependencies_.length).sum

/-- `mark_dep`: marks the steps that are needed to start the target. -/
def markDep (s : State ν) (target : ν) : Except Fault (State ν) := do
  let m := s.steps_.map (fun step => { step with mark_ := false }) fun _ => rfl
  assert (m.find? target).isSome
  let steps_ ← markLoop (markFuel m) m [target]
  return { s with steps_ }

/-- `edges[j]`: the steps that depend on `j`, once for each time they list it. -/
def edges (m : StepMap ν) (j : ν) : List ν :=
  m.steps.flatMap fun step => (step.dependencies_.filter (· = j)).map fun _ => step.name_

def dfs (edges : ν → List ν) : Nat → State ν → ν → Except Fault (State ν)
  | 0, _, _ => throw .outOfFuel
  | fuel + 1, s, step => do
    let s ← (edges step).foldlM (fun s i => do
      let next ← deref s.steps_ i
      if next.time_ = -1 then dfs edges fuel s i else pure s) s
    return { s with
      steps_ := s.steps_.modify step (fun t => { t with time_ := s.dfs_time_ }) fun _ => rfl
      dfs_time_ := s.dfs_time_ + 1 }

/-- The steps that start out on the stack of `topo_sort`, its top at the front. -/
def roots (m : StepMap ν) : List ν :=
  ((m.steps.filter fun step => step.dependencies_.length = 0).map InitStep.name_).reverse

/-- `topo_sort`: numbers the steps as a depth-first search along the edges finishes them. -/
def topoSort (s : State ν) : Except Fault (State ν) :=
  let m := s.steps_.map (fun step => { step with time_ := -1 }) fun _ => rfl
  (roots m).foldlM (dfs (edges m) (m.steps.length + 1)) { s with steps_ := m, dfs_time_ := 0 }

def depAreSatisfied (m : StepMap ν) (step : InitStep ν) : Except Fault Bool :=
  step.dependencies_.foldlM (fun sat i => do
    let dep ← getStep m i
    return sat && dep.done_) true

/-- `run` of a step, with what its `run_component` returns. A configuration step is done only
    when it is configured. -/
def run (run_component : ν → Int) (m : StepMap ν) (step : InitStep ν) : Int × StepMap ν :=
  if step.config then (0, m)
  else
    let err := run_component step.name_
    if err = 0 then
      (err, m.modify step.name_ (fun t => { t with done_ := true }) fun _ => rfl)
    else (err, m)

/-- What `start` ends with: its result, the steps it has run, and the steps as they are then. -/
structure Started (ν : Type) [LinearOrder ν] where
  err : Int
  ran : List ν
  steps_ : StepMap ν

/-- The loop of `run_steps`. -/
def runLoop (run_component : ν → Int) : List ν → StepMap ν → List ν → Except Fault (Started ν)
  | [], m, ran => pure ⟨0, ran, m⟩
  | i :: step_list, m, ran => do
    let step ← deref m i
    if step.mark_ && !step.done_ then
      assert (← depAreSatisfied m step)
      match run run_component m step with
      | (err, m) =>
        if err ≠ 0 then return ⟨err, ran ++ [i], m⟩
        else runLoop run_component step_list m (ran ++ [i])
    else runLoop run_component step_list m ran

/-- Sorts in decreasing order. -/
def initStepSort (left right : InitStep ν) : Bool := left.time_ > right.time_

/-- `run_steps`. `std::sort` may leave steps with equal times in any order; these are the
    steps that the search did not come to. -/
def runSteps (run_component : ν → Int) (s : State ν) : Except Fault (Started ν) :=
  let step_list := s.steps_.steps.mergeSort fun left right => !initStepSort right left
  runLoop run_component (step_list.map InitStep.name_) s.steps_ []

def start (run_component : ν → Int) (s : State ν) (step : ν) : Except Fault (Started ν) := do
  let s ← addExtraDeps s
  let s ← markDep s step
  let s ← topoSort s
  runSteps run_component s

end Oasys.InitSequencer
