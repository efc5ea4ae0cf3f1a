import Oasys.ForStd.Dfs
import Oasys.Util.InitSequencer
import Mathlib.Tactic.ByContra

/-!
# InitSequencer correctness

The marking of `mark_dep` and the search of `topo_sort` are those of `ForStd/Dfs`, on the
graph of the dependencies and on the same graph the other way round; the marks and the
finishing times are where the steps keep what the searches have found. Decreasing
finishing times are then an order in which each step comes after its dependencies.

## Key results

- `markDep_ok`: `mark_dep` marks what the target requires
- `topoSort_ok`: the finishing times are the positions in an order of the search
- `runLoop_ok`: what the loop of `run_steps` does with steps in such an order
- `start_runs_required`: what `start` does
-/

namespace Oasys.InitSequencer

open Relation

variable {ν : Type} [LinearOrder ν] {m : StepMap ν} {x y : ν}

/-! ### The map of the steps -/

theorem StepMap.nodup_names (m : StepMap ν) : m.names.Nodup :=
  m.sorted.imp fun h => ne_of_lt h

variable {step : InitStep ν}

theorem StepMap.find?_eq_some : m.find? x = some step ↔ step ∈ m.steps ∧ step.name_ = x := by
  constructor
  · intro h
    exact ⟨List.mem_of_find?_eq_some h, by simpa using List.find?_some h⟩
  · rintro ⟨hmem, rfl⟩
    cases hfind : m.find? step.name_ with
    | none => simpa using List.find?_eq_none.1 hfind step hmem
    | some other =>
      have hname : other.name_ = step.name_ := by simpa using List.find?_some hfind
      have hinj := List.inj_on_of_nodup_map m.nodup_names
      rw [hinj (List.mem_of_find?_eq_some hfind) hmem hname]

theorem StepMap.mem_names : x ∈ m.names ↔ ∃ step, m.find? x = some step := by
  simp only [StepMap.find?_eq_some, StepMap.names, List.mem_map]

theorem StepMap.isSome_find? : (m.find? x).isSome ↔ x ∈ m.names := by
  rw [StepMap.mem_names, Option.isSome_iff_exists]

section Map

variable {f g : InitStep ν → InitStep ν} {hf : ∀ step, (f step).name_ = step.name_}
  {hg : ∀ step, (g step).name_ = step.name_}

@[simp] theorem StepMap.names_map : (m.map f hf).names = m.names := by
  have : InitStep.name_ ∘ f = InitStep.name_ := funext hf
  simp [StepMap.names, StepMap.map, this]

@[simp] theorem StepMap.find?_map : (m.map f hf).find? x = (m.find? x).map f := by
  have : ((fun step : InitStep ν => decide (step.name_ = x)) ∘ f) =
      fun step => decide (step.name_ = x) := funext fun step => by simp [hf]
  rw [StepMap.find?, StepMap.find?, StepMap.map, List.find?_map, this]

theorem StepMap.map_map : (m.map f hf).map g hg =
    m.map (g ∘ f) fun step => (hg (f step)).trans (hf step) := by
  ext1
  simp [StepMap.map]

theorem StepMap.map_congr (h : ∀ step ∈ m.steps, f step = g step) : m.map f hf = m.map g hg := by
  ext1
  simpa [StepMap.map] using h

end Map

/-! ### What the steps are to each other -/

def deps (m : StepMap ν) (x : ν) : List ν := (m.find? x).elim [] InitStep.dependencies_

def Done (m : StepMap ν) (x : ν) : Prop := ∃ step, m.find? x = some step ∧ step.done_

instance (m : StepMap ν) (x : ν) : Decidable (Done m x) :=
  match h : m.find? x with
  | none => isFalse (by simp [Done, h])
  | some step => if hd : step.done_ then isTrue ⟨step, h, hd⟩ else isFalse (by simp [Done, h, hd])

def withMarks (m : StepMap ν) (marked : List ν) : StepMap ν :=
  m.map (fun step => { step with mark_ := decide (step.name_ ∈ marked) }) fun _ => rfl

def timeOf (order : List ν) (x : ν) : Int := if x ∈ order then order.idxOf x else -1

def withTimes (m : StepMap ν) (order : List ν) : StepMap ν :=
  m.map (fun step => { step with time_ := timeOf order step.name_ }) fun _ => rfl

def withDone (m : StepMap ν) (ran : List ν) : StepMap ν :=
  m.map (fun step => { step with done_ := step.done_ || decide (step.name_ ∈ ran) }) fun _ => rfl

@[simp] theorem names_withMarks (marked : List ν) : (withMarks m marked).names = m.names :=
  StepMap.names_map

@[simp] theorem names_withTimes (order : List ν) : (withTimes m order).names = m.names :=
  StepMap.names_map

@[simp] theorem names_withDone (ran : List ν) : (withDone m ran).names = m.names :=
  StepMap.names_map

theorem deps_of_find? (h : m.find? x = some step) : deps m x = step.dependencies_ := by
  simp [deps, h]

@[simp] theorem deps_withMarks (marked : List ν) : deps (withMarks m marked) x = deps m x := by
  cases h : m.find? x with
  | none => simp [deps, withMarks, h]
  | some step => simp [deps, withMarks, h]

@[simp] theorem deps_withTimes (order : List ν) : deps (withTimes m order) x = deps m x := by
  cases h : m.find? x with
  | none => simp [deps, withTimes, h]
  | some step => simp [deps, withTimes, h]

@[simp] theorem done_withMarks (marked : List ν) : Done (withMarks m marked) x ↔ Done m x := by
  simp [Done, withMarks]

@[simp] theorem done_withTimes (order : List ν) : Done (withTimes m order) x ↔ Done m x := by
  simp [Done, withTimes]

theorem done_withDone (ran : List ν) :
    Done (withDone m ran) x ↔ Done m x ∨ x ∈ m.names ∧ x ∈ ran := by
  simp only [Done, withDone, StepMap.find?_map, Option.map_eq_some_iff, StepMap.mem_names]
  constructor
  · rintro ⟨_, ⟨step, hstep, rfl⟩, hdone⟩
    simp only [Bool.or_eq_true, decide_eq_true_eq] at hdone
    rw [(StepMap.find?_eq_some.1 hstep).2] at hdone
    exact hdone.imp (fun h => ⟨step, hstep, h⟩) fun h => ⟨⟨step, hstep⟩, h⟩
  · rintro (⟨step, hstep, hdone⟩ | ⟨⟨step, hstep⟩, hran⟩)
    · exact ⟨_, ⟨step, hstep, rfl⟩, by simp [hdone]⟩
    · refine ⟨_, ⟨step, hstep, rfl⟩, ?_⟩
      rw [(StepMap.find?_eq_some.1 hstep).2]
      simp [hran]

/-! ### mark_dep -/

theorem pushDeps_ok (marked : List ν) (dependencies : List ν) :
    ∀ step_stack, (∀ y ∈ dependencies, y ∈ m.names) →
      pushDeps (withMarks m marked) dependencies step_stack =
        .ok ((dependencies.filter (· ∉ marked)).reverse ++ step_stack) := by
  induction dependencies with
  | nil => simp [pushDeps]
  | cons i dependencies ih =>
    intro step_stack h
    obtain ⟨dep, hdep⟩ := StepMap.mem_names.1 (h i (by simp))
    have hname := (StepMap.find?_eq_some.1 hdep).2
    have hfind : (withMarks m marked).find? i =
        some { dep with mark_ := decide (i ∈ marked) } := by
      simp [withMarks, hdep, hname]
    rw [pushDeps, hfind]
    simp only
    rw [ih _ fun y hy => h y (by simp [hy])]
    by_cases hmarked : i ∈ marked
    · simp [hmarked]
    · simp [hmarked]

theorem setMark_withMarks (m : StepMap ν) (marked : List ν) (x : ν) :
    setMark (withMarks m marked) x = withMarks m (marked.insert x) := by
  rw [setMark, StepMap.modify, withMarks, StepMap.map_map, withMarks]
  apply StepMap.map_congr
  intro step _
  by_cases h : step.name_ = x
  · simp [h]
  · simp [h]

theorem markLoop_ok {R : ν → Prop}
    (hR : ∀ x, R x → x ∈ m.names ∧ ∀ y ∈ deps m x, R y) (fuel : Nat) :
    ∀ marked step_stack marked', (∀ x ∈ step_stack, R x) →
      Dfs.mark (deps m) fuel marked step_stack = some marked' →
      markLoop fuel (withMarks m marked) step_stack = .ok (withMarks m marked') := by
  induction fuel with
  | zero =>
    intro marked step_stack marked' _ h
    cases step_stack with
    | nil =>
      obtain rfl := Option.some.inj h
      rfl
    | cons x step_stack => simp [Dfs.mark] at h
  | succ fuel ih =>
    intro marked step_stack marked' hstack h
    cases step_stack with
    | nil =>
      obtain rfl : marked = marked' := by simpa [Dfs.mark] using h
      rfl
    | cons x step_stack =>
      obtain ⟨hx, hdeps⟩ := hR x (hstack x (by simp))
      obtain ⟨step, hstep⟩ := StepMap.mem_names.1 hx
      have hname := (StepMap.find?_eq_some.1 hstep).2
      have hfind : (withMarks m marked).find? x =
          some { step with mark_ := decide (x ∈ marked) } := by
        simp [withMarks, hstep, hname]
      have hset : (if decide (x ∈ marked) = true then withMarks m marked
          else setMark (withMarks m marked) x) = withMarks m (marked.insert x) := by
        by_cases hmarked : x ∈ marked
        · simp [hmarked]
        · simp [hmarked, setMark_withMarks]
      have hpush := pushDeps_ok (m := m) (marked.insert x) (deps m x) step_stack
        fun y hy => (hR y (hdeps y hy)).1
      rw [deps_of_find? hstep] at hpush
      rw [Dfs.mark, deps_of_find? hstep] at h
      rw [markLoop, deref, hfind]
      simp only [pure_eq_ok, ok_bind, hset, hpush]
      apply ih _ _ _ _ h
      intro y hy
      rcases List.mem_append.1 hy with hy | hy
      · apply hdeps
        rw [deps_of_find? hstep]
        exact (List.mem_filter.1 (List.mem_reverse.1 hy)).1
      · exact hstack y (by simp [hy])

variable {s : State ν} {target : ν}

theorem markDep_ok (hrequired : ∀ x, ReflTransGen (fun a b => b ∈ deps s.steps_ a) target x →
      x ∈ s.steps_.names) :
    ∃ marked, markDep s target = .ok { s with steps_ := withMarks s.steps_ marked } ∧
      ∀ x, x ∈ marked ↔ ReflTransGen (fun a b => b ∈ deps s.steps_ a) target x := by
  have hreset : s.steps_.map (fun step => { step with mark_ := false }) (fun _ => rfl) =
      withMarks s.steps_ [] := by
    rw [withMarks]
    apply StepMap.map_congr
    simp
  -- every dependency of a step is one of those that the fuel counts
  have hfuel : 1 + Dfs.work (deps s.steps_) s.steps_.names [] ≤
      markFuel (withMarks s.steps_ []) := by
    have hwork : (s.steps_.steps.map fun step => (deps s.steps_ step.name_).length) =
        s.steps_.steps.map fun step => step.dependencies_.length := by
      apply List.map_congr_left
      intro step hstep
      rw [deps_of_find? (StepMap.find?_eq_some.2 ⟨hstep, rfl⟩)]
    simp [Dfs.work, markFuel, withMarks, StepMap.map, StepMap.names, Function.comp_def, hwork]
  obtain ⟨marked, hmark, hmarked⟩ := Dfs.mark_iff hrequired hfuel
  refine ⟨marked, ?_, hmarked⟩
  have htarget : ((withMarks s.steps_ []).find? target).isSome = true := by
    rw [StepMap.isSome_find?, names_withMarks]
    exact hrequired target .refl
  have hloop := markLoop_ok (R := ReflTransGen (fun a b => b ∈ deps s.steps_ a) target)
    (fun x hx => ⟨hrequired x hx, fun y hy => hx.tail hy⟩) _ [] [target] marked
    (by simp [ReflTransGen.refl]) hmark
  simp only [markDep, hreset, htarget, assert_true, ok_bind, hloop, pure_eq_ok]

/-! ### topo_sort -/

theorem mem_edges : y ∈ edges m x ↔ x ∈ deps m y := by
  simp only [edges, List.mem_flatMap, List.mem_map, List.mem_filter, decide_eq_true_eq]
  constructor
  · rintro ⟨step, hstep, d, ⟨hd, rfl⟩, rfl⟩
    rwa [deps_of_find? (StepMap.find?_eq_some.2 ⟨hstep, rfl⟩)]
  · intro h
    cases hfind : m.find? y with
    | none => simp [deps, hfind] at h
    | some step =>
      obtain ⟨hstep, hname⟩ := StepMap.find?_eq_some.1 hfind
      rw [deps_of_find? hfind] at h
      exact ⟨step, hstep, x, ⟨h, rfl⟩, hname⟩

theorem mem_names_of_mem_deps (h : x ∈ deps m y) : y ∈ m.names := by
  cases hfind : m.find? y with
  | none => simp [deps, hfind] at h
  | some step => exact StepMap.mem_names.2 ⟨step, hfind⟩

@[simp] theorem edges_withTimes (order : List ν) : edges (withTimes m order) = edges m := by
  funext x
  simp [edges, withTimes, StepMap.map, List.flatMap_map]

@[simp] theorem edges_withMarks (marked : List ν) : edges (withMarks m marked) = edges m := by
  funext x
  simp [edges, withMarks, StepMap.map, List.flatMap_map]

variable {order : List ν}

theorem timeOf_snoc (hx : x ∉ order) :
    timeOf (order ++ [x]) y = if y = x then (order.length : Int) else timeOf order y := by
  by_cases hyx : y = x
  · subst hyx
    simp [timeOf, List.idxOf_append_of_notMem hx]
  · by_cases hy : y ∈ order
    · simp [timeOf, hy, hyx, List.idxOf_append_of_mem hy]
    · simp [timeOf, hy, hyx]

theorem modify_withTimes (hx : x ∉ order) :
    (withTimes m order).modify x (fun t => { t with time_ := (order.length : Int) })
      (fun _ => rfl) = withTimes m (order ++ [x]) := by
  rw [withTimes, StepMap.modify, StepMap.map_map, withTimes]
  apply StepMap.map_congr
  intro step _
  simp only [Function.comp_apply, timeOf_snoc hx]
  split <;> rfl

/-- The state of the search when it has finished the steps of `order`. -/
def searched (s : State ν) (order : List ν) : State ν :=
  { s with steps_ := withTimes s.steps_ order, dfs_time_ := order.length }

/-- A result of the search in the library, which has none where the fuel is too little. -/
def ofOption {α : Type} : Option α → Except Fault α
  | none => .error .outOfFuel
  | some a => .ok a

private theorem foldlM_searched (visit : List ν → ν → Option (List ν))
    (search : State ν → ν → Except Fault (State ν)) (P : List ν → List ν → Prop)
    (hstep : ∀ x xs order, P (x :: xs) order →
      search (searched s order) x = (ofOption (visit order x)).map (searched s))
    (hnext : ∀ x xs order order', P (x :: xs) order → visit order x = some order' → P xs order')
    (xs : List ν) :
    ∀ order, P xs order →
      xs.foldlM search (searched s order) =
        (ofOption (xs.foldlM visit order)).map (searched s) := by
  induction xs with
  | nil => exact fun _ _ => rfl
  | cons x xs ih =>
    intro order h
    rw [List.foldlM_cons, List.foldlM_cons, hstep x xs order h]
    cases hx : visit order x with
    | none => rfl
    | some order₁ => exact ih order₁ (hnext x xs order order₁ h hx)

theorem dfs_eq (fuel : Nat) : ∀ x order, Dfs.Closed (edges s.steps_) order → x ∉ order →
      dfs (edges s.steps_) fuel (searched s order) x =
        (ofOption (Dfs.visit (edges s.steps_) fuel order x)).map (searched s) := by
  induction fuel with
  | zero => exact fun _ _ _ _ => rfl
  | succ fuel ih =>
    intro x order hclosed hx
    have hfold := foldlM_searched (s := s)
      (fun order y => if y ∈ order then some order else Dfs.visit (edges s.steps_) fuel order y)
      (fun s' i => do
        let next ← deref s'.steps_ i
        if next.time_ = -1 then dfs (edges s.steps_) fuel s' i else pure s')
      (fun ys order => (∀ y ∈ ys, y ∈ edges s.steps_ x) ∧ Dfs.Closed (edges s.steps_) order)
      (by
        intro y ys order ⟨hys, hclosed⟩
        have hy := hys y List.mem_cons_self
        obtain ⟨next, hnext⟩ := StepMap.mem_names.1 (mem_names_of_mem_deps (mem_edges.1 hy))
        have hname := (StepMap.find?_eq_some.1 hnext).2
        have hfind : (searched s order).steps_.find? y =
            some { next with time_ := timeOf order y } := by
          simp [searched, withTimes, hnext, hname]
        simp only [deref, hfind, pure_eq_ok, ok_bind]
        by_cases hmem : y ∈ order
        · -- it is finished
          have hne : timeOf order y ≠ -1 := by
            simp only [timeOf, if_pos hmem]
            omega
          simp [hne, hmem, ofOption, Except.map]
        · simp only [timeOf, hmem, if_false, if_true]
          exact ih y order hclosed hmem)
      (by
        intro y ys order order' ⟨hys, hclosed⟩ hvisit
        refine ⟨fun z hz => hys z (List.mem_cons_of_mem _ hz), ?_⟩
        split at hvisit
        · obtain rfl := Option.some.inj hvisit
          exact hclosed
        · rename_i hmem
          exact (Dfs.visit_closed fuel order y order' hvisit hclosed hmem).1)
      (edges s.steps_ x) order ⟨fun _ h => h, hclosed⟩
    rw [dfs, hfold, Dfs.visit]
    cases hvisit : (edges s.steps_ x).foldlM (fun order y =>
        if y ∈ order then some order else Dfs.visit (edges s.steps_) fuel order y) order with
    | none => rfl
    | some order₁ =>
      have hx₁ := Dfs.notMem_of_foldlM hvisit hclosed hx
      simp only [ofOption, Except.map, ok_bind, pure_eq_ok]
      simp [searched, modify_withTimes hx₁]

theorem mem_roots : x ∈ roots m ↔ x ∈ m.names ∧ deps m x = [] := by
  simp only [roots, List.mem_reverse, List.mem_map, List.mem_filter, decide_eq_true_eq,
    List.length_eq_zero_iff, StepMap.mem_names]
  constructor
  · rintro ⟨step, ⟨hstep, hnone⟩, hname⟩
    have hfind := StepMap.find?_eq_some.2 ⟨hstep, hname⟩
    exact ⟨⟨step, hfind⟩, (deps_of_find? hfind).trans hnone⟩
  · rintro ⟨⟨step, hfind⟩, hnone⟩
    obtain ⟨hstep, hname⟩ := StepMap.find?_eq_some.1 hfind
    exact ⟨step, ⟨hstep, (deps_of_find? hfind).symm.trans hnone⟩, hname⟩

@[simp] theorem roots_withMarks (marked : List ν) : roots (withMarks m marked) = roots m := by
  simp [roots, withMarks, StepMap.map, List.filter_map, Function.comp_def]

@[simp] theorem roots_withTimes (order : List ν) : roots (withTimes m order) = roots m := by
  simp [roots, withTimes, StepMap.map, List.filter_map, Function.comp_def]

theorem nodup_roots (m : StepMap ν) : (roots m).Nodup := by
  rw [roots, List.nodup_reverse]
  exact m.nodup_names.sublist (List.filter_sublist.map _)

theorem unvisited_roots (m : StepMap ν) : Dfs.Unvisited (edges m) (roots m) [] where
  closed := .nil
  nodup := nodup_roots m
  fresh := by simp
  sources x hx z hz := by simp [mem_edges, (mem_roots.1 hx).2] at hz

theorem topoSort_eq (s : State ν) :
    topoSort s = (ofOption ((roots s.steps_).foldlM
      (Dfs.visit (edges s.steps_) (s.steps_.steps.length + 1)) [])).map (searched s) := by
  have hreset : s.steps_.map (fun step => { step with time_ := -1 }) (fun _ => rfl) =
      withTimes s.steps_ [] := by
    rw [withTimes]
    apply StepMap.map_congr
    simp [timeOf]
  have hlength : (withTimes s.steps_ []).steps.length = s.steps_.steps.length := by
    simp [withTimes, StepMap.map]
  simp only [topoSort, hreset, roots_withTimes, edges_withTimes, hlength]
  exact foldlM_searched _ (dfs (edges s.steps_) (s.steps_.steps.length + 1))
    (Dfs.Unvisited (edges s.steps_))
    (fun x xs order h => dfs_eq _ x order h.closed (h.fresh x List.mem_cons_self))
    (fun _ _ _ _ h hvisit => h.next hvisit) (roots s.steps_) [] (unvisited_roots s.steps_)

theorem topoSort_some {R : ν → Prop} (hroots : ∀ x ∈ roots s.steps_, R x)
    (hnext : ∀ x, R x → ∀ y ∈ edges s.steps_ x, R y)
    (hacyclic : ∀ x, R x → ¬ TransGen (fun a b => b ∈ deps s.steps_ a) x x) :
    ∃ order, topoSort s = .ok (searched s order) ∧
      (roots s.steps_).foldlM (Dfs.visit (edges s.steps_) (s.steps_.steps.length + 1)) [] =
        some order := by
  have hR : ∀ x y, TransGen (fun a b => R a ∧ b ∈ edges s.steps_ a) x y → R x ∧
      TransGen (fun a b => b ∈ deps s.steps_ a) y x := by
    intro x y hxy
    induction hxy with
    | single h => exact ⟨h.1, .single (mem_edges.1 h.2)⟩
    | tail _ h ih => exact ⟨ih.1, .head (mem_edges.1 h.2) ih.2⟩
  obtain ⟨rank, hle, hrank⟩ := Dfs.exists_rank (r := fun x y => R x ∧ y ∈ edges s.steps_ x)
    s.steps_.names.toFinset
    (fun x y hxy => List.mem_toFinset.2 (mem_names_of_mem_deps (mem_edges.1 hxy.2)))
    (fun x hx => hacyclic x (hR x x hx).1 (hR x x hx).2)
  -- no path is longer than there are steps
  have hfuel : ∀ x, rank x < s.steps_.steps.length + 1 := by
    intro x
    have hcard := List.toFinset_card_le s.steps_.names
    have hlex := hle x
    simp only [StepMap.names, List.length_map] at hcard
    simp only [StepMap.names] at hlex
    omega
  obtain ⟨order, hfold⟩ := Dfs.foldlM_some
    (f := Dfs.visit (edges s.steps_) (s.steps_.steps.length + 1)) (roots s.steps_)
    (fun x hx order => Dfs.visit_some (fun x hx y hy => ⟨hnext x hx y hy, hrank x y ⟨hx, hy⟩⟩) _
      x order (hroots x hx) (hfuel x)) []
  exact ⟨order, by rw [topoSort_eq, hfold]; rfl, hfold⟩

theorem topoSort_ok (hacyclic : ∀ x, ¬ TransGen (fun a b => b ∈ deps s.steps_ a) x x) :
    ∃ order, topoSort s = .ok (searched s order) ∧ Dfs.Closed (edges s.steps_) order ∧
      ∀ x ∈ roots s.steps_, x ∈ order := by
  obtain ⟨order, htopo, hfold⟩ := topoSort_some (s := s) (R := fun _ => True) (fun _ _ => trivial)
    (fun _ _ _ _ => trivial) (fun x _ => hacyclic x)
  obtain ⟨hclosed, hroots, -⟩ := (unvisited_roots s.steps_).foldlM _ [] order hfold
  exact ⟨order, htopo, hclosed, hroots⟩

theorem mem_order (hacyclic : ∀ x, ¬ TransGen (fun a b => b ∈ deps m a) x x)
    (hclosed : Dfs.Closed (edges m) order) (hroots : ∀ x ∈ roots m, x ∈ order)
    (hx : ∀ y, ReflTransGen (fun a b => b ∈ deps m a) x y → y ∈ m.names) : x ∈ order := by
  obtain ⟨rank, -, hrank⟩ := Dfs.exists_rank (r := fun a b => b ∈ deps m a ∧ b ∈ m.names)
    m.names.toFinset (fun _ _ h => List.mem_toFinset.2 h.2)
    (fun x hx => hacyclic x (TransGen.mono (fun _ _ h => h.1) _ _ hx))
  -- down along the first dependency, until there is none
  induction hn : rank x using Nat.strong_induction_on generalizing x with
  | _ n ih =>
    subst hn
    cases hdeps : deps m x with
    | nil => exact hroots x (mem_roots.2 ⟨hx x .refl, hdeps⟩)
    | cons d rest =>
      have hd : d ∈ deps m x := by simp [hdeps]
      have hmem := ih (rank d) (hrank x d ⟨hd, hx d (.single hd)⟩)
        (fun y hy => hx y (.head hd hy)) rfl
      exact hclosed.mem_of_reach hmem (.single (mem_edges.2 hd))

/-! ### run_steps -/

/-- How it ends to run the steps of `order`, one after another up to the first that fails. -/
inductive Outcome (run_component : ν → Int) (order : List ν) (err : Int) (ran : List ν) : Prop
  | finished (hrun : ∀ x ∈ order, run_component x = 0) (herr : err = 0) (hran : ran = order)
  | stopped (l : List ν) (x : ν) (r : List ν) (horder : order = l ++ x :: r)
      (hrun : ∀ y ∈ l, run_component y = 0) (hx : run_component x ≠ 0)
      (herr : err = run_component x) (hran : ran = l ++ [x])

omit [LinearOrder ν] in
theorem Outcome.cons {run_component : ν → Int} {ran : List ν} {err : Int}
    (h : Outcome run_component order err ran) (hx : run_component x = 0) :
    Outcome run_component (x :: order) err (x :: ran) := by
  cases h with
  | finished hrun herr hran => exact .finished (by simpa [hx] using hrun) herr (by simp [hran])
  | stopped l y r horder hrun hy herr hran =>
    exact .stopped (x :: l) y r (by simp [horder]) (by simpa [hx] using hrun) hy herr
      (by simp [hran])

omit [LinearOrder ν] in
theorem Outcome.mem {run_component : ν → Int} {ran : List ν} {err : Int}
    (h : Outcome run_component order err ran) (hx : x ∈ ran) : x ∈ order := by
  cases h with
  | finished _ _ hran => rwa [hran] at hx
  | stopped l y r horder _ _ _ hran =>
    rw [hran] at hx
    rw [horder]
    simp only [List.mem_append, List.mem_cons, List.not_mem_nil, or_false] at hx ⊢
    exact hx.imp_right .inl

def needed (m : StepMap ν) (x : ν) : Bool :=
  (m.find? x).any fun step => step.mark_ && !step.done_

theorem depAreSatisfied_eq (h : ∀ y ∈ step.dependencies_, y ∈ m.names) :
    depAreSatisfied m step = .ok (decide (∀ y ∈ step.dependencies_, Done m y)) := by
  rw [depAreSatisfied]
  generalize step.dependencies_ = dependencies at h
  have hall : ∀ sat : Bool, dependencies.foldlM (fun sat i => do
      let dep ← getStep m i
      return sat && dep.done_) sat = .ok (sat && decide (∀ y ∈ dependencies, Done m y)) := by
    induction dependencies with
    | nil => simp
    | cons y dependencies ih =>
      intro sat
      obtain ⟨dep, hdep⟩ := StepMap.mem_names.1 (h y (by simp))
      have hdone : decide (Done m y) = dep.done_ := by simp [Done, hdep]
      have hget : getStep m y = .ok dep := by simp [getStep, deref, hdep]
      rw [List.foldlM_cons, hget, ok_bind, pure_eq_ok, ok_bind, ih fun z hz => h z (by simp [hz])]
      simp [← hdone, Bool.and_assoc]
  simpa using hall true

theorem depAreSatisfied_ok (h : ∀ y ∈ step.dependencies_, Done m y) :
    depAreSatisfied m step = .ok true := by
  rw [depAreSatisfied_eq, decide_eq_true h]
  intro y hy
  obtain ⟨dep, hdep, -⟩ := h y hy
  exact StepMap.mem_names.2 ⟨dep, hdep⟩

theorem modify_withDone (m : StepMap ν) (ran : List ν) (x : ν) :
    (withDone m ran).modify x (fun t => { t with done_ := true }) (fun _ => rfl) =
      withDone m (ran ++ [x]) := by
  rw [withDone, StepMap.modify, StepMap.map_map, withDone]
  apply StepMap.map_congr
  intro step _
  by_cases h : step.name_ = x
  · simp [h]
  · simp [h]

theorem withDone_nil (m : StepMap ν) : withDone m [] = m := by
  ext1
  simp [withDone, StepMap.map]

/-- The loop of `run_steps` over steps each of which comes after its dependencies. -/
theorem runLoop_ok (run_component : ν → Int)
    (hconfig : ∀ step ∈ m.steps, needed m step.name_ → ¬ step.config) (step_list : List ν) :
    ∀ ran, (∀ x ∈ step_list, x ∈ m.names) → step_list.Nodup → (∀ x ∈ step_list, x ∉ ran) →
      (∀ l x r, step_list = l ++ x :: r → needed m x → ∀ y ∈ deps m x,
        Done m y ∨ y ∈ m.names ∧ (y ∈ ran ∨ y ∈ l ∧ needed m y)) →
      ∃ err ran', runLoop run_component step_list (withDone m ran) ran =
          .ok ⟨err, ran ++ ran', withDone m (ran ++ ran'.filter (run_component · = 0))⟩ ∧
        Outcome run_component (step_list.filter (needed m)) err ran' := by
  induction step_list with
  | nil =>
    intro ran _ _ _ _
    exact ⟨0, [], by simp [runLoop], .finished (by simp) rfl rfl⟩
  | cons x step_list ih =>
    intro ran hnames hnodup hnew hdeps
    obtain ⟨hx, hnodup'⟩ := List.nodup_cons.1 hnodup
    obtain ⟨step, hstep⟩ := StepMap.mem_names.1 (hnames x (by simp))
    obtain ⟨hmem, hname⟩ := StepMap.find?_eq_some.1 hstep
    have hran : x ∉ ran := hnew x (by simp)
    have hfind : (withDone m ran).find? x = some step := by
      subst hname
      simp [withDone, hstep, hran]
    have hneeded : needed m x = (step.mark_ && !step.done_) := by simp [needed, hstep]
    rw [runLoop]
    simp only [deref, hfind, pure_eq_ok, ok_bind, ← hneeded]
    cases hn : needed m x with
    | true =>
      have hsatisfied : depAreSatisfied (withDone m ran) step = .ok true := by
        apply depAreSatisfied_ok
        intro y hy
        rw [← deps_of_find? hstep] at hy
        rw [done_withDone]
        rcases hdeps [] x step_list rfl hn y hy with hy | ⟨hy, hran | ⟨hnil, -⟩⟩
        · exact .inl hy
        · exact .inr ⟨hy, hran⟩
        · simp at hnil
      have hnotConfig : step.config = false := by
        simpa using hconfig step hmem (by rw [hname, hn])
      simp only [if_true, hsatisfied, ok_bind, assert_true, run, hnotConfig, Bool.false_eq_true,
        if_false, hname]
      by_cases hrun : run_component x = 0
      · -- it is done now, for the steps behind it
        obtain ⟨err, ran', hloop, houtcome⟩ := ih (ran ++ [x])
          (fun y hy => hnames y (by simp [hy])) hnodup' (fun y hy hc => by
            rcases List.mem_append.1 hc with hc | hc
            · exact hnew y (by simp [hy]) hc
            · obtain rfl : y = x := by simpa using hc
              exact hx hy) (fun l z r hsplit hz y hy => by
            rcases hdeps (x :: l) z r (by simp [hsplit]) hz y hy with hy | ⟨hy, hran | ⟨hl, hn⟩⟩
            · exact .inl hy
            · exact .inr ⟨hy, .inl (by simp [hran])⟩
            · rcases List.mem_cons.1 hl with rfl | hl
              · exact .inr ⟨hy, .inl (by simp)⟩
              · exact .inr ⟨hy, .inr ⟨hl, hn⟩⟩)
        refine ⟨err, x :: ran', ?_, ?_⟩
        · simp only [hrun, if_true, ne_eq, not_true_eq_false, if_false, modify_withDone, hloop]
          simp [hrun]
        · simpa [List.filter_cons, hn] using houtcome.cons hrun
      · refine ⟨run_component x, [x], by simp [hrun], ?_⟩
        exact .stopped [] x (step_list.filter (needed m)) (by simp [hn])
          (by simp) hrun rfl rfl
    | false =>
      obtain ⟨err, ran', hloop, houtcome⟩ := ih ran (fun y hy => hnames y (by simp [hy])) hnodup'
        (fun y hy => hnew y (by simp [hy])) (fun l z r hsplit hz y hy => by
          rcases hdeps (x :: l) z r (by simp [hsplit]) hz y hy with hy | ⟨hy, hran | ⟨hl, hy'⟩⟩
          · exact .inl hy
          · exact .inr ⟨hy, .inl hran⟩
          · rcases List.mem_cons.1 hl with rfl | hl
            · simp [hn] at hy'
            · exact .inr ⟨hy, .inr ⟨hl, hy'⟩⟩)
      refine ⟨err, ran', by simpa using hloop, ?_⟩
      simpa [List.filter_cons, hn] using houtcome

/-! ### start -/

/-- One step depends on another: from the start, or by an extra dependency. -/
def DependsOn (s : State ν) (x y : ν) : Prop :=
  y ∈ deps s.steps_ x ∨ ∃ e ∈ s.extra_dependencies_, e.depender_ = x ∧ e.new_dep_ = y

/-- A step is the target, or required by it through other steps. -/
def Required (s : State ν) (target : ν) : ν → Prop := ReflTransGen (DependsOn s) target

/-- What `start` expects: names that are registered, no cycle, and that the configuration
    steps are done. -/
structure Startable (s : State ν) (target : ν) : Prop where
  extra : ∀ e ∈ s.extra_dependencies_, e.new_dep_ ∈ s.steps_.names ∧ e.depender_ ∈ s.steps_.names
  registered : ∀ x, Required s target x → x ∈ s.steps_.names
  acyclic : ∀ x, ¬ TransGen (DependsOn s) x x
  configured : ∀ step ∈ s.steps_.steps, step.config → Required s target step.name_ → step.done_

def withDeps (m : StepMap ν) (extra : List (InitExtraDependency ν)) : StepMap ν :=
  m.map (fun step => { step with dependencies_ := step.dependencies_ ++
    (extra.filter fun e => e.depender_ = step.name_).map InitExtraDependency.new_dep_ })
    fun _ => rfl

@[simp] theorem names_withDeps (extra : List (InitExtraDependency ν)) :
    (withDeps m extra).names = m.names :=
  StepMap.names_map

@[simp] theorem done_withDeps (extra : List (InitExtraDependency ν)) :
    Done (withDeps m extra) x ↔ Done m x := by
  simp [Done, withDeps]

theorem addDeps_ok (extra : List (InitExtraDependency ν)) :
    ∀ m : StepMap ν, (∀ e ∈ extra, e.new_dep_ ∈ m.names ∧ e.depender_ ∈ m.names) →
      addDeps extra m = .ok (withDeps m extra) := by
  induction extra with
  | nil =>
    intro m _
    have : withDeps m [] = m := by
      ext1
      simp [withDeps, StepMap.map]
    rw [this]
    rfl
  | cons e extra ih =>
    intro m h
    obtain ⟨hnew, hdepender⟩ := h e (by simp)
    have hnames : (addDep m e.depender_ e.new_dep_).names = m.names := by
      simp [addDep, StepMap.modify]
    rw [addDeps, StepMap.isSome_find?.2 hnew, StepMap.isSome_find?.2 hdepender]
    simp only [assert_true, ok_bind]
    rw [ih _ fun i hi => by
      rw [hnames]
      exact h i (by simp [hi])]
    congr 1
    rw [withDeps, addDep, StepMap.modify, StepMap.map_map, withDeps]
    apply StepMap.map_congr
    intro step _
    by_cases hname : step.name_ = e.depender_
    · simp [hname]
    · simp [hname, Ne.symm hname]

theorem mem_deps_withDeps
    (h : ∀ e ∈ s.extra_dependencies_, e.new_dep_ ∈ s.steps_.names ∧ e.depender_ ∈ s.steps_.names) :
    y ∈ deps (withDeps s.steps_ s.extra_dependencies_) x ↔ DependsOn s x y := by
  rw [DependsOn, deps, deps, withDeps, StepMap.find?_map]
  cases hfind : s.steps_.find? x with
  | none =>
    simp only [Option.map_none, Option.elim_none, List.not_mem_nil, false_or, false_iff]
    rintro ⟨e, he, rfl, -⟩
    obtain ⟨step, hstep⟩ := StepMap.mem_names.1 (h e he).2
    simp [hfind] at hstep
  | some step =>
    have hname := (StepMap.find?_eq_some.1 hfind).2
    simp [hname, and_assoc]

theorem needed_iff {marked : List ν} : needed (withTimes (withMarks m marked) order) x = true ↔
      x ∈ m.names ∧ x ∈ marked ∧ ¬ Done m x := by
  cases hfind : m.find? x with
  | none => simp [needed, withTimes, withMarks, StepMap.mem_names, hfind]
  | some step =>
    have hname := (StepMap.find?_eq_some.1 hfind).2
    simp [needed, withTimes, withMarks, StepMap.mem_names, Done, hfind, hname]

/-- A list that `std::sort` may make of the steps: those with later finishing times are first, and
    steps with equal times in any order. -/
structure IsSorted (m : StepMap ν) (steps : List (InitStep ν)) : Prop where
  perm : steps.Perm m.steps
  sorted : steps.Pairwise fun left right => initStepSort right left = false

theorem isSorted_mergeSort (m : StepMap ν) {le : InitStep ν → InitStep ν → Bool}
    (htrans : ∀ a b c, le a b = true → le b c = true → le a c = true)
    (htotal : ∀ a b, (le a b || le b a) = true) (htime : ∀ a b, le a b = true → b.time_ ≤ a.time_) :
    IsSorted m (m.steps.mergeSort le) := by
  refine ⟨List.mergeSort_perm m.steps le, (List.pairwise_mergeSort htrans htotal m.steps).imp ?_⟩
  intro a b hab
  have hle := htime a b hab
  simpa [initStepSort] using hle

theorem isSorted_runSteps (m : StepMap ν) :
    IsSorted m (m.steps.mergeSort fun left right => !initStepSort right left) := by
  apply isSorted_mergeSort
  · intro a b c hab hbc
    simp only [initStepSort, Bool.not_eq_true', decide_eq_false_iff_not, not_lt] at hab hbc ⊢
    omega
  · intro a b
    simp only [initStepSort, Bool.or_eq_true, Bool.not_eq_true', decide_eq_false_iff_not]
    omega
  · intro a b hab
    simpa [initStepSort] using hab

theorem time_withTimes
    (h : step ∈ (withTimes m order).steps) : step.time_ = timeOf order step.name_ := by
  simp only [withTimes, StepMap.map, List.mem_map] at h
  obtain ⟨step, -, rfl⟩ := h
  rfl

theorem IsSorted.step_list {steps : List (InitStep ν)} (h : IsSorted (withTimes m order) steps) :
    (steps.map InitStep.name_).Perm m.names ∧
      (steps.map InitStep.name_).Pairwise fun x y => timeOf order y ≤ timeOf order x := by
  constructor
  · have hnames := names_withTimes (m := m) order
    exact (h.perm.map _).trans (by rw [← hnames]; exact .refl _)
  · rw [List.pairwise_map]
    apply h.sorted.imp_of_mem
    intro a b ha hb hab
    rw [h.perm.mem_iff] at ha hb
    rw [← time_withTimes ha, ← time_withTimes hb]
    simpa [initStepSort] using hab

def prepared (s : State ν) (marked order : List ν) : StepMap ν :=
  withTimes (withMarks (withDeps s.steps_ s.extra_dependencies_) marked) order

theorem marked_ok (hextra : ∀ e ∈ s.extra_dependencies_,
      e.new_dep_ ∈ s.steps_.names ∧ e.depender_ ∈ s.steps_.names)
    (hregistered : ∀ x, Required s target x → x ∈ s.steps_.names) :
    ∃ marked, (do
        let s ← addExtraDeps s
        markDep s target) = .ok { s with
          steps_ := withMarks (withDeps s.steps_ s.extra_dependencies_) marked
          extra_dependencies_ := [] } ∧
      ∀ x, x ∈ marked ↔ Required s target x := by
  let m := withDeps s.steps_ s.extra_dependencies_
  have hdeps : (fun a b => b ∈ deps m a) = DependsOn s := by
    funext a b
    exact propext (mem_deps_withDeps hextra)
  have hadd : addExtraDeps s = .ok { s with steps_ := m, extra_dependencies_ := [] } := by
    simp [addExtraDeps, addDeps_ok _ _ hextra, m]
  obtain ⟨marked, hmark, hmarked⟩ := markDep_ok
    (s := { s with steps_ := m, extra_dependencies_ := [] }) (by
      simp only [hdeps]
      intro x hx
      simpa [m] using hregistered x hx)
  simp only [hdeps] at hmarked
  exact ⟨marked, by simp only [hadd, hmark, ok_bind, m], hmarked⟩

/-- What is before `run_steps`: what is required gets its mark, and a step gets a smaller
    finishing time than those it depends on. -/
theorem prepared_ok (h : Startable s target) : ∃ marked order, (do
        let s ← addExtraDeps s
        let s ← markDep s target
        topoSort s) = .ok ⟨prepared s marked order, order.length, []⟩ ∧
      (∀ x, x ∈ marked ↔ Required s target x) ∧
      ∀ x y, Required s target x → DependsOn s x y → timeOf order x < timeOf order y := by
  let m := withDeps s.steps_ s.extra_dependencies_
  have hdeps : (fun a b => b ∈ deps m a) = DependsOn s := by
    funext a b
    exact propext (mem_deps_withDeps h.extra)
  have hregistered : ∀ x, Required s target x → x ∈ m.names := fun x hx => by
    simpa [m] using h.registered x hx
  obtain ⟨marked, hmark, hmarked⟩ := marked_ok h.extra h.registered
  -- the marks leave the dependencies as they are
  obtain ⟨order, htopo, hclosed, hroots⟩ := topoSort_ok
    (s := { s with steps_ := withMarks m marked, extra_dependencies_ := [] }) (by
      simp only [deps_withMarks, hdeps]
      exact h.acyclic)
  simp only [edges_withMarks] at hclosed
  simp only [roots_withMarks] at hroots
  refine ⟨marked, order, ?_, hmarked, ?_⟩
  · have hsearch : (do
        let s ← addExtraDeps s
        let s ← markDep s target
        topoSort s) = (do
          let s ← addExtraDeps s
          markDep s target) >>= topoSort := by simp
    rw [hsearch, hmark, ok_bind, htopo]
    rfl
  · have hsearched : ∀ x, Required s target x → x ∈ order := fun x hx =>
      mem_order (by simpa only [hdeps] using h.acyclic) hclosed hroots (fun y hxy => by
        simp only [hdeps] at hxy
        exact hregistered y (hx.trans hxy))
    intro x y hx hxy
    have hy := hsearched y (hx.tail hxy)
    have hedge : x ∈ edges m y := mem_edges.2 ((mem_deps_withDeps h.extra).2 hxy)
    have := hclosed.idxOf_lt hy hedge
    simp only [timeOf, if_pos (hsearched x hx), if_pos hy]
    omega

theorem mem_of_timeOf_lt {step_list l r : List ν}
    (hsorted : step_list.Pairwise fun x y => timeOf order y ≤ timeOf order x)
    (hsplit : step_list = l ++ x :: r) (hy : y ∈ step_list)
    (hlt : timeOf order x < timeOf order y) : y ∈ l := by
  rw [hsplit, List.mem_append, List.mem_cons] at hy
  rw [hsplit] at hsorted
  rcases hy with hy | rfl | hy
  · exact hy
  · omega
  · have := List.rel_of_pairwise_cons (List.pairwise_append.1 hsorted).2.1 hy
    omega

/-- `start` runs what the target requires and is not done, each step once and after all that
    it depends on, up to the first step that fails. -/
theorem start_runs_required {run_component : ν → Int} {s : State ν} {target : ν}
    (h : Startable s target) :
    ∃ order err ran steps_, start run_component s target = .ok ⟨err, ran, steps_⟩ ∧
      order.Nodup ∧
      (∀ x, x ∈ order ↔ Required s target x ∧ ¬ Done s.steps_ x) ∧
      (∀ l x r, order = l ++ x :: r → ∀ y, DependsOn s x y → y ∈ l ∨ Done s.steps_ y) ∧
      Outcome run_component order err ran ∧
      ∀ x, Done steps_ x ↔ Done s.steps_ x ∨ x ∈ ran ∧ run_component x = 0 := by
  obtain ⟨marked, order, hprepare, hmarked, htime⟩ := prepared_ok h
  generalize hm : prepared s marked order = m at hprepare
  have hnames : m.names = s.steps_.names := by simp [← hm, prepared]
  have hdone : ∀ x, Done m x ↔ Done s.steps_ x := by simp [← hm, prepared]
  have hneeded : ∀ x, needed m x = true ↔ Required s target x ∧ ¬ Done s.steps_ x := by
    intro x
    rw [← hm, prepared, needed_iff, hmarked, done_withDeps, names_withDeps]
    exact ⟨fun hx => hx.2, fun hx => ⟨h.registered x hx.1, hx⟩⟩
  obtain ⟨hperm, hsorted⟩ := (isSorted_runSteps (prepared s marked order)).step_list
  rw [hm] at hperm hsorted
  rw [names_withMarks, names_withDeps] at hperm
  generalize hlist : (m.steps.mergeSort fun left right => !initStepSort right left).map
    InitStep.name_ = step_list at hperm hsorted
  have hnodup : step_list.Nodup := hperm.nodup_iff.2 s.steps_.nodup_names
  have hmem : ∀ x, Required s target x → x ∈ step_list := fun x hx =>
    hperm.mem_iff.2 (h.registered x hx)
  -- what a step depends on is done, or to run earlier
  have hbefore : ∀ l x r, step_list = l ++ x :: r → needed m x = true → ∀ y, DependsOn s x y →
      Done s.steps_ y ∨ y ∈ l ∧ needed m y = true := by
    intro l x r hsplit hx y hxy
    have hreq := ((hneeded x).1 hx).1
    by_cases hdone : Done s.steps_ y
    · exact .inl hdone
    · exact .inr ⟨mem_of_timeOf_lt hsorted hsplit (hmem y (hreq.tail hxy)) (htime x y hreq hxy),
        (hneeded y).2 ⟨hreq.tail hxy, hdone⟩⟩
  have hconfig : ∀ step ∈ m.steps, needed m step.name_ = true → ¬ step.config = true := by
    intro step hstep hn hc
    obtain ⟨hreq, hdone⟩ := (hneeded _).1 hn
    simp only [← hm, prepared, withTimes, withMarks, withDeps, StepMap.map, List.mem_map] at hstep
    obtain ⟨_, ⟨_, ⟨step, hstep, rfl⟩, rfl⟩, rfl⟩ := hstep
    exact hdone ⟨step, StepMap.find?_eq_some.2 ⟨hstep, rfl⟩, h.configured step hstep hc hreq⟩
  have hdeps : ∀ x, ∀ y ∈ deps m x, DependsOn s x y := by
    intro x y hy
    rw [← mem_deps_withDeps h.extra]
    simpa only [← hm, prepared, deps_withTimes, deps_withMarks] using hy
  obtain ⟨err, ran, hloop, houtcome⟩ := runLoop_ok run_component hconfig
    step_list [] (fun x hx => by rw [hnames]; exact hperm.mem_iff.1 hx) hnodup (by simp)
    (fun l x r hsplit hx y hy => by
      have hxy := hdeps x y hy
      rw [hdone, hnames]
      exact (hbefore l x r hsplit hx y hxy).imp_right fun hl =>
        ⟨h.registered y (((hneeded x).1 hx).1.tail hxy), .inr hl⟩)
  rw [withDone_nil] at hloop
  refine ⟨step_list.filter (needed m), err, ran,
    withDone m (ran.filter (run_component · = 0)), ?_, hnodup.filter _, ?_, ?_, houtcome, ?_⟩
  · have hstart : start run_component s target = (do
        let s ← addExtraDeps s
        let s ← markDep s target
        topoSort s) >>= runSteps run_component := by
      simp [start]
    rw [hstart, hprepare, ok_bind, runSteps, hlist]
    simpa using hloop
  · intro x
    simp only [List.mem_filter, hneeded]
    exact ⟨fun hx => hx.2, fun hx => ⟨hmem x hx.1, hx⟩⟩
  · intro l x r hsplit y hxy
    obtain ⟨l₁, l₂, hl, rfl, hr⟩ := List.filter_eq_append_iff.1 hsplit
    obtain ⟨l₃, l₄, rfl, hnone, hx, -⟩ := List.filter_eq_cons_iff.1 hr
    rcases hbefore (l₁ ++ l₃) x l₄ (by simp [hl]) hx y hxy with hdone | ⟨hy, hn⟩
    · exact .inr hdone
    · rcases List.mem_append.1 hy with hy | hy
      · exact .inl (List.mem_filter.2 ⟨hy, hn⟩)
      · exact absurd hn (hnone y hy)
  · intro x
    rw [done_withDone, hdone, hnames, List.mem_filter, decide_eq_true_eq]
    refine or_congr_right ⟨fun hx => hx.2, fun hx => ⟨?_, hx⟩⟩
    exact hperm.mem_iff.1 (List.mem_filter.1 (houtcome.mem hx.1)).1

/-- A sequencer with an extra dependency and a configuration step that is done. -/
def exampleSequencer : State Nat :=
  [.new 4 [3] false, .new 3 [0, 2] false, { InitStep.new 2 [] true with done_ := true },
    .new 1 [0] false, .new 0 [] false, .new 5 [4] false].foldl addStep ⟨.empty, 0, [⟨1, 3⟩]⟩

def exampleComponent (x : Nat) : Int := if x = 3 then 7 else 0

theorem exampleSequencer_dependsOn_lt {x y : Nat} (h : DependsOn exampleSequencer x y) :
    y < x := by
  have hsteps : ∀ step ∈ exampleSequencer.steps_.steps, ∀ y ∈ step.dependencies_,
      y < step.name_ := by decide
  rcases h with h | ⟨e, he, rfl, rfl⟩
  · obtain ⟨step, hstep⟩ := StepMap.mem_names.1 (mem_names_of_mem_deps h)
    rw [deps_of_find? hstep] at h
    obtain ⟨hmem, rfl⟩ := StepMap.find?_eq_some.1 hstep
    exact hsteps step hmem y h
  · have hextra : ∀ e ∈ exampleSequencer.extra_dependencies_, e.new_dep_ < e.depender_ := by decide
    exact hextra e he

/-- The sequencer can start step `4`. -/
theorem start_runs_required_example : Startable exampleSequencer 4 ∧
    ∃ order err ran steps_,
      start exampleComponent exampleSequencer 4 = .ok ⟨err, ran, steps_⟩ ∧
      order.Nodup ∧
      (∀ x, x ∈ order ↔ Required exampleSequencer 4 x ∧ ¬ Done exampleSequencer.steps_ x) ∧
      (∀ l x r, order = l ++ x :: r → ∀ y, DependsOn exampleSequencer x y →
        y ∈ l ∨ Done exampleSequencer.steps_ y) ∧
      Outcome exampleComponent order err ran ∧
      ∀ x, Done steps_ x ↔
        Done exampleSequencer.steps_ x ∨ x ∈ ran ∧ exampleComponent x = 0 := by
  have hrequired : ∀ x, Required exampleSequencer 4 x → x ≤ 4 := by
    intro x hx
    induction hx with
    | refl => exact Nat.le_refl 4
    | tail _ hstep ih =>
      have := exampleSequencer_dependsOn_lt hstep
      omega
  have h : Startable exampleSequencer 4 := by
    refine ⟨by decide, fun x hx => ?_, fun x hx => ?_, fun step hstep hconfig _ => ?_⟩
    · have hnames : ∀ x ≤ 4, x ∈ exampleSequencer.steps_.names := by decide
      exact hnames x (hrequired x hx)
    · -- a cycle would go down in the names
      have : x < x := by
        refine TransGen.trans_induction_on (motive := fun {a b} _ => b < a) hx
          exampleSequencer_dependsOn_lt ?_
        intro a b c _ _ hab hbc
        omega
      omega
    · have hconfigured : ∀ step ∈ exampleSequencer.steps_.steps, step.config → step.done_ := by
        decide
      exact hconfigured step hstep hconfig
  exact ⟨h, start_runs_required h⟩

end Oasys.InitSequencer
