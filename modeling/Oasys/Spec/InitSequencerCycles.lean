import Oasys.Spec.InitSequencerCorrect

/-!
# InitSequencer and cycles

`start` with any list that `std::sort` may make of the steps, on graphs that may have cycles. The
search comes to the steps that depend, through others, on one without dependencies (`Grounded`),
and ends if none of them lies on a cycle; the steps that it does not come to have equal times, and
run in any order. So `start` copes with a graph exactly where it is `Careful`.

## Key results

- `ready_iff`: when the loop of `run_steps` returns, whatever the components do
- `mem_order_iff`: what the search comes to, where it ends
- `copes_iff_careful`: when `start` returns, with an error for a cycle that is in the way
-/

namespace Oasys.InitSequencer

open Relation

variable {ν : Type} [LinearOrder ν] {m : StepMap ν} {x y : ν}

/-! ### run_steps -/

/-- The step of a name is a configuration step. -/
def isConfig (m : StepMap ν) (x : ν) : Bool := (m.find? x).any InitStep.config

/-- A step that is done when it has been run without an error. -/
def Runs (m : StepMap ν) (x : ν) : Prop := needed m x = true ∧ isConfig m x = false

theorem runLoop_cons (hm : ∀ x, ∀ y ∈ deps m x, y ∈ m.names) (hx : x ∈ m.names)
    (run_component : ν → Int) (step_list ran : List ν) :
    runLoop run_component (x :: step_list) m ran =
      if needed m x then
        if ∀ y ∈ deps m x, Done m y then
          if isConfig m x then runLoop run_component step_list m (ran ++ [x])
          else if run_component x = 0 then
            runLoop run_component step_list (withDone m [x]) (ran ++ [x])
          else .ok ⟨run_component x, ran ++ [x], m⟩
        else .error .assertFailed
      else runLoop run_component step_list m ran := by
  obtain ⟨step, hstep⟩ := StepMap.mem_names.1 hx
  have hname := (StepMap.find?_eq_some.1 hstep).2
  have hneeded : needed m x = (step.mark_ && !step.done_) := by simp [needed, hstep]
  have hconfig : isConfig m x = step.config := by simp [isConfig, hstep]
  have hsatisfied : depAreSatisfied m step = .ok (decide (∀ y ∈ deps m x, Done m y)) := by
    rw [deps_of_find? hstep]
    exact depAreSatisfied_eq fun y hy => hm x y (by rwa [deps_of_find? hstep])
  have hmodify := modify_withDone m [] x
  rw [withDone_nil, List.nil_append] at hmodify
  rw [runLoop]
  simp only [deref, hstep, pure_eq_ok, ok_bind, ← hneeded, hsatisfied, run, hname, hconfig]
  split
  · by_cases hall : ∀ y ∈ deps m x, Done m y
    · rw [if_pos hall, decide_eq_true hall, assert_true, ok_bind]
      cases step.config with
      | true => simp
      | false =>
        by_cases hrun : run_component x = 0
        · simp [hrun, hmodify]
        · simp [hrun]
    · rw [if_neg hall, decide_eq_false hall]
      rfl
  · rfl

/-- Each step that is to run finds its dependencies done. -/
def Ready : StepMap ν → List ν → Prop
  | _, [] => True
  | m, x :: step_list =>
    if needed m x then
      (∀ y ∈ deps m x, Done m y) ∧
        if isConfig m x then Ready m step_list else Ready (withDone m [x]) step_list
    else Ready m step_list

theorem deps_withDone (ran : List ν) : deps (withDone m ran) x = deps m x := by
  cases h : m.find? x with
  | none => simp [deps, withDone, h]
  | some step => simp [deps, withDone, h]

theorem isConfig_withDone (ran : List ν) : isConfig (withDone m ran) x = isConfig m x := by
  cases h : m.find? x with
  | none => simp [isConfig, withDone, h]
  | some step => simp [isConfig, withDone, h]

theorem needed_withDone {ran : List ν} (hx : x ∉ ran) :
    needed (withDone m ran) x = needed m x := by
  cases h : m.find? x with
  | none => simp [needed, withDone, h]
  | some step =>
    have hname := (StepMap.find?_eq_some.1 h).2
    simp [needed, withDone, h, hname, hx]

theorem Ready.returns {step_list : List ν} (run_component : ν → Int) :
    ∀ {m : StepMap ν} (ran : List ν), (∀ x, ∀ y ∈ deps m x, y ∈ m.names) →
      (∀ x ∈ step_list, x ∈ m.names) → Ready m step_list →
      ∃ r, runLoop run_component step_list m ran = .ok r := by
  induction step_list with
  | nil => exact fun ran _ _ _ => ⟨_, rfl⟩
  | cons x step_list ih =>
    intro m ran hm hnames h
    have hrest : ∀ y ∈ step_list, y ∈ m.names := fun y hy => hnames y (List.mem_cons_of_mem _ hy)
    rw [runLoop_cons hm (hnames x List.mem_cons_self)]
    rw [Ready] at h
    split at h
    · rename_i hn
      rw [if_pos hn, if_pos h.1]
      split
      · rename_i hc
        exact ih _ hm hrest (by simpa [hc] using h.2)
      · rename_i hc
        split
        · apply ih _ _ (by simpa using hrest) (by simpa [hc] using h.2)
          simpa only [deps_withDone, names_withDone] using hm
        · exact ⟨_, rfl⟩
    · rename_i hn
      rw [if_neg hn]
      exact ih ran hm hrest h

theorem ready_of_returns {step_list : List ν} :
    ∀ {m : StepMap ν} {ran : List ν} {r : Started ν}, (∀ x, ∀ y ∈ deps m x, y ∈ m.names) →
      (∀ x ∈ step_list, x ∈ m.names) → runLoop (fun _ => 0) step_list m ran = .ok r →
      Ready m step_list := by
  induction step_list with
  | nil => exact fun _ _ _ => trivial
  | cons x step_list ih =>
    intro m ran r hm hnames h
    have hrest : ∀ y ∈ step_list, y ∈ m.names := fun y hy => hnames y (List.mem_cons_of_mem _ hy)
    rw [runLoop_cons hm (hnames x List.mem_cons_self)] at h
    rw [Ready]
    split at h
    · rename_i hn
      rw [if_pos hn]
      split at h
      · rename_i hall
        refine ⟨hall, ?_⟩
        split at h
        · rename_i hc
          rw [if_pos hc]
          exact ih hm hrest h
        · rename_i hc
          rw [if_neg hc]
          rw [if_pos rfl] at h
          apply ih _ (by simpa using hrest) h
          simpa only [deps_withDone, names_withDone] using hm
      · cases h
    · rename_i hn
      rw [if_neg hn]
      exact ih hm hrest h

omit [LinearOrder ν] in
theorem forall_split_cons {P : List ν → ν → Prop} {step_list : List ν} :
    (∀ l z r, x :: step_list = l ++ z :: r → P l z) ↔
      P [] x ∧ ∀ l z r, step_list = l ++ z :: r → P (x :: l) z := by
  constructor
  · intro h
    refine ⟨h [] x step_list rfl, ?_⟩
    rintro l z r rfl
    exact h (x :: l) z r rfl
  · rintro ⟨hx, h⟩ l z r hsplit
    cases l with
    | nil =>
      obtain ⟨rfl, -⟩ := List.cons.inj hsplit
      exact hx
    | cons w l =>
      obtain ⟨rfl, hrest⟩ := List.cons.inj hsplit
      exact h l z r hrest

/-- In a list without repetitions, that is so where each dependency of a step is done, or before it
    and done when it has been run. -/
theorem ready_iff {step_list : List ν} :
    ∀ {m : StepMap ν}, step_list.Nodup → (∀ x ∈ step_list, x ∈ m.names) →
      (Ready m step_list ↔ ∀ l x r, step_list = l ++ x :: r → needed m x = true →
        ∀ y ∈ deps m x, Done m y ∨ y ∈ l ∧ Runs m y) := by
  induction step_list with
  | nil => exact fun _ _ => iff_of_true trivial (by simp)
  | cons x step_list ih =>
    intro m hnodup hnames
    obtain ⟨hx, hnodup⟩ := List.nodup_cons.1 hnodup
    have hrest : ∀ y ∈ step_list, y ∈ m.names := fun y hy => hnames y (List.mem_cons_of_mem _ hy)
    -- a step that does not get done is no help to the others
    have hskip : ¬ Runs m x → ((∀ l z r, step_list = l ++ z :: r → needed m z = true →
        ∀ y ∈ deps m z, Done m y ∨ y ∈ x :: l ∧ Runs m y) ↔ Ready m step_list) := by
      intro hruns
      rw [ih hnodup hrest]
      have hmem : ∀ l y, y ∈ x :: l ∧ Runs m y ↔ y ∈ l ∧ Runs m y := by
        intro l y
        rw [List.mem_cons, or_and_right, or_iff_right]
        rintro ⟨rfl, hy⟩
        exact hruns hy
      simp only [hmem]
    rw [forall_split_cons (P := fun l z => needed m z = true →
      ∀ y ∈ deps m z, Done m y ∨ y ∈ l ∧ Runs m y), Ready]
    cases hn : needed m x with
    | false =>
      have hruns : ¬ Runs m x := fun h => by simp [Runs, hn] at h
      rw [hskip hruns]
      simp
    | true =>
      simp only [if_true, List.not_mem_nil, false_and, or_false, forall_true_left]
      refine and_congr_right fun _ => ?_
      cases hc : isConfig m x with
      | true =>
        have hruns : ¬ Runs m x := fun h => by simp [Runs, hc] at h
        rw [hskip hruns]
        simp
      | false =>
        rw [if_neg (by decide), ih hnodup (by simpa using hrest)]
        refine forall_congr' fun l => forall_congr' fun z => forall_congr' fun r =>
          forall_congr' fun hsplit => ?_
        have hne : ∀ y ∈ step_list, y ∉ [x] := by
          intro y hy hyx
          rw [List.mem_singleton.1 hyx] at hy
          exact hx hy
        have hl : ∀ y ∈ l, y ∈ step_list := fun y hy => by simp [hsplit, hy]
        rw [needed_withDone (hne z (by simp [hsplit])), deps_withDone]
        refine forall_congr' fun _ => forall_congr' fun y => forall_congr' fun hy => ?_
        have hxnames := hnames x List.mem_cons_self
        rw [done_withDone, Runs, Runs, isConfig_withDone, List.mem_singleton, List.mem_cons]
        by_cases hyx : y = x
        · subst hyx
          simp [hxnames, hn, hc]
        · by_cases hyl : y ∈ l
          · rw [needed_withDone (hne y (hl y hyl))]
            simp [hyx, hyl]
          · simp [hyx, hyl]

/-! ### What the search comes to -/

/-- A step depends, through others, on one without dependencies, or is one. -/
def Grounded (s : State ν) (x : ν) : Prop :=
  ∃ r ∈ s.steps_.names, (∀ z, ¬ DependsOn s r z) ∧ ReflTransGen (DependsOn s) x r

/-- The names of all dependencies are registered, and that of the target. -/
structure Registered (s : State ν) (target : ν) : Prop where
  target : target ∈ s.steps_.names
  deps : ∀ x y, DependsOn s x y → y ∈ s.steps_.names
  extra : ∀ e ∈ s.extra_dependencies_, e.depender_ ∈ s.steps_.names

variable {s : State ν} {target : ν} {marked order : List ν}

theorem Registered.both (h : Registered s target) : ∀ e ∈ s.extra_dependencies_,
    e.new_dep_ ∈ s.steps_.names ∧ e.depender_ ∈ s.steps_.names :=
  fun e he => ⟨h.deps e.depender_ e.new_dep_ (.inr ⟨e, he, rfl, rfl⟩), h.extra e he⟩

theorem Registered.required (h : Registered s target) (hx : Required s target x) :
    x ∈ s.steps_.names := by
  cases hx with
  | refl => exact h.target
  | tail _ hstep => exact h.deps _ _ hstep

def toSort (s : State ν) (marked : List ν) : State ν :=
  { s with
    steps_ := withMarks (withDeps s.steps_ s.extra_dependencies_) marked
    extra_dependencies_ := [] }

theorem mem_deps_toSort (h : Registered s target) :
    y ∈ deps (toSort s marked).steps_ x ↔ DependsOn s x y := by
  rw [toSort, deps_withMarks, mem_deps_withDeps h.both]

theorem mem_roots_toSort (h : Registered s target) :
    x ∈ roots (toSort s marked).steps_ ↔ x ∈ s.steps_.names ∧ ∀ z, ¬ DependsOn s x z := by
  have hnames : (toSort s marked).steps_.names = s.steps_.names := by simp [toSort]
  rw [mem_roots, hnames, List.eq_nil_iff_forall_not_mem]
  simp only [mem_deps_toSort h]

theorem reach_edges_iff (h : Registered s target) :
    ReflTransGen (fun a b => b ∈ edges (toSort s marked).steps_ a) x y ↔
      ReflTransGen (DependsOn s) y x := by
  have hswap : (fun a b => b ∈ edges (toSort s marked).steps_ a) = Function.swap (DependsOn s) := by
    funext a b
    exact propext (mem_edges.trans (mem_deps_toSort h))
  rw [hswap, reflTransGen_swap]

/-- Where the search ends, it has come to the steps that are grounded, and none of them lies on a
    cycle. -/
theorem mem_order_iff (h : Registered s target) {fuel : Nat}
    (hfold : (roots (toSort s marked).steps_).foldlM
      (Dfs.visit (edges (toSort s marked).steps_) fuel) [] = some order) :
    Dfs.Closed (edges (toSort s marked).steps_) order ∧ ∀ x, x ∈ order ↔ Grounded s x := by
  obtain ⟨hclosed, hroots, hnew⟩ := (unvisited_roots (toSort s marked).steps_).foldlM _ [] order
    hfold
  refine ⟨hclosed, fun x => ⟨fun hx => ?_, ?_⟩⟩
  · obtain ⟨r, hr, hreach⟩ := (hnew x hx).resolve_left List.not_mem_nil
    obtain ⟨hnames, hnone⟩ := (mem_roots_toSort h).1 hr
    exact ⟨r, hnames, hnone, (reach_edges_iff h).1 hreach⟩
  · intro ⟨r, hnames, hnone, hreach⟩
    exact hclosed.mem_of_reach (hroots r ((mem_roots_toSort h).2 ⟨hnames, hnone⟩))
      ((reach_edges_iff h).2 hreach)

/-! ### start -/

/-- `start`, with the list that `std::sort` makes of the steps. -/
def startWith (sort : StepMap ν → List (InitStep ν)) (run_component : ν → Int) (s : State ν)
    (step : ν) : Except Fault (Started ν) := do
  let s ← addExtraDeps s
  let s ← markDep s step
  let s ← topoSort s
  runLoop run_component ((sort s.steps_).map InitStep.name_) s.steps_ []

theorem start_eq (run_component : ν → Int) (s : State ν) (step : ν) :
    start run_component s step =
      startWith (fun m => m.steps.mergeSort fun left right => !initStepSort right left)
        run_component s step := rfl

/-- A step that is required and not done lies on a cycle of steps that are not done, or depends on
    one. -/
def Stuck (s : State ν) (target : ν) : Prop :=
  ∃ x c, Required s target x ∧ ¬ Done s.steps_ x ∧ ReflTransGen (DependsOn s) x c ∧
    TransGen (fun a b => DependsOn s a b ∧ ¬ Done s.steps_ b) c c

/-- `start` returns, with an error if a cycle is in the way, whatever the components do and
    whichever list `std::sort` makes of the steps. -/
def Copes (s : State ν) (target : ν) : Prop :=
  ∀ run_component sort, (∀ m, IsSorted m (sort m)) →
    ∃ r, startWith sort run_component s target = .ok r ∧ (Stuck s target → r.err ≠ 0)

/-- No step that the search comes to lies on a cycle; and where a required step is to run, each of
    its dependencies that is not done is one that the search comes to, and no configuration step. -/
structure Careful (s : State ν) (target : ν) : Prop where
  acyclic : ∀ x, Grounded s x → ¬ TransGen (DependsOn s) x x
  ready : ∀ x y, Required s target x → ¬ Done s.steps_ x → DependsOn s x y → ¬ Done s.steps_ y →
    Grounded s y ∧ isConfig s.steps_ y = false

theorem Careful.not_stuck (h : Careful s target) : ¬ Stuck s target := by
  intro ⟨x, c, hx, _, hreach, hcycle⟩
  obtain ⟨d, -, -, hdone⟩ := TransGen.tail'_iff.1 hcycle
  obtain ⟨e, ⟨hce, hedone⟩, hec⟩ := TransGen.head'_iff.1 hcycle
  -- the next step on the cycle is one that the search comes to
  obtain ⟨hground, -⟩ := h.ready c e (hx.trans hreach) hdone hce hedone
  exact h.acyclic e hground (.tail' (ReflTransGen.mono (fun _ _ h => h.1) _ _ hec) hce)

theorem isConfig_prepared : isConfig (prepared s marked order) x = isConfig s.steps_ x := by
  cases h : s.steps_.find? x with
  | none => simp [isConfig, prepared, withTimes, withMarks, withDeps, h]
  | some step => simp [isConfig, prepared, withTimes, withMarks, withDeps, h]

theorem ready_prepared_iff (h : Registered s target)
    (hmarked : ∀ x, x ∈ marked ↔ Required s target x) {step_list : List ν}
    (hperm : step_list.Perm s.steps_.names) :
    Ready (prepared s marked order) step_list ↔ ∀ l x r, step_list = l ++ x :: r →
      Required s target x → ¬ Done s.steps_ x → ∀ y, DependsOn s x y →
        Done s.steps_ y ∨ y ∈ l ∧ isConfig s.steps_ y = false := by
  have hnames : (prepared s marked order).names = s.steps_.names := by simp [prepared]
  have hdone : ∀ x, Done (prepared s marked order) x ↔ Done s.steps_ x := by simp [prepared]
  have hneeded : ∀ x, needed (prepared s marked order) x = true ↔
      Required s target x ∧ ¬ Done s.steps_ x := by
    intro x
    rw [prepared, needed_iff, hmarked, done_withDeps, names_withDeps]
    exact ⟨fun hx => hx.2, fun hx => ⟨h.required hx.1, hx⟩⟩
  have hdeps : ∀ x y, y ∈ deps (prepared s marked order) x ↔ DependsOn s x y := by
    intro x y
    rw [prepared, deps_withTimes, deps_withMarks, mem_deps_withDeps h.both]
  rw [ready_iff (hperm.nodup_iff.2 s.steps_.nodup_names)
    (fun x hx => by rw [hnames]; exact hperm.mem_iff.1 hx)]
  simp only [hneeded, hdeps, hdone, Runs, isConfig_prepared, and_imp]
  refine forall_congr' fun l => forall_congr' fun x => forall_congr' fun r =>
    forall_congr' fun _ => forall_congr' fun hx => forall_congr' fun _ => forall_congr' fun y =>
    forall_congr' fun hxy => ?_
  by_cases hy : Done s.steps_ y
  · simp [hy]
  · simp [hy, show Required s target y from hx.tail hxy]

theorem startWith_eq {sort : StepMap ν → List (InitStep ν)} {run_component : ν → Int}
    (hmark : (do
      let s ← addExtraDeps s
      markDep s target) = .ok (toSort s marked)) :
    startWith sort run_component s target = (do
      let s ← topoSort (toSort s marked)
      runLoop run_component ((sort s.steps_).map InitStep.name_) s.steps_ []) := by
  have hstart : startWith sort run_component s target = (do
      let s ← addExtraDeps s
      markDep s target) >>= fun s => (do
        let s ← topoSort s
        runLoop run_component ((sort s.steps_).map InitStep.name_) s.steps_ []) := by
    simp [startWith]
  rw [hstart, hmark, ok_bind]

theorem step_list_perm {steps : List (InitStep ν)} (h : IsSorted (prepared s marked order) steps) :
    (steps.map InitStep.name_).Perm s.steps_.names := by
  have hperm := h.step_list.1
  rwa [names_withMarks, names_withDeps] at hperm

theorem copes_of_careful (hreg : Registered s target) (h : Careful s target) : Copes s target := by
  intro run_component sort hsort
  obtain ⟨marked, hmark, hmarked⟩ := marked_ok hreg.both fun x hx => hreg.required hx
  obtain ⟨order, htopo, hfold⟩ := topoSort_some (s := toSort s marked) (R := Grounded s)
    (fun x hx => by
      obtain ⟨hnames, hnone⟩ := (mem_roots_toSort hreg).1 hx
      exact ⟨x, hnames, hnone, .refl⟩)
    (fun x ⟨r, hnames, hnone, hreach⟩ y hy =>
      ⟨r, hnames, hnone, .head ((mem_deps_toSort hreg).1 (mem_edges.1 hy)) hreach⟩)
    (fun x hx hcycle => h.acyclic x hx
      (TransGen.mono (fun _ _ hstep => (mem_deps_toSort hreg).1 hstep) _ _ hcycle))
  obtain ⟨hclosed, hmem⟩ := mem_order_iff hreg hfold
  have hsorted := hsort (prepared s marked order)
  have hperm := step_list_perm hsorted
  have hready : Ready (prepared s marked order)
      ((sort (prepared s marked order)).map InitStep.name_) := by
    rw [ready_prepared_iff hreg hmarked hperm]
    intro l x r hsplit hx hdone y hxy
    by_cases hy : Done s.steps_ y
    · exact .inl hy
    · -- the search comes to both, and to the dependency later
      obtain ⟨hground, hconfig⟩ := h.ready x y hx hdone hxy hy
      have hyorder := (hmem y).2 hground
      obtain ⟨r', hnames, hnone, hreach⟩ := hground
      have hxorder := (hmem x).2 ⟨r', hnames, hnone, .head hxy hreach⟩
      have hlt := hclosed.idxOf_lt hyorder (mem_edges.2 ((mem_deps_toSort hreg).2 hxy))
      refine .inr ⟨mem_of_timeOf_lt hsorted.step_list.2 hsplit ?_ ?_, hconfig⟩
      · exact hperm.mem_iff.2 (hreg.deps x y hxy)
      · rw [timeOf, if_pos hxorder, timeOf, if_pos hyorder]
        omega
  obtain ⟨r, hr⟩ := hready.returns run_component [] (fun x y hy => by
    rw [prepared, deps_withTimes, deps_withMarks, mem_deps_withDeps hreg.both] at hy
    simpa [prepared] using hreg.deps x y hy) (fun x hx => by
    simpa [prepared] using hperm.mem_iff.1 hx)
  refine ⟨r, ?_, fun hstuck => absurd hstuck h.not_stuck⟩
  rw [startWith_eq hmark, htopo, ok_bind]
  exact hr

/-! ### A list with a step as far in front as can be -/

/-- The steps with later times are first, and of those with the same time the one of a name. -/
def inFront (x : ν) (left right : InitStep ν) : Bool :=
  right.time_ < left.time_ || (left.time_ = right.time_ && (left.name_ = x || right.name_ ≠ x))

theorem inFront_iff {x : ν} {left right : InitStep ν} : inFront x left right = true ↔
    right.time_ < left.time_ ∨ left.time_ = right.time_ ∧ (right.name_ = x → left.name_ = x) := by
  by_cases hx : right.name_ = x
  · simp [inFront, hx]
  · simp [inFront, hx]

theorem isSorted_inFront (x : ν) (m : StepMap ν) : IsSorted m (m.steps.mergeSort (inFront x)) ∧
    (m.steps.mergeSort (inFront x)).Pairwise fun left right => inFront x left right = true := by
  have htrans : ∀ a b c : InitStep ν, inFront x a b = true → inFront x b c = true →
      inFront x a c = true := by
    intro a b c hab hbc
    rw [inFront_iff] at hab hbc ⊢
    rcases hab with hab | ⟨hab, hname⟩
    · rcases hbc with hbc | ⟨hbc, -⟩
      · exact .inl (by omega)
      · exact .inl (by omega)
    · rcases hbc with hbc | ⟨hbc, hname'⟩
      · exact .inl (by omega)
      · exact .inr ⟨by omega, fun hc => hname (hname' hc)⟩
  have htotal : ∀ a b : InitStep ν, (inFront x a b || inFront x b a) = true := by
    intro a b
    rw [Bool.or_eq_true, inFront_iff, inFront_iff]
    rcases lt_trichotomy a.time_ b.time_ with hlt | heq | hlt
    · exact .inr (.inl hlt)
    · by_cases hx : a.name_ = x
      · exact .inl (.inr ⟨heq, fun _ => hx⟩)
      · exact .inr (.inr ⟨heq.symm, fun ha => absurd ha hx⟩)
    · exact .inl (.inl hlt)
  refine ⟨isSorted_mergeSort m htrans htotal ?_, List.pairwise_mergeSort htrans htotal m.steps⟩
  intro a b hab
  rcases inFront_iff.1 hab with hab | ⟨hab, -⟩
  · exact hab.le
  · exact hab.ge

theorem careful_of_copes (hreg : Registered s target) (h : Copes s target) : Careful s target := by
  obtain ⟨marked, hmark, hmarked⟩ := marked_ok hreg.both fun x hx => hreg.required hx
  obtain ⟨order, hfold⟩ : ∃ order, (roots (toSort s marked).steps_).foldlM
      (Dfs.visit (edges (toSort s marked).steps_) ((toSort s marked).steps_.steps.length + 1)) [] =
        some order := by
    obtain ⟨r, hr, -⟩ := h (fun _ => 0) _ isSorted_runSteps
    rw [startWith_eq hmark, topoSort_eq] at hr
    cases hfold : (roots (toSort s marked).steps_).foldlM
        (Dfs.visit (edges (toSort s marked).steps_) ((toSort s marked).steps_.steps.length + 1))
        [] with
    | none =>
      rw [hfold] at hr
      cases hr
    | some order => exact ⟨order, rfl⟩
  obtain ⟨hclosed, hmem⟩ := mem_order_iff hreg hfold
  refine ⟨?_, ?_⟩
  · intro x hx hcycle
    refine hclosed.not_cycle ((hmem x).2 hx) ?_
    have hswap : TransGen (Function.swap (DependsOn s)) x x := transGen_swap.2 hcycle
    exact TransGen.mono (fun _ _ hstep => mem_edges.2 ((mem_deps_toSort hreg).2 hstep)) _ _ hswap
  · intro x y hx hdone hxy hy
    obtain ⟨r, hr, -⟩ := h (fun _ => 0) (fun m => m.steps.mergeSort (inFront x))
      fun m => (isSorted_inFront x m).1
    obtain ⟨hsorted, hfront⟩ := isSorted_inFront x (prepared s marked order)
    have hperm := step_list_perm hsorted
    rw [startWith_eq hmark, topoSort_eq, hfold] at hr
    have hready : Ready (prepared s marked order)
        (((prepared s marked order).steps.mergeSort (inFront x)).map InitStep.name_) :=
      ready_of_returns (fun x y hy => by
        rw [prepared, deps_withTimes, deps_withMarks, mem_deps_withDeps hreg.both] at hy
        simpa [prepared] using hreg.deps x y hy) (fun x hx => by
        simpa [prepared] using hperm.mem_iff.1 hx) hr
    rw [ready_prepared_iff hreg hmarked hperm] at hready
    obtain ⟨l, r', hsplit⟩ := List.append_of_mem (hperm.mem_iff.2 (hreg.required hx))
    obtain ⟨hyl, hconfig⟩ := (hready l x r' hsplit hx hdone y hxy).resolve_left hy
    refine ⟨?_, hconfig⟩
    by_contra hground
    -- then it has no later time than the step in front
    have hyout : y ∉ order := fun hc => hground ((hmem y).1 hc)
    have hle : timeOf order y ≤ timeOf order x := by
      rw [timeOf, if_neg hyout, timeOf]
      split <;> omega
    have hnames : (l ++ x :: r').Pairwise fun a b => timeOf order b < timeOf order a ∨
        timeOf order a = timeOf order b ∧ (b = x → a = x) := by
      rw [← hsplit, List.pairwise_map]
      apply hfront.imp_of_mem
      intro a b ha hb hab
      rw [List.mem_mergeSort] at ha hb
      rw [← time_withTimes ha, ← time_withTimes hb]
      exact inFront_iff.1 hab
    rcases (List.pairwise_append.1 hnames).2.2 y hyl x List.mem_cons_self with hlt | ⟨-, hyx⟩
    · omega
    · have hnodup : (l ++ x :: r').Nodup := hsplit ▸ hperm.nodup_iff.2 s.steps_.nodup_names
      rw [hyx rfl] at hyl
      exact List.disjoint_of_nodup_append hnodup hyl List.mem_cons_self

/-- `start` copes with a graph exactly where it is careful. -/
theorem copes_iff_careful (h : Registered s target) : Copes s target ↔ Careful s target :=
  ⟨careful_of_copes h, copes_of_careful h⟩

def selfDependent : State Nat := addStep ⟨.empty, 0, []⟩ (.new 1 [1] false)

theorem registered_selfDependent : Registered selfDependent 1 := by
  refine ⟨by decide, ?_, nofun⟩
  rintro x y (hxy | ⟨e, he, -⟩)
  · obtain ⟨step, hstep⟩ := StepMap.mem_names.1 (mem_names_of_mem_deps hxy)
    rw [deps_of_find? hstep] at hxy
    have hdeps : ∀ step ∈ selfDependent.steps_.steps, ∀ y ∈ step.dependencies_,
        y ∈ selfDependent.steps_.names := by decide
    exact hdeps step (StepMap.find?_eq_some.1 hstep).1 y hxy
  · cases he

theorem copes_iff_careful_selfDependent :
    Copes selfDependent 1 ↔ Careful selfDependent 1 :=
  copes_iff_careful registered_selfDependent

/-- The step is not run before itself. -/
theorem not_copes : ¬ ∀ (s : State Nat) (target : Nat), Registered s target → Copes s target := by
  intro h
  have hcareful := careful_of_copes registered_selfDependent (h selfDependent 1
    registered_selfDependent)
  have hself : DependsOn selfDependent 1 1 := .inl (by decide)
  obtain ⟨⟨r, hr, hnone, -⟩, -⟩ := hcareful.ready 1 1 .refl (by decide) hself (by decide)
  obtain rfl : r = 1 := List.mem_singleton.1 hr
  exact hnone 1 hself

end Oasys.InitSequencer
