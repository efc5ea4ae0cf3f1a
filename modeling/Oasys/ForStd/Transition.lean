/-!
# Transition systems

States, labelled steps, and the states that runs reach when each of their steps meets
a condition. A property that holds at the start and that every such step preserves
holds in every state reached.
-/

/-- A transition system: where runs start, and the steps they take. -/
structure TransitionSystem (σ : Type u) (α : Type v) where
  init : σ → Prop
  step : σ → α → σ → Prop

namespace TransitionSystem

variable {σ : Type u} {α : Type v} (M : TransitionSystem σ α)

/-- The states reached by runs whose steps all meet `ok`. -/
inductive ReachableWith (ok : σ → α → Prop) : σ → Prop
  | init {s : σ} (h : M.init s) : ReachableWith ok s
  | step {s s' : σ} {a : α} (hs : ReachableWith ok s) (hok : ok s a) (h : M.step s a s') :
      ReachableWith ok s'

/-- The states reached by any run. -/
def Reachable : σ → Prop := M.ReachableWith fun _ _ => True

variable {M} {ok : σ → α → Prop}

theorem ReachableWith.invariant {P : σ → Prop} (hinit : ∀ s, M.init s → P s)
    (hstep : ∀ s a s', P s → ok s a → M.step s a s' → P s') {s : σ}
    (h : M.ReachableWith ok s) : P s := by
  induction h with
  | init h => exact hinit _ h
  | step _ hok h ih => exact hstep _ _ _ ih hok h

/-- Where the steps of a system are taken by a function, the run along a list of labels
    that meets the condition reaches its last state. -/
theorem ReachableWith.foldlM {next : σ → α → Option σ}
    (hnext : ∀ s a s', next s a = some s' → ok s a ∧ M.step s a s') (as : List α) {s s' : σ}
    (h : M.ReachableWith ok s) (hrun : as.foldlM next s = some s') :
    M.ReachableWith ok s' := by
  induction as generalizing s with
  | nil =>
    obtain rfl := Option.some.inj hrun
    exact h
  | cons a as ih =>
    rw [List.foldlM_cons] at hrun
    obtain ⟨s₁, hs₁, hrest⟩ := Option.bind_eq_some_iff.1 hrun
    obtain ⟨hok, hstep⟩ := hnext s a s₁ hs₁
    exact ih (.step h hok hstep) hrest

end TransitionSystem

/-!
### Runs along a list

The steps of a function that may have none, one for each label of a list.
-/

namespace Stepping

variable {σ : Type u} {α : Type v} (next : σ → α → Option σ)

/-- A condition on each step that the labels of a list lead to. -/
def Along (ok : σ → α → Prop) : σ → List α → Prop
  | _, [] => True
  | s, a :: as => ok s a ∧ ∀ s', next s a = some s' → Along ok s' as

/-- A property of each state on the way along a list, its first and its last one included. -/
def Throughout (P : σ → Prop) (s : σ) (as : List α) : Prop :=
  ∀ front rest s', as = front ++ rest → front.foldlM next s = some s' → P s'

variable {next} {ok : σ → α → Prop} {P Q : σ → Prop} {s s' : σ} {a : α} {as : List α}

theorem Throughout.head (h : Throughout next P s as) : P s := h [] as s rfl rfl

theorem Throughout.last (h : Throughout next P s as) (hrun : as.foldlM next s = some s') :
    P s' := h as [] s' (List.append_nil as).symm hrun

theorem Throughout.tail (h : Throughout next P s (a :: as)) (hstep : next s a = some s') :
    Throughout next P s' as := by
  intro front rest s₁ hsplit hrun
  apply h (a :: front) rest s₁
  · rw [hsplit]
    rfl
  · rw [List.foldlM_cons, hstep]
    exact hrun

theorem Throughout.mono (h : Throughout next P s as) (himp : ∀ s, P s → Q s) :
    Throughout next Q s as := by
  intro front rest s₁ hsplit hrun
  exact himp s₁ (h front rest s₁ hsplit hrun)

theorem Along.cons (hok : ok s a) (hstep : next s a = some s') (h : Along next ok s' as) :
    Along next ok s (a :: as) := by
  refine ⟨hok, ?_⟩
  intro s₁ hs₁
  rw [hstep] at hs₁
  obtain rfl := Option.some.inj hs₁
  exact h

/-- The invariant rule. -/
theorem Along.throughout (hinv : ∀ s a s', P s → ok s a → next s a = some s' → P s')
    (hs : P s) (h : Along next ok s as) : Throughout next P s as := by
  intro front rest s₁ hsplit hrun
  induction front generalizing s as with
  | nil =>
    obtain rfl := Option.some.inj hrun
    exact hs
  | cons a front ih =>
    subst hsplit
    rw [List.foldlM_cons] at hrun
    obtain ⟨s₂, hstep, hrest⟩ := Option.bind_eq_some_iff.1 hrun
    exact ih (hinv s a s₂ hs h.1 hstep) (h.2 s₂ hstep) rfl hrest

theorem foldlM_invariant (hinv : ∀ s a s', P s → next s a = some s' → P s') (hs : P s)
    (hrun : as.foldlM next s = some s') : P s' := by
  induction as generalizing s with
  | nil =>
    obtain rfl := Option.some.inj hrun
    exact hs
  | cons a as ih =>
    rw [List.foldlM_cons] at hrun
    obtain ⟨s₁, hstep, hrest⟩ := Option.bind_eq_some_iff.1 hrun
    exact ih (hinv s a s₁ hs hstep) hrest

end Stepping
