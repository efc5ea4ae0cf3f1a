import Mathlib.Data.List.Forall2

/-!
# Answering calls

An implementation, whose calls may fail, against a specification that answers the same
calls. The implementation refines the specification along a sequence of calls if it returns
from all of them and its answers agree; where each call of a kind agrees exactly if it meets
a condition, a whole sequence does exactly if all of its calls meet it (`refines_iff_along`).
-/

namespace Answering

variable {μ σ α ρ ρ' ε : Type}

/-- The answers of the specification to one call after another. -/
def specRun (spec : μ → α → ρ × μ) : μ → List α → List ρ
  | _, [] => []
  | m, a :: as => (spec m a).1 :: specRun spec (spec m a).2 as

/-- The answers of the implementation. -/
def implRun (impl : σ → α → Except ε (ρ' × σ)) : σ → List α → Except ε (List ρ' × σ)
  | s, [] => .ok ([], s)
  | s, a :: as => do
    let (r, s) ← impl s a
    let (rs, s) ← implRun impl s as
    pure (r :: rs, s)

/-- Every call of a sequence meets a condition, in the state that the specification is in. -/
def Along (spec : μ → α → ρ × μ) (P : μ → α → Prop) : μ → List α → Prop
  | _, [] => True
  | m, a :: as => P m a ∧ Along spec P (spec m a).2 as

instance decAlong (spec : μ → α → ρ × μ) (P : μ → α → Prop) [∀ m a, Decidable (P m a)] :
    ∀ m as, Decidable (Along spec P m as)
  | _, [] => isTrue trivial
  | m, a :: as =>
    let _ := decAlong spec P (spec m a).2 as
    inferInstanceAs (Decidable (P m a ∧ _))

/-- The implementation returns, and with answers that agree. -/
def Refines (spec : μ → α → ρ × μ) (impl : σ → α → Except ε (ρ' × σ)) (Agrees : ρ → ρ' → Prop)
    (m : μ) (s : σ) (as : List α) : Prop :=
  ∃ rs s', implRun impl s as = .ok (rs, s') ∧ List.Forall₂ Agrees (specRun spec m as) rs

variable {spec : μ → α → ρ × μ} {impl : σ → α → Except ε (ρ' × σ)} {Agrees : ρ → ρ' → Prop}
  {Sim : μ → σ → Prop} {Proper Careful : μ → α → Prop}

theorem Along.and {P Q : μ → α → Prop} {m : μ} {as : List α} (hp : Along spec P m as)
    (hq : Along spec Q m as) : Along spec (fun m a => P m a ∧ Q m a) m as := by
  induction as generalizing m with
  | nil => trivial
  | cons a as ih => exact ⟨⟨hp.1, hq.1⟩, ih hp.2 hq.2⟩

/-- A sequence is answered call by call. -/
theorem refines_cons {m : μ} {s : σ} {a : α} {as : List α} :
    Refines spec impl Agrees m s (a :: as) ↔
      ∃ r s', impl s a = .ok (r, s') ∧ Agrees (spec m a).1 r ∧
        Refines spec impl Agrees (spec m a).2 s' as := by
  constructor
  · intro ⟨rs, s₂, hrun, hall⟩
    cases himpl : impl s a with
    | error e => simp [implRun, himpl, bind, Except.bind] at hrun
    | ok p =>
      obtain ⟨r, s₁⟩ := p
      cases hrest : implRun impl s₁ as with
      | error e => simp [implRun, himpl, hrest, bind, Except.bind] at hrun
      | ok q =>
        obtain ⟨rs', s'⟩ := q
        simp only [implRun, himpl, hrest, bind, Except.bind, pure, Except.pure, Except.ok.injEq,
          Prod.mk.injEq] at hrun
        obtain ⟨rfl, rfl⟩ := hrun
        obtain ⟨hr, hrs⟩ := List.forall₂_cons.1 hall
        exact ⟨r, s₁, rfl, hr, rs', s', hrest, hrs⟩
  · intro ⟨r, s₁, himpl, hr, rs, s', hrest, hrs⟩
    refine ⟨r :: rs, s', ?_, .cons hr hrs⟩
    simp [implRun, himpl, hrest, bind, Except.bind, pure, Except.pure]

/-- Where every proper call agrees exactly if it is careful, a sequence of proper calls does
    exactly if all of them are careful. -/
theorem refines_iff_along
    (hagrees : ∀ m s a, Sim m s → Proper m a → Careful m a →
      ∃ r s', impl s a = .ok (r, s') ∧ Agrees (spec m a).1 r ∧ Sim (spec m a).2 s')
    (hcareful : ∀ m s a r s', Sim m s → Proper m a → impl s a = .ok (r, s') →
      Agrees (spec m a).1 r → Careful m a)
    {m : μ} {s : σ} (hsim : Sim m s) {as : List α} (hproper : Along spec Proper m as) :
    Refines spec impl Agrees m s as ↔ Along spec Careful m as := by
  induction as generalizing m s with
  | nil => exact ⟨fun _ => trivial, fun _ => ⟨[], s, rfl, .nil⟩⟩
  | cons a as ih =>
    obtain ⟨ha, has⟩ := hproper
    rw [refines_cons]
    constructor
    · intro ⟨r, s', himpl, hr, hrest⟩
      have hok := hcareful m s a r s' hsim ha himpl hr
      -- the state after the call is the one that the simulation is about
      obtain ⟨r₁, s₁, himpl₁, -, hsim₁⟩ := hagrees m s a hsim ha hok
      obtain ⟨-, rfl⟩ := Prod.mk.inj (Except.ok.inj (himpl₁.symm.trans himpl))
      exact ⟨hok, (ih hsim₁ has).1 hrest⟩
    · intro ⟨hok, hrest⟩
      obtain ⟨r, s', himpl, hr, hsim'⟩ := hagrees m s a hsim ha hok
      exact ⟨r, s', himpl, hr, (ih hsim' has).2 hrest⟩

end Answering
