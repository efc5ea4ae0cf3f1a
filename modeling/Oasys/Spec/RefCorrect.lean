import Oasys.ForStd.Holding
import Oasys.ForStd.Transition
import Oasys.Util.Ref
import Mathlib.Data.Set.Card

/-!
# Ref correctness

While the destructor of an object runs, the `Ref` that let it go still points to it. It counts
for the object that it is going to point to (`eff`). Counted like that, the reference counts
are right between any two steps, provided that nothing uses such a `Ref` before the operation
on it is through.

## Key results

- `letGo_ok`: a `Ref` goes over from one object to another
- `next_inv`: what a careful step keeps
- `counted_of_careful`: the counts over careful runs
- `not_counted`: a run that is not careful
-/

namespace Oasys.Ref

variable {Obj Var Temp : Type} [DecidableEq Obj] [DecidableEq Var] [DecidableEq Temp]
  {s s' : State Obj Var Temp} {h : Obj → Finset Var} {v w : Var} {o : Obj} {x : Option Obj}
  {r : Rest Obj Var Temp}

/-! ### Runs -/

def Busy (s : State Obj Var Temp) (v : Var) : Prop := ∃ f ∈ s.stack, f.rest.ref = v

/-- A pointer to an object that has not been deleted, or null. -/
def Live (s : State Obj Var Temp) (x : Option Obj) : Prop := ∀ o, x = some o → s.no_more_refs o = 0

/-- The steps that a program may take: its variables exist, and what it assigns is a pointer
    to an object that does. A `TempRef` is empty when it ends, and outlives the calls that
    it is an argument of. -/
def Admissible (s : State Obj Var Temp) : Option (Op Obj Var Temp) → Prop
  | none => s.stack ≠ []
  | some (.new v x) => s.refs v = none ∧ Live s x
  | some (.newTemp v t) => s.refs v = none ∧ ∃ x, s.temps t = some x ∧ Live s x
  | some (.newRef v other) => s.refs v = none ∧ s.refs other ≠ none
  | some (.assign v x) => s.refs v ≠ none ∧ Live s x
  | some (.assignRef v other) => s.refs v ≠ none ∧ s.refs other ≠ none
  | some (.assignTemp v t) => s.refs v ≠ none ∧ ∃ x, s.temps t = some x ∧ Live s x
  | some (.release v) => s.refs v ≠ none
  | some (.destroy v) => s.refs v ≠ none
  | some (.temp t x) => s.temps t = none ∧ Live s x
  | some (.destroyTemp t) => s.temps t = some none ∧ ∀ f ∈ s.stack, f.rest.temp ≠ some t

/-- The `Ref`s that an operation changes or reads. An assignment to itself does nothing. -/
def uses : Op Obj Var Temp → List Var
  | .newRef _ other => [other]
  | .assign v _ => [v]
  | .assignRef v other => if v = other then [] else [v, other]
  | .assignTemp v _ => [v]
  | .release v => [v]
  | .destroy v => [v]
  | _ => []

/-- The object that an operation adds a reference to. -/
def adds (s : State Obj Var Temp) : Op Obj Var Temp → Option Obj
  | .new _ x => x
  | .newTemp _ t => (s.temps t).getD none
  | .newRef _ other => (s.refs other).getD none
  | .assign v x => if s.refs v = some x then none else x
  | .assignRef v other => if s.refs v = s.refs other then none else (s.refs other).getD none
  | .assignTemp v t => if s.refs v = s.temps t then none else (s.temps t).getD none
  | _ => none

/-- A step that leaves the `Ref`s alone on which an operation is under way, and adds no
    reference to an object that has `2 ^ 32 - 1`. -/
def Careful (s : State Obj Var Temp) (a : Option (Op Obj Var Temp)) : Prop :=
  Admissible s a ∧ ∀ op, a = some op →
    (∀ v ∈ uses op, ¬ Busy s v) ∧ ∀ o, adds s op = some o → s.refcount_ o + 1 < 2 ^ 32

def system (Obj Var Temp : Type) [DecidableEq Obj] [DecidableEq Var] [DecidableEq Temp] :
    TransitionSystem (State Obj Var Temp) (Option (Op Obj Var Temp)) where
  init s := s = .init
  step s a s' := next s a = .ok s'

/-- What holds in a state: between operations a count is the number of `Ref`s to the object,
    and `no_more_refs` has been called where there were some and are none any more; it is
    never called again; and a step that `ok` allows goes through, so that no assertion fails
    in it and nothing uses an object that is deleted. -/
structure Counted (ok : State Obj Var Temp → Option (Op Obj Var Temp) → Prop)
    (s : State Obj Var Temp) : Prop where
  count : s.stack = [] → ∀ o, {v | s.refs v = some (some o)}.Finite ∧
    s.refcount_ o = {v | s.refs v = some (some o)}.ncard
  last : s.stack = [] → ∀ o, s.no_more_refs o = 1 ↔
    s.held o = true ∧ ∀ v, s.refs v ≠ some (some o)
  once : ∀ o, s.no_more_refs o ≤ 1
  safe : ∀ a, ok s a → ∃ s', next s a = .ok s'

/-! ### The object that a Ref counts for -/

/-- The object that a `Ref` counts for: the one that it points to, or is going to. -/
def eff (s : State Obj Var Temp) (v : Var) : Option Obj :=
  match s.stack.find? fun f => f.rest.ref = v with
  | some f => f.rest.object_
  | none => (s.refs v).getD none

omit [DecidableEq Obj] [DecidableEq Temp] in
theorem eff_of_not_busy (hv : ¬ Busy s v) : eff s v = (s.refs v).getD none := by
  have hnone : (s.stack.find? fun f => f.rest.ref = v) = none := by
    simp only [List.find?_eq_none, decide_eq_true_eq]
    exact fun f hf href => hv ⟨f, hf, href⟩
  rw [eff, hnone]

omit [DecidableEq Obj] [DecidableEq Temp] in
theorem eff_push : eff { s with stack := ⟨o, r⟩ :: s.stack } w =
    if w = r.ref then r.object_ else eff s w := by
  by_cases hw : w = r.ref
  · simp [eff, hw]
  · simp [eff, hw, Ne.symm hw]

/-- A reference is added where the pointer is not null. -/
def added (s : State Obj Var Temp) (x : Option Obj) : State Obj Var Temp :=
  { s with
    refcount_ := fun o => s.refcount_ o + if x = some o then 1 else 0
    held := fun o => s.held o || decide (x = some o) }

/-- A reference is taken away. -/
def taken (s : State Obj Var Temp) (o : Obj) : State Obj Var Temp :=
  { s with
    refcount_ := Function.update s.refcount_ o (s.refcount_ o - 1)
    no_more_refs := Function.update s.no_more_refs o
      (s.no_more_refs o + if s.refcount_ o = 1 then 1 else 0) }

/-- An operation is through. -/
def finished (s : State Obj Var Temp) (r : Rest Obj Var Temp) : State Obj Var Temp :=
  { s with
    refs := Function.update s.refs r.ref (if r.ends then none else some r.object_)
    temps := match r.temp with
      | none => s.temps
      | some t => Function.update s.temps t (some none) }

omit [DecidableEq Obj] in
theorem eff_finished (hv : ¬ Busy s r.ref) (hends : r.ends → r.object_ = none) :
    eff (finished s r) w = if w = r.ref then r.object_ else eff s w := by
  by_cases hw : w = r.ref
  · have hbusy : ¬ Busy (finished s r) w := by
      rw [hw]
      exact hv
    rw [eff_of_not_busy hbusy, if_pos hw, hw]
    by_cases he : r.ends
    · simp [finished, he, hends he]
    · simp [finished, he]
  · simp [eff, finished, hw]

omit [DecidableEq Var] [DecidableEq Temp] in
theorem addRef?_ok (hlive : Live s x) (hroom : ∀ o, x = some o → s.refcount_ o + 1 < 2 ^ 32) :
    addRef? s x = .ok (added s x) := by
  cases x with
  | none => simp [addRef?, added]
  | some o =>
    have hlive := hlive o rfl
    have hroom := hroom o rfl
    have hcount : (fun o' => s.refcount_ o' + if o = o' then 1 else 0) =
        Function.update s.refcount_ o (s.refcount_ o + 1) := by
      funext o'
      by_cases ho : o = o'
      · simp [ho]
      · simp [ho, Ne.symm ho]
    have hheld : (fun o' => s.held o' || decide (o = o')) = Function.update s.held o true := by
      funext o'
      by_cases ho : o = o'
      · simp [ho]
      · simp [ho, Ne.symm ho]
    have hvalue : (s.refcount_ o + 1) % 2 ^ 32 = s.refcount_ o + 1 := Nat.mod_eq_of_lt hroom
    have hpos : 0 < s.refcount_ o + 1 := Nat.succ_pos _
    simp only [addRef?, addRef, touch, hlive, if_true, pure_eq_ok, ok_bind, hvalue, gt_iff_lt, hpos,
      decide_true, assert_true, added, Option.some.injEq, hcount, hheld]

omit [DecidableEq Var] [DecidableEq Temp] in
theorem delRef_ok (hlive : s.no_more_refs o = 0) (hpos : 0 < s.refcount_ o)
    (hbound : s.refcount_ o < 2 ^ 32) :
    delRef s o = .ok (taken s o, decide (s.refcount_ o = 1)) := by
  have hvalue : (s.refcount_ o + (2 ^ 32 - 1)) % 2 ^ 32 = s.refcount_ o - 1 := by omega
  by_cases hlast : s.refcount_ o = 1
  · simp [delRef, touch, taken, hlive, hlast]
  · have hne : s.refcount_ o - 1 ≠ 0 := by omega
    have hupdate : Function.update s.no_more_refs o 0 = s.no_more_refs := by
      rw [← hlive, Function.update_eq_self]
    simp only [delRef, touch, hlive, if_true, pure_eq_ok, ok_bind, gt_iff_lt, hpos, decide_true,
      assert_true, hvalue, hne, if_false, hlast, decide_false, taken, hupdate]

omit [DecidableEq Obj] in
theorem finish_ok (href : s.refs r.ref ≠ none) (htemp : ∀ t, r.temp = some t → s.temps t ≠ none) :
    finish s r = .ok (finished s r) := by
  obtain ⟨object_, hobject⟩ := Option.ne_none_iff_exists'.1 href
  cases ht : r.temp with
  | none => simp [finish, object, hobject, ht, finished]
  | some t =>
    obtain ⟨y, hy⟩ := Option.ne_none_iff_exists'.1 (htemp t ht)
    simp [finish, object, hobject, ht, releaseTemp, tempObject, hy, finished]

/-! ### The invariant -/

/-- What the operations under way come back to is still there. -/
def Kept (s : State Obj Var Temp) : Prop :=
  ∀ f ∈ s.stack, s.refs f.rest.ref ≠ none ∧ (f.rest.ends → f.rest.object_ = none) ∧
    ∀ t, f.rest.temp = some t → s.temps t ≠ none

/-- What holds between any two steps, with the `Ref`s that count for each object. -/
structure Inv (s : State Obj Var Temp) (h : Obj → Finset Var) : Prop where
  mem : ∀ v o, v ∈ h o ↔ eff s v = some o
  count : ∀ o, s.refcount_ o = (h o).card
  bound : ∀ o, s.refcount_ o < 2 ^ 32
  called : ∀ o, s.no_more_refs o = if s.held o = true ∧ s.refcount_ o = 0 then 1 else 0
  held : ∀ o, 0 < s.refcount_ o → s.held o = true
  /-- No two operations are under way on one `Ref`. -/
  distinct : (s.stack.map fun f => f.rest.ref).Nodup
  kept : Kept s

omit [DecidableEq Obj] [DecidableEq Temp] in
theorem Inv.pos (hinv : Inv s h) (hv : eff s v = some o) : 0 < s.refcount_ o := by
  rw [hinv.count, Finset.card_pos]
  exact ⟨v, (hinv.mem v o).2 hv⟩

omit [DecidableEq Obj] [DecidableEq Temp] in
theorem Inv.live (hinv : Inv s h) (hv : eff s v = some o) : s.no_more_refs o = 0 := by
  have := hinv.pos hv
  rw [hinv.called, if_neg (by omega)]

omit [DecidableEq Temp] in
theorem Inv.move (hinv : Inv s h) (hlive : Live s x)
    (heff : ∀ w, eff s' w = if w = v then x else eff s w)
    (hcount : ∀ o, s'.refcount_ o + (if eff s v = some o then 1 else 0) =
      s.refcount_ o + if x = some o then 1 else 0)
    (hbound : ∀ o, s'.refcount_ o < 2 ^ 32)
    (hheld : ∀ o, s'.held o = (s.held o || decide (x = some o)))
    (hcalled : ∀ o, s'.no_more_refs o = s.no_more_refs o +
      if eff s v = some o ∧ s'.refcount_ o = 0 then 1 else 0)
    (hdistinct : (s'.stack.map fun f => f.rest.ref).Nodup)
    (hkept : Kept s') : Inv s' (Holding.move h v x) := by
  refine ⟨fun w o => ?_, fun o => ?_, hbound, fun o => ?_, fun o ho => ?_, hdistinct, hkept⟩
  · rw [Holding.mem_move, heff]
    split
    · rfl
    · exact hinv.mem w o
  · have hmove := Holding.card_move (x := x) (hinv.mem v o)
    have := hcount o
    have := hinv.count o
    omega
  · have hcount := hcount o
    rw [hcalled, hheld, hinv.called]
    by_cases hv : eff s v = some o
    · -- what it counted for until now
      have hpos := hinv.pos hv
      have hheld := hinv.held o hpos
      simp [hv, hheld]
      omega
    · by_cases hx : x = some o
      · have hzero := hlive o hx
        rw [hinv.called] at hzero
        rw [hzero]
        simp [hx, hv] at hcount ⊢
        omega
      · simp [hx, hv] at hcount ⊢
        rw [hcount]
  · have hcount := hcount o
    rw [hheld]
    by_cases hx : x = some o
    · simp [hx]
    · simp [hx] at hcount ⊢
      exact hinv.held o (by omega)

omit [DecidableEq Obj] in
theorem Kept.finished (hkept : Kept s) (hv : ¬ Busy s r.ref) : Kept (Ref.finished s r) := by
  intro f hf
  obtain ⟨href, hends, htemp⟩ := hkept f hf
  refine ⟨?_, hends, fun t ht => ?_⟩
  · have hne : f.rest.ref ≠ r.ref := fun hc => hv ⟨f, hf, hc⟩
    simpa [Ref.finished, hne] using href
  · have htemp := htemp t ht
    cases hr : r.temp with
    | none => simpa [Ref.finished, hr] using htemp
    | some t' =>
      by_cases htt : t = t'
      · simp [Ref.finished, hr, htt]
      · simpa [Ref.finished, hr, htt] using htemp

/-- A `Ref` lets go of its object, after a reference has been added to the one it goes to. -/
theorem letGo_ok (hinv : Inv s h) (href : s.refs r.ref ≠ none) (hv : ¬ Busy s r.ref)
    (hends : r.ends → r.object_ = none) (htemp : ∀ t, r.temp = some t → s.temps t ≠ none)
    (hlive : Live s r.object_) (hroom : ∀ o, r.object_ = some o → s.refcount_ o + 1 < 2 ^ 32)
    (hne : ∀ o, s.refs r.ref = some (some o) → r.object_ ≠ some o) :
    ∃ s', letGo (added s r.object_) r = .ok s' ∧ Inv s' (Holding.move h r.ref r.object_) := by
  obtain ⟨old, hold⟩ := Option.ne_none_iff_exists'.1 href
  have heff : eff s r.ref = old := by rw [eff_of_not_busy hv, hold, Option.getD_some]
  have hobject : object (added s r.object_) r.ref = .ok old := by simp [object, added, hold]
  have hbound : ∀ o, (added s r.object_).refcount_ o < 2 ^ 32 := by
    intro o
    have := hinv.bound o
    by_cases ho : r.object_ = some o
    · have := hroom o ho
      simp only [added, if_pos ho]
      omega
    · simpa only [added, if_neg ho, Nat.add_zero] using this
  cases old with
  | none =>
    refine ⟨finished (added s r.object_) r, ?_, hinv.move hlive (fun w => ?_) (fun o => ?_) hbound
      (fun o => rfl) (fun o => ?_) hinv.distinct ?_⟩
    · simp only [letGo, hobject, ok_bind]
      exact finish_ok href htemp
    · exact eff_finished (s := added s r.object_) hv hends
    · simp [heff, finished, added]
    · simp [heff, finished, added]
    · exact hinv.kept.finished hv
  | some o =>
    have hpos := hinv.pos heff
    have hcount : (added s r.object_).refcount_ o = s.refcount_ o := by
      simp [added, hne o hold]
    have hdel := delRef_ok (s := added s r.object_) (o := o) (hinv.live heff)
      (by rw [hcount]; exact hpos) (hbound o)
    have hcount' : ∀ o', (taken (added s r.object_) o).refcount_ o' +
        (if eff s r.ref = some o' then 1 else 0) =
          s.refcount_ o' + if r.object_ = some o' then 1 else 0 := by
      intro o'
      by_cases ho : o' = o
      · subst ho
        simp [taken, heff, hne o' hold, added]
        omega
      · simp [taken, heff, ho, Ne.symm ho, added]
    have hbound' : ∀ o', (taken (added s r.object_) o).refcount_ o' < 2 ^ 32 := by
      intro o'
      have := hbound o'
      by_cases ho : o' = o
      · subst ho
        simp only [taken, Function.update_self]
        omega
      · simpa [taken, ho] using this
    have hcalled : ∀ o', (taken (added s r.object_) o).no_more_refs o' = s.no_more_refs o' +
        if eff s r.ref = some o' ∧ (taken (added s r.object_) o).refcount_ o' = 0 then 1
        else 0 := by
      intro o'
      by_cases ho : o' = o
      · subst ho
        have hiff : s.refcount_ o' - 1 = 0 ↔ s.refcount_ o' = 1 := by omega
        simp [taken, heff, added, hne o' hold, hiff]
      · simp [taken, heff, ho, Ne.symm ho, added]
    by_cases hlast : s.refcount_ o = 1
    · -- the destructor of `o` comes first
      refine ⟨{ taken (added s r.object_) o with
          stack := ⟨o, r⟩ :: (taken (added s r.object_) o).stack },
        ?_, hinv.move hlive (fun w => ?_) hcount' hbound' (fun o => rfl) hcalled ?_ ?_⟩
      · simp [letGo, hobject, hdel, hcount, hlast]
      · rw [eff_push]
        rfl
      · refine List.nodup_cons.2 ⟨?_, hinv.distinct⟩
        intro hmem
        obtain ⟨f, hf, hfref⟩ := List.mem_map.1 hmem
        exact hv ⟨f, hf, hfref⟩
      · intro f hf
        rcases List.mem_cons.1 hf with rfl | hf
        · exact ⟨href, hends, htemp⟩
        · exact hinv.kept f hf
    · refine ⟨finished (taken (added s r.object_) o) r, ?_, hinv.move hlive (fun w => ?_) hcount'
        hbound' (fun o => rfl) hcalled hinv.distinct (hinv.kept.finished hv)⟩
      · simp only [letGo, hobject, ok_bind, hdel, hcount, hlast, decide_false]
        exact finish_ok href htemp
      · exact eff_finished (s := taken (added s r.object_) o) hv hends

/-! ### Operations -/

omit [DecidableEq Obj] [DecidableEq Temp] in
theorem Inv.not_busy (hinv : Inv s h) (hv : s.refs v = none) : ¬ Busy s v := by
  rintro ⟨f, hf, rfl⟩
  exact (hinv.kept f hf).1 hv

omit [DecidableEq Obj] in
theorem Inv.setTemp (hinv : Inv s h) {t : Temp} {y : Option (Option Obj)}
    (hy : y = none → ∀ f ∈ s.stack, f.rest.temp ≠ some t) :
    Inv { s with temps := Function.update s.temps t y } h := by
  refine ⟨hinv.mem, hinv.count, hinv.bound, hinv.called, hinv.held, hinv.distinct, ?_⟩
  intro f hf
  obtain ⟨href, hends, htemp⟩ := hinv.kept f hf
  refine ⟨href, hends, fun t' ht' => ?_⟩
  by_cases ht : t' = t
  · subst ht
    simp only [Function.update_self]
    exact fun hc => hy hc f hf ht'
  · simpa [ht] using htemp t' ht'

omit [DecidableEq Obj] [DecidableEq Var] in
theorem releaseTemp_ok {t : Temp} (ht : s.temps t ≠ none) :
    releaseTemp s t = .ok { s with temps := Function.update s.temps t (some none) } := by
  obtain ⟨y, hy⟩ := Option.ne_none_iff_exists'.1 ht
  simp [releaseTemp, tempObject, hy]

theorem construct_ok (hinv : Inv s h) (hv : s.refs v = none) (hlive : Live s x)
    (hroom : ∀ o, x = some o → s.refcount_ o + 1 < 2 ^ 32) :
    ∃ s' h', construct s v x = .ok s' ∧ Inv s' h' := by
  have hbusy := hinv.not_busy hv
  have heff : eff s v = none := by simp [eff_of_not_busy hbusy, hv]
  let r : Rest Obj Var Temp := ⟨v, x, none, false⟩
  refine ⟨finished (added s x) r, Holding.move h v x, ?_, hinv.move hlive (fun w => ?_)
    (fun o => ?_) (fun o => ?_) (fun o => rfl) (fun o => ?_) hinv.distinct ?_⟩
  · simp [construct, addRef?_ok hlive hroom, finished, r]
  · exact eff_finished (s := added s x) (r := r) hbusy (by simp [r])
  · simp [heff, finished, added]
  · have := hinv.bound o
    have := hroom o
    by_cases ho : x = some o
    · simp only [finished, added, if_pos ho]
      exact this ho
    · simpa [finished, added, ho]
  · simp [heff, finished, added]
  · exact hinv.kept.finished (r := r) hbusy

theorem assign_ok (hinv : Inv s h) (temp : Option Temp) (href : s.refs v ≠ none)
    (hv : s.refs v ≠ some x → ¬ Busy s v) (htemp : ∀ t, temp = some t → s.temps t ≠ none)
    (hlive : Live s x)
    (hroom : s.refs v ≠ some x → ∀ o, x = some o → s.refcount_ o + 1 < 2 ^ 32) :
    ∃ s' h', assign s v x temp = .ok s' ∧ Inv s' h' := by
  obtain ⟨object_, hobject⟩ := Option.ne_none_iff_exists'.1 href
  by_cases hsame : object_ = x
  · -- the `Ref` has the object already
    cases temp with
    | none => exact ⟨s, h, by simp [assign, object, hobject, hsame], hinv⟩
    | some t =>
      have htemp := htemp t rfl
      refine ⟨{ s with temps := Function.update s.temps t (some none) }, h, ?_,
        hinv.setTemp (by simp)⟩
      simp [assign, object, hobject, hsame, releaseTemp_ok htemp]
  · have hne : s.refs v ≠ some x := by simpa [hobject] using hsame
    obtain ⟨s', hgo, hinv'⟩ := letGo_ok (r := ⟨v, x, temp, false⟩) hinv href (hv hne) (by simp)
      htemp hlive (hroom hne) (fun o ho hx => by
        simp only [hobject, Option.some.injEq] at ho
        exact hsame (ho.trans hx.symm))
    refine ⟨s', _, ?_, hinv'⟩
    simp only [assign, object, hobject, pure_eq_ok, ok_bind, hsame, addRef?_ok hlive (hroom hne),
      ne_eq, not_false_eq_true, if_true]
    exact hgo

theorem drop_ok (hinv : Inv s h) (href : s.refs v ≠ none) (hv : ¬ Busy s v) (ends : Bool) :
    ∃ s' h', letGo s ⟨v, none, none, ends⟩ = .ok s' ∧ Inv s' h' := by
  have hadded : added s none = s := by simp [added]
  obtain ⟨s', hgo, hinv'⟩ := letGo_ok (r := ⟨v, none, none, ends⟩) hinv href hv (by simp) (by simp)
    (by simp [Live]) (by simp) (by simp)
  rw [hadded] at hgo
  exact ⟨s', _, hgo, hinv'⟩

omit [DecidableEq Obj] in
theorem return_ok (hinv : Inv s h) {f : Frame Obj Var Temp} {stack : List (Frame Obj Var Temp)}
    (hstack : s.stack = f :: stack) :
    ∃ s', finish { s with stack } f.rest = .ok s' ∧ Inv s' h := by
  obtain ⟨href, hends, htemp⟩ := hinv.kept f (by simp [hstack])
  have hdistinct := hinv.distinct
  simp only [hstack, List.map_cons, List.nodup_cons] at hdistinct
  have hv : ¬ Busy { s with stack } f.rest.ref := by
    rintro ⟨g, hg, hgf⟩
    exact hdistinct.1 (List.mem_map.2 ⟨g, hg, hgf⟩)
  have heff : ∀ w, eff (finished { s with stack } f.rest) w = eff s w := by
    intro w
    rw [eff_finished hv hends]
    by_cases hw : w = f.rest.ref
    · simp [eff, hstack, hw]
    · simp [eff, hstack, hw, Ne.symm hw]
  refine ⟨finished { s with stack } f.rest, finish_ok href htemp, ?_⟩
  refine ⟨fun w o => ?_, hinv.count, hinv.bound, hinv.called, hinv.held, hdistinct.2, ?_⟩
  · rw [heff]
    exact hinv.mem w o
  · have hkept : Kept { s with stack } := fun g hg => hinv.kept g (by simp [hstack, hg])
    exact hkept.finished hv

omit [DecidableEq Obj] [DecidableEq Temp] in
theorem Inv.live_ref (hinv : Inv s h) (hv : ¬ Busy s v) (hobject : s.refs v = some x) :
    Live s x := by
  intro o ho
  apply hinv.live (v := v)
  rw [eff_of_not_busy hv, hobject, ho, Option.getD_some]

theorem next_inv (hinv : Inv s h) {a : Option (Op Obj Var Temp)} (ha : Careful s a) :
    ∃ s' h', next s a = .ok s' ∧ Inv s' h' := by
  obtain ⟨hadmissible, hcareful⟩ := ha
  cases a with
  | none =>
    cases hstack : s.stack with
    | nil => exact absurd hstack hadmissible
    | cons f stack =>
      obtain ⟨s', hreturn, hinv'⟩ := return_ok hinv hstack
      exact ⟨s', h, by simp [next, hstack, hreturn], hinv'⟩
  | some op =>
    obtain ⟨hfree, hroom⟩ := hcareful op rfl
    simp only [next]
    cases op with
    | new v x => exact construct_ok hinv hadmissible.1 hadmissible.2 hroom
    | newTemp v t =>
      obtain ⟨hv, x, ht, hlive⟩ := hadmissible
      simp only [adds, ht, Option.getD_some] at hroom
      have htemp : s.temps t ≠ none := by simp [ht]
      have hinv' := hinv.setTemp (t := t) (y := some none) (by simp)
      obtain ⟨s', h', hs', hinv''⟩ := construct_ok hinv' hv hlive hroom
      exact ⟨s', h', by simp [apply, tempObject, ht, releaseTemp_ok htemp, hs'], hinv''⟩
    | newRef v other =>
      obtain ⟨hv, hother⟩ := hadmissible
      obtain ⟨x, hx⟩ := Option.ne_none_iff_exists'.1 hother
      simp only [adds, hx, Option.getD_some] at hroom
      have hlive := hinv.live_ref (hfree other (by simp [uses])) hx
      obtain ⟨s', h', hs', hinv'⟩ := construct_ok hinv hv hlive hroom
      exact ⟨s', h', by simp [apply, object, hx, hs'], hinv'⟩
    | assign v x =>
      simp only [adds] at hroom
      exact assign_ok hinv none hadmissible.1 (fun _ => hfree v (by simp [uses])) (by simp)
        hadmissible.2 (fun hne => by simpa [hne] using hroom)
    | assignRef v other =>
      obtain ⟨hv, hother⟩ := hadmissible
      obtain ⟨x, hx⟩ := Option.ne_none_iff_exists'.1 hother
      by_cases hsame : v = other
      · -- to itself
        subst hsame
        exact ⟨s, h, by simp [apply, object, hx, assign], hinv⟩
      · simp only [uses, if_neg hsame] at hfree
        simp only [adds, hx, Option.getD_some] at hroom
        have hlive := hinv.live_ref (hfree other (by simp)) hx
        obtain ⟨s', h', hs', hinv'⟩ := assign_ok hinv none hv
          (fun _ => hfree v (by simp)) (by simp) hlive (fun hne => by simpa [hne] using hroom)
        exact ⟨s', h', by simp [apply, object, hx, hs'], hinv'⟩
    | assignTemp v t =>
      obtain ⟨hv, x, ht, hlive⟩ := hadmissible
      simp only [adds, ht, Option.getD_some] at hroom
      obtain ⟨s', h', hs', hinv'⟩ := assign_ok hinv (some t) hv
        (fun _ => hfree v (by simp [uses])) (by simp [ht]) hlive
        (fun hne => by simpa [hne] using hroom)
      exact ⟨s', h', by simp [apply, tempObject, ht, hs'], hinv'⟩
    | release v => exact drop_ok hinv hadmissible (hfree v (by simp [uses])) false
    | destroy v => exact drop_ok hinv hadmissible (hfree v (by simp [uses])) true
    | temp t x => exact ⟨_, h, rfl, hinv.setTemp (by simp)⟩
    | destroyTemp t =>
      obtain ⟨ht, hlast⟩ := hadmissible
      exact ⟨_, h, by simp [apply, tempObject, ht]; rfl, hinv.setTemp fun _ => hlast⟩

omit [DecidableEq Obj] [DecidableEq Temp] in
theorem init_inv : Inv (State.init : State Obj Var Temp) fun _ => ∅ := by
  refine ⟨by simp [State.init, eff], by simp [State.init], by simp [State.init],
    by simp [State.init], by simp [State.init], by simp [State.init], ?_⟩
  intro f hf
  simp [State.init] at hf

/-- The counts of careful runs. -/
theorem counted_of_careful {s : State Obj Var Temp}
    (h : (system Obj Var Temp).ReachableWith Careful s) : Counted Careful s := by
  obtain ⟨hs, hinv⟩ : ∃ hs, Inv s hs := by
    refine h.invariant (P := fun s => ∃ hs, Inv s hs) ?_ ?_
    · rintro s rfl
      exact ⟨_, init_inv⟩
    · rintro s a s' ⟨hs, hinv⟩ ha hstep
      obtain ⟨s'', hs', hnext, hinv'⟩ := next_inv hinv ha
      obtain rfl : s'' = s' := Except.ok.inj (hnext.symm.trans hstep)
      exact ⟨hs', hinv'⟩
  have hmem : s.stack = [] → ∀ v o, v ∈ hs o ↔ s.refs v = some (some o) := by
    intro hstack v o
    have hv : ¬ Busy s v := by simp [Busy, hstack]
    rw [hinv.mem, eff_of_not_busy hv]
    cases s.refs v with
    | none => simp
    | some x => simp
  constructor
  · intro hstack o
    have hset : {v | s.refs v = some (some o)} = (hs o : Set Var) := by
      ext v
      simp [hmem hstack]
    rw [hset, Set.ncard_coe_finset]
    exact ⟨Finset.finite_toSet _, hinv.count o⟩
  · intro hstack o
    have hnone : s.refcount_ o = 0 ↔ ∀ v, s.refs v ≠ some (some o) := by
      rw [hinv.count, Finset.card_eq_zero, Finset.eq_empty_iff_forall_notMem]
      simp only [hmem hstack, ne_eq]
    rw [hinv.called, ← hnone]
    simp
  · intro o
    rw [hinv.called]
    split <;> omega
  · intro a ha
    obtain ⟨s', -, hnext, -⟩ := next_inv hinv ha
    exact ⟨s', hnext⟩

/-- A `Ref` lets go of an object whose destructor destroys a `Ref` to another one. -/
theorem counted_of_careful_chain : ∃ s : State Bool Bool Bool, s.stack = [] ∧
    s.no_more_refs = (fun _ => 1) ∧ (system Bool Bool Bool).ReachableWith Careful s ∧
    Counted Careful s := by
  have hreach : ∃ s : State Bool Bool Bool, s.stack = [] ∧ s.no_more_refs = (fun _ => 1) ∧
      (system Bool Bool Bool).ReachableWith Careful s := by
    refine ⟨_, ?_, ?_, .step (a := none) (.step (a := none) (.step (a := some (.destroy true))
      (.step (a := some (.release false)) (.step (a := some (.new true (some true)))
        (.step (a := some (.new false (some false))) (.init rfl) ?_ rfl) ?_ rfl) ?_ rfl) ?_ rfl)
      ?_ rfl) ?_ rfl⟩
    all_goals simp [Careful, Admissible, Live, Busy, uses, adds, State.init]
    funext o
    cases o <;> rfl
  obtain ⟨s, hstack, hcalled, hs⟩ := hreach
  exact ⟨s, hstack, hcalled, hs, counted_of_careful hs⟩

/-- An object holds the only `Ref` to itself, which is released: the destructor of the object
    destroys that `Ref`, which still points to the object. -/
theorem not_counted : ¬ ∀ s : State Unit Unit Unit,
    (system Unit Unit Unit).ReachableWith Admissible s → Counted Admissible s := by
  intro hall
  have hreach : ∃ s : State Unit Unit Unit, s.no_more_refs () = 1 ∧ s.refs () = some (some ()) ∧
      (system Unit Unit Unit).ReachableWith Admissible s := by
    refine ⟨_, ?_, ?_, .step (a := some (.release ()))
      (.step (a := some (.new () (some ()))) (.init rfl) ?_ rfl) ?_ rfl⟩
    all_goals simp [Admissible, Live, State.init]
  obtain ⟨s, hcalled, hobject, hs⟩ := hreach
  obtain ⟨s', hs'⟩ := (hall s hs).safe (some (.destroy ())) (by simp [Admissible, hobject])
  simp [next, apply, destroy, letGo, object, hobject, delRef, touch, hcalled] at hs'

end Oasys.Ref
