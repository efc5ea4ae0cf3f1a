import Oasys.Util.Time

/-!
# The sums of times

What the additions of `Time` give when the seconds do not overflow. All of them leave the
carry to `cleanup`, which takes one for a carry of a microsecond too late and divides where
it has to take the rest. The assertions behind `add_milliseconds` and `add_microseconds`
compare in 32 bits, where a long time has wrapped round.
-/

namespace Oasys

namespace Time

variable {t u r : Time}

/-! ### Readings -/

theorem Reading.ext (ht : t.Reading) (hu : u.Reading) (h : t.usecs = u.usecs) : t = u := by
  obtain ⟨-, -, ht₀, ht₁⟩ := ht
  obtain ⟨-, -, hu₀, hu₁⟩ := hu
  simp only [usecs] at h
  have hsec : t.sec_ = u.sec_ := by omega
  have husec : t.usec_ = u.usec_ := by omega
  cases t
  cases u
  simp only at hsec husec
  rw [hsec, husec]

theorem inMilliseconds_eq (t : Time) : t.inMilliseconds = t.usecs / 1000 % 2 ^ 32 := by
  simp only [inMilliseconds, IntType.u32_conv, usecs]
  omega

theorem inMicroseconds_eq (t : Time) : t.inMicroseconds = t.usecs % 2 ^ 32 := by
  simp only [inMicroseconds, IntType.u32_conv, usecs]

theorem Reading.sub_exact (ht : t.Reading) (hu : u.Reading) (h : u.usecs ≤ t.usecs) :
    ∃ d, t.sub u = .ok d ∧ d.usecs = t.usecs - u.usecs ∧ d.Reading := by
  have hge := (ht.ge_iff hu).2 h
  obtain ⟨ht₀, ht₁, ht₂, ht₃⟩ := ht
  obtain ⟨hu₀, hu₁, hu₂, hu₃⟩ := hu
  simp only [usecs] at h
  simp only [Time.sub, subAssign, hge, assert_true, ok_bind, pure_eq_ok, Except.ok.injEq,
    exists_eq_left', IntType.u32_conv]
  by_cases hborrow : t.usec_ < u.usec_
  · rw [if_pos hborrow]
    simp only [usecs]
    refine ⟨by omega, ?_⟩
    constructor
    · exact Int.emod_nonneg _ (by decide)
    · exact Int.emod_lt_of_pos _ (by decide)
    · exact Int.emod_nonneg _ (by decide)
    · simp only
      omega
  · rw [if_neg hborrow]
    simp only [usecs]
    refine ⟨by omega, ?_⟩
    constructor
    · exact Int.emod_nonneg _ (by decide)
    · exact Int.emod_lt_of_pos _ (by decide)
    · exact Int.emod_nonneg _ (by decide)
    · simp only
      omega

/-! ### The carry -/

/-- Where `cleanup` finds the right carry for two numbers of microseconds. -/
def Carries (usec : Int) : Prop := usec < 1000000 ∨ usec = 1000001

instance (usec : Int) : Decidable (Carries usec) := inferInstanceAs (Decidable (_ ∨ _))

theorem cleanup_exact_iff (hsec : 0 ≤ r.sec_) (husec : 0 ≤ r.usec_)
    (hcarry : r.usec_ < 2000000) (hfit : r.usecs / 1000000 < 2 ^ 32) :
    r.cleanup.usecs = r.usecs ∧ r.cleanup.Reading ↔ Carries r.usec_ := by
  simp only [usecs] at hfit
  unfold Carries cleanup
  by_cases hover : r.usec_ > 1000000
  · have hone : r.usec_ / 1000000 = 1 := by omega
    have hsum : (r.sec_ + 1) % 2 ^ 32 = r.sec_ + 1 := by
      apply Int.emod_eq_of_lt
      · omega
      · omega
    rw [if_pos hover]
    simp only [usecs, IntType.u32_conv, hone, hsum]
    constructor
    · rintro ⟨hexact, -⟩
      omega
    · intro hcarries
      refine ⟨by omega, ?_⟩
      constructor <;> simp only <;> omega
  · rw [if_neg hover]
    constructor
    · rintro ⟨-, hreading⟩
      exact Or.inl hreading.usec_lt
    · intro hcarries
      exact ⟨rfl, ⟨hsec, by omega, husec, by omega⟩⟩

theorem le_add_emod_iff {x y w : Int} (hy₀ : 0 ≤ y) (hy : y < w) :
    y ≤ (x + y) % w ↔ x % w + y < w := by
  have hw : 0 < w := by omega
  have hx₀ := Int.emod_nonneg x (Int.ne_of_gt hw)
  have hx := Int.emod_lt_of_pos x hw
  have hsum : (x + y) % w = (x % w + y) % w := by rw [Int.emod_add_emod]
  rw [hsum]
  by_cases hlt : x % w + y < w
  · rw [Int.emod_eq_of_lt (by omega) hlt]
    omega
  · rw [← Int.sub_emod_right, Int.emod_eq_of_lt (by omega) (by omega)]
    omega

/-! ### The additions -/

/-- The calls that add something to a time. -/
inductive Addition where
  /-- `operator+`. -/
  | plus (u : Time)
  /-- `operator+=`. -/
  | plusAssign (u : Time)
  | milliseconds (msecs : Int)
  | microseconds (usecs : Int)

namespace Addition

/-- What the call is of. -/
def run (t : Time) : Addition → Except Fault Time
  | .plus u => t.add u
  | .plusAssign u => t.addAssign u
  | .milliseconds msecs => t.addMilliseconds msecs
  | .microseconds usecs => t.addMicroseconds usecs

/-- A time with its microseconds in range, or a `u_int32_t`. -/
def Valid : Addition → Prop
  | .plus u | .plusAssign u => u.Reading
  | .milliseconds n | .microseconds n => 0 ≤ n ∧ n < 2 ^ 32

def amount : Addition → Time
  | .plus u | .plusAssign u => u
  | .milliseconds msecs => ⟨msecs / 1000, msecs % 1000 * 1000⟩
  | .microseconds usecs => ⟨usecs / 1000000, usecs % 1000000⟩

def check (r : Time) : Addition → Bool
  | .plus u | .plusAssign u => r.ge u
  | .milliseconds msecs => r.inMilliseconds ≥ msecs
  | .microseconds usecs => r.inMicroseconds ≥ usecs

def Narrow (t : Time) : Addition → Prop
  | .plus _ | .plusAssign _ => True
  | .milliseconds msecs => t.inMilliseconds + msecs < 2 ^ 32
  | .microseconds usecs => t.inMicroseconds + usecs < 2 ^ 32

/-- The call returns the sum, with its microseconds in range, and what a `+` has added can
    be taken away again. -/
def Exact (t : Time) (a : Addition) : Prop :=
  ∃ r, a.run t = .ok r ∧ r.usecs = t.usecs + a.amount.usecs ∧ r.Reading ∧
    ∀ u, a = .plus u → r.sub u = .ok t

variable {a : Addition}

/-- All of them add the seconds and the microseconds, clean up and check. -/
theorem run_eq (ht : t.Reading) (ha : a.Valid) : ∃ sum : Time,
    sum.sec_ = (t.sec_ + a.amount.sec_) % 2 ^ 32 ∧ sum.usec_ = t.usec_ + a.amount.usec_ ∧
      a.run t = (do assert (a.check sum.cleanup); pure sum.cleanup) := by
  have hus₀ := ht.usec_nonneg
  have hus := ht.usec_lt
  cases a with
  | plus u =>
    have hu₀ := ha.usec_nonneg
    have hu := ha.usec_lt
    refine ⟨⟨IntType.u32.conv (u.sec_ + t.sec_), IntType.u32.conv (u.usec_ + t.usec_)⟩,
      ?_, ?_, rfl⟩
    · rw [IntType.u32_conv, Int.add_comm]
      rfl
    · simp only [IntType.u32_conv, amount]
      omega
  | plusAssign u =>
    have hu₀ := ha.usec_nonneg
    have hu := ha.usec_lt
    refine ⟨_, ?_, ?_, rfl⟩
    · rw [IntType.u32_conv]
      rfl
    · simp only [IntType.u32_conv, amount]
      omega
  | milliseconds msecs =>
    refine ⟨_, ?_, ?_, rfl⟩
    · rw [IntType.u32_conv]
      rfl
    · simp only [IntType.u32_conv, amount]
      omega
  | microseconds usecs =>
    refine ⟨_, ?_, ?_, rfl⟩
    · rw [IntType.u32_conv]
      rfl
    · simp only [IntType.u32_conv, amount]
      omega

theorem Valid.amount (ha : a.Valid) :
    0 ≤ a.amount.sec_ ∧ 0 ≤ a.amount.usec_ ∧ a.amount.usec_ < 1000000 := by
  cases a with
  | plus u => exact ⟨ha.sec_nonneg, ha.usec_nonneg, ha.usec_lt⟩
  | plusAssign u => exact ⟨ha.sec_nonneg, ha.usec_nonneg, ha.usec_lt⟩
  | milliseconds msecs =>
    obtain ⟨h₀, h₁⟩ := ha
    simp only [Addition.amount]
    omega
  | microseconds usecs =>
    obtain ⟨h₀, h₁⟩ := ha
    simp only [Addition.amount]
    omega

theorem check_iff (ht : t.Reading) (ha : a.Valid) (hr : r.Reading)
    (hsum : r.usecs = t.usecs + a.amount.usecs) : a.check r = true ↔ a.Narrow t := by
  have ht₀ : 0 ≤ t.usecs := by
    have h₁ := ht.sec_nonneg
    have h₂ := ht.usec_nonneg
    simp only [usecs]
    omega
  cases a with
  | plus u =>
    refine iff_of_true ((hr.ge_iff ha).2 ?_) trivial
    rw [hsum]
    exact Int.le_add_of_nonneg_left ht₀
  | plusAssign u =>
    refine iff_of_true ((hr.ge_iff ha).2 ?_) trivial
    rw [hsum]
    exact Int.le_add_of_nonneg_left ht₀
  | milliseconds msecs =>
    have hms : r.usecs / 1000 = t.usecs / 1000 + msecs := by
      rw [hsum]
      simp only [amount, usecs]
      omega
    simp only [check, Narrow, decide_eq_true_eq, inMilliseconds_eq, hms]
    exact le_add_emod_iff ha.1 ha.2
  | microseconds usecs =>
    have hus : r.usecs = t.usecs + usecs := by
      rw [hsum]
      simp only [amount, Time.usecs]
      omega
    simp only [check, Narrow, decide_eq_true_eq, inMicroseconds_eq, hus]
    exact le_add_emod_iff ha.1 ha.2

/-- An addition whose seconds do not overflow is exact where `cleanup` finds the right carry
    and the assertion does not wrap round. -/
theorem exact_iff (t : Time) (a : Addition) (ht : t.Reading) (ha : a.Valid)
    (hfit : (t.usecs + a.amount.usecs) / 1000000 < 2 ^ 32) :
    a.Exact t ↔ Carries (t.usec_ + a.amount.usec_) ∧ a.Narrow t := by
  obtain ⟨sum, hsec, husec, hrun⟩ := run_eq ht ha
  obtain ⟨ha₀, ha₁, ha₂⟩ := ha.amount
  have ht₀ := ht.sec_nonneg
  have ht₁ := ht.usec_nonneg
  have ht₂ := ht.usec_lt
  have hfits : t.sec_ + a.amount.sec_ < 2 ^ 32 := by
    simp only [usecs] at hfit
    omega
  rw [Int.emod_eq_of_lt (by omega) hfits] at hsec
  have hsum : sum.usecs = t.usecs + a.amount.usecs := by
    simp only [usecs, hsec, husec]
    omega
  have hclean := cleanup_exact_iff (r := sum) (by omega) (by omega) (by omega)
    (by rwa [hsum])
  rw [husec, hsum] at hclean
  constructor
  · rintro ⟨r, hr, hexact, hreading, -⟩
    rw [hrun] at hr
    cases hcheck : a.check sum.cleanup with
    | false =>
      rw [hcheck] at hr
      cases hr
    | true =>
      rw [hcheck] at hr
      obtain rfl := Except.ok.inj hr
      exact ⟨hclean.1 ⟨hexact, hreading⟩, (check_iff ht ha hreading hexact).1 hcheck⟩
  · rintro ⟨hcarries, hnarrow⟩
    obtain ⟨hexact, hreading⟩ := hclean.2 hcarries
    have hcheck := (check_iff ht ha hreading hexact).2 hnarrow
    refine ⟨sum.cleanup, ?_, hexact, hreading, ?_⟩
    · rw [hrun, hcheck]
      rfl
    · rintro u rfl
      have hu₀ : 0 ≤ t.usecs := by
        simp only [usecs]
        omega
      obtain ⟨d, hd, hdiff, hdr⟩ := hreading.sub_exact ha (by
        rw [hexact]
        exact Int.le_add_of_nonneg_left hu₀)
      have heq : d = t := by
        apply hdr.ext ht
        rw [hdiff, hexact]
        exact Int.add_sub_cancel _ _
      rw [hd, heq]

/-- Half a second and a third of one. -/
theorem exact_half_and_third : Exact ⟨1, 500000⟩ (.plus ⟨2, 333333⟩) := by
  have hthird : Time.Reading ⟨2, 333333⟩ := by decide
  exact (exact_iff ⟨1, 500000⟩ (.plus ⟨2, 333333⟩) (by decide) hthird (by decide)).2
    ⟨by decide, trivial⟩

/-- Half a second and two thirds of one. -/
theorem not_exact_half_and_two_thirds : ¬ ∀ (t : Time) (a : Addition), t.Reading → a.Valid →
    (t.usecs + a.amount.usecs) / 1000000 < 2 ^ 32 → a.Exact t := by
  intro h
  have hthirds : Time.Reading ⟨2, 666666⟩ := by decide
  obtain ⟨r, hr, hexact, -⟩ := h ⟨1, 500000⟩ (.plus ⟨2, 666666⟩) (by decide) hthirds (by decide)
  obtain rfl := Except.ok.inj hr
  exact absurd hexact (by decide)

end Addition

end Time

end Oasys
