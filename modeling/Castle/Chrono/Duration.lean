import Mathlib.Data.Int.GCD
import Mathlib.Algebra.Order.Group.Int
import Mathlib.Data.Nat.GCD.Basic
import Mathlib.Tactic.Linarith
import Castle.Lib.SignedArithmetic

/-!
# Durations and time points (`duration.hpp`, `time_point.hpp`)

Durations are tick counts of 64 bits in a unit that is a type parameter.
`duration_cast` multiplies by the numerator and the denominator before it divides,
also where both units are the same, and both operators below cast before they work:
none of these products is checked. What a test of elapsed time answers when no
product overflows is the comparison of the exact times, and `TestFits` says when that
is the case.
-/

namespace Castle.Chrono

/-- A unit of time in seconds, as a reduced `castle::math::ratio`. -/
structure Period where
  num : ℕ
  den : ℕ
  num_pos : 0 < num
  den_pos : 0 < den
  reduced : Nat.Coprime num den

def nano : Period := ⟨1, 1000000000, Nat.one_pos, by decide, by decide⟩

def seconds : Period := ⟨1, 1, Nat.one_pos, Nat.one_pos, by decide⟩

namespace Period

def common (p q : Period) : Period where
  num := Nat.gcd p.num q.num
  den := Nat.lcm p.den q.den
  num_pos := Nat.gcd_pos_of_pos_left _ p.num_pos
  den_pos := Nat.lcm_pos p.den_pos q.den_pos
  reduced := by
    have hp : Nat.Coprime (Nat.gcd p.num q.num) p.den :=
      p.reduced.coprime_dvd_left (Nat.gcd_dvd_left _ _)
    have hq : Nat.Coprime (Nat.gcd p.num q.num) q.den :=
      q.reduced.coprime_dvd_left (Nat.gcd_dvd_right _ _)
    exact (hp.mul_right hq).coprime_dvd_right (Nat.lcm_dvd_mul _ _)

theorem common_spec (p q : Period) :
    ∃ a b a' b' d : ℕ, 0 < d ∧ p.num = a * (p.common q).num ∧ (p.common q).den = p.den * b ∧ q.num =
    a' * (p.common q).num ∧ (p.common q).den = q.den * b' ∧ p.den = b' * d ∧ q.den = b * d := by
  obtain ⟨a, ha⟩ : Nat.gcd p.num q.num ∣ p.num := Nat.gcd_dvd_left _ _
  obtain ⟨a', ha'⟩ : Nat.gcd p.num q.num ∣ q.num := Nat.gcd_dvd_right _ _
  obtain ⟨b, hb⟩ : p.den ∣ Nat.lcm p.den q.den := Nat.dvd_lcm_left _ _
  obtain ⟨b', hb'⟩ : q.den ∣ Nat.lcm p.den q.den := Nat.dvd_lcm_right _ _
  have hprod := Nat.gcd_mul_lcm p.den q.den
  refine ⟨a, b, a', b', Nat.gcd p.den q.den, Nat.gcd_pos_of_pos_left _ p.den_pos,
    ha.trans (Nat.mul_comm _ _), hb, ha'.trans (Nat.mul_comm _ _), hb', ?_, ?_⟩
  · apply Nat.eq_of_mul_eq_mul_left q.den_pos
    rw [hb'] at hprod
    linarith
  · apply Nat.eq_of_mul_eq_mul_left p.den_pos
    rw [hb] at hprod
    linarith

end Period

variable (clock unit : Period)

def durationCast (source target : Period) (count : ℤ) : Tracked ℤ := do
  let scaled ← signed 64 (count * source.num)
  let scaled ← signed 64 (scaled * target.den)
  let divisor ← signed 64 (source.den * target.num)
  pure (scaled.tdiv divisor)

/-- `lhs - rhs` of two time points: they are cast as time points, and once more as
durations. -/
def timePointDifference (lhs rhs : ℤ) : Tracked ℤ := do
  let lhs ← durationCast clock clock lhs
  let rhs ← durationCast clock clock rhs
  let lhs ← durationCast clock clock lhs
  let rhs ← durationCast clock clock rhs
  signed 64 (lhs - rhs)

/-- `lhs < rhs` of durations in the units `p` and `q`. -/
def durationLess (p q : Period) (lhs rhs : ℤ) : Tracked Bool := do
  let lhs ← durationCast p (p.common q) lhs
  let rhs ← durationCast q (p.common q) rhs
  pure (decide (lhs < rhs))

/-- `(now - started) >= Duration(count)` -/
def hasElapsed (count started now : ℤ) : Tracked Bool := do
  let elapsed ← timePointDifference clock now started
  let less ← durationLess clock unit elapsed count
  pure (!less)

/-- No product of the cast overflows. -/
structure CastFits (source target : Period) (count : ℤ) : Prop where
  scaled : SignedFits 64 (count * source.num)
  dividend : SignedFits 64 (count * source.num * target.den)
  divisor : SignedFits 64 (source.den * target.num)

theorem durationCast_eq {source target : Period} {count : ℤ} (h : CastFits source target count) :
    durationCast source target count =
      pure ((count * source.num * target.den).tdiv (source.den * target.num)) := by
  unfold durationCast
  rw [Tracked.bind_of_eq_pure (signed_eq_pure (by decide) h.scaled),
    Tracked.bind_of_eq_pure (signed_eq_pure (by decide) h.dividend),
    Tracked.bind_of_eq_pure (signed_eq_pure (by decide) h.divisor)]

theorem durationCast_self {p : Period} {count : ℤ} (h : CastFits p p count) :
    durationCast p p count = pure count := by
  have hnum := p.num_pos
  have hden := p.den_pos
  rw [durationCast_eq h, mul_assoc, mul_comm (p.num : ℤ)]
  rw [Int.mul_tdiv_cancel _ (by positivity)]

theorem durationCast_common {p q : Period} {a b : ℕ} (hnum : p.num = a * q.num)
    (hden : q.den = p.den * b) {count : ℤ} (h : CastFits p q count) :
    durationCast p q count = pure (count * (a * b)) := by
  have hq := q.num_pos
  have hp := p.den_pos
  rw [durationCast_eq h, hnum, hden]
  push_cast
  rw [show count * (a * q.num) * (p.den * b) = count * (a * b) * (p.den * q.num) by ring]
  rw [Int.mul_tdiv_cancel _ (by positivity)]

/-- `elapsed` ticks of `clock` are at least `count` ticks of `unit`. -/
def AtLeast (elapsed count : ℤ) : Prop :=
  count * unit.num * clock.den ≤ elapsed * clock.num * unit.den

instance (elapsed count : ℤ) : Decidable (AtLeast clock unit elapsed count) :=
  inferInstanceAs (Decidable (_ ≤ _))

/-- No signed operation of the test overflows. -/
structure TestFits (count started now : ℤ) : Prop where
  castNow : CastFits clock clock now
  castStarted : CastFits clock clock started
  elapsed : SignedFits 64 (now - started)
  castElapsed : CastFits clock (clock.common unit) (now - started)
  castCount : CastFits unit (clock.common unit) count

variable {clock unit} {count started now : ℤ}

theorem timePointDifference_eq {lhs rhs : ℤ} (hl : CastFits clock clock lhs)
    (hr : CastFits clock clock rhs) : timePointDifference clock lhs rhs = signed 64 (lhs - rhs) := by
  unfold timePointDifference
  rw [Tracked.bind_of_eq_pure (durationCast_self hl), Tracked.bind_of_eq_pure (durationCast_self hr),
    Tracked.bind_of_eq_pure (durationCast_self hl), Tracked.bind_of_eq_pure (durationCast_self hr)]

/-- With all products in range the casts to the common unit are exact, so that the
comparison is that of the times themselves. -/
theorem durationLess_eq {p q : Period} {lhs rhs : ℤ} (hl : CastFits p (p.common q) lhs)
    (hr : CastFits q (p.common q) rhs) :
    durationLess p q lhs rhs = pure (!decide (AtLeast p q lhs rhs)) := by
  obtain ⟨a, b, a', b', d, hd, ha, hb, ha', hb', hpden, hqden⟩ := p.common_spec q
  have hcastl := durationCast_common ha hb hl
  have hcastr := durationCast_common ha' hb' hr
  unfold durationLess
  rw [Tracked.bind_of_eq_pure hcastl, Tracked.bind_of_eq_pure hcastr]
  congr 1
  rw [← decide_not, decide_eq_decide, AtLeast, not_le]
  -- both sides of the comparison are scaled by the same factor
  have hfactor : (0 : ℤ) < (p.common q).num * d :=
    mul_pos (by exact_mod_cast (p.common q).num_pos) (by exact_mod_cast hd)
  have hleft : lhs * p.num * q.den = lhs * (a * b) * ((p.common q).num * d) := by
    rw [hqden, show (p.num : ℤ) = a * (p.common q).num by exact_mod_cast ha]
    push_cast
    ring
  have hright : rhs * q.num * p.den = rhs * (a' * b') * ((p.common q).num * d) := by
    rw [hpden, show (q.num : ℤ) = a' * (p.common q).num by exact_mod_cast ha']
    push_cast
    ring
  rw [hleft, hright]
  exact (mul_lt_mul_iff_left₀ hfactor).symm

theorem hasElapsed_eq (h : TestFits clock unit count started now) : hasElapsed
    clock unit count started now = pure (decide (AtLeast clock unit (now - started) count)) := by
  unfold hasElapsed
  rw [timePointDifference_eq h.castNow h.castStarted,
    Tracked.bind_of_eq_pure (signed_eq_pure (by decide) h.elapsed),
    Tracked.bind_of_eq_pure (durationLess_eq h.castElapsed h.castCount), Bool.not_not]

theorem castFits_nano {count : ℤ} :
    CastFits nano nano count ↔ -9223372036 ≤ count ∧ count ≤ 9223372036 := by
  constructor
  · rintro ⟨-, h, -⟩
    rw [signedFits_64] at h
    simp only [nano] at h
    omega
  · intro h
    refine ⟨?_, ?_, ?_⟩
    all_goals
      rw [signedFits_64]
      simp only [nano]
      omega

theorem castFits_seconds {count : ℤ} :
    CastFits seconds nano count ↔ -9223372036 ≤ count ∧ count ≤ 9223372036 := by
  constructor
  · rintro ⟨-, h, -⟩
    rw [signedFits_64] at h
    simp only [nano, seconds] at h
    omega
  · intro h
    refine ⟨?_, ?_, ?_⟩
    all_goals
      rw [signedFits_64]
      simp only [nano, seconds]
      omega

theorem common_nano_seconds : nano.common seconds = nano := rfl

theorem testFits_nano_seconds {count started now : ℤ} (hcount : 0 ≤ count) (hstarted : 0 ≤ started)
    (hnow : 0 ≤ now) : TestFits nano seconds count started now ↔
      started ≤ 9223372036 ∧ now ≤ 9223372036 ∧ count ≤ 9223372036 := by
  constructor
  · rintro ⟨hn, hs, -, -, hc⟩
    rw [common_nano_seconds, castFits_seconds] at hc
    exact ⟨(castFits_nano.mp hs).2, (castFits_nano.mp hn).2, hc.2⟩
  · rintro ⟨hs, hn, hc⟩
    refine ⟨?_, ?_, ?_, ?_, ?_⟩
    · rw [castFits_nano]
      omega
    · rw [castFits_nano]
      omega
    · rw [signedFits_64]
      omega
    · rw [common_nano_seconds, castFits_nano]
      omega
    · rw [common_nano_seconds, castFits_seconds]
      omega

end Castle.Chrono
