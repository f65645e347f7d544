import Mathlib.Algebra.Order.Ring.Int
import Mathlib.Tactic.Ring

/-!
# Signed arithmetic of a fixed width, with its overflows recorded

A computation gives a value and tells whether every signed operation in it was exact.
An operation that overflows goes on with the wrapped result, and the computation is
not exact from there on.
-/

namespace Castle

/-- The integers that a two's complement word of `w` bits holds. -/
def SignedFits (w : ℕ) (x : ℤ) : Prop := -2 ^ (w - 1) ≤ x ∧ x < 2 ^ (w - 1)

instance (w : ℕ) (x : ℤ) : Decidable (SignedFits w x) :=
  inferInstanceAs (Decidable (_ ∧ _))

theorem signedFits_64 (x : ℤ) :
    SignedFits 64 x ↔ -9223372036854775808 ≤ x ∧ x < 9223372036854775808 := by
  simp [SignedFits]

theorem SignedFits.bmod_eq {w : ℕ} {x : ℤ} (hw : 0 < w) (h : SignedFits w x) :
    x.bmod (2 ^ w) = x := by
  obtain ⟨n, rfl⟩ : ∃ n, w = n + 1 := ⟨w - 1, by omega⟩
  obtain ⟨hlo, hhi⟩ := h
  rw [Nat.add_sub_cancel] at hlo hhi
  apply Int.bmod_eq_of_le_mul_two
  · push_cast
    rw [pow_succ]
    omega
  · push_cast
    rw [pow_succ]
    omega

/-- A value, and whether the operations that led to it were all exact. -/
structure Tracked (α : Type) where
  value : α
  exact : Bool
  deriving DecidableEq

namespace Tracked

variable {α β : Type}

instance : Monad Tracked where
  pure a := ⟨a, true⟩
  bind x f := ⟨(f x.value).value, x.exact && (f x.value).exact⟩

@[simp] theorem pure_value (a : α) : (pure a : Tracked α).value = a := rfl
@[simp] theorem pure_exact (a : α) : (pure a : Tracked α).exact = true := rfl

@[simp] theorem bind_value (x : Tracked α) (f : α → Tracked β) :
    (x >>= f).value = (f x.value).value := rfl

@[simp] theorem bind_exact (x : Tracked α) (f : α → Tracked β) :
    (x >>= f).exact = (x.exact && (f x.value).exact) := rfl

/-- An exact computation hands its value on and leaves no other trace. -/
theorem bind_of_eq_pure {x : Tracked α} {a : α} (h : x = pure a) (f : α → Tracked β) :
    x >>= f = f a := by
  subst h
  change (⟨(f a).value, true && (f a).exact⟩ : Tracked β) = f a
  rw [Bool.true_and]

end Tracked

/-- One signed operation on `w` bits whose mathematical result is `x`. -/
def signed (w : ℕ) (x : ℤ) : Tracked ℤ := ⟨x.bmod (2 ^ w), decide (SignedFits w x)⟩

theorem signed_eq_pure {w : ℕ} {x : ℤ} (hw : 0 < w) (h : SignedFits w x) : signed w x = pure x := by
  change (⟨x.bmod (2 ^ w), decide (SignedFits w x)⟩ : Tracked ℤ) = ⟨x, true⟩
  rw [h.bmod_eq hw, decide_eq_true h]

@[simp] theorem signed_exact (w : ℕ) (x : ℤ) : (signed w x).exact = decide (SignedFits w x) := rfl

/-- The test before a sum: does `x + y` leave the word? The bound is moved to the other side
first, in the direction that cannot overflow. -/
def sumOverflows (w : ℕ) (x y : ℤ) : Tracked Bool :=
  if 0 < y then do
    let bound ← signed w (2 ^ (w - 1) - 1 - y)
    pure (decide (bound < x))
  else if y < 0 then do
    let bound ← signed w (-2 ^ (w - 1) - y)
    pure (decide (x < bound))
  else
    pure false

theorem sumOverflows_eq {w : ℕ} {x y : ℤ} (hw : 0 < w) (hx : SignedFits w x) (hy : SignedFits w y) :
    sumOverflows w x y = pure (!decide (SignedFits w (x + y))) := by
  obtain ⟨hxlo, hxhi⟩ := hx
  obtain ⟨hylo, hyhi⟩ := hy
  have hpos : (0 : ℤ) < 2 ^ (w - 1) := pow_pos (by decide) _
  unfold sumOverflows
  split_ifs with hp hn
  · have hb : SignedFits w (2 ^ (w - 1) - 1 - y) := by constructor <;> omega
    rw [signed_eq_pure hw hb, Tracked.bind_of_eq_pure rfl]
    congr 1
    rw [← decide_not, decide_eq_decide, SignedFits]
    omega
  · have hb : SignedFits w (-2 ^ (w - 1) - y) := by constructor <;> omega
    rw [signed_eq_pure hw hb, Tracked.bind_of_eq_pure rfl]
    congr 1
    rw [← decide_not, decide_eq_decide, SignedFits]
    omega
  · have hsum : SignedFits w (x + y) := by constructor <;> omega
    rw [decide_eq_true hsum]
    rfl

end Castle
