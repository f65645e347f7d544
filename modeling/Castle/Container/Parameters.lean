import Mathlib.Algebra.Ring.Nat
import Mathlib.Data.Nat.Init
import Mathlib.Order.Defs.Unbundled

/-!
# Template parameters of the containers
-/

namespace Castle.Container

/-- The template parameter `N`: a positive `size_type`. -/
structure Capacity where
  size : ℕ
  pos : 0 < size
  lt : size < 2 ^ 64

/-- The template parameter `Compare`: a strict weak ordering used on keys. -/
structure Compare (K : Type) where
  lt : K → K → Bool
  order : IsStrictWeakOrder K fun a b => lt a b = true

instance {K : Type} (cmp : Compare K) : IsStrictWeakOrder K fun a b => cmp.lt a b = true := cmp.order

/-- `meta::is_power_of_two` -/
def isPowerOfTwo (n : ℕ) : Bool := 0 < n && n &&& (n - 1) = 0

theorem and_pred_eq_mod {n : ℕ} (h : isPowerOfTwo n = true) (i : ℕ) : i &&& (n - 1) = i % n := by
  unfold isPowerOfTwo at h
  rw [Bool.and_eq_true, decide_eq_true_eq, decide_eq_true_eq] at h
  obtain ⟨k, hk⟩ := (Nat.and_sub_one_eq_zero_iff_isPowerOfTwo (Nat.pos_iff_ne_zero.mp h.1)).mp h.2
  rw [hk, Nat.and_two_pow_sub_one_eq_mod]

end Castle.Container
