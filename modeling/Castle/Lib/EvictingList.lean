import Mathlib.Algebra.BigOperators.Group.List.Basic
import Mathlib.Algebra.Ring.Nat
import Mathlib.Data.List.Induction

/-!
# Lists that evict their oldest elements

The newest element comes first. Elements have weights; a list is held to a limit by dropping
elements from its end, oldest first.
-/

namespace Castle.EvictingList

variable {α : Type} (weight : α → ℕ)

def total (l : List α) : ℕ := (l.map weight).sum

@[simp] theorem total_nil : total weight [] = 0 := rfl

@[simp] theorem total_cons (x : α) (l : List α) :
    total weight (x :: l) = weight x + total weight l := by
  simp [total]

theorem total_append (l l' : List α) :
    total weight (l ++ l') = total weight l + total weight l' := by
  simp [total]

/-- Drops the oldest elements until the others fit. -/
def evictTo (limit : ℕ) (l : List α) : List α :=
  if h : total weight l ≤ limit then l
  else
    have hne : l ≠ [] := by
      rintro rfl
      exact h (Nat.zero_le _)
    evictTo limit l.dropLast
termination_by l.length
decreasing_by
  have hpos := List.length_pos_of_ne_nil hne
  rw [List.length_dropLast]
  omega

/-- Adds an element in front; one that is too heavy empties the list. -/
def insert (limit : ℕ) (x : α) (l : List α) : List α :=
  if limit < weight x then [] else x :: evictTo weight (limit - weight x) l

variable {weight} {limit : ℕ} {l : List α}

theorem evictTo_of_le (h : total weight l ≤ limit) : evictTo weight limit l = l := by
  rw [evictTo, dif_pos h]

theorem evictTo_concat {x : α} (h : limit < total weight (l ++ [x])) :
    evictTo weight limit (l ++ [x]) = evictTo weight limit l := by
  rw [evictTo, dif_neg (by omega), List.dropLast_concat]

theorem total_evictTo_le (limit : ℕ) (l : List α) :
    total weight (evictTo weight limit l) ≤ limit := by
  induction l using List.reverseRecOn with
  | nil =>
    rw [evictTo_of_le (Nat.zero_le _)]
    exact Nat.zero_le _
  | append_singleton l x ih =>
    by_cases h : total weight (l ++ [x]) ≤ limit
    · rw [evictTo_of_le h]
      exact h
    · rw [evictTo_concat (by omega)]
      exact ih

theorem length_mul_le {least : ℕ} (h : ∀ x ∈ l, least ≤ weight x) :
    l.length * least ≤ total weight l := by
  induction l with
  | nil => simp
  | cons x l ih =>
    have hx := h x List.mem_cons_self
    have hl := ih fun y hy => h y (List.mem_cons_of_mem x hy)
    rw [List.length_cons, total_cons, Nat.add_mul]
    omega

end Castle.EvictingList
