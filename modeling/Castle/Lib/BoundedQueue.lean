import Mathlib.Data.List.Basic

/-!
# A bounded FIFO queue

At most `capacity` elements, first in first out.
-/

namespace Castle

/-- The elements, oldest first. -/
structure BoundedQueue (capacity : ℕ) (α : Type) where
  elements : List α
  length_le : elements.length ≤ capacity

namespace BoundedQueue

variable {capacity : ℕ} {α : Type} (q : BoundedQueue capacity α)

def empty : BoundedQueue capacity α := ⟨[], Nat.zero_le _⟩

def size : ℕ := q.elements.length

/-- The number of elements that still fit. -/
def free : ℕ := capacity - q.size

def enqueue (xs : List α) : BoundedQueue capacity α where
  elements := q.elements ++ xs.take q.free
  length_le := by
    have hq := q.length_le
    rw [List.length_append, List.length_take]
    unfold free size
    omega

def dequeue (count : ℕ) : BoundedQueue capacity α where
  elements := q.elements.drop count
  length_le := by
    have hq := q.length_le
    rw [List.length_drop]
    omega

@[simp] theorem elements_empty : (empty : BoundedQueue capacity α).elements = [] := rfl

@[simp] theorem elements_enqueue (xs : List α) :
    (q.enqueue xs).elements = q.elements ++ xs.take q.free := rfl

@[simp] theorem elements_dequeue (count : ℕ) :
    (q.dequeue count).elements = q.elements.drop count := rfl

theorem size_le : q.size ≤ capacity := q.length_le

theorem size_add_free : q.size + q.free = capacity := by
  have hq := q.length_le
  unfold free size
  omega

theorem ext_elements {q q' : BoundedQueue capacity α} (h : q.elements = q'.elements) : q = q' := by
  cases q
  cases q'
  simp only at h
  subst h
  rfl

end BoundedQueue
end Castle
