import Mathlib.Data.List.FinRange
import Mathlib.Data.List.Sort

/-!
# Sweeps over an array

A loop over the indices of an array, front to back, whose body changes no cell but its own, and may
read all of them.
-/

namespace Castle

variable {P α : Type} {n : ℕ} {cell : P → Fin n → α} {step : P → Fin n → P}

/-- The step at an index changes no other cell. -/
def OwnCell (cell : P → Fin n → α) (step : P → Fin n → P) : Prop :=
  ∀ p i j, j ≠ i → cell (step p i) j = cell p j

namespace OwnCell

theorem foldl_notMem (h : OwnCell cell step) {indices : List (Fin n)} {j : Fin n}
    (hj : j ∉ indices) (p : P) : cell (indices.foldl step p) j = cell p j := by
  induction indices generalizing p with
  | nil => rfl
  | cons i indices ih =>
    rw [List.mem_cons, not_or] at hj
    rw [List.foldl_cons, ih hj.2, h p i j hj.1]

theorem sweep (h : OwnCell cell step) (p : P) (j : Fin n) :
    ∃ q, cell ((List.finRange n).foldl step p) j = cell (step q j) j ∧
      (∀ i, i < j → cell q i = cell ((List.finRange n).foldl step p) i) ∧
        ∀ i, j ≤ i → cell q i = cell p i := by
  obtain ⟨before, behind, hsplit⟩ := List.append_of_mem (List.mem_finRange j)
  have hsorted := (List.sortedLT_finRange n).pairwise
  rw [hsplit, List.pairwise_append, List.pairwise_cons] at hsorted
  obtain ⟨-, ⟨hbehind, -⟩, hbefore⟩ := hsorted
  have hrest {i : Fin n} (hi : i ≤ j) : i ∉ behind := fun hm => absurd (hbehind i hm) (not_lt.mpr hi)
  refine ⟨before.foldl step p, ?_, fun i hi => ?_, fun i hi => ?_⟩
  · rw [hsplit, List.foldl_append, List.foldl_cons, h.foldl_notMem (hrest le_rfl)]
  · rw [hsplit, List.foldl_append, List.foldl_cons, h.foldl_notMem (hrest hi.le), h _ _ _ hi.ne]
  · refine h.foldl_notMem (fun hm => ?_) p
    exact absurd (hbefore i hm j List.mem_cons_self) (not_lt.mpr hi)

end OwnCell
end Castle
