import Mathlib.Data.List.Induction

/-!
# Groups of opening and closing marks

A log of marks, each with a key: `opens k m` brings a message for `k`, `closes k`
asks for it. The message of the first `opens k` since the last `closes k` is
pending, and a `closes k` releases it: each group from an opening to the next
closing of its key releases exactly one message, that of its first opening.
-/

namespace Castle

inductive Mark (κ μ : Type) where
  | opens (k : κ) (m : μ)
  | closes (k : κ)
  deriving DecidableEq

namespace Mark

variable {κ μ : Type}

/-- `k` has an open group in the log, and `m` came with its first opening. -/
def Group (k : κ) (m : μ) (log : List (Mark κ μ)) : Prop :=
  ∃ before after, log = before ++ opens k m :: after ∧ closes k ∉ after ∧
    ∀ u m' v, before = u ++ opens k m' :: v → closes k ∈ v

variable [DecidableEq κ]

/-- The message pending for `k` after one more mark. -/
def pend (k : κ) (pending : Option μ) : Mark κ μ → Option μ
  | opens k' m => if k' = k then pending.or (some m) else pending
  | closes k' => if k' = k then none else pending

/-- The message pending for `k` after a log. -/
def pending (k : κ) (log : List (Mark κ μ)) : Option μ := log.foldl (pend k) none

theorem pending_snoc (k : κ) (log : List (Mark κ μ)) (x : Mark κ μ) :
    pending k (log ++ [x]) = pend k (pending k log) x := by
  simp [pending]

/-- While no closing follows, the first opening stays the pending one. -/
theorem foldl_pend_some (k : κ) (m : μ) (log : List (Mark κ μ)) (h : closes k ∉ log) :
    log.foldl (pend k) (some m) = some m := by
  induction log with
  | nil => rfl
  | cons x log ih =>
    rw [List.mem_cons, not_or] at h
    have hx : pend k (some m) x = some m := by
      cases x with
      | opens k' m' => simp [pend]
      | closes k' =>
        have hk : k' ≠ k := fun hk => h.1 (hk ▸ rfl)
        simp [pend, hk]
    rw [List.foldl_cons, hx, ih h.2]

theorem pending_eq_none (k : κ) (log : List (Mark κ μ)) :
    pending k log = none ↔ ∀ u m v, log = u ++ opens k m :: v → closes k ∈ v := by
  induction log using List.reverseRecOn with
  | nil => simp [pending]
  | append_singleton log x ih =>
    rw [pending_snoc]
    constructor
    · intro h u m v he
      cases v using List.reverseRecOn with
      | nil =>
        obtain ⟨hl, hx⟩ := List.append_inj' he rfl
        cases hx
        simp [pend] at h
      | append_singleton v y =>
        rw [← List.cons_append, ← List.append_assoc] at he
        obtain ⟨rfl, hx⟩ := List.append_inj' he rfl
        cases hx
        cases x with
        | closes k' =>
          by_cases hk : k' = k
          · subst hk
            exact List.mem_append_right _ (List.mem_singleton.mpr rfl)
          · simp only [pend, if_neg hk] at h
            exact List.mem_append_left _ (ih.mp h u m v rfl)
        | opens k' m' =>
          by_cases hk : k' = k
          · simp [pend, hk] at h
          · simp only [pend, if_neg hk] at h
            exact List.mem_append_left _ (ih.mp h u m v rfl)
    · intro h
      cases x with
      | closes k' =>
        by_cases hk : k' = k
        · simp [pend, hk]
        · simp only [pend, if_neg hk]
          refine ih.mpr fun u m v he => ?_
          have hmem := h u m (v ++ [closes k']) (by simp [he])
          rcases List.mem_append.mp hmem with hv | hv
          · exact hv
          · exact absurd (Mark.closes.inj (List.mem_singleton.mp hv)).symm hk
      | opens k' m' =>
        by_cases hk : k' = k
        · subst hk
          exact absurd (h log m' [] rfl) List.not_mem_nil
        · simp only [pend, if_neg hk]
          refine ih.mpr fun u m v he => ?_
          have hmem := h u m (v ++ [opens k' m']) (by simp [he])
          rcases List.mem_append.mp hmem with hv | hv
          · exact hv
          · cases List.mem_singleton.mp hv

theorem pending_eq_some (k : κ) (m : μ) (log : List (Mark κ μ)) :
    pending k log = some m ↔ Group k m log := by
  constructor
  · intro h
    induction log using List.reverseRecOn with
    | nil => simp [pending] at h
    | append_singleton log x ih =>
      rw [pending_snoc] at h
      by_cases hold : pending k log = some m
      · -- the group was open before, and `x` did not close it
        obtain ⟨before, after, rfl, hafter, hbefore⟩ := ih hold
        refine ⟨before, after ++ [x], by simp, ?_, hbefore⟩
        rw [List.mem_append, not_or]
        refine ⟨hafter, ?_⟩
        rw [List.mem_singleton]
        rintro rfl
        simp [pend] at h
      · -- `x` opens it
        cases x with
        | closes k' =>
          simp only [pend] at h
          split_ifs at h
          exact absurd h hold
        | opens k' m' =>
          simp only [pend] at h
          split_ifs at h with hk
          · subst hk
            cases hp : pending k' log with
            | none =>
              rw [hp] at h
              cases h
              exact ⟨log, [], rfl, List.not_mem_nil, fun u m' v he =>
                (pending_eq_none k' log).mp hp u m' v he⟩
            | some m'' =>
              rw [hp] at h
              exact absurd (hp.trans h) hold
          · exact absurd h hold
  · rintro ⟨before, after, rfl, hafter, hbefore⟩
    have hnone := (pending_eq_none k before).mpr hbefore
    unfold pending at hnone ⊢
    rw [List.foldl_append, hnone, List.foldl_cons]
    simpa [pend] using foldl_pend_some k m after hafter

end Mark
end Castle
