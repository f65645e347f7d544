import Mathlib.Data.List.Induction

/-!
# Conditions that have to last

A condition is sampled at certain times. It is raised at a sample when it has been
true at every sample since the last false one and the last interruption, and the
times of these samples satisfy a requirement `Q`; a false sample clears it, and an
interruption only makes the requirement start afresh.
-/

namespace Castle

/-- What a monitor of a condition sees. -/
inductive Sample (τ : Type) where
  | taken (condition : Bool) (now : τ)
  | interrupted
  deriving DecidableEq

namespace Sample

variable {τ : Type}

/-- The times of the true samples since the last false one and the last interruption. -/
def streak (history : List (Sample τ)) : List τ :=
  history.foldl (fun times s =>
    match s with
    | .taken true now => times ++ [now]
    | _ => []) []

/-- Raised at some sample, and not cleared since. -/
def Raised (Q : List τ → Prop) (history : List (Sample τ)) : Prop :=
  ∃ before now later, history = before ++ .taken true now :: later ∧
    Q (streak (before ++ [.taken true now])) ∧ ∀ t, .taken false t ∉ later

variable {Q : List τ → Prop} {history : List (Sample τ)} {now : τ}

@[simp] theorem streak_nil : streak ([] : List (Sample τ)) = [] := rfl

@[simp] theorem streak_snoc_true :
    streak (history ++ [.taken true now]) = streak history ++ [now] := by
  simp [streak]

@[simp] theorem streak_snoc_false : streak (history ++ [.taken false now]) = [] := by
  simp [streak]

@[simp] theorem streak_snoc_interrupted : streak (history ++ [.interrupted]) = [] := by
  simp [streak]

theorem taken_of_mem_streak {t : τ} (h : t ∈ streak history) : .taken true t ∈ history := by
  induction history using List.reverseRecOn with
  | nil => cases h
  | append_singleton history s ih =>
    cases s with
    | interrupted => simp at h
    | taken condition now =>
      cases condition with
      | false => simp at h
      | true =>
        rw [streak_snoc_true, List.mem_append] at h
        cases h with
        | inl hold => exact List.mem_append_left _ (ih hold)
        | inr hnow =>
          obtain rfl := List.mem_singleton.mp hnow
          exact List.mem_append_right _ List.mem_cons_self

theorem not_raised_nil : ¬Raised Q [] := by
  rintro ⟨before, now, later, h, -, -⟩
  simp at h

theorem Raised.snoc (h : Raised Q history) {s : Sample τ} (hs : ∀ t, s ≠ .taken false t) :
    Raised Q (history ++ [s]) := by
  obtain ⟨before, now, later, rfl, hq, hlater⟩ := h
  refine ⟨before, now, later ++ [s], by simp, hq, fun t ht => ?_⟩
  obtain ht | ht := List.mem_append.mp ht
  · exact hlater t ht
  · exact hs t (List.mem_singleton.mp ht).symm

/-- What is raised behind a last step was raised in front of it, or is raised by it. -/
theorem raised_snoc_cases {s : Sample τ} (h : Raised Q (history ++ [s])) :
    (Raised Q history ∧ ∀ t, s ≠ .taken false t) ∨
      ∃ now, s = .taken true now ∧ Q (streak history ++ [now]) := by
  obtain ⟨before, now, later, heq, hq, hlater⟩ := h
  rcases List.eq_nil_or_concat later with rfl | ⟨rest, last, rfl⟩
  · right
    obtain ⟨rfl, hs⟩ := List.append_inj' heq rfl
    cases hs
    exact ⟨now, rfl, by simpa using hq⟩
  · left
    rw [List.concat_eq_append, ← List.cons_append, ← List.append_assoc] at heq
    obtain ⟨rfl, hs⟩ := List.append_inj' heq rfl
    cases hs
    rw [List.concat_eq_append] at hlater
    refine ⟨⟨before, now, rest, rfl, hq, fun t ht => ?_⟩, fun t ht => ?_⟩
    · exact hlater t (List.mem_append_left _ ht)
    · exact hlater t (ht ▸ List.mem_append_right _ List.mem_cons_self)

theorem raised_snoc_true :
    Raised Q (history ++ [.taken true now]) ↔ Raised Q history ∨ Q (streak history ++ [now]) := by
  constructor
  · intro h
    obtain ⟨hold, -⟩ | ⟨t, ht, hq⟩ := raised_snoc_cases h
    · exact .inl hold
    · cases ht
      exact .inr hq
  · rintro (h | hq)
    · exact h.snoc (by simp)
    · exact ⟨history, now, [], rfl, by simpa using hq, by simp⟩

theorem not_raised_snoc_false : ¬Raised Q (history ++ [.taken false now]) := by
  intro h
  obtain ⟨-, hs⟩ | ⟨t, ht, -⟩ := raised_snoc_cases h
  · exact hs now rfl
  · cases ht

theorem raised_snoc_interrupted : Raised Q (history ++ [.interrupted]) ↔ Raised Q history := by
  constructor
  · intro h
    obtain ⟨hold, -⟩ | ⟨t, ht, -⟩ := raised_snoc_cases h
    · exact hold
    · cases ht
  · exact fun h => h.snoc (by simp)

end Sample
end Castle
