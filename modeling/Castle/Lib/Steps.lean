import Mathlib.Data.List.Induction
import Mathlib.Data.List.Infix

/-!
# Properties of every step of a run

`AtEach steps P` says that `P` holds of each step of a run together with the steps before it.
-/

namespace Castle

variable {α : Type}

/-- `P` holds of every step and the steps before it. -/
def AtEach (steps : List α) (P : List α → α → Prop) : Prop :=
  ∀ before a, before ++ [a] <+: steps → P before a

namespace AtEach

variable {steps : List α} {P C : List α → α → Prop} {Inv : List α → Prop}

theorem nil (P : List α → α → Prop) : AtEach [] P := by
  intro before a h
  simp at h

theorem snoc {a : α} : AtEach (steps ++ [a]) P ↔ AtEach steps P ∧ P steps a := by
  constructor
  · intro h
    exact ⟨fun before b hb => h before b (hb.trans (List.prefix_append _ _)),
      h steps a (List.prefix_refl _)⟩
  · rintro ⟨h, ha⟩ before b hb
    rcases List.prefix_concat_iff.mp hb with heq | hpre
    · obtain ⟨rfl, hab⟩ := List.append_inj' heq rfl
      cases hab
      exact ha
    · exact h before b hpre

theorem iff_take : AtEach steps P ↔ ∀ n (h : n < steps.length), P (steps.take n) steps[n] := by
  constructor
  · intro h n hn
    apply h
    rw [List.take_concat_get' steps n hn]
    exact List.take_prefix _ _
  · rintro h before a ⟨rest, rfl⟩
    have hn := h before.length (by simp)
    simpa using hn

instance [∀ before a, Decidable (P before a)] : Decidable (AtEach steps P) :=
  decidable_of_iff _ iff_take.symm

/-- An invariant that every step keeps under `C` holds at every point of the run. -/
theorem invariant (h : AtEach steps C) (hinit : Inv [])
    (hnext : ∀ before a, before ++ [a] <+: steps → Inv before → C before a → Inv (before ++ [a]))
    {before : List α} (hb : before <+: steps) : Inv before := by
  induction before using List.reverseRecOn with
  | nil => exact hinit
  | append_singleton before a ih =>
    have hpre : before <+: steps := (List.prefix_append before [a]).trans hb
    exact hnext before a hb (ih hpre) (h before a hb)

/-- Under the invariant, `P` holds of every step if and only if `C` does. -/
theorem iff_of_invariant (hinit : Inv [])
    (hnext : ∀ before a, before ++ [a] <+: steps → Inv before → C before a → Inv (before ++ [a]))
    (hiff : ∀ before a, before ++ [a] <+: steps → Inv before → (P before a ↔ C before a)) :
    AtEach steps P ↔ AtEach steps C := by
  constructor
  · intro h
    have hnext' : ∀ before a, before ++ [a] <+: steps → Inv before → P before a →
        Inv (before ++ [a]) := fun before a hb hinv hp =>
      hnext before a hb hinv ((hiff before a hb hinv).mp hp)
    intro before a hb
    have hpre : before <+: steps := (List.prefix_append before [a]).trans hb
    exact (hiff before a hb (h.invariant hinit hnext' hpre)).mp (h before a hb)
  · intro h before a hb
    have hpre : before <+: steps := (List.prefix_append before [a]).trans hb
    exact (hiff before a hb (h.invariant hinit hnext hpre)).mpr (h before a hb)

end AtEach
end Castle
