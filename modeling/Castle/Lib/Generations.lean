import Mathlib.Algebra.Ring.Nat
import Mathlib.Data.List.Basic
import Mathlib.Logic.Function.Iterate
import Mathlib.Tactic.Common

/-!
# Generations of slots

A slot is used again and again, and a record of each use is kept, the latest first. A slot counts
up between two uses, so that the number in the record of the use that lasts is the slot's own.
The number is stored in a word that skips 0 when it wraps around; as long as it has not, two
numbers are equal exactly when their words are.
-/

namespace Castle.Generations

variable {ι ρ : Type} {slot : ρ → ι} {number : ρ → ℕ} {count : ι → ℕ} {live : ι → Bool}
  {issued : List ρ}

/-- The numbers of a slot grow, and a slot that is not live has counted past all its records. -/
structure Ledger (slot : ρ → ι) (number : ρ → ℕ) (count : ι → ℕ) (live : ι → Bool)
    (issued : List ρ) : Prop where
  le : ∀ a ∈ issued, number a ≤ count (slot a)
  lt : ∀ a ∈ issued, live (slot a) = false → number a < count (slot a)
  current : ∀ i, live i = true → ∃ a ∈ issued, slot a = i ∧ number a = count i
  ordered : issued.Pairwise fun a b => slot a = slot b → number b < number a

namespace Ledger

theorem nil (slot : ρ → ι) (number : ρ → ℕ) (count : ι → ℕ) {live : ι → Bool}
    (h : ∀ i, live i = false) : Ledger slot number count live [] where
  le _ ha := absurd ha List.not_mem_nil
  lt _ ha := absurd ha List.not_mem_nil
  current i hi := absurd ((h i).symm.trans hi) (by decide)
  ordered := List.Pairwise.nil

section

variable (h : Ledger slot number count live issued)
include h

/-- A record is the latest one of a live slot exactly when its number is the slot's. -/
theorem number_eq_iff {newer older : List ρ} {a : ρ}
    (hsplit : issued = newer ++ a :: older) (hlive : live (slot a) = true) :
    number a = count (slot a) ↔ ∀ b ∈ newer, slot b ≠ slot a := by
  have hordered := h.ordered
  rw [hsplit] at hordered
  obtain ⟨_, hlater, hacross⟩ := List.pairwise_append.mp hordered
  constructor
  · intro heq b hb hslot
    have hlt := hacross b hb a List.mem_cons_self hslot
    have hle := h.le b (hsplit ▸ List.mem_append_left _ hb)
    rw [hslot] at hle
    omega
  · intro hnewer
    obtain ⟨b, hb, hslot, hnumber⟩ := h.current (slot a) hlive
    rw [hsplit] at hb
    rcases List.mem_append.mp hb with hb | hb
    · exact absurd hslot (hnewer b hb)
    · rcases List.mem_cons.mp hb with rfl | hb
      · exact hnumber
      · have hlt := (List.pairwise_cons.mp hlater).1 b hb hslot.symm
        have hle := h.le a (hsplit ▸ List.mem_append_right _ List.mem_cons_self)
        omega

theorem release {count' : ι → ℕ} {live' : ι → Bool}
    (hslots : ∀ i, (count' i = count i ∧ live' i = live i) ∨ (count i < count' i ∧ live' i = false)) :
    Ledger slot number count' live' issued where
  le a ha := by
    have hle := h.le a ha
    rcases hslots (slot a) with ⟨hcount, _⟩ | ⟨hcount, _⟩ <;> omega
  lt a ha hfree := by
    rcases hslots (slot a) with ⟨hcount, hlive⟩ | ⟨hcount, _⟩
    · exact hcount ▸ h.lt a ha (hlive ▸ hfree)
    · exact Nat.lt_of_le_of_lt (h.le a ha) hcount
  current i hi := by
    rcases hslots i with ⟨hcount, hlive⟩ | ⟨_, hlive⟩
    · rw [hcount]
      exact h.current i (hlive ▸ hi)
    · exact absurd (hlive.symm.trans hi) (by decide)
  ordered := h.ordered

theorem issue {a : ρ} {count' : ι → ℕ} {live' : ι → Bool}
    (hfree : live (slot a) = false) (hle : count (slot a) ≤ number a) (hnumber : count' (slot a) = number a)
    (hlive : live' (slot a) = true)
    (hothers : ∀ i, i ≠ slot a → count' i = count i ∧ live' i = live i) :
    Ledger slot number count' live' (a :: issued) where
  le b hb := by
    rcases List.mem_cons.mp hb with rfl | hb
    · exact Nat.le_of_eq hnumber.symm
    · by_cases hslot : slot b = slot a
      · have hlt := h.lt b hb (hslot ▸ hfree)
        rw [hslot] at hlt ⊢
        omega
      · rw [(hothers _ hslot).1]
        exact h.le b hb
  lt b hb hfalse := by
    have hslot : slot b ≠ slot a := by
      intro hslot
      rw [hslot, hlive] at hfalse
      exact absurd hfalse (by decide)
    rcases List.mem_cons.mp hb with rfl | hb
    · exact absurd rfl hslot
    · rw [(hothers _ hslot).2] at hfalse
      rw [(hothers _ hslot).1]
      exact h.lt b hb hfalse
  current i hi := by
    by_cases hslot : i = slot a
    · exact ⟨a, List.mem_cons_self, hslot.symm, by rw [hslot, hnumber]⟩
    · rw [(hothers i hslot).2] at hi
      obtain ⟨b, hb, hbi, hnumber'⟩ := h.current i hi
      exact ⟨b, List.mem_cons_of_mem _ hb, hbi, by rw [hnumber', (hothers i hslot).1]⟩
  ordered := by
    refine List.pairwise_cons.mpr ⟨fun b hb hslot => ?_, h.ordered⟩
    have hlt := h.lt b hb (hslot ▸ hfree)
    rw [← hslot] at hlt
    omega

end

end Ledger

/-- The word after `value`, which is never 0 -/
def next (value : UInt32) : UInt32 := if value + 1 = 0 then 1 else value + 1

theorem next_toNat {value : UInt32} (h : value.toNat + 1 < 2 ^ 32) :
    (next value).toNat = value.toNat + 1 := by
  have hadd : (value + 1).toNat = value.toNat + 1 := by
    rw [UInt32.toNat_add]
    exact Nat.mod_eq_of_lt h
  rw [next, if_neg]
  · exact hadd
  · intro hzero
    rw [hzero] at hadd
    exact absurd hadd (Nat.succ_ne_zero _).symm

/-- The word of the number `k`, when the number 0 has the word `first` -/
def word (first : UInt32) (k : ℕ) : UInt32 := next^[k] first

theorem word_succ (first : UInt32) (k : ℕ) : word first (k + 1) = next (word first k) :=
  Function.iterate_succ_apply' next k first

theorem word_toNat {first : UInt32} {k : ℕ} (h : first.toNat + k < 2 ^ 32) :
    (word first k).toNat = first.toNat + k := by
  induction k with
  | zero => rfl
  | succ k ih =>
    rw [word_succ, next_toNat] <;> rw [ih (by omega)]
    · omega
    · omega

theorem word_inj {first : UInt32} {j k : ℕ} (hj : first.toNat + j < 2 ^ 32)
    (hk : first.toNat + k < 2 ^ 32) : word first j = word first k ↔ j = k := by
  constructor
  · intro h
    have hword := congrArg UInt32.toNat h
    rw [word_toNat hj, word_toNat hk] at hword
    omega
  · rintro rfl
    rfl

end Castle.Generations
