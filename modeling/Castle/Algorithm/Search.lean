import Mathlib.Data.Int.Order.Basic
import Mathlib.Data.List.Basic
import Castle.Algorithm.Sort

/-!
# Binary searches (`algorithm.hpp`)

A forward range is a list, an iterator into it the number of steps from the beginning.
Dereferencing the end or an iterator behind it has no result, nor has a loop that takes more
than `fuel` rounds.
-/

namespace Castle.Algorithm

open Container

variable {α β : Type}

/-- The loop of `lower_bound` and `upper_bound`, which go on behind `*middle` when `p(*middle)`. -/
def boundLoop (p : α → Bool) (range : List α) : ℕ → ℕ → ℕ → ℤ → Option ℕ
  | 0, _, _, _ => none
  | fuel + 1, first, last, length =>
    if length > 0 then do
      let half := length.tdiv 2
      let middle := first + half.toNat
      let element ← range[middle]?
      if p element then boundLoop p range fuel (middle + 1) last (length - (half + 1))
      else boundLoop p range fuel first middle half
    else some first

def lowerBound (compare : α → β → Bool) (fuel : ℕ) (range : List α) (value : β) : Option ℕ :=
  boundLoop (fun element => compare element value) range fuel 0 range.length range.length

def upperBound (compare : β → α → Bool) (fuel : ℕ) (range : List α) (value : β) : Option ℕ :=
  boundLoop (fun element => !compare value element) range fuel 0 range.length range.length

/-- The callable compares elements with the value and the value with elements. -/
def binarySearch (compare : α → β → Bool) (compare' : β → α → Bool) (fuel : ℕ) (range : List α)
    (value : β) : Option Bool := do
  let position ← lowerBound compare fuel range value
  if position ≠ range.length then
    let element ← range[position]?
    some (!compare' value element)
  else some false

/-- What satisfies `p` comes before what does not. -/
def Partitioned (p : α → Bool) (range : List α) : Prop :=
  range.Pairwise fun a b => p b = true → p a = true

/-- The elements before `k` are those that satisfy `p`. -/
def IsPartitionPoint (p : α → Bool) (range : List α) (k : ℕ) : Prop :=
  k ≤ range.length ∧ ∀ i (h : i < range.length), p range[i] = true ↔ i < k

/-- The elements that are not before the value come behind those that are, the elements
behind it come last, and no element is on both sides of it. -/
structure SortedFor (compare : α → β → Bool) (compare' : β → α → Bool) (range : List α)
    (value : β) : Prop where
  lower : Partitioned (fun e => compare e value) range
  upper : Partitioned (fun e => !compare' value e) range
  asymm : ∀ e ∈ range, compare e value = true → compare' value e = false

variable {p : α → Bool} {range : List α}

theorem Partitioned.of_le (h : Partitioned p range) {i j : ℕ} (hij : i ≤ j)
    (hj : j < range.length) (hp : p range[j] = true) : p range[i] = true := by
  rcases Nat.lt_or_eq_of_le hij with hlt | rfl
  · exact List.pairwise_iff_getElem.mp h i j (by omega) hj hlt hp
  · exact hp

theorem IsPartitionPoint.unique {k k' : ℕ} (h : IsPartitionPoint p range k)
    (h' : IsPartitionPoint p range k') : k' = k := by
  apply Nat.le_antisymm
  · by_contra hlt
    have hk : k < range.length := by have := h'.1; omega
    have hin := (h.2 k hk).mp ((h'.2 k hk).mpr (by omega))
    omega
  · by_contra hlt
    have hk : k' < range.length := by have := h.1; omega
    have hin := (h'.2 k' hk).mp ((h.2 k' hk).mpr (by omega))
    omega

theorem boundLoop_spec (hp : Partitioned p range) {fuel first n last : ℕ}
    (hin : first + n ≤ range.length)
    (hbefore : ∀ i (h : i < range.length), i < first → p range[i] = true)
    (hbehind : ∀ i (h : i < range.length), first + n ≤ i → p range[i] = false) (hf : n < fuel) :
    ∃ k, boundLoop p range fuel first last n = some k ∧ IsPartitionPoint p range k := by
  induction fuel generalizing first n last with
  | zero => omega
  | succ fuel ih =>
    unfold boundLoop
    by_cases h0 : (n : ℤ) > 0
    · have hhalf : (n : ℤ).tdiv 2 = ((n / 2 : ℕ) : ℤ) := by
        rw [Int.tdiv_eq_ediv_of_nonneg (by omega)]
        push_cast
        rfl
      have hm : first + n / 2 < range.length := by omega
      simp only [if_pos h0, hhalf, Int.toNat_natCast, List.getElem?_eq_getElem hm,
        Option.bind_eq_bind, Option.bind_some]
      cases hpm : p range[first + n / 2] with
      | true =>
        rw [if_pos rfl, show (n : ℤ) - (((n / 2 : ℕ) : ℤ) + 1) = ((n - (n / 2 + 1) : ℕ) : ℤ) by omega]
        apply ih (by omega) (fun i h hi => ?_) (fun i h hi => hbehind i h (by omega)) (by omega)
        exact hp.of_le (by omega) hm hpm
      | false =>
        rw [if_neg (by simp)]
        apply ih (by omega) hbefore (fun i h hi => ?_) (by omega)
        by_contra hpi
        rw [hp.of_le hi h (by simpa using hpi)] at hpm
        cases hpm
    · rw [if_neg h0]
      refine ⟨first, rfl, by omega, fun i h => ⟨fun hpi => ?_, hbefore i h⟩⟩
      by_contra hi
      rw [hbehind i h (by omega)] at hpi
      cases hpi

theorem boundLoop_partitioned (hp : Partitioned p range) : ∃ k,
    (∀ fuel, range.length < fuel → boundLoop p range fuel 0 range.length range.length = some k) ∧
    ∀ k', IsPartitionPoint p range k' ↔ k' = k := by
  have hspec : ∀ fuel, range.length < fuel →
      ∃ k, boundLoop p range fuel 0 range.length range.length = some k ∧
        IsPartitionPoint p range k := fun fuel hf =>
    boundLoop_spec hp (by omega) (fun i _ hi => absurd hi (Nat.not_lt_zero i))
      (fun i h hi => by omega) hf
  obtain ⟨k, -, hk⟩ := hspec (range.length + 1) (Nat.lt_succ_self _)
  refine ⟨k, fun fuel hf => ?_, fun k' => ⟨hk.unique, fun h => h ▸ hk⟩⟩
  obtain ⟨k', hrun, hk'⟩ := hspec fuel hf
  rw [hrun, hk.unique hk']

theorem sortedFor_of_pairwise {cmp : Compare α}
    (h : range.Pairwise fun a b => cmp.lt b a = false) (value : α) :
    SortedFor cmp.lt cmp.lt range value where
  lower := h.imp fun {a b} hba hb => by
    by_contra ha
    have hbv : cmp.lt b value = false := BinaryHeap.not_higher_trans hba (by simpa using ha)
    exact Bool.false_ne_true (hbv.symm.trans hb)
  upper := h.imp fun {a b} hba hb => by
    have hva : cmp.lt value a = false := BinaryHeap.not_higher_trans (by simpa using hb) hba
    simpa using hva
  asymm := fun _ _ he => BinaryHeap.not_higher_symm he

variable {compare : α → β → Bool} {compare' : β → α → Bool} {value : β}

theorem SortedFor.block (h : SortedFor compare compare' range value) {lo hi : ℕ}
    (hlo : IsPartitionPoint (fun e => compare e value) range lo)
    (hhi : IsPartitionPoint (fun e => !compare' value e) range hi) :
    lo ≤ hi ∧ ∀ i (hi' : i < range.length), lo ≤ i ∧ i < hi ↔
      compare range[i] value = false ∧ compare' value range[i] = false := by
  constructor
  · by_contra hlt
    have hin : hi < range.length := by have := hlo.1; omega
    have hless := (hlo.2 hi hin).mpr (by omega)
    have hmore := h.asymm _ (List.getElem_mem hin) hless
    have hbelow := (hhi.2 hi hin).mp (by simp [hmore])
    omega
  · intro i hi'
    rw [← hhi.2 i hi', ← Nat.not_lt, ← hlo.2 i hi']
    simp

theorem binarySearch_eq {lo hi fuel : ℕ} (hrun : lowerBound compare fuel range value = some lo)
    (hlo : IsPartitionPoint (fun e => compare e value) range lo)
    (hhi : IsPartitionPoint (fun e => !compare' value e) range hi) :
    binarySearch compare compare' fuel range value = some (decide (lo < hi)) := by
  unfold binarySearch
  simp only [hrun, Option.bind_eq_bind, Option.bind_some]
  by_cases hend : lo = range.length
  · have hle := hhi.1
    rw [if_neg (by simp [hend]), decide_eq_false (by omega)]
  · have hin : lo < range.length := by have := hlo.1; omega
    rw [if_pos hend, List.getElem?_eq_getElem hin, Option.bind_some]
    congr 1
    rw [Bool.eq_iff_iff, decide_eq_true_iff]
    exact hhi.2 lo hin

/-- `lower_bound` and `upper_bound` return the partition points, which lie around the block of
elements equivalent to the value, and `binary_search` tells whether there is one. -/
theorem searches_find_block (compare : α → β → Bool) (compare' : β → α → Bool) (range : List α)
    (value : β) :
    (Partitioned (fun e => compare e value) range →
      ∃ k, (∀ fuel, range.length < fuel → lowerBound compare fuel range value = some k) ∧
        ∀ k', IsPartitionPoint (fun e => compare e value) range k' ↔ k' = k) ∧
    (Partitioned (fun e => !compare' value e) range →
      ∃ k ≤ range.length,
        (∀ fuel, range.length < fuel → upperBound compare' fuel range value = some k) ∧
        ∀ i (h : i < range.length), compare' value range[i] = true ↔ k ≤ i) ∧
    (SortedFor compare compare' range value →
      ∃ lo hi, lo ≤ hi ∧
        (∀ i (h : i < range.length), lo ≤ i ∧ i < hi ↔
          compare range[i] value = false ∧ compare' value range[i] = false) ∧
        ∀ fuel, range.length < fuel →
          lowerBound compare fuel range value = some lo ∧
          upperBound compare' fuel range value = some hi ∧
          binarySearch compare compare' fuel range value = some (decide (lo < hi))) ∧
    ∀ (cmp : Compare α) (a : α), (range.Pairwise fun a b => cmp.lt b a = false) →
      SortedFor cmp.lt cmp.lt range a := by
  refine ⟨boundLoop_partitioned, fun hp => ?_, fun h => ?_, fun cmp a hs => sortedFor_of_pairwise hs a⟩
  · obtain ⟨k, hrun, hk⟩ := boundLoop_partitioned hp
    have hpoint := (hk k).mpr rfl
    refine ⟨k, hpoint.1, hrun, fun i hi => ?_⟩
    have hiff := hpoint.2 i hi
    rw [← Nat.not_lt, ← hiff]
    simp
  · obtain ⟨lo, hrunLo, hlo⟩ := boundLoop_partitioned h.lower
    obtain ⟨hi, hrunHi, hhi⟩ := boundLoop_partitioned h.upper
    have hpointLo := (hlo lo).mpr rfl
    have hpointHi := (hhi hi).mpr rfl
    obtain ⟨hle, hblock⟩ := h.block hpointLo hpointHi
    refine ⟨lo, hi, hle, hblock, fun fuel hf => ⟨hrunLo fuel hf, hrunHi fuel hf, ?_⟩⟩
    exact binarySearch_eq (hrunLo fuel hf) hpointLo hpointHi

end Castle.Algorithm
