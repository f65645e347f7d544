import Mathlib.Data.Int.Order.Basic
import Castle.Container.Parameters
import Castle.Lib.BinaryHeap

/-!
# Sorting (`algorithm.hpp`)

A random-access range is a list, an iterator into it the signed distance from `first`. Dereferencing
an iterator outside the range has no result, nor has a loop that takes more than `fuel` rounds.
-/

namespace Castle.Algorithm

open Container BinaryHeap

variable {α : Type}

/-- `detail::less`, on integers -/
def less : Compare ℤ where
  lt a b := a < b
  order :=
    { irrefl := fun a h => absurd (decide_eq_true_iff.mp h) (lt_irrefl a)
      trans := fun a b c h h' => by
        simp only [decide_eq_true_eq] at h h' ⊢
        omega
      incomp_trans := fun a b c h h' => by
        simp only [decide_eq_true_eq] at h h' ⊢
        omega }

/-- `*(first + index)` -/
def deref (range : List α) (index : ℤ) : Option α :=
  if 0 ≤ index then range[index.toNat]? else none

/-- `castle::swap(*(first + lhs), *(first + rhs))` -/
def swapElements (range : List α) (lhs rhs : ℤ) : Option (List α) :=
  if 0 ≤ lhs ∧ 0 ≤ rhs then swapAt range lhs.toNat rhs.toNat else none

variable (cmp : Compare α)

/-- `compare(*(first + lhs), *(first + rhs))` -/
def compareAt (range : List α) (lhs rhs : ℤ) : Option Bool := do
  let a ← deref range lhs
  let b ← deref range rhs
  some (cmp.lt a b)

/-- The choice of a child in the loop of `heap_sift_down`. -/
def heapChild (range : List α) (root count : ℤ) : Option ℤ := do
  let child := root * 2 + 1
  let next ← if child + 1 < count then compareAt cmp range child (child + 1) else some false
  some (if next then child + 1 else child)

def heapSiftDown : ℕ → List α → ℤ → ℤ → Option (List α)
  | 0, _, _, _ => none
  | fuel + 1, range, root, count =>
    -- the division truncates, which the test of `count` makes the same as rounding down
    if count > 1 ∧ root ≥ 0 ∧ root ≤ (count - 2).tdiv 2 then do
      let child ← heapChild cmp range root count
      let less ← compareAt cmp range root child
      if !less then some range
      else
        let range ← swapElements range root child
        heapSiftDown fuel range child count
    else some range

/-- `for (start = …; start > 0; --start)` -/
def buildLoop (fuel : ℕ) : ℕ → List α → ℤ → ℤ → Option (List α)
  | 0, _, _, _ => none
  | rounds + 1, range, start, count =>
    if start > 0 then do
      let range ← heapSiftDown cmp fuel range (start - 1) count
      buildLoop fuel rounds range (start - 1) count
    else some range

/-- `for (end = …; end > 1; --end)` -/
def extractLoop (fuel : ℕ) : ℕ → List α → ℤ → Option (List α)
  | 0, _, _ => none
  | rounds + 1, range, last =>
    if last > 1 then do
      let range ← swapElements range 0 (last - 1)
      let range ← heapSiftDown cmp fuel range 0 (last - 1)
      extractLoop fuel rounds range (last - 1)
    else some range

def sort (fuel : ℕ) (range : List α) : Option (List α) :=
  let count : ℤ := range.length
  if count ≤ 1 then some range
  else do
    let range ← buildLoop cmp fuel fuel range (count.tdiv 2) count
    extractLoop cmp fuel fuel range count

/-- The priority of the heap: what `compare` puts last is highest. -/
def later (a b : α) : Bool := cmp.lt b a

instance : IsStrictWeakOrder α fun a b => later cmp a b = true :=
  inferInstanceAs (IsStrictWeakOrder α (Function.swap fun a b => cmp.lt a b = true))

variable {cmp} {range : List α}

theorem deref_natCast (i : ℕ) : deref range i = range[i]? := by
  simp [deref]

theorem compareAt_eq {i j : ℕ} (hi : i < range.length) (hj : j < range.length) :
    compareAt cmp range i j = some (cmp.lt range[i] range[j]) := by
  unfold compareAt
  rw [deref_natCast, deref_natCast, List.getElem?_eq_getElem hi, List.getElem?_eq_getElem hj]
  rfl

theorem swapElements_natCast (i j : ℕ) : swapElements range i j = swapAt range i j := by
  simp [swapElements]

theorem notAbove_later {i j : ℕ} (hi : i < range.length) (hj : j < range.length)
    (h : cmp.lt range[j] range[i] = false) : NotAbove (later cmp) range i j :=
  notAbove_of_eq (List.getElem?_eq_getElem hi) (List.getElem?_eq_getElem hj) h

variable (cmp) in
theorem heapChild_spec {i n : ℕ} (hn : n ≤ range.length) (hc : i * 2 + 1 < n) :
    ∃ c : ℕ, heapChild cmp range i n = some (c : ℤ) ∧ parent c = i ∧ i < c ∧ c < n ∧
      ∀ k, 0 < k → k < n → parent k = i → NotAbove (later cmp) range k c := by
  have hcast : (i : ℤ) * 2 + 1 = (i * 2 + 1 : ℕ) := by push_cast; rfl
  have hnext : ((i * 2 + 1 : ℕ) : ℤ) + 1 = (i * 2 + 1 + 1 : ℕ) := by push_cast; rfl
  have hchild : ∀ k, 0 < k → parent k = i → k = i * 2 + 1 ∨ k = i * 2 + 1 + 1 := by
    intro k hk hki
    unfold parent at hki
    omega
  have hleft : parent (i * 2 + 1) = i := by unfold parent; omega
  have hright : parent (i * 2 + 1 + 1) = i := by unfold parent; omega
  unfold heapChild
  simp only [hcast, hnext, Int.ofNat_lt]
  by_cases hr : i * 2 + 1 + 1 < n
  · rw [if_pos hr, compareAt_eq (by omega) (by omega)]
    cases hab : cmp.lt range[i * 2 + 1] range[i * 2 + 1 + 1] with
    | false =>
      refine ⟨i * 2 + 1, rfl, hleft, by omega, hc, fun k hk hkn hki => ?_⟩
      rcases hchild k hk hki with rfl | rfl
      · exact NotAbove.refl range _
      · exact notAbove_later (by omega) (by omega) hab
    | true =>
      refine ⟨i * 2 + 1 + 1, rfl, hright, by omega, hr, fun k hk hkn hki => ?_⟩
      rcases hchild k hk hki with rfl | rfl
      · exact notAbove_later (by omega) (by omega) (not_higher_symm hab : cmp.lt _ _ = false)
      · exact NotAbove.refl range _
  · rw [if_neg hr]
    refine ⟨i * 2 + 1, rfl, hleft, by omega, hc, fun k hk hkn hki => ?_⟩
    rcases hchild k hk hki with rfl | rfl
    · exact NotAbove.refl range _
    · omega

theorem guard_iff (i n : ℕ) :
    ((n : ℤ) > 1 ∧ (i : ℤ) ≥ 0 ∧ (i : ℤ) ≤ ((n : ℤ) - 2).tdiv 2) ↔ i * 2 + 1 < n := by
  constructor
  · rintro ⟨hn, -, hi⟩
    rw [Int.tdiv_eq_ediv_of_nonneg (by omega)] at hi
    omega
  · intro h
    rw [Int.tdiv_eq_ediv_of_nonneg (by omega)]
    omega

theorem heapSiftDown_spec {fuel i n lo : ℕ} (hs : Sinking (later cmp) range lo n i) (hlo : lo ≤ i)
    (hi : i < n) (hn : n ≤ range.length) (hf : n - i ≤ fuel) : ∃ sifted, heapSiftDown cmp fuel
    range i n = some sifted ∧ HeapFrom (later cmp) sifted lo n ∧ Rearranges n range sifted := by
  induction fuel generalizing range i with
  | zero => omega
  | succ fuel ih =>
    unfold heapSiftDown
    simp only [guard_iff]
    by_cases hc : i * 2 + 1 < n
    · obtain ⟨c, hsel, hparent, hic, hcn, hbest⟩ := heapChild_spec cmp hn hc
      simp only [if_pos hc, hsel, Option.bind_eq_bind, Option.bind_some,
        compareAt_eq (show i < range.length by omega) (show c < range.length by omega)]
      cases hab : cmp.lt range[i] range[c] with
      | false =>
        refine ⟨range, by simp, hs.heap fun k hk hkn hki => ?_, Rearranges.refl n range⟩
        exact (hbest k hk hkn hki).trans (notAbove_later (by omega) (by omega) hab) (by omega)
      | true =>
        obtain ⟨swapped, hswap⟩ := swapAt_isSome (show i < range.length by omega)
          (show c < range.length by omega)
        have hre := Rearranges.swapAt hswap hi hcn
        have hlen := hre.length_eq
        obtain ⟨sifted, hrun, hheap, hre'⟩ := ih
          (hs.step hlo hcn (by omega) hparent hbest (List.getElem?_eq_getElem (by omega))
            (List.getElem?_eq_getElem (by omega)) hab (getElem?_swapAt hswap))
          (by omega) hcn (by omega) (by omega)
        refine ⟨sifted, ?_, hheap, hre.trans hre'⟩
        simpa [swapElements_natCast, hswap] using hrun
    · rw [if_neg hc]
      refine ⟨range, rfl, hs.heap fun k hk hkn hki => ?_, Rearranges.refl n range⟩
      unfold parent at hki
      omega

theorem buildLoop_spec {fuel rounds start n : ℕ} (hh : HeapFrom (later cmp) range start n)
    (hstart : start ≤ n) (hn : n ≤ range.length) (hf : n ≤ fuel) (hr : start < rounds) :
    ∃ heap, buildLoop cmp fuel rounds range start n = some heap ∧
      HeapFrom (later cmp) heap 0 n ∧ heap.Perm range := by
  induction rounds generalizing range start with
  | zero => omega
  | succ rounds ih =>
    unfold buildLoop
    cases start with
    | zero => exact ⟨range, rfl, hh, List.Perm.refl _⟩
    | succ start =>
      have hcast : ((start + 1 : ℕ) : ℤ) - 1 = (start : ℤ) := by push_cast; omega
      obtain ⟨sifted, hrun, hheap, hre⟩ := heapSiftDown_spec (Sinking.of_heap hh) (le_refl _)
        (by omega) hn (show n - start ≤ fuel by omega)
      have hlen := hre.length_eq
      obtain ⟨heap, hrun', hheap', hperm⟩ := ih hheap (by omega) (by omega) (by omega)
      refine ⟨heap, ?_, hheap', hperm.trans hre.perm⟩
      rw [if_pos (by omega), hcast, hrun]
      exact hrun'

/-- Behind `last` everything is in order and not before anything in front of it. -/
def Settled (cmp : Compare α) (range : List α) (last : ℕ) : Prop :=
  ∀ i j, i < j → last ≤ j → NotAbove (later cmp) range i j

theorem Settled.step {last : ℕ} {range' : List α} (hset : Settled cmp range (last + 1))
    (hh : HeapFrom (later cmp) range 0 (last + 1)) (hlast : last + 1 ≤ range.length)
    (hfront : ∀ k, k < last → ∃ j < last + 1, range'[k]? = range[j]?)
    (hmax : range'[last]? = range[0]?) (hbehind : ∀ k, last < k → range'[k]? = range[k]?) :
    Settled cmp range' last := by
  intro i j hij hj
  by_cases hjl : j = last
  -- the root of the heap is now at `last`
  · subst hjl
    obtain ⟨k, hk, hik⟩ := hfront i hij
    exact (hh.root hlast hk).congr hik hmax
  · have hget := hbehind j (by omega)
    rcases Nat.lt_trichotomy i last with hi | rfl | hi
    · obtain ⟨k, hk, hik⟩ := hfront i hi
      exact (hset k j (by omega) (by omega)).congr hik hget
    · exact (hset 0 j (by omega) (by omega)).congr hmax hget
    · exact (hset i j hij (by omega)).congr (hbehind i hi) hget

theorem Settled.pairwise (h : Settled cmp range 1) :
    range.Pairwise fun a b => cmp.lt b a = false := by
  rw [List.pairwise_iff_getElem]
  intro i j hi hj hij
  exact h i j hij (by omega) _ _ (List.getElem?_eq_getElem hi) (List.getElem?_eq_getElem hj)

theorem extractLoop_spec {fuel rounds last : ℕ} (hh : HeapFrom (later cmp) range 0 last)
    (hset : Settled cmp range last) (hpos : 0 < last) (hlast : last ≤ range.length)
    (hf : last ≤ fuel) (hr : last ≤ rounds) : ∃ sorted, extractLoop cmp fuel rounds range last =
    some sorted ∧ Settled cmp sorted 1 ∧ sorted.Perm range := by
  induction rounds generalizing range last with
  | zero => omega
  | succ rounds ih =>
    unfold extractLoop
    by_cases hone : last = 1
    · subst hone
      exact ⟨range, rfl, hset, List.Perm.refl _⟩
    · obtain ⟨e, rfl⟩ : ∃ e, last = e + 1 := ⟨last - 1, by omega⟩
      have hcast : ((e + 1 : ℕ) : ℤ) - 1 = (e : ℤ) := by push_cast; omega
      obtain ⟨swapped, hswap⟩ := swapAt_isSome (show 0 < range.length by omega)
        (show e < range.length by omega)
      have hget := getElem?_swapAt hswap
      have hlen := (swapAt_perm hswap).length_eq
      have hbelow : HeapFrom (later cmp) swapped (0 + 1) e := by
        intro k hk hke hp
        have hpk : parent k < k := by unfold parent; omega
        have hsame : ∀ j, 0 < j → j < e → swapped[j]? = range[j]? := fun j hj hje => by
          rw [hget, if_neg (by omega), if_neg (by omega)]
        exact (hh k hk (by omega) (Nat.zero_le _)).congr (hsame k hk hke)
          (hsame _ (by omega) (by omega))
      obtain ⟨sifted, hrun, hheap, hre⟩ := heapSiftDown_spec (Sinking.of_heap hbelow) (le_refl _)
        (by omega) (by omega) (show e - 0 ≤ fuel by omega)
      have hlen' := hre.length_eq
      have hset' : Settled cmp sifted e := by
        refine hset.step hh hlast (fun k hk => ?_) ?_ fun k hk => ?_
        · obtain ⟨j, hj, hkj⟩ := hre.inside k hk
          rw [hkj, hget]
          exact ⟨_, by split_ifs <;> omega, rfl⟩
        · rw [hre.outside e (le_refl e), hget, if_neg (by omega), if_pos rfl]
        · rw [hre.outside k (by omega), hget, if_neg (by omega), if_neg (by omega)]
      obtain ⟨sorted, hrun', hsorted, hperm⟩ := ih hheap hset' (by omega) (by omega) (by omega)
        (by omega)
      refine ⟨sorted, ?_, hsorted, hperm.trans (hre.perm.trans (swapAt_perm hswap))⟩
      have hswap' : swapElements range 0 (e : ℤ) = some swapped := by
        rw [← hswap]
        exact swapElements_natCast 0 e
      change heapSiftDown cmp fuel swapped 0 e = _ at hrun
      rw [if_pos (by omega), hcast, hswap']
      simpa [hrun] using hrun'

/-- `sort` returns, within as many rounds of each loop as there are elements and without
leaving the range, and leaves a permutation of it in order. -/
theorem sort_sorts (cmp : Compare α) (range : List α) {fuel : ℕ} (hf : range.length ≤ fuel) :
    ∃ sorted, sort cmp fuel range = some sorted ∧ sorted.Perm range ∧
      sorted.Pairwise fun a b => cmp.lt b a = false := by
  unfold sort
  by_cases hone : (range.length : ℤ) ≤ 1
  · rw [if_pos hone]
    refine ⟨range, rfl, List.Perm.refl _, Settled.pairwise fun i j hij hj a b _ hb => ?_⟩
    rw [List.getElem?_eq_none (by omega)] at hb
    cases hb
  · simp only [if_neg hone]
    have hhalf : (range.length : ℤ).tdiv 2 = ((range.length / 2 : ℕ) : ℤ) := by
      rw [Int.tdiv_eq_ediv_of_nonneg (by omega)]
      push_cast
      rfl
    have hleaves : HeapFrom (later cmp) range (range.length / 2) range.length := by
      intro k hk hkn hp
      unfold parent at hp
      omega
    obtain ⟨heap, hrun, hheap, hperm⟩ := buildLoop_spec hleaves (by omega) (le_refl _) hf
      (show _ < fuel by omega)
    have hlen := hperm.length_eq
    have hnone : Settled cmp heap range.length := fun i j _ hj a b _ hb => by
      rw [List.getElem?_eq_none (by omega)] at hb
      cases hb
    obtain ⟨sorted, hrun', hsorted, hperm'⟩ := extractLoop_spec hheap hnone (by omega) (by omega)
      hf hf
    refine ⟨sorted, ?_, hperm'.trans hperm, hsorted.pairwise⟩
    rw [hhalf, hrun]
    exact hrun'

theorem sort_sorts_three : ∃ sorted, sort less 3 [3, 1, 2] = some sorted ∧ sorted.Perm [3, 1, 2] ∧
    sorted.Pairwise fun a b => less.lt b a = false :=
  sort_sorts less [3, 1, 2] (le_refl 3)

end Castle.Algorithm
