import Mathlib.Order.Defs.Unbundled
import Mathlib.Data.List.Basic

/-!
# Binary heaps in arrays

The first `n` elements of an array, the parent of position `i` at `(i - 1) / 2`, under an ordering
`higher` of priorities.
-/

namespace Castle.BinaryHeap

variable {α : Type}

def parent (i : ℕ) : ℕ := (i - 1) / 2

/-- Exchange two elements of an array, inside its bounds. -/
def swapAt (xs : List α) (i j : ℕ) : Option (List α) := do
  let a ← xs[i]?
  let b ← xs[j]?
  some ((xs.set i b).set j a)

/-- `ys` is `xs` with the elements before `n` in some other order. -/
structure Rearranges (n : ℕ) (xs ys : List α) : Prop where
  perm : ys.Perm xs
  outside : ∀ k, n ≤ k → ys[k]? = xs[k]?
  inside : ∀ k, k < n → ∃ j < n, ys[k]? = xs[j]?

namespace Rearranges

variable {n : ℕ} {xs ys zs : List α}

theorem refl (n : ℕ) (xs : List α) : Rearranges n xs xs :=
  ⟨List.Perm.refl _, fun _ _ => rfl, fun k hk => ⟨k, hk, rfl⟩⟩

theorem trans (h : Rearranges n xs ys) (h' : Rearranges n ys zs) : Rearranges n xs zs := by
  refine ⟨h'.perm.trans h.perm, fun k hk => (h'.outside k hk).trans (h.outside k hk), ?_⟩
  intro k hk
  obtain ⟨j, hj, hkj⟩ := h'.inside k hk
  obtain ⟨i, hi, hji⟩ := h.inside j hj
  exact ⟨i, hi, hkj.trans hji⟩

theorem length_eq (h : Rearranges n xs ys) : ys.length = xs.length := h.perm.length_eq

end Rearranges

variable {xs ys : List α} {i j n : ℕ}

theorem swapAt_isSome (hi : i < xs.length) (hj : j < xs.length) : ∃ ys, swapAt xs i j = some ys := by
  unfold swapAt
  rw [List.getElem?_eq_getElem hi, List.getElem?_eq_getElem hj]
  exact ⟨_, rfl⟩

section

variable (h : swapAt xs i j = some ys)
include h

theorem swapAt_eq :
    ∃ (hi : i < xs.length) (hj : j < xs.length), ys = (xs.set i xs[j]).set j xs[i] := by
  unfold swapAt at h
  simp only [Option.bind_eq_bind, Option.bind_eq_some_iff] at h
  obtain ⟨a, ha, b, hb, hys⟩ := h
  obtain ⟨hi, rfl⟩ := List.getElem?_eq_some_iff.mp ha
  obtain ⟨hj, rfl⟩ := List.getElem?_eq_some_iff.mp hb
  exact ⟨hi, hj, (Option.some.inj hys).symm⟩

theorem swapAt_perm : ys.Perm xs := by
  obtain ⟨hi, hj, rfl⟩ := swapAt_eq h
  exact List.set_set_perm hi hj

theorem getElem?_swapAt (k : ℕ) :
    ys[k]? = xs[if k = i then j else if k = j then i else k]? := by
  obtain ⟨hi, hj, rfl⟩ := swapAt_eq h
  by_cases hki : k = i
  · subst hki
    by_cases hkj : k = j
    · subst hkj
      simp [hi]
    · rw [List.getElem?_set_ne (by omega), List.getElem?_set_self hi, if_pos rfl,
        List.getElem?_eq_getElem hj]
  · rw [if_neg hki]
    by_cases hkj : k = j
    · subst hkj
      rw [List.getElem?_set_self (by simpa using hj), if_pos rfl, List.getElem?_eq_getElem hi]
    · rw [List.getElem?_set_ne (by omega), List.getElem?_set_ne (by omega), if_neg hkj]

theorem Rearranges.swapAt (hi : i < n) (hj : j < n) :
    Rearranges n xs ys := by
  refine ⟨swapAt_perm h, fun k hk => ?_, fun k hk => ?_⟩
  · rw [getElem?_swapAt h, if_neg (by omega), if_neg (by omega)]
  · exact ⟨_, by split_ifs <;> assumption, getElem?_swapAt h k⟩

end

variable (higher : α → α → Bool)

/-- The element at `i`, if there is one, does not go before the one at `j`. -/
def NotAbove (xs : List α) (i j : ℕ) : Prop :=
  ∀ a b, xs[i]? = some a → xs[j]? = some b → higher a b = false

/-- The order of a heap at the positions before `n` whose parent is `lo` or a later position. -/
def HeapFrom (xs : List α) (lo n : ℕ) : Prop :=
  ∀ i, 0 < i → i < n → lo ≤ parent i → NotAbove higher xs i (parent i)

/-- No element has a higher priority than its parent. -/
def IsHeap (xs : List α) : Prop := HeapFrom higher xs 0 xs.length

/-- A heap but for position `i`, whose element may be too high for its parent. -/
structure Rising (xs : List α) (n i : ℕ) : Prop where
  order : ∀ k, 0 < k → k < n → k ≠ i → NotAbove higher xs k (parent k)
  across : 0 < i → ∀ k, 0 < k → k < n → parent k = i → NotAbove higher xs k (parent i)

/-- A heap but for position `i`, whose element may be too low for its children. -/
structure Sinking (xs : List α) (lo n i : ℕ) : Prop where
  order : ∀ k, 0 < k → k < n → lo ≤ parent k → parent k ≠ i → NotAbove higher xs k (parent k)
  across : 0 < i → lo ≤ parent i → ∀ k, 0 < k → k < n → parent k = i →
    NotAbove higher xs k (parent i)

variable {higher} {lo c : ℕ}

theorem NotAbove.congr {a b : ℕ} (h : NotAbove higher xs a b) (ha : ys[i]? = xs[a]?)
    (hb : ys[j]? = xs[b]?) : NotAbove higher ys i j := by
  unfold NotAbove
  rw [ha, hb]
  exact h

theorem notAbove_of_eq {a b : α} (ha : xs[i]? = some a) (hb : xs[j]? = some b)
    (h : higher a b = false) : NotAbove higher xs i j := by
  unfold NotAbove
  rw [ha, hb]
  rintro _ _ ⟨⟩ ⟨⟩
  exact h

theorem Rising.heap_zero (h : Rising higher xs n 0) : HeapFrom higher xs 0 n :=
  fun k hk hkn _ => h.order k hk hkn (by omega)

/-- The sifting up stops at an element that does not go before its parent. -/
theorem Rising.heap (h : Rising higher xs n i) (hstop : NotAbove higher xs i (parent i)) :
    HeapFrom higher xs 0 n := by
  intro k hk hkn _
  by_cases hki : k = i
  · rw [hki]
    exact hstop
  · exact h.order k hk hkn hki

theorem Sinking.of_heap (h : HeapFrom higher xs (lo + 1) n) : Sinking higher xs lo n lo := by
  refine ⟨fun k hk hkn hlo hne => h k hk hkn (by omega), fun h0 hlo => ?_⟩
  unfold parent at hlo
  omega

theorem Sinking.heap (h : Sinking higher xs lo n i)
    (hstop : ∀ k, 0 < k → k < n → parent k = i → NotAbove higher xs k i) :
    HeapFrom higher xs lo n := by
  intro k hk hkn hlo
  by_cases hki : parent k = i
  · rw [hki]
    exact hstop k hk hkn hki
  · exact h.order k hk hkn hlo hki

section order

variable [order : IsStrictWeakOrder α fun a b => higher a b = true]

theorem higher_self (a : α) : higher a a = false := by
  simpa using order.irrefl a

theorem not_higher_symm {a b : α} (h : higher a b = true) : higher b a = false := by
  by_contra hba
  exact order.irrefl a (order.trans _ _ _ h (by simpa using hba))

theorem not_higher_trans {a b c : α} (h : higher a b = false) (h' : higher b c = false) :
    higher a c = false := by
  by_contra hac
  have hac : higher a c = true := by simpa using hac
  cases hba : higher b a with
  | true => simp [order.trans _ _ _ hba hac] at h'
  | false =>
    cases hcb : higher c b with
    | true => simp [order.trans _ _ _ hac hcb] at h
    | false =>
      have hinc := order.incomp_trans a b c ⟨by simp [h], by simp [hba]⟩ ⟨by simp [h'], by simp [hcb]⟩
      exact hinc.1 hac

theorem NotAbove.refl (xs : List α) (i : ℕ) : NotAbove higher xs i i := by
  intro a b ha hb
  rw [ha] at hb
  cases hb
  exact higher_self a

theorem NotAbove.trans {k : ℕ} (h : NotAbove higher xs i j) (h' : NotAbove higher xs j k)
    (hj : j < xs.length) : NotAbove higher xs i k := fun a b ha hb =>
  not_higher_trans (h a _ ha (List.getElem?_eq_getElem hj))
    (h' _ b (List.getElem?_eq_getElem hj) hb)

theorem HeapFrom.root (h : HeapFrom higher xs 0 n) (hn : n ≤ xs.length) (hi : i < n) :
    NotAbove higher xs i 0 := by
  induction i using Nat.strongRecOn with
  | ind i ih =>
    by_cases h0 : i = 0
    · rw [h0]
      exact NotAbove.refl xs 0
    · have hp : parent i < i := by unfold parent; omega
      exact (h i (by omega) hi (Nat.zero_le _)).trans (ih _ hp (by omega)) (by omega)

omit order in
theorem IsHeap.append (h : IsHeap higher xs) (a : α) :
    Rising higher (xs ++ [a]) (xs ++ [a]).length xs.length := by
  rw [List.length_append, List.length_singleton]
  constructor
  · intro k hk hkn hne
    have hp : parent k < k := by unfold parent; omega
    exact (h k hk (by omega) (Nat.zero_le _)).congr (List.getElem?_append_left (by omega))
      (List.getElem?_append_left (by omega))
  · intro _ k _ hkn hp
    unfold parent at hp
    omega

section replace

variable {m : ℕ} (h : HeapFrom higher xs 0 n) (hn : n ≤ xs.length) (hm : m ≤ n) (hi : i < m)
  (hsame : ∀ k, k < m → k ≠ i → ys[k]? = xs[k]?)
include h hn hm hi hsame

theorem HeapFrom.over_replaced (h0 : 0 < i) {k : ℕ} (hk : 0 < k) (hkm : k < m)
    (hki : parent k = i) : NotAbove higher ys k (parent i) := by
  have hp : parent i < i := by unfold parent; omega
  have hik : i < k := by unfold parent at hki; omega
  have hbelow := h k hk (by omega) (Nat.zero_le _)
  rw [hki] at hbelow
  exact (hbelow.trans (h i h0 (by omega) (Nat.zero_le _)) (by omega)).congr
    (hsame k hkm (by omega)) (hsame _ (by omega) (by omega))

theorem HeapFrom.sinking_replaced (hup : 0 < i → NotAbove higher ys i (parent i)) :
    Sinking higher ys 0 m i := by
  refine ⟨fun k hk hkm _ hne => ?_, fun h0 _ k hk hkm hki =>
    h.over_replaced hn hm hi hsame h0 hk hkm hki⟩
  by_cases hki : k = i
  · rw [hki]
    exact hup (by omega)
  · have hp : parent k < k := by unfold parent; omega
    exact (h k hk (by omega) (Nat.zero_le _)).congr (hsame k hkm hki)
      (hsame _ (by omega) hne)

theorem HeapFrom.rising_replaced (h0 : 0 < i) (hys : ys.length = m)
    (hup : NotAbove higher ys (parent i) i) : Rising higher ys m i := by
  have hpi : parent i < i := by unfold parent; omega
  refine ⟨fun k hk hkm hne => ?_, fun _ k hk hkm hki =>
    h.over_replaced hn hm hi hsame h0 hk hkm hki⟩
  have hp : parent k < k := by unfold parent; omega
  by_cases hki : parent k = i
  · rw [hki]
    exact (h.over_replaced hn hm hi hsame h0 hk hkm hki).trans hup (by omega)
  · exact (h k hk (by omega) (Nat.zero_le _)).congr (hsame k hkm hne) (hsame _ (by omega) hki)

end replace

theorem Rising.step (h : Rising higher xs n i) (hn : n ≤ xs.length) (h0 : 0 < i) (hi : i < n)
    {a b : α} (ha : xs[i]? = some a) (hb : xs[parent i]? = some b) (hab : higher a b = true)
    (hswap : swapAt xs i (parent i) = some ys) : Rising higher ys n (parent i) := by
  have hp : parent i < i := by unfold parent; omega
  have hget := getElem?_swapAt hswap
  have hchild : NotAbove higher xs (parent i) i := notAbove_of_eq hb ha (not_higher_symm hab)
  have hself : ys[i]? = xs[parent i]? := by rw [hget, if_pos rfl]
  have hpar : ys[parent i]? = xs[i]? := by rw [hget, if_neg (by omega), if_pos rfl]
  have hother : ∀ k, k ≠ i → k ≠ parent i → ys[k]? = xs[k]? := by
    intro k hk hk'
    rw [hget, if_neg hk, if_neg hk']
  constructor
  · intro k hk hkn hne
    by_cases hki : k = i
    · subst hki
      exact hchild.congr hself hpar
    · have hky := hother k hki hne
      by_cases hkp : parent k = i
      · rw [hkp]
        exact (h.across h0 k hk hkn hkp).congr hky hself
      · by_cases hsib : parent k = parent i
        -- the sibling stays below the new parent, which went before the old one
        · have hbelow := h.order k hk hkn hki
          rw [hsib] at hbelow ⊢
          exact (hbelow.trans hchild (by omega)).congr hky hpar
        · exact (h.order k hk hkn hki).congr hky (hother _ hkp hsib)
  · intro hp0 k hk hkn hkp
    have hpp : parent (parent i) < parent i := by
      unfold parent at hp0 ⊢
      omega
    have hgrand := hother (parent (parent i)) (by omega) (by omega)
    have hup := h.order (parent i) hp0 (by omega) (by omega)
    by_cases hki : k = i
    · subst hki
      exact hup.congr hself hgrand
    · have hbelow := h.order k hk hkn hki
      rw [hkp] at hbelow
      have hne : k ≠ parent i := by
        intro he
        rw [he] at hkp
        omega
      exact (hbelow.trans hup (by omega)).congr (hother k hki hne) hgrand

/-- The highest child `c` of `i` goes before the element at `i`: exchange the two. -/
theorem Sinking.step (h : Sinking higher xs lo n i) (hlo : lo ≤ i) (hc : c < n) (hc0 : 0 < c)
    (hci : parent c = i) (hbest : ∀ k, 0 < k → k < n → parent k = i → NotAbove higher xs k c)
    {a b : α} (ha : xs[c]? = some a) (hb : xs[i]? = some b) (hab : higher a b = true)
    (hget : ∀ k, ys[k]? = xs[if k = i then c else if k = c then i else k]?) :
    Sinking higher ys lo n c := by
  have hic : i < c := by unfold parent at hci; omega
  have hdown : NotAbove higher xs i c := notAbove_of_eq hb ha (not_higher_symm hab)
  have hself : ys[i]? = xs[c]? := by rw [hget, if_pos rfl]
  have hchild : ys[c]? = xs[i]? := by rw [hget, if_neg (by omega), if_pos rfl]
  have hother : ∀ k, k ≠ i → k ≠ c → ys[k]? = xs[k]? := by
    intro k hk hk'
    rw [hget, if_neg hk, if_neg hk']
  constructor
  · intro k hk hkn hlok hne
    by_cases hkc : k = c
    · subst hkc
      rw [hci]
      exact hdown.congr hchild hself
    · by_cases hki : k = i
      -- the child that moves up was below the parent of `i` before
      · subst hki
        have hp : parent k < k := by unfold parent; omega
        have hgrand := hother (parent k) (by omega) (by omega)
        exact (h.across hk hlok c hc0 hc hci).congr hself hgrand
      · have hky := hother k hki hkc
        by_cases hsib : parent k = i
        · rw [hsib]
          exact (hbest k hk hkn hsib).congr hky hself
        · exact (h.order k hk hkn hlok hsib).congr hky (hother _ hsib hne)
  · intro _ _ k hk hkn hkc
    have hck : c < k := by unfold parent at hkc; omega
    rw [hci]
    have hbelow := h.order k hk hkn (by omega) (by omega)
    rw [hkc] at hbelow
    exact hbelow.congr (hother k (by omega) (by omega)) hself

end order

end Castle.BinaryHeap
