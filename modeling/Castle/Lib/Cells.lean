import Mathlib.Data.List.Range
import Mathlib.Data.Nat.ModEq
import Mathlib.Logic.Function.Basic

/-!
# Element-wise loops over memory

The cells from some address on, as a function of the offset. `fill` is the loop
`for (i) p[i] = xs[i]`, `copyCells` is `for (i) dst[i] = src[i]`, and `readCells` is what
one sees through a pointer.

Two halves of `n` cells are a ring when cell `p` and cell `p + n` hold the same element:
then any `n` elements in a row, from a position of the first half on, are contiguous.
-/

namespace Castle.Cells

variable {α : Type} {cells : ℕ → α}

def write (cells : ℕ → α) (p : ℕ) (a : α) : ℕ → α := Function.update cells p a

def fill (cells : ℕ → α) (p : ℕ) : List α → ℕ → α
  | [] => cells
  | a :: xs => fill (write cells p a) (p + 1) xs

def copyCells (cells : ℕ → α) (src dst : ℕ) : ℕ → ℕ → α
  | 0 => cells
  | count + 1 =>
    let before := copyCells cells src dst count
    write before (dst + count) (before (src + count))

def readCells (cells : ℕ → α) (p count : ℕ) : List α := (List.range count).map fun i => cells (p + i)

@[simp] theorem write_self (p : ℕ) (a : α) : write cells p a p = a := Function.update_self ..

theorem write_ne {p q : ℕ} (a : α) (h : q ≠ p) : write cells p a q = cells q :=
  Function.update_of_ne h ..

theorem fill_outside (xs : List α) {p q : ℕ} (h : q < p ∨ p + xs.length ≤ q) :
    fill cells p xs q = cells q := by
  induction xs generalizing cells p with
  | nil => rfl
  | cons a xs ih =>
    rw [List.length_cons] at h
    rw [fill, ih (by omega), write_ne a (by omega)]

theorem fill_inside (xs : List α) (p : ℕ) {i : ℕ} (h : i < xs.length) :
    fill cells p xs (p + i) = xs[i] := by
  induction xs generalizing cells p i with
  | nil => simp at h
  | cons a xs ih =>
    cases i with
    | zero => rw [fill, fill_outside xs (by omega), Nat.add_zero, write_self, List.getElem_cons_zero]
    | succ i =>
      rw [List.length_cons] at h
      rw [fill, show p + (i + 1) = p + 1 + i by omega, ih (p + 1) (by omega),
        List.getElem_cons_succ]

theorem copyCells_outside {src dst count q : ℕ} (h : q < dst ∨ dst + count ≤ q) :
    copyCells cells src dst count q = cells q := by
  induction count with
  | zero => rfl
  | succ count ih => rw [copyCells, write_ne _ (by omega), ih (by omega)]

theorem copyCells_inside {src dst count i : ℕ} (hapart : src + count ≤ dst ∨ dst + count ≤ src)
    (h : i < count) : copyCells cells src dst count (dst + i) = cells (src + i) := by
  induction count with
  | zero => omega
  | succ count ih =>
    rw [copyCells]
    by_cases hi : i = count
    · subst hi
      rw [write_self, copyCells_outside (by omega)]
    · rw [write_ne _ (by omega), ih (by omega) (by omega)]

@[simp] theorem length_readCells (p count : ℕ) : (readCells cells p count).length = count := by
  simp [readCells]

@[simp] theorem getElem_readCells {p count i : ℕ} (h : i < (readCells cells p count).length) :
    (readCells cells p count)[i] = cells (p + i) := by
  simp [readCells]

theorem readCells_eq_iff {p : ℕ} {xs : List α} :
    readCells cells p xs.length = xs ↔ ∀ i (h : i < xs.length), cells (p + i) = xs[i] := by
  constructor
  · intro heq i h
    have hget := @getElem_readCells _ cells p _ _ (by simpa using h : i < _)
    rw [← hget]
    congr 1
  · intro h
    apply List.ext_getElem (by simp)
    intro i _ hi
    rw [getElem_readCells, h i hi]

theorem take_readCells {p count k : ℕ} (h : k ≤ count) :
    (readCells cells p count).take k = readCells cells p k := by
  rw [readCells, ← List.map_take, List.take_range, min_eq_left h, readCells]

/-- The elements `xs` lie in both halves, from position `p` of the ring on. -/
def Mirrored (n : ℕ) (cells : ℕ → α) (p : ℕ) (xs : List α) : Prop :=
  ∀ i (h : i < xs.length), cells ((p + i) % n) = xs[i] ∧ cells ((p + i) % n + n) = xs[i]

variable {n p : ℕ} {xs : List α}

theorem mod_of_lt_double {a : ℕ} (h : a < 2 * n) : a % n = if a < n then a else a - n := by
  split
  next ha => exact Nat.mod_eq_of_lt ha
  next ha => rw [Nat.mod_eq_sub_mod (by omega), Nat.mod_eq_of_lt (by omega)]

theorem Mirrored.nil : Mirrored n cells p [] := by
  intro i h
  simp at h

theorem Mirrored.congr (h : Mirrored n cells p xs) {q : ℕ} (hq : q % n = p % n) :
    Mirrored n cells q xs := by
  intro i hi
  rw [Nat.add_mod, hq, ← Nat.add_mod]
  exact h i hi

theorem Mirrored.drop (h : Mirrored n cells p xs) (k : ℕ) :
    Mirrored n cells (p + k) (xs.drop k) := by
  intro i hi
  rw [List.length_drop] at hi
  simpa [Nat.add_assoc] using h (k + i) (by omega)

theorem Mirrored.append {ys : List α} (hxs : Mirrored n cells p xs)
    (hys : Mirrored n cells (p + xs.length) ys) : Mirrored n cells p (xs ++ ys) := by
  intro i hi
  rw [List.length_append] at hi
  by_cases hx : i < xs.length
  · rw [List.getElem_append_left hx]
    exact hxs i hx
  · rw [List.getElem_append_right (by omega)]
    have hy := hys (i - xs.length) (by omega)
    rwa [show p + xs.length + (i - xs.length) = p + i by omega] at hy

theorem Mirrored.frame (h : Mirrored n cells p xs) {cells' : ℕ → α} (hn : 0 < n)
    (hsame : ∀ q, q < 2 * n → (∃ i < xs.length, q % n = (p + i) % n) → cells' q = cells q) :
    Mirrored n cells' p xs := by
  intro i hi
  have hlt := Nat.mod_lt (p + i) hn
  have hlow := hsame ((p + i) % n) (by omega) ⟨i, hi, Nat.mod_mod ..⟩
  have hhigh := hsame ((p + i) % n + n) (by omega) ⟨i, hi, by rw [Nat.add_mod_right, Nat.mod_mod]⟩
  rw [hlow, hhigh]
  exact h i hi

/-- From a position of the first half on, the elements are contiguous. -/
theorem Mirrored.get (h : Mirrored n cells p xs) (hp : p < n) (hxs : xs.length ≤ n) {i : ℕ}
    (hi : i < xs.length) : cells (p + i) = xs[i] := by
  have hmod := mod_of_lt_double (n := n) (a := p + i) (by omega)
  obtain ⟨hlow, hhigh⟩ := h i hi
  split at hmod
  · rwa [hmod] at hlow
  next ha => rwa [hmod, Nat.sub_add_cancel (by omega)] at hhigh

theorem Mirrored.readCells_eq (h : Mirrored n cells p xs) (hp : p < n) (hxs : xs.length ≤ n)
    {k : ℕ} (hk : k ≤ xs.length) : readCells cells p k = xs.take k := by
  have hall : readCells cells p xs.length = xs := readCells_eq_iff.mpr fun i hi => h.get hp hxs hi
  rw [← take_readCells hk, hall]

/-- Copy `count` cells from position `start` of the ring on to the other half. -/
def mirror (n : ℕ) (cells : ℕ → α) (start count : ℕ) : ℕ → α :=
  let primary := if count < n - start then count else n - start
  copyCells (copyCells cells start (start + n) primary) n 0 (count - primary)

theorem mirror_outside {start count q : ℕ} (hs : start < n) (hc : count ≤ n) (hq : q < 2 * n)
    (h : ∀ i < count, q % n ≠ (start + i) % n) : mirror n cells start count q = cells q := by
  have hout : ∀ i < count, q ≠ (start + i) % n ∧ q ≠ (start + i) % n + n := by
    refine fun i hi => ⟨fun he => h i hi ?_, fun he => h i hi ?_⟩
    · rw [he, Nat.mod_mod]
    · rw [he, Nat.add_mod_right, Nat.mod_mod]
  unfold mirror
  split
  next hlt =>
    rw [copyCells_outside (by omega), copyCells_outside]
    by_contra hin
    obtain ⟨hl, hh⟩ := not_or.mp hin
    have hi := (hout (q - (start + n)) (by omega)).2
    rw [Nat.mod_eq_of_lt (by omega)] at hi
    omega
  next hlt =>
    rw [copyCells_outside, copyCells_outside]
    · by_contra hin
      obtain ⟨hl, hh⟩ := not_or.mp hin
      have hi := (hout (q - (start + n)) (by omega)).2
      rw [Nat.mod_eq_of_lt (by omega)] at hi
      omega
    · by_contra hin
      obtain ⟨hl, hh⟩ := not_or.mp hin
      have hi := (hout (n - start + q) (by omega)).1
      rw [mod_of_lt_double (by omega)] at hi
      split at hi <;> omega

/-- The cells that are mirrored keep what they hold, and the other half holds the same. -/
theorem mirror_inside {start count i : ℕ} (hs : start < n) (hc : count ≤ n) (hi : i < count) :
    mirror n cells start count ((start + i) % n) = cells (start + i) ∧
      mirror n cells start count ((start + i) % n + n) = cells (start + i) := by
  have hmod := mod_of_lt_double (n := n) (a := start + i) (by omega)
  unfold mirror
  split
  next hlt =>
    rw [if_pos (by omega)] at hmod
    rw [hmod, copyCells_outside (by omega), copyCells_outside (by omega),
      copyCells_outside (by omega), show start + i + n = start + n + i by omega,
      copyCells_inside (by omega) hi]
    exact ⟨rfl, rfl⟩
  next hlt =>
    split at hmod
    next hlow =>
      rw [hmod, copyCells_outside (by omega), copyCells_outside (by omega),
        copyCells_outside (by omega), show start + i + n = start + n + i by omega,
        copyCells_inside (by omega) (by omega)]
      exact ⟨rfl, rfl⟩
    next hhigh =>
      have hdst : start + i - n = 0 + (i - (n - start)) := by omega
      rw [hmod, Nat.sub_add_cancel (by omega), copyCells_outside (q := start + i) (by omega),
        copyCells_outside (q := start + i) (by omega), hdst,
        copyCells_inside (by omega) (by omega), copyCells_outside (by omega)]
      exact ⟨by congr 1; omega, rfl⟩

/-- Elements written from position `start` on are mirrored; nothing else changes. -/
theorem mirror_fill {start : ℕ} (hs : start < n) (hxs : xs.length ≤ n) :
    Mirrored n (mirror n (fill cells start xs) start xs.length) start xs := by
  intro i hi
  have hin := @mirror_inside _ (fill cells start xs) _ _ _ _ hs hxs hi
  rw [fill_inside xs start hi] at hin
  exact hin

theorem mirror_fill_outside {start q : ℕ} (hs : start < n) (hxs : xs.length ≤ n) (hq : q < 2 * n)
    (h : ∀ i < xs.length, q % n ≠ (start + i) % n) :
    mirror n (fill cells start xs) start xs.length q = cells q := by
  rw [mirror_outside hs hxs hq h, fill_outside]
  by_contra hin
  obtain ⟨hl, hh⟩ := not_or.mp hin
  refine h (q - start) (by omega) ?_
  congr 1
  omega

/-- Positions of the ring that are less than one round apart are different. -/
theorem mod_ne_of_lt {a b : ℕ} (h : a < b) (hb : b < a + n) : a % n ≠ b % n := by
  intro he
  have hd := (Nat.modEq_iff_dvd' (le_of_lt h)).mp he
  have hle := Nat.le_of_dvd (by omega) hd
  omega

end Castle.Cells

/-!
## Circular queues

A queue in an array of `capacity` cells: the elements lie from the head on and go on at the
first cell after the last one.
-/

namespace Castle

structure CircularQueue (capacity : ℕ) (α : Type) where
  cells : ℕ → α
  head : ℕ
  size : ℕ

namespace CircularQueue

open Cells

variable {capacity : ℕ} {α : Type} (q : CircularQueue capacity α)

def empty (a : α) : CircularQueue capacity α := ⟨fun _ => a, 0, 0⟩

def clear : CircularQueue capacity α := { q with head := 0, size := 0 }

def free : ℕ := capacity - q.size

/-- Writes behind the last element, in two parts when the array ends. -/
def enqueue (xs : List α) : CircularQueue capacity α :=
  let tail := (q.head + q.size) % capacity
  let first := min xs.length (capacity - tail)
  { q with
    cells := fill (fill q.cells tail (xs.take first)) 0 (xs.drop first)
    size := q.size + xs.length }

/-- The number of elements up to the end of the array. -/
def contiguous : ℕ := min q.size (capacity - q.head)

def dequeue (count : ℕ) : CircularQueue capacity α :=
  let size := q.size - count
  { q with head := if size = 0 then 0 else (q.head + count) % capacity, size := size }

/-- The elements, oldest first. -/
def elements : List α := (List.range q.size).map fun i => q.cells ((q.head + i) % capacity)

structure Valid : Prop where
  head_lt : q.head < capacity
  size_le : q.size ≤ capacity

variable {q}

@[simp] theorem size_enqueue (xs : List α) : (q.enqueue xs).size = q.size + xs.length := rfl

@[simp] theorem size_dequeue (count : ℕ) : (q.dequeue count).size = q.size - count := rfl

@[simp] theorem length_elements : q.elements.length = q.size := by simp [elements]

theorem elements_of_size_zero (h : q.size = 0) : q.elements = [] := by
  rw [elements, h]
  rfl

theorem Valid.enqueue (h : q.Valid) {xs : List α} (hroom : xs.length ≤ q.free) :
    (q.enqueue xs).Valid where
  head_lt := h.head_lt
  size_le := by
    have hsize := h.size_le
    rw [free] at hroom
    rw [size_enqueue]
    omega

theorem Valid.dequeue (h : q.Valid) (count : ℕ) : (q.dequeue count).Valid where
  head_lt := by
    have hpos := h.head_lt
    show (if q.size - count = 0 then 0 else (q.head + count) % capacity) < capacity
    split
    · omega
    · exact Nat.mod_lt _ (by omega)
  size_le := (Nat.sub_le _ _).trans h.size_le

/-- The cell `j` places behind the last element, around the end of the array. -/
theorem cells_enqueue {xs : List α} (hroom : xs.length ≤ q.free) {j : ℕ}
    (hj : j < capacity) : (q.enqueue xs).cells ((q.head + q.size + j) % capacity) =
      if hin : j < xs.length then xs[j] else q.cells ((q.head + q.size + j) % capacity) := by
  have hpos : 0 < capacity := by omega
  have hlen : xs.length ≤ capacity := hroom.trans (Nat.sub_le _ _)
  have htail : (q.head + q.size) % capacity < capacity := Nat.mod_lt _ hpos
  rw [← Nat.mod_add_mod, enqueue]
  generalize (q.head + q.size) % capacity = tail at htail
  dsimp only
  rw [mod_of_lt_double (by omega)]
  by_cases hwrap : tail + j < capacity
  · rw [if_pos hwrap, fill_outside _ (by rw [List.length_drop]; omega)]
    split
    next hin =>
      rw [fill_inside _ _ (by rw [List.length_take]; omega), List.getElem_take]
    next hout => rw [fill_outside _ (by rw [List.length_take]; omega)]
  · rw [if_neg hwrap]
    split
    next hin =>
      have hplace : tail + j - capacity = 0 + (j - min xs.length (capacity - tail)) := by omega
      rw [hplace, fill_inside _ _ (by rw [List.length_drop]; omega), List.getElem_drop]
      congr 1
      omega
    next hout =>
      rw [fill_outside _ (by rw [List.length_drop]; omega),
        fill_outside _ (by omega)]

theorem elements_enqueue (h : q.Valid) {xs : List α} (hroom : xs.length ≤ q.free) :
    (q.enqueue xs).elements = q.elements ++ xs := by
  have hsize := h.size_le
  have hhead := h.head_lt
  rw [free] at hroom
  refine List.ext_getElem (by simp) fun i hi _ => ?_
  rw [length_elements, size_enqueue] at hi
  have hi' : i < (q.enqueue xs).elements.length := by simpa using hi
  have hget : (q.enqueue xs).elements[i] = (q.enqueue xs).cells ((q.head + i) % capacity) := by
    simp only [elements, List.getElem_map, List.getElem_range]
    rfl
  by_cases hold : i < q.size
  · -- an old element stands `capacity - size + i` places behind the last one
    have hplace : (q.head + i) % capacity = (q.head + q.size + (capacity - q.size + i)) % capacity := by
      rw [show q.head + q.size + (capacity - q.size + i) = q.head + i + capacity by omega,
        Nat.add_mod_right]
    rw [hget, List.getElem_append_left (by simpa using hold), hplace,
      cells_enqueue hroom (by omega), dif_neg (by omega), ← hplace]
    simp [elements]
  · have hplace : q.head + i = q.head + q.size + (i - q.size) := by omega
    rw [hget, List.getElem_append_right (by simpa using hold), hplace,
      cells_enqueue hroom (by omega), dif_pos (by omega)]
    simp

end CircularQueue
end Castle
