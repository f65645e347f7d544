import Mathlib.Algebra.Ring.Nat
import Mathlib.Data.List.FinRange

/-!
# Fixed-size slot tables

A C++ array member `T slots_[N]` scanned front to back: the cells, with their
number as a field, so that every index is in bounds. `firstIdx p` is the loop
`for (i = 0; i < N; ++i) if (p(slots_[i])) return i;`.
-/

namespace Castle

/-- An array of exactly `n` slots. -/
structure Table (n : ℕ) (α : Type) where
  cells : List α
  size_eq : cells.length = n
  deriving DecidableEq

namespace Table

variable {n : ℕ} {α β : Type}

def get (t : Table n α) (i : Fin n) : α := t.cells.get ⟨i, t.size_eq.symm ▸ i.isLt⟩

def set (t : Table n α) (i : Fin n) (a : α) : Table n α :=
  ⟨t.cells.set i a, by simp [t.size_eq]⟩

/-- Update one slot in place. -/
def modify (t : Table n α) (i : Fin n) (f : α → α) : Table n α := t.set i (f (t.get i))

/-- Update every slot. -/
def map (f : α → β) (t : Table n α) : Table n β := ⟨t.cells.map f, by simp [t.size_eq]⟩

/-- Update every slot by its index. -/
def mapIdx (f : Fin n → α → β) (t : Table n α) : Table n β :=
  ⟨(List.finRange n).map fun i => f i (t.get i), by simp⟩

def replicate (n : ℕ) (a : α) : Table n α := ⟨List.replicate n a, by simp⟩

/-- The first slot that satisfies `p`. -/
def firstIdx (p : α → Bool) (t : Table n α) : Option (Fin n) :=
  (List.finRange n).find? fun i => p (t.get i)

theorem map_val_finRange (n : ℕ) : (List.finRange n).map Fin.val = List.range n := by
  apply List.ext_getElem <;> simp

theorem ext_get {t u : Table n α} (h : ∀ i, t.get i = u.get i) : t = u := by
  obtain ⟨l, hl⟩ := t
  obtain ⟨m, hm⟩ := u
  have he : l = m := by
    apply List.ext_getElem (hl.trans hm.symm)
    intro i hi _
    exact h ⟨i, hl ▸ hi⟩
  subst he
  rfl

variable (t : Table n α)

@[simp] theorem get_set_self (i : Fin n) (a : α) : (t.set i a).get i = a := by
  simp [get, set]

@[simp] theorem get_set_ne {i j : Fin n} (a : α) (h : j ≠ i) : (t.set i a).get j = t.get j := by
  have hv : (i : ℕ) ≠ j := fun he => h (Fin.ext he.symm)
  simp [get, set, List.getElem_set_ne hv]

theorem get_set (i j : Fin n) (a : α) : (t.set i a).get j = if j = i then a else t.get j := by
  split_ifs with h
  · rw [h, get_set_self]
  · exact get_set_ne t a h

theorem get_modify (i j : Fin n) (f : α → α) :
    (t.modify i f).get j = if j = i then f (t.get j) else t.get j := by
  rw [modify, get_set]
  split_ifs with h <;> simp [h]

@[simp] theorem get_modify_self (i : Fin n) (f : α → α) : (t.modify i f).get i = f (t.get i) := by
  simp [modify]

@[simp] theorem get_modify_ne {i j : Fin n} (f : α → α) (h : j ≠ i) :
    (t.modify i f).get j = t.get j := by
  simp [modify, h]

@[simp] theorem get_map (f : α → β) (t : Table n α) (i : Fin n) :
    (t.map f).get i = f (t.get i) := by
  simp [get, map]

@[simp] theorem get_mapIdx (f : Fin n → α → β) (t : Table n α) (i : Fin n) :
    (t.mapIdx f).get i = f i (t.get i) := by
  simp [get, mapIdx]

@[simp] theorem get_replicate (a : α) (i : Fin n) : (replicate n a).get i = a := by
  simp [get, replicate]

/-- A loop that updates slots in place, each from slots that it has not updated yet. -/
theorem get_foldl_set {step : Table n α → Fin n → α} (reads : Fin n → Fin n → Prop)
    (hlocal : ∀ t u d, (∀ j, reads d j → t.get j = u.get j) → step t d = step u d)
    {l : List (Fin n)} (hl : l.Pairwise fun a b => a ≠ b ∧ ¬ reads b a) (t : Table n α) (d : Fin n) :
    (l.foldl (fun t i => t.set i (step t i)) t).get d = if d ∈ l then step t d else t.get d := by
  induction l generalizing t with
  | nil => simp
  | cons i l ih =>
    obtain ⟨hi, hl⟩ := List.pairwise_cons.mp hl
    rw [List.foldl_cons, ih hl]
    by_cases hd : d ∈ l
    · rw [if_pos hd, if_pos (List.mem_cons_of_mem i hd)]
      refine hlocal _ _ d fun j hj => get_set_ne _ _ ?_
      rintro rfl
      exact (hi d hd).2 hj
    · rw [if_neg hd, get_set]
      by_cases hdi : d = i
      · rw [if_pos hdi, if_pos (by simp [hdi]), hdi]
      · rw [if_neg hdi, if_neg (by simp [hdi, hd])]

variable {p : α → Bool}

theorem firstIdx_some {t : Table n α} {i : Fin n} (h : t.firstIdx p = some i) :
    p (t.get i) = true := by
  simpa using List.find?_some h

theorem firstIdx_none {t : Table n α} (h : t.firstIdx p = none) (i : Fin n) :
    p (t.get i) = false := by
  have hn := List.find?_eq_none.mp h i (List.mem_finRange i)
  simpa using hn

theorem firstIdx_isSome {t : Table n α} {i : Fin n} (h : p (t.get i) = true) :
    ∃ j, t.firstIdx p = some j := by
  cases hf : t.firstIdx p with
  | none => rw [firstIdx_none hf i] at h; exact absurd h (by decide)
  | some j => exact ⟨j, rfl⟩

theorem firstIdx_eq_none_iff {t : Table n α} : t.firstIdx p = none ↔ ∀ i, p (t.get i) = false := by
  constructor
  · exact firstIdx_none
  · intro h
    exact List.find?_eq_none.mpr fun i _ => by simp [h i]

theorem firstIdx_congr {q : β → Bool} {t : Table n α} {u : Table n β}
    (h : ∀ i, p (t.get i) = q (u.get i)) : t.firstIdx p = u.firstIdx q := by
  rw [firstIdx, firstIdx]
  congr 1
  funext i
  exact h i

theorem firstIdx_eq_of_unique {t : Table n α} {i : Fin n} (hi : p (t.get i) = true)
    (hu : ∀ j, p (t.get j) = true → j = i) : t.firstIdx p = some i := by
  obtain ⟨j, hj⟩ := firstIdx_isSome hi
  rw [hj, hu j (firstIdx_some hj)]

end Table

/-!
## Tables of keyed slots

Slots that are taken or free and carry a key: the shape of every bounded C++ map
kept as an array. `Holds` says that a key is stored, `Distinct` that no key is
stored twice, and `Within u t` that `u` only released slots of `t`.
-/

/-- A record with a flag that says whether its slot is taken, and a key. -/
class Slot (α : Type) (κ : outParam Type) where
  used : α → Bool
  key : α → κ

namespace Table

open Slot

variable {n : ℕ} {α κ : Type} [Slot α κ]

/-- Some taken slot carries the key. -/
def Holds (t : Table n α) (k : κ) : Prop :=
  ∃ i, used (t.get i) = true ∧ key (t.get i) = k

/-- No two taken slots carry the same key. -/
def Distinct (t : Table n α) : Prop :=
  ∀ i j, used (t.get i) = true → used (t.get j) = true → key (t.get i) = key (t.get j) → i = j

/-- Every taken slot of `u` was taken in `t`, under the same key. -/
def Within (u t : Table n α) : Prop :=
  ∀ i, used (u.get i) = true → used (t.get i) = true ∧ key (u.get i) = key (t.get i)

theorem Within.refl (t : Table n α) : t.Within t := fun _ h => ⟨h, rfl⟩

variable {t : Table n α}

theorem Within.of_eq {u : Table n α} (h : u = t) : u.Within t := h ▸ Within.refl u

theorem Within.trans {u v : Table n α} (h₁ : v.Within u) (h₂ : u.Within t) : v.Within t := by
  intro i hi
  obtain ⟨hu, hk⟩ := h₁ i hi
  obtain ⟨ht, hk'⟩ := h₂ i hu
  exact ⟨ht, hk.trans hk'⟩

variable {k : κ}

theorem Within.holds {u : Table n α} (h : u.Within t) (hk : u.Holds k) : t.Holds k := by
  obtain ⟨i, hi, rfl⟩ := hk
  obtain ⟨ht, he⟩ := h i hi
  exact ⟨i, ht, he.symm⟩

theorem Within.distinct {u : Table n α} (h : u.Within t) (ht : t.Distinct) : u.Distinct := by
  intro i j hi hj hk
  obtain ⟨hi', ei⟩ := h i hi
  obtain ⟨hj', ej⟩ := h j hj
  exact ht i j hi' hj' (ei.symm.trans (hk.trans ej))

/-- An update of one slot that frees it, or leaves it taken under its key. -/
theorem within_modify (t : Table n α) (i : Fin n) (f : α → α)
    (h : used (f (t.get i)) = true → used (t.get i) = true ∧ key (f (t.get i)) = key (t.get i)) :
    (t.modify i f).Within t := by
  intro j hj
  by_cases hji : j = i
  · subst hji
    rw [get_modify_self] at hj ⊢
    exact h hj
  · rw [get_modify_ne t f hji] at hj ⊢
    exact ⟨hj, rfl⟩

theorem within_map (t : Table n α) (f : α → α)
    (h : ∀ a, used (f a) = true → used a = true ∧ key (f a) = key a) : (t.map f).Within t := by
  intro i hi
  rw [get_map] at hi ⊢
  exact h _ hi

theorem distinct_of_free (h : ∀ i, used (t.get i) = false) : t.Distinct :=
  fun i _ hi => absurd hi (by simp [h i])

theorem not_holds_of_free (h : ∀ i, used (t.get i) = false) (k : κ) : ¬t.Holds k := by
  rintro ⟨i, hi, -⟩
  rw [h i] at hi
  exact absurd hi (by decide)

variable {i : Fin n}

theorem holds_set {a : α} (h : (t.set i a).Holds k) : key a = k ∨ t.Holds k := by
  obtain ⟨j, hj, rfl⟩ := h
  by_cases hji : j = i
  · subst hji
    left
    rw [get_set_self]
  · right
    rw [get_set_ne t a hji] at hj ⊢
    exact ⟨j, hj, rfl⟩

theorem Distinct.set (ht : t.Distinct) (i : Fin n) {a : α} (hf : ¬t.Holds (key a)) :
    (t.set i a).Distinct := by
  intro j l hj hl hk
  by_cases hji : j = i <;> by_cases hli : l = i
  · rw [hji, hli]
  · subst hji
    rw [get_set_ne t a hli] at hl hk
    rw [get_set_self] at hk
    exact absurd ⟨l, hl, hk.symm⟩ hf
  · subst hli
    rw [get_set_ne t a hji] at hj hk
    rw [get_set_self] at hk
    exact absurd ⟨j, hj, hk⟩ hf
  · rw [get_set_ne t a hji] at hj hk
    rw [get_set_ne t a hli] at hl hk
    exact ht j l hj hl hk

/-- The keys of the taken slots, in slot order. -/
def keys (t : Table n α) : List κ :=
  ((List.finRange n).filter fun i => used (t.get i)).map fun i => key (t.get i)

theorem mem_keys : k ∈ t.keys ↔ t.Holds k := by
  simp [keys, Holds]

theorem length_keys_le (t : Table n α) : t.keys.length ≤ n := by
  calc t.keys.length = ((List.finRange n).filter fun i => used (t.get i)).length := by simp [keys]
    _ ≤ (List.finRange n).length := List.length_filter_le _ _
    _ = n := List.length_finRange

variable [DecidableEq κ]

/-- The loop that looks for a taken slot with a given key. -/
def lookup (t : Table n α) (k : κ) : Option (Fin n) := t.firstIdx fun a => used a && key a = k

theorem lookup_some (h : t.lookup k = some i) : used (t.get i) = true ∧ key (t.get i) = k := by
  simpa [lookup] using firstIdx_some h

theorem lookup_none : t.lookup k = none ↔ ¬t.Holds k := by
  rw [lookup, firstIdx_eq_none_iff]
  constructor
  · rintro h ⟨i, hi, hk⟩
    simpa [hi, hk] using h i
  · intro h i
    by_contra hc
    have hp : used (t.get i) = true ∧ key (t.get i) = k := by simpa using hc
    exact h ⟨i, hp.1, hp.2⟩

theorem lookup_isSome : (t.lookup k).isSome = true ↔ t.Holds k := by
  rw [← not_iff_not, ← lookup_none]
  simp

/-- In a table of distinct keys the loop finds the one slot with the key. -/
theorem Distinct.lookup_eq (ht : t.Distinct) (hi : used (t.get i) = true) :
    t.lookup (key (t.get i)) = some i := by
  apply firstIdx_eq_of_unique
  · simp [hi]
  · intro j hj
    have hp : used (t.get j) = true ∧ key (t.get j) = key (t.get i) := by simpa using hj
    exact ht j i hp.1 hi hp.2

/-- The slot contents stored under a key. -/
def entry (t : Table n α) (k : κ) : Option α := (t.lookup k).map t.get

theorem entry_eq_none : t.entry k = none ↔ ¬t.Holds k := by
  rw [entry, Option.map_eq_none_iff, lookup_none]

section

variable (ht : t.Distinct)
include ht

theorem Distinct.entry_eq_some {a : α} :
    t.entry k = some a ↔ ∃ i, t.get i = a ∧ used a = true ∧ key a = k := by
  constructor
  · intro h
    obtain ⟨i, hi, rfl⟩ := Option.map_eq_some_iff.mp h
    exact ⟨i, rfl, lookup_some hi⟩
  · rintro ⟨i, rfl, hu, rfl⟩
    rw [entry, ht.lookup_eq hu]
    rfl

/-- Filling a free slot with a new key stores it and changes no other entry. -/
theorem Distinct.entry_fill {a : α} (hi : used (t.get i) = false)
    (ha : used a = true) (hf : ¬t.Holds (key a)) (k : κ) :
    (t.set i a).entry k = if key a = k then some a else t.entry k := by
  have hd := ht.set i hf
  split_ifs with hk
  · exact hd.entry_eq_some.mpr ⟨i, get_set_self t i a, ha, hk⟩
  · cases he : t.entry k with
    | none =>
      rw [entry_eq_none] at he ⊢
      intro h
      exact (holds_set h).elim hk he
    | some e =>
      obtain ⟨j, rfl, hu, hkey⟩ := ht.entry_eq_some.mp he
      have hji : j ≠ i := by
        rintro rfl
        rw [hi] at hu
        cases hu
      exact hd.entry_eq_some.mpr ⟨j, get_set_ne t a hji, hu, hkey⟩

/-- Rewriting a taken slot under its key, or freeing it, changes no other entry. -/
theorem Distinct.entry_rewrite {a : α} (hi : used (t.get i) = true) (ha : key a = key (t.get i)) (k : κ) :
    (t.set i a).entry k = if key a = k then if used a then some a else none else t.entry k := by
  have hw : (t.set i a).Within t := by
    have := within_modify t i (fun _ => a) fun _ => ⟨hi, ha⟩
    simpa [modify] using this
  have hd := hw.distinct ht
  split_ifs with hk hu
  · exact hd.entry_eq_some.mpr ⟨i, get_set_self t i a, hu, hk⟩
  · rw [entry_eq_none]
    rintro ⟨j, hj, hjk⟩
    by_cases hji : j = i
    · subst hji
      rw [get_set_self] at hj
      exact hu hj
    · rw [get_set_ne t a hji] at hj hjk
      exact hji (ht j i hj hi (hjk.trans (hk.symm.trans ha)))
  · cases he : t.entry k with
    | none =>
      rw [entry_eq_none] at he ⊢
      exact fun h => he (hw.holds h)
    | some e =>
      obtain ⟨j, rfl, hu, hkey⟩ := ht.entry_eq_some.mp he
      have hji : j ≠ i := by
        rintro rfl
        exact hk (ha.trans hkey)
      exact hd.entry_eq_some.mpr ⟨j, get_set_ne t a hji, hu, hkey⟩

theorem Distinct.entry_release {f : α → α} (hi : used (t.get i) = true)
    (hu : used (f (t.get i)) = false) (hk : key (f (t.get i)) = key (t.get i)) (k : κ) :
    (t.modify i f).entry k = if key (t.get i) = k then none else t.entry k := by
  rw [modify, ht.entry_rewrite hi hk, hk, hu]
  rfl

/-- A slot that is the only one with the new key, or holds any other key. -/
theorem Distinct.set_reuse {a : α}
    (hf : ∀ j, used (t.get j) = true → key (t.get j) = key a → j = i) : (t.set i a).Distinct := by
  intro j m hj hm hk
  by_cases hji : j = i
  · by_cases hmi : m = i
    · rw [hji, hmi]
    · rw [get_set_ne t a hmi] at hm hk
      rw [hji, get_set_self] at hk
      exact absurd (hf m hm hk.symm) hmi
  · rw [get_set_ne t a hji] at hj hk
    by_cases hmi : m = i
    · rw [hmi, get_set_self] at hk
      exact absurd (hf j hj hk) hji
    · rw [get_set_ne t a hmi] at hm hk
      exact ht j m hj hm hk

theorem Distinct.entry_reuse {a : α} (ha : used a = true)
    (hf : ∀ j, used (t.get j) = true → key (t.get j) = key a → j = i) (k : κ) :
    (t.set i a).entry k =
      if key a = k then some a else if used (t.get i) = true ∧ key (t.get i) = k then none else t.entry k := by
  have hd := ht.set_reuse hf
  split_ifs with hk hold
  · exact hd.entry_eq_some.mpr ⟨i, get_set_self t i a, ha, hk⟩
  · rw [entry_eq_none]
    rintro ⟨j, hj, hjk⟩
    by_cases hji : j = i
    · rw [hji, get_set_self] at hjk
      exact hk hjk
    · rw [get_set_ne t a hji] at hj hjk
      exact hji (ht j i hj hold.1 (hjk.trans hold.2.symm))
  · cases he : t.entry k with
    | none =>
      rw [entry_eq_none] at he ⊢
      intro h
      exact (holds_set h).elim hk he
    | some e =>
      obtain ⟨j, rfl, hu, hkey⟩ := ht.entry_eq_some.mp he
      have hji : j ≠ i := by
        rintro rfl
        exact hold ⟨hu, hkey⟩
      exact hd.entry_eq_some.mpr ⟨j, get_set_ne t a hji, hu, hkey⟩

end

end Table
end Castle
