import Mathlib.Data.List.Pairwise
import Mathlib.Data.List.Perm.Basic

/-!
# Finite maps of bounded size

A map as the list of its entries, in any order: no two keys are the same to `equal`.
The lookups and updates do not depend on the order.
-/

namespace Castle

/-- Distinct entries, at most `capacity` of them. -/
structure FiniteMap {K : Type} (equal : K → K → Bool) (V : Type) (capacity : ℕ) where
  entries : List (K × V)
  distinct : entries.Pairwise fun a b => equal a.1 b.1 = false
  length_le : entries.length ≤ capacity

namespace FiniteMap

variable {K V : Type} {capacity : ℕ} (equal : K → K → Bool)

def get? (entries : List (K × V)) (key : K) : Option (K × V) :=
  entries.find? fun e => equal e.1 key

/-- The value under `key` becomes `value`; the stored key stays. -/
def assignEntry (entries : List (K × V)) (key : K) (value : V) : List (K × V) :=
  entries.map fun e => if equal e.1 key then (e.1, value) else e

def eraseEntry (entries : List (K × V)) (key : K) : List (K × V) :=
  entries.filter fun e => !equal e.1 key

variable {equal} {entries entries' : List (K × V)} {key : K}

theorem get?_eq_none : get? equal entries key = none ↔ ∀ e ∈ entries, equal e.1 key = false := by
  simp [get?]

theorem get?_some {e : K × V} (h : get? equal entries key = some e) :
    e ∈ entries ∧ equal e.1 key = true :=
  ⟨List.mem_of_find?_eq_some h, by simpa using List.find?_some h⟩

/-- The equality is an equivalence. -/
class LawfulEqual (equal : K → K → Bool) : Prop where
  refl (a : K) : equal a a = true
  symm {a b : K} : equal a b = true → equal b a = true
  trans {a b c : K} : equal a b = true → equal b c = true → equal a c = true

variable [lawful : LawfulEqual equal]

theorem equal_symm_false {a b : K} (h : equal a b = false) : equal b a = false := by
  by_contra hba
  rw [lawful.symm (by simpa using hba)] at h
  cases h

instance : Std.Symm fun a b : K × V => equal a.1 b.1 = false := ⟨fun _ _ => equal_symm_false⟩

theorem distinct_perm (hp : entries.Perm entries')
    (h : entries.Pairwise fun a b => equal a.1 b.1 = false) :
    entries'.Pairwise fun a b => equal a.1 b.1 = false :=
  hp.pairwise h fun hab => equal_symm_false hab

theorem get?_eq_some (h : entries.Pairwise fun a b => equal a.1 b.1 = false) {e : K × V} :
    get? equal entries key = some e ↔ e ∈ entries ∧ equal e.1 key = true := by
  refine ⟨get?_some, ?_⟩
  rintro ⟨hmem, hkey⟩
  cases hget : get? equal entries key with
  | none => rw [get?_eq_none.mp hget e hmem] at hkey; cases hkey
  | some f =>
    obtain ⟨hf, hfkey⟩ := get?_some hget
    by_contra hne
    have hfe : f ≠ e := fun hfe => hne (congrArg some hfe)
    have hapart := h.forall hf hmem hfe
    rw [lawful.trans hfkey (lawful.symm hkey)] at hapart
    cases hapart

theorem get?_perm (hp : entries.Perm entries')
    (h : entries.Pairwise fun a b => equal a.1 b.1 = false) :
    get? equal entries key = get? equal entries' key := by
  apply Option.ext
  intro e
  rw [get?_eq_some h, get?_eq_some (distinct_perm hp h), hp.mem_iff]

variable (m : FiniteMap equal V capacity)

/-- Insertion of a key that is not there, with room for it. -/
def insert (key : K) (value : V) (habsent : get? equal m.entries key = none)
    (hroom : m.entries.length < capacity) : FiniteMap equal V capacity where
  entries := (key, value) :: m.entries
  distinct := List.pairwise_cons.mpr
    ⟨fun e he => equal_symm_false (get?_eq_none.mp habsent e he), m.distinct⟩
  length_le := hroom

omit lawful in
def assign (key : K) (value : V) : FiniteMap equal V capacity where
  entries := assignEntry equal m.entries key value
  distinct := by
    refine List.pairwise_map.mpr (m.distinct.imp fun {a b} hab => ?_)
    split <;> split <;> exact hab
  length_le := by
    unfold assignEntry
    rw [List.length_map]
    exact m.length_le

omit lawful in
def erase (key : K) : FiniteMap equal V capacity where
  entries := eraseEntry equal m.entries key
  distinct := m.distinct.sublist List.filter_sublist
  length_le := Nat.le_trans List.filter_sublist.length_le m.length_le

end FiniteMap
end Castle
