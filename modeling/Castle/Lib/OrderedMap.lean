import Mathlib.Data.List.Basic
import Mathlib.Order.Defs.Unbundled

/-!
# Ordered maps of bounded size

A map as the list of its entries in ascending order of a strict weak ordering. Keys
that are not ordered either way are the same key to the map.
-/

namespace Castle

/-- The entries in ascending order, at most `capacity` of them. -/
structure OrderedMap {K : Type} (lt : K → K → Bool) (V : Type) (capacity : ℕ) where
  entries : List (K × V)
  sorted : entries.Pairwise fun a b => lt a.1 b.1 = true
  length_le : entries.length ≤ capacity

namespace OrderedMap

variable {K V : Type} {capacity : ℕ} (lt : K → K → Bool)

/-- Neither key comes before the other. -/
def same (a b : K) : Bool := !lt a b && !lt b a

def get? (entries : List (K × V)) (key : K) : Option (K × V) :=
  entries.find? fun e => same lt e.1 key

/-- The least entry that is not less than `key`. -/
def lowerBound (entries : List (K × V)) (key : K) : Option (K × V) :=
  entries.find? fun e => !lt e.1 key

/-- The least entry that is greater than `key`. -/
def upperBound (entries : List (K × V)) (key : K) : Option (K × V) :=
  entries.find? fun e => lt key e.1

def insertEntry (entries : List (K × V)) (key : K) (value : V) : List (K × V) :=
  entries.filter (fun e => lt e.1 key) ++ (key, value) :: entries.filter fun e => lt key e.1

def eraseEntry (entries : List (K × V)) (key : K) : List (K × V) :=
  entries.filter fun e => !same lt e.1 key

variable {lt} [order : IsStrictWeakOrder K fun a b => lt a b = true]

theorem lt_asymm {a b : K} (h : lt a b = true) : lt b a = false := by
  by_contra hba
  have hba : lt b a = true := by simpa using hba
  have haa : lt a a = true := order.trans _ _ _ h hba
  exact order.irrefl a haa

theorem lt_trans {a b c : K} (h : lt a b = true) (h' : lt b c = true) : lt a c = true :=
  order.trans _ _ _ h h'

/-- A key that does not come behind a lesser one comes before what is greater. -/
theorem lt_of_not_lt_of_lt {a b c : K} (h : lt b a = false) (h' : lt b c = true) :
    lt a c = true := by
  by_contra hac
  cases hab : lt a b with
  | true => exact hac (lt_trans hab h')
  | false =>
    cases hca : lt c a with
    | true =>
      rw [lt_trans h' hca] at h
      cases h
    | false =>
      have hinc := (order.incomp_trans b a c ⟨by simp [h], by simp [hab]⟩ ⟨hac, by simp [hca]⟩).1
      exact hinc h'

theorem lt_of_lt_of_not_lt {a b c : K} (h : lt a b = true) (h' : lt c b = false) :
    lt a c = true := by
  by_contra hac
  cases hcb : lt b c with
  | true => exact hac (lt_trans h hcb)
  | false =>
    cases hca : lt c a with
    | true =>
      rw [lt_trans hca h] at h'
      cases h'
    | false =>
      have hinc := (order.incomp_trans a c b ⟨hac, by simp [hca]⟩ ⟨by simp [h'], by simp [hcb]⟩).1
      exact hinc h

section split

variable {left right : List (K × V)} {key : K}

omit order in
private theorem filter_left {p : K × V → Bool} (h : ∀ e ∈ left, p e = true) : left.filter p = left :=
  List.filter_eq_self.mpr h

omit order in
private theorem find?_left {p : K × V → Bool} (h : ∀ e ∈ left, p e = false) : left.find? p = none :=
  List.find?_eq_none.mpr fun e he => by simp [h e he]

variable (hl : ∀ e ∈ left, lt e.1 key = true) (hr : ∀ e ∈ right, lt key e.1 = true)
include hl hr

omit order in
theorem get?_absent : get? lt (left ++ right) key = none := by
  unfold get?
  rw [List.find?_append, find?_left fun e he => by simp [same, hl e he],
    find?_left fun e he => by simp [same, hr e he]]
  rfl

theorem insertEntry_absent (value : V) :
    insertEntry lt (left ++ right) key value = left ++ (key, value) :: right := by
  unfold insertEntry
  rw [List.filter_append, List.filter_append, filter_left hl, filter_left hr,
    List.filter_eq_nil_iff.mpr fun e he => by simp [lt_asymm (hr e he)],
    List.filter_eq_nil_iff.mpr fun e he => by simp [lt_asymm (hl e he)]]
  simp

variable {e : K × V} (he : same lt e.1 key = true)
include he

omit order hr in
theorem get?_present : get? lt (left ++ e :: right) key = some e := by
  unfold get?
  rw [List.find?_append, find?_left fun e he => by simp [same, hl e he]]
  simp [he]

omit order in
theorem eraseEntry_present : eraseEntry lt (left ++ e :: right) key = left ++ right := by
  unfold eraseEntry
  rw [List.filter_append, filter_left fun e he => by simp [same, hl e he],
    List.filter_cons_of_neg (by simp [he]), filter_left fun e he => by simp [same, hr e he]]

omit hl hr he in
theorem upperBound_behind (hl' : ∀ f ∈ left, lt f.1 e.1 = true)
    (hr' : ∀ f ∈ right, lt e.1 f.1 = true) :
    upperBound lt (left ++ e :: right) e.1 = right.head? := by
  have hee : lt e.1 e.1 = false := by simpa using order.irrefl e.1
  unfold upperBound
  rw [List.find?_append, find?_left fun f hf => lt_asymm (hl' f hf), Option.none_or,
    List.find?_cons_of_neg (by simp [hee])]
  cases right with
  | nil => rfl
  | cons f right => simp [hr' f (by simp)]

end split

variable (m : OrderedMap lt V capacity)

theorem exists_split (key : K) :
    ∃ left right, (∀ e ∈ left, lt e.1 key = true) ∧ (∀ e ∈ right, lt key e.1 = true) ∧
    (m.entries = left ++ right ∨ ∃ e, same lt e.1 key = true ∧ m.entries = left ++ e :: right) := by
  have hsorted := m.sorted
  generalize m.entries = entries at hsorted
  induction entries with
  | nil => exact ⟨[], [], by simp, by simp, .inl rfl⟩
  | cons e entries ih =>
    obtain ⟨he, hs⟩ := List.pairwise_cons.mp hsorted
    cases hlt : lt e.1 key with
    | true =>
      obtain ⟨left, right, hl, hr, h⟩ := ih hs
      refine ⟨e :: left, right, ?_, hr, ?_⟩
      · simpa [hlt] using fun a b => hl (a, b)
      · rcases h with rfl | ⟨f, hf, rfl⟩
        · exact .inl rfl
        · exact .inr ⟨f, hf, rfl⟩
    | false =>
      have hright : ∀ f ∈ entries, lt key f.1 = true := fun f hf => lt_of_not_lt_of_lt hlt (he f hf)
      cases hgt : lt key e.1 with
      | true =>
        refine ⟨[], e :: entries, by simp, ?_, .inl rfl⟩
        simpa [hgt] using fun a b => hright (a, b)
      | false => exact ⟨[], entries, by simp, hright, .inr ⟨e, by simp [same, hlt, hgt], rfl⟩⟩

/-- Insertion of a key that is not there, with room for it. -/
def insert (key : K) (value : V) (habsent : get? lt m.entries key = none)
    (hroom : m.entries.length < capacity) : OrderedMap lt V capacity where
  entries := insertEntry lt m.entries key value
  sorted := by
    obtain ⟨left, right, hl, hr, he | ⟨e, hsame, he⟩⟩ := m.exists_split key
    · have hs := m.sorted
      rw [he] at hs ⊢
      rw [insertEntry_absent hl hr]
      obtain ⟨hsl, hsr, hlr⟩ := List.pairwise_append.mp hs
      refine List.pairwise_append.mpr ⟨hsl, List.pairwise_cons.mpr ⟨hr, hsr⟩, ?_⟩
      intro a ha b hb
      rcases List.mem_cons.mp hb with rfl | hb
      · exact hl a ha
      · exact hlr a ha b hb
    · rw [he, get?_present hl hsame] at habsent
      cases habsent
  length_le := by
    obtain ⟨left, right, hl, hr, he | ⟨e, hsame, he⟩⟩ := m.exists_split key
    · rw [he] at hroom ⊢
      rw [insertEntry_absent hl hr]
      simp only [List.length_append, List.length_cons] at hroom ⊢
      omega
    · rw [he, get?_present hl hsame] at habsent
      cases habsent

omit order in
def erase (key : K) : OrderedMap lt V capacity where
  entries := eraseEntry lt m.entries key
  sorted := m.sorted.sublist List.filter_sublist
  length_le := Nat.le_trans List.filter_sublist.length_le m.length_le

end OrderedMap
end Castle
