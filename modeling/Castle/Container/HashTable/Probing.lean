import Mathlib.Data.Fintype.Card
import Castle.Status
import Castle.Lib.Table
import Castle.Lib.FiniteMap

/-!
# The hash table (`hash_table.hpp`)

Open addressing with linear probing and tombstones. An index that the source compares
with `N` is optional here. A function that reads or destroys an entry that is not there
has no result.
-/

namespace Castle.Container

/-- The template parameter `N`: positive, and an array of `N` bytes is an object. -/
structure SlotCount where
  size : ℕ
  pos : 0 < size
  lt : size < 2 ^ 63

/-- The template parameters `Hash` and `KeyEqual`: an equivalence and a hash function that
agrees with it. -/
structure KeyTraits (K : Type) where
  hash : K → ℕ
  equal : K → K → Bool
  lawful : FiniteMap.LawfulEqual equal
  compatible {a b : K} : equal a b = true → hash a = hash b

/-- `states_[i]` -/
inductive SlotState where
  | empty | occupied | deleted
  deriving DecidableEq

structure Slot (K V : Type) where
  state : SlotState := .empty
  /-- what lives in `slots_[i]` -/
  entry : Option (K × V) := none

structure HashTable (cap : SlotCount) (K V : Type) where
  slots : Table cap.size (Slot K V)
  size : ℕ

namespace HashTable

variable {cap : SlotCount} {K V : Type} (traits : KeyTraits K) (t : HashTable cap K V)

def init : HashTable cap K V := ⟨.replicate _ {}, 0⟩

def slot (i : Fin cap.size) : Slot K V := t.slots.get i

def bucket (cap : SlotCount) (key : K) : ℕ := traits.hash key % cap.size

/-- `(start + step) % N` -/
def probe (cap : SlotCount) (start step : ℕ) : Fin cap.size :=
  ⟨(start + step) % 2 ^ 64 % cap.size, Nat.mod_lt _ cap.pos⟩

/-- The slots that the loops of `find_index` and `insert_value` go through. -/
def probes (cap : SlotCount) (key : K) : List (Fin cap.size) :=
  (List.range cap.size).map (probe cap (bucket traits cap key))

/-- The loop of `find_index`. -/
def findLoop (key : K) : List (Fin cap.size) → Option (Option (Fin cap.size))
  | [] => some none
  | index :: rest =>
    match (t.slot index).state with
    | .empty => some none
    | .deleted => findLoop key rest
    | .occupied => do
      let entry ← (t.slot index).entry
      if traits.equal entry.1 key then some (some index) else findLoop key rest

def findIndex (key : K) : Option (Option (Fin cap.size)) :=
  t.findLoop traits key (probes traits cap key)

/-- `construct_at` in the slot `target`, which becomes occupied. -/
def place (target : Fin cap.size) (key : K) (value : V) : HashTable cap K V :=
  ⟨t.slots.set target { state := .occupied, entry := some (key, value) }, (t.size + 1) % 2 ^ 64⟩

/-- The loop of `insert_value`, and what follows it. -/
def insertLoop (key : K) (value : V) :
    List (Fin cap.size) → Option (Fin cap.size) → Option (Status × HashTable cap K V)
  | [], none => some (.full, t)
  | [], some firstDeleted => some (.ok, t.place firstDeleted key value)
  | index :: rest, firstDeleted =>
    match (t.slot index).state with
    | .occupied => do
      let entry ← (t.slot index).entry
      if traits.equal entry.1 key then some (.alreadyExists, t)
      else insertLoop key value rest firstDeleted
    | .deleted => insertLoop key value rest (if firstDeleted = none then some index else firstDeleted)
    | .empty =>
      let target := match firstDeleted with
        | none => index
        | some i => i
      some (.ok, t.place target key value)

def insertValue (key : K) (value : V) : Option (Status × HashTable cap K V) :=
  t.insertLoop traits key value (probes traits cap key) none

def insert (key : K) (value : V) : Option (Status × HashTable cap K V) :=
  t.insertValue traits key value

def emplace (key : K) (value : V) : Option (Status × HashTable cap K V) := do
  match ← t.findIndex traits key with
  | some _ => some (.alreadyExists, t)
  | none => t.insertValue traits key value

/-- `entry_ptr(index)->second = value` -/
def assign (index : Fin cap.size) (value : V) : Option (HashTable cap K V) := do
  let entry ← (t.slot index).entry
  some { t with slots := t.slots.modify index fun s => { s with entry := some (entry.1, value) } }

def insertOrAssign (key : K) (value : V) : Option (Status × HashTable cap K V) := do
  match ← t.findIndex traits key with
  | some existing =>
    let t ← t.assign existing value
    some (.ok, t)
  | none => t.insert traits key value

def find (key : K) : Option (Option (Fin cap.size)) := t.findIndex traits key

def contains (key : K) : Option Bool := do
  let index ← t.findIndex traits key
  some index.isSome

/-- The value that `get` points to. -/
def get (key : K) : Option (Option V) := do
  match ← t.findIndex traits key with
  | none => some none
  | some index =>
    let entry ← (t.slot index).entry
    some (some entry.2)

def erase (key : K) : Option (Status × HashTable cap K V) := do
  match ← t.findIndex traits key with
  | none => some (.notFound, t)
  | some index =>
    let _ ← (t.slot index).entry
    some (.ok, ⟨t.slots.set index { state := .deleted, entry := none },
      (t.size + (2 ^ 64 - 1)) % 2 ^ 64⟩)

/-- The body of the loop of `clear`; no entry lives in a slot that is not occupied. -/
def clearSlot (s : Slot K V) : Slot K V :=
  { state := .empty, entry := if s.state = .occupied then none else s.entry }

def clear : HashTable cap K V := ⟨t.slots.map clearSlot, 0⟩

/-- The loop of `first_occupied` and `advance_index`: the first occupied slot from `index` on. -/
def skip : ℕ → ℕ → ℕ
  | 0, index => index
  | fuel + 1, index =>
    if h : index < cap.size then
      if (t.slot ⟨index, h⟩).state = .occupied then index else skip fuel (index + 1)
    else index

def firstOccupied : ℕ := t.skip cap.size 0

def advanceIndex (index : ℕ) : ℕ :=
  if index ≥ cap.size then index else t.skip cap.size (index + 1)

/-- The entries that an iterator visits from `index` on. -/
def visit : ℕ → ℕ → Option (List (K × V))
  | 0, index => if index = cap.size then some [] else none
  | fuel + 1, index =>
    if h : index < cap.size then do
      let entry ← (t.slot ⟨index, h⟩).entry
      let rest ← visit fuel (t.advanceIndex index)
      some (entry :: rest)
    else if index = cap.size then some [] else none

/-- `for (auto it = begin(); it != end(); ++it)` -/
def visitAll : Option (List (K × V)) := t.visit cap.size t.firstOccupied

end HashTable
end Castle.Container

/-!
## Probe chains of the hash table

No slot between the bucket of a key and the slot that holds it is empty. Tombstones keep
that, so the loops find every key that is there, and an insertion finds a slot as long
as one is not occupied.
-/

namespace Castle.Container.HashTable

variable {cap : SlotCount} {K V : Type} {traits : KeyTraits K} {t t' : HashTable cap K V}

def entryAt (t : HashTable cap K V) (i : Fin cap.size) : Option (K × V) := (t.slot i).entry

/-- The entries in the order of their slots. -/
def entries (t : HashTable cap K V) : List (K × V) := (List.finRange cap.size).filterMap t.entryAt

/-- The slots that are probed for `key` before `i` are not empty. -/
def Chained (traits : KeyTraits K) (t : HashTable cap K V) (key : K) (i : Fin cap.size) : Prop :=
  ∀ before behind, probes traits cap key = before ++ i :: behind →
    ∀ j ∈ before, (t.slot j).state ≠ .empty

structure WellFormed (traits : KeyTraits K) (t : HashTable cap K V) : Prop where
  live : ∀ i, (t.slot i).state = .occupied ↔ (t.entryAt i).isSome
  /-- no key occupies two slots -/
  distinct : ∀ i j e f, t.entryAt i = some e → t.entryAt j = some f →
    traits.equal e.1 f.1 = true → i = j
  chained : ∀ i e, t.entryAt i = some e → Chained traits t e.1 i
  size_eq : t.size = t.entries.length

theorem mem_probes (key : K) (i : Fin cap.size) : i ∈ probes traits cap key := by
  have hstart : bucket traits cap key < cap.size := Nat.mod_lt _ cap.pos
  have hlt := cap.lt
  have hi := i.isLt
  unfold probes
  rw [List.mem_map]
  -- the distance from the bucket to `i`, around the end of the table
  refine ⟨(i + (cap.size - bucket traits cap key)) % cap.size,
    List.mem_range.mpr (Nat.mod_lt _ cap.pos), ?_⟩
  apply Fin.ext
  unfold probe
  dsimp only
  have hmod : (i + (cap.size - bucket traits cap key)) % cap.size < cap.size := Nat.mod_lt _ cap.pos
  rw [Nat.mod_eq_of_lt (by omega : _ < 2 ^ 64), Nat.add_mod_mod]
  have hsum : bucket traits cap key + (i + (cap.size - bucket traits cap key)) = i + cap.size := by
    omega
  rw [hsum, Nat.add_mod_right, Nat.mod_eq_of_lt hi]

theorem probes_perm (key : K) : (probes traits cap key).Perm (List.finRange cap.size) := by
  have hsub : (List.finRange cap.size).Subperm (probes traits cap key) :=
    (List.nodup_finRange _).subperm fun i _ => mem_probes key i
  exact (hsub.perm_of_length_le (by simp [probes])).symm

variable {i : Fin cap.size}

theorem probes_split {key : K} {a b c d : List (Fin cap.size)}
    (h : probes traits cap key = a ++ i :: b) (h' : probes traits cap key = c ++ i :: d) :
    a = c := by
  have hn : (a ++ i :: b).Nodup := h ▸ (probes_perm key).nodup_iff.mpr (List.nodup_finRange _)
  obtain ⟨hi, -⟩ := List.nodup_cons.mp (List.nodup_middle.mp hn)
  rw [List.mem_append, not_or] at hi
  exact ((List.append_cons_inj_of_notMem hi.1 hi.2).mp (h.symm.trans h')).1

theorem probes_congr {a b : K} (h : traits.equal a b = true) :
    probes traits cap a = probes traits cap b := by
  unfold probes bucket
  rw [traits.compatible h]

/-- No slot of a list holds the key. -/
def Passed (traits : KeyTraits K) (t : HashTable cap K V) (key : K) (l : List (Fin cap.size)) :
    Prop :=
  ∀ i ∈ l, ∀ e, t.entryAt i = some e → traits.equal e.1 key = false

theorem Passed.snoc {key : K} {l : List (Fin cap.size)} (h : Passed traits t key l)
    (hi : ∀ e, t.entryAt i = some e → traits.equal e.1 key = false) :
    Passed traits t key (l ++ [i]) := by
  intro j hj
  rcases List.mem_append.mp hj with hj | hj
  · exact h j hj
  · rw [List.mem_singleton.mp hj]
    exact hi

theorem WellFormed.entry_none (h : WellFormed traits t) (hi : (t.slot i).state ≠ .occupied) :
    t.entryAt i = none := by
  rw [← Option.not_isSome_iff_eq_none, ← h.live]
  exact hi

theorem WellFormed.entry_some (h : WellFormed traits t) (hi : (t.slot i).state = .occupied) :
    ∃ e, t.entryAt i = some e :=
  Option.isSome_iff_exists.mp ((h.live i).mp hi)

theorem WellFormed.passed_of_empty (h : WellFormed traits t) {key : K}
    {before behind : List (Fin cap.size)} (hp : probes traits cap key = before ++ i :: behind)
    (hpass : Passed traits t key before) (hi : (t.slot i).state = .empty) (j : Fin cap.size) :
    ∀ e, t.entryAt j = some e → traits.equal e.1 key = false := by
  intro e he
  by_contra hkey
  have hkey : traits.equal e.1 key = true := by simpa using hkey
  have hj : j ∈ before ++ i :: behind := hp ▸ mem_probes key j
  rcases List.mem_append.mp hj with hj | hj
  · rw [hpass j hj e he] at hkey
    cases hkey
  rcases List.mem_cons.mp hj with rfl | hj
  · rw [h.entry_none (by rw [hi]; decide)] at he
    cases he
  · obtain ⟨left, right, rfl⟩ := List.append_of_mem hj
    refine h.chained j e he (before ++ i :: left) right ?_ i (by simp) hi
    rw [probes_congr hkey, hp]
    simp

/-- What the search returns. -/
structure Found (traits : KeyTraits K) (t : HashTable cap K V) (key : K)
    (p : Option (Fin cap.size)) : Prop where
  some : ∀ i ∈ p, ∃ e, t.entryAt i = Option.some e ∧ traits.equal e.1 key = true
  none : p = Option.none → ∀ i e, t.entryAt i = Option.some e → traits.equal e.1 key = false

theorem findLoop_spec (h : WellFormed traits t) {key : K} {before rest : List (Fin cap.size)}
    (hp : probes traits cap key = before ++ rest) (hpass : Passed traits t key before) :
    ∃ p, t.findLoop traits key rest = some p ∧ Found traits t key p := by
  induction rest generalizing before with
  | nil =>
    refine ⟨none, rfl, by simp, fun _ i e he => hpass i ?_ e he⟩
    rw [List.append_nil] at hp
    exact hp ▸ mem_probes key i
  | cons i rest ih =>
    have hp' : probes traits cap key = (before ++ [i]) ++ rest := by rw [hp]; simp
    cases hi : (t.slot i).state with
    | empty =>
      refine ⟨none, by rw [findLoop, hi], by simp, fun _ => h.passed_of_empty hp hpass hi⟩
    | deleted =>
      have hnone := h.entry_none (i := i) (by rw [hi]; decide)
      obtain ⟨p, heq, hfound⟩ := ih hp' (hpass.snoc (by simp [hnone]))
      exact ⟨p, by rw [findLoop, hi]; exact heq, hfound⟩
    | occupied =>
      obtain ⟨e, he⟩ := h.entry_some hi
      have hentry : (t.slot i).entry = some e := he
      by_cases hkey : traits.equal e.1 key = true
      · refine ⟨some i, ?_, ?_, by simp⟩
        · simp [findLoop, hi, hentry, hkey]
        · rintro j ⟨⟩
          exact ⟨e, he, hkey⟩
      · obtain ⟨p, heq, hfound⟩ := ih hp' (hpass.snoc (by simpa [he] using hkey))
        refine ⟨p, ?_, hfound⟩
        simpa [findLoop, hi, hentry, hkey] using heq

theorem findIndex_spec (h : WellFormed traits t) (key : K) :
    ∃ p, t.findIndex traits key = some p ∧ Found traits t key p :=
  @findLoop_spec _ _ _ _ _ h _ [] _ rfl (by simp [Passed])

/-- What `insert_value` does. -/
inductive Inserted (traits : KeyTraits K) (t : HashTable cap K V) (key : K) (value : V) :
    Status × HashTable cap K V → Prop
  | present {i : Fin cap.size} {e : K × V} (he : t.entryAt i = some e)
    (hkey : traits.equal e.1 key = true) : Inserted traits t key value (.alreadyExists, t)
  | full (habsent : ∀ i e, t.entryAt i = some e → traits.equal e.1 key = false)
    (hfull : ∀ i, (t.slot i).state = .occupied) : Inserted traits t key value (.full, t)
  | ok {i : Fin cap.size} (habsent : ∀ i e, t.entryAt i = some e → traits.equal e.1 key = false)
    (hi : (t.slot i).state ≠ .occupied) (hchain : Chained traits t key i) :
    Inserted traits t key value (.ok, t.place i key value)

theorem chained_next {key : K} {before behind : List (Fin cap.size)}
    (hp : probes traits cap key = before ++ i :: behind)
    (hne : ∀ j ∈ before, (t.slot j).state ≠ .empty) : Chained traits t key i := by
  intro before' behind' hp' j hj
  rw [probes_split hp' hp] at hj
  exact hne j hj

theorem chained_passed {key : K} {before rest : List (Fin cap.size)}
    (hp : probes traits cap key = before ++ rest) (hne : ∀ j ∈ before, (t.slot j).state ≠ .empty)
    (hi : i ∈ before) : Chained traits t key i := by
  obtain ⟨left, right, rfl⟩ := List.append_of_mem hi
  refine @chained_next _ _ _ _ _ _ _ left (right ++ rest) (by rw [hp]; simp) fun j hj => ?_
  exact hne j (by simp [hj])

theorem insertLoop_spec
    (h : WellFormed traits t) {key : K} (value : V) {before rest : List (Fin cap.size)}
    (hp : probes traits cap key = before ++ rest) (hpass : Passed traits t key before)
    (hne : ∀ j ∈ before, (t.slot j).state ≠ .empty) {firstDeleted : Option (Fin cap.size)}
    (hsome : ∀ i ∈ firstDeleted, i ∈ before ∧ (t.slot i).state ≠ .occupied)
    (hnone : firstDeleted = none → ∀ j ∈ before, (t.slot j).state = .occupied) : ∃ res, t.insertLoop
    traits key value rest firstDeleted = some res ∧ Inserted traits t key value res := by
  induction rest generalizing before firstDeleted with
  | nil =>
    have hall : ∀ i, i ∈ before := fun i => by
      have hmem := @mem_probes _ _ traits key i
      rwa [hp, List.append_nil] at hmem
    have habsent : ∀ i e, t.entryAt i = some e → traits.equal e.1 key = false :=
      fun i e he => hpass i (hall i) e he
    cases firstDeleted with
    | none => exact ⟨_, rfl, .full habsent fun i => hnone rfl i (hall i)⟩
    | some d =>
      obtain ⟨hd, hocc⟩ := hsome d rfl
      exact ⟨_, rfl, .ok habsent hocc (chained_passed hp hne hd)⟩
  | cons i rest ih =>
    have hp' : probes traits cap key = (before ++ [i]) ++ rest := by rw [hp]; simp
    have hmem {j : Fin cap.size} (hj : j ∈ before ++ [i]) : j ∈ before ∨ j = i := by
      simpa using hj
    cases hi : (t.slot i).state with
    | empty =>
      have habsent := h.passed_of_empty hp hpass hi
      cases firstDeleted with
      | none =>
        refine ⟨_, by rw [insertLoop, hi], .ok habsent ?_ (chained_next hp hne)⟩
        rw [hi]
        decide
      | some d =>
        obtain ⟨hd, hocc⟩ := hsome d rfl
        exact ⟨_, by rw [insertLoop, hi], .ok habsent hocc (chained_passed hp hne hd)⟩
    | deleted =>
      have hentry := h.entry_none (i := i) (by rw [hi]; decide)
      have hne' : ∀ j ∈ before ++ [i], (t.slot j).state ≠ .empty := by
        intro j hj
        rcases hmem hj with hj | rfl
        · exact hne j hj
        · rw [hi]
          decide
      have hstep : t.insertLoop traits key value (i :: rest) firstDeleted = t.insertLoop
          traits key value rest (if firstDeleted = none then some i else firstDeleted) := by
        cases firstDeleted <;> simp [insertLoop, hi]
      rw [hstep]
      refine ih hp' (hpass.snoc (by simp [hentry])) hne' ?_ (by cases firstDeleted <;> simp)
      cases firstDeleted with
      | none =>
        rintro j ⟨⟩
        exact ⟨by simp, by rw [hi]; decide⟩
      | some d =>
        rintro j ⟨⟩
        obtain ⟨hd, hocc⟩ := hsome d rfl
        exact ⟨by simp [hd], hocc⟩
    | occupied =>
      obtain ⟨e, he⟩ := h.entry_some hi
      have hentry : (t.slot i).entry = some e := he
      by_cases hkey : traits.equal e.1 key = true
      · exact ⟨(.alreadyExists, t), by simp [insertLoop, hi, hentry, hkey], .present he hkey⟩
      · have hstep : t.insertLoop traits key value (i :: rest) firstDeleted =
            t.insertLoop traits key value rest firstDeleted := by
          simp [insertLoop, hi, hentry, hkey]
        rw [hstep]
        refine ih hp' (hpass.snoc (by simpa [he] using hkey)) ?_ ?_ ?_
        · intro j hj
          rcases hmem hj with hj | rfl
          · exact hne j hj
          · rw [hi]
            decide
        · intro j hj
          obtain ⟨hd, hocc⟩ := hsome j hj
          exact ⟨by simp [hd], hocc⟩
        · intro hfd j hj
          rcases hmem hj with hj | rfl
          · exact hnone hfd j hj
          · exact hi

theorem insertValue_spec (h : WellFormed traits t) (key : K) (value : V) :
    ∃ res, t.insertValue traits key value = some res ∧ Inserted traits t key value res :=
  @insertLoop_spec _ _ _ _ _ h _ value [] _ rfl (by simp [Passed]) (by simp) _ (by simp)
    (by simp)

end Castle.Container.HashTable
