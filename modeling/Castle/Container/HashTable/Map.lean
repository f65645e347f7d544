import Castle.Container.HashTable.Probing

/-!
# Updates of the hash table

Placing, burying and assigning an entry keep the probe chains, and change the entries of
the table in one slot only.
-/

namespace Castle.Container.HashTable

variable {cap : SlotCount} {K V : Type} {traits : KeyTraits K} {t t' : HashTable cap K V}

instance (traits : KeyTraits K) : FiniteMap.LawfulEqual traits.equal := traits.lawful

/-- The entries of the other slots. -/
def others (t : HashTable cap K V) (i : Fin cap.size) : List (K × V) :=
  ((List.finRange cap.size).erase i).filterMap t.entryAt

theorem entries_split (t : HashTable cap K V) (i : Fin cap.size) :
    t.entries.Perm ((t.entryAt i).toList ++ t.others i) := by
  have hp := (List.perm_cons_erase (List.mem_finRange i)).filterMap t.entryAt
  unfold entries others
  refine hp.trans ?_
  cases h : t.entryAt i <;> simp [h]

theorem others_congr {i : Fin cap.size} (h : ∀ j, j ≠ i → t'.entryAt j = t.entryAt j) :
    t'.others i = t.others i := by
  refine List.filterMap_congr fun j hj => h j ?_
  exact (List.Nodup.mem_erase_iff (List.nodup_finRange _)).mp hj |>.1

theorem mem_entries {e : K × V} : e ∈ t.entries ↔ ∃ i, t.entryAt i = some e := by
  simp [entries]

theorem length_entries_le : t.entries.length ≤ cap.size := by
  have h := List.length_filterMap_le t.entryAt (List.finRange cap.size)
  simpa [entries] using h

theorem WellFormed.split (h : WellFormed traits t)
    {i : Fin cap.size} {e : K × V} (he : t.entryAt i = some e) : t.entries.Perm (e :: t.others i) ∧
    ∀ key, traits.equal e.1 key = true → ∀ f ∈ t.others i, traits.equal f.1 key = false := by
  refine ⟨by simpa [he] using t.entries_split i, fun key hkey f hf => ?_⟩
  obtain ⟨j, hj, hf⟩ := List.mem_filterMap.mp hf
  have hji := ((List.Nodup.mem_erase_iff (List.nodup_finRange _)).mp hj).1
  by_contra hfkey
  have hfkey : traits.equal f.1 key = true := by simpa using hfkey
  exact hji (h.distinct j i f e hf he (traits.lawful.trans hfkey (traits.lawful.symm hkey)))

section updates

variable {i : Fin cap.size} {key : K} {value : V}

theorem slot_place (j : Fin cap.size) : (t.place i key value).slot j =
    if j = i then { state := .occupied, entry := some (key, value) } else t.slot j :=
  Table.get_set _ _ _ _

theorem WellFormed.place
    (h : WellFormed traits t) (habsent : ∀ j e, t.entryAt j = some e → traits.equal e.1 key = false)
    (hi : (t.slot i).state ≠ .occupied) (hchain : Chained traits t key i) : WellFormed traits
    (t.place i key value) ∧ (t.place i key value).entries.Perm ((key, value) :: t.entries) := by
  have hself : (t.place i key value).entryAt i = some (key, value) := by
    simp [entryAt, slot_place]
  have hother : ∀ j, j ≠ i → (t.place i key value).entryAt j = t.entryAt j := by
    intro j hj
    simp [entryAt, slot_place, hj]
  have hne : ∀ j, (t.slot j).state ≠ .empty → ((t.place i key value).slot j).state ≠ .empty := by
    intro j hj
    rw [slot_place]
    split
    · simp
    · exact hj
  have hperm : (t.place i key value).entries.Perm ((key, value) :: t.entries) := by
    have hnew := (t.place i key value).entries_split i
    rw [hself, others_congr hother] at hnew
    have hold := t.entries_split i
    rw [h.entry_none hi] at hold
    exact hnew.trans (hold.symm.cons _)
  refine ⟨⟨fun j => ?_, fun j k e f he hf hkey => ?_, fun j e he => ?_, ?_⟩, hperm⟩
  · by_cases hj : j = i
    · subst hj
      simp [hself, slot_place]
    · rw [hother j hj, slot_place, if_neg hj]
      exact h.live j
  · by_cases hj : j = i
    · by_cases hk : k = i
      · rw [hj, hk]
      · subst hj
        rw [hself] at he
        rw [hother k hk] at hf
        cases he
        have hkf := habsent k f hf
        rw [traits.lawful.symm hkey] at hkf
        cases hkf
    · rw [hother j hj] at he
      by_cases hk : k = i
      · subst hk
        rw [hself] at hf
        cases hf
        rw [habsent j e he] at hkey
        cases hkey
      · rw [hother k hk] at hf
        exact h.distinct j k e f he hf hkey
  · intro before behind hp k hk
    refine hne k ?_
    by_cases hj : j = i
    · subst hj
      rw [hself] at he
      cases he
      exact hchain before behind hp k hk
    · rw [hother j hj] at he
      exact h.chained j e he before behind hp k hk
  · have hlen := hperm.length_eq
    have hle := length_entries_le (t := t.place i key value)
    have hlt := cap.lt
    show (t.size + 1) % 2 ^ 64 = _
    rw [h.size_eq, hlen, List.length_cons, Nat.mod_eq_of_lt]
    rw [hlen, List.length_cons] at hle
    omega

/-- A slot loses its entry and becomes a tombstone. -/
def bury (t : HashTable cap K V) (i : Fin cap.size) : HashTable cap K V :=
  ⟨t.slots.set i { state := .deleted, entry := none }, (t.size + (2 ^ 64 - 1)) % 2 ^ 64⟩

theorem slot_bury (j : Fin cap.size) : (t.bury i).slot j =
    if j = i then { state := .deleted, entry := none } else t.slot j :=
  Table.get_set _ _ _ _

theorem WellFormed.bury (h : WellFormed traits t) {e : K × V} (he : t.entryAt i = some e) :
    WellFormed traits (t.bury i) ∧ (t.bury i).entries.Perm (t.others i) := by
  have hself : (t.bury i).entryAt i = none := by
    simp [entryAt, slot_bury]
  have hother : ∀ j, j ≠ i → (t.bury i).entryAt j = t.entryAt j := by
    intro j hj
    simp [entryAt, slot_bury, hj]
  have hold : ∀ j f, (t.bury i).entryAt j = some f → t.entryAt j = some f := by
    intro j f hf
    by_cases hj : j = i
    · rw [hj, hself] at hf
      cases hf
    · rwa [hother j hj] at hf
  have hperm : (t.bury i).entries.Perm (t.others i) := by
    have hnew := (t.bury i).entries_split i
    rwa [hself, others_congr hother] at hnew
  refine ⟨⟨fun j => ?_, fun j k f g hf hg => h.distinct j k f g (hold j f hf) (hold k g hg),
    fun j f hf before behind hp k hk => ?_, ?_⟩, hperm⟩
  · by_cases hj : j = i
    · subst hj
      simp [hself, slot_bury]
    · rw [hother j hj, slot_bury, if_neg hj]
      exact h.live j
  · rw [slot_bury]
    split
    · simp
    · exact h.chained j f (hold j f hf) before behind hp k hk
  · have hlen := (h.split he).1.length_eq
    have hle := length_entries_le (t := t)
    have hlt := cap.lt
    show (t.size + (2 ^ 64 - 1)) % 2 ^ 64 = _
    rw [hperm.length_eq]
    rw [List.length_cons, ← h.size_eq] at hlen
    rw [← h.size_eq] at hle
    omega

theorem WellFormed.assign (h : WellFormed traits t) {e : K × V} (he : t.entryAt i = some e) :
    ∃ t', t.assign i value = some t' ∧ WellFormed traits t' ∧
      t'.entries.Perm ((e.1, value) :: t.others i) := by
  have hentry : (t.slot i).entry = some e := he
  have hassign : t.assign i value = some { t with
      slots := t.slots.modify i fun s => { s with entry := some (e.1, value) } } := by
    rw [HashTable.assign, hentry]
    rfl
  refine ⟨_, hassign, ?_⟩
  generalize hnext : ({ t with
      slots := t.slots.modify i fun s => { s with entry := some (e.1, value) } } :
        HashTable cap K V) = t'
  have hslot : ∀ j, t'.slot j =
      if j = i then { t.slot j with entry := some (e.1, value) } else t.slot j := by
    intro j
    rw [← hnext]
    exact Table.get_modify _ _ _ _
  have hself : t'.entryAt i = some (e.1, value) := by
    simp [entryAt, hslot]
  have hother : ∀ j, j ≠ i → t'.entryAt j = t.entryAt j := by
    intro j hj
    simp [entryAt, hslot, hj]
  have hstate : ∀ j, (t'.slot j).state = (t.slot j).state := by
    intro j
    rw [hslot]
    split <;> rfl
  have hkeys : ∀ j f, t'.entryAt j = some f → ∃ g, t.entryAt j = some g ∧ g.1 = f.1 := by
    intro j f hf
    by_cases hj : j = i
    · subst hj
      rw [hself] at hf
      cases hf
      exact ⟨e, he, rfl⟩
    · rw [hother j hj] at hf
      exact ⟨f, hf, rfl⟩
  have hperm : t'.entries.Perm ((e.1, value) :: t.others i) := by
    have hnew := t'.entries_split i
    rwa [hself, others_congr hother] at hnew
  refine ⟨⟨fun j => ?_, fun j k f g hf hg hkey => ?_, fun j f hf before behind hp k hk => ?_, ?_⟩,
    hperm⟩
  · rw [hstate, h.live]
    by_cases hj : j = i
    · subst hj
      simp [hself, he]
    · rw [hother j hj]
  · obtain ⟨f', hf', hff⟩ := hkeys j f hf
    obtain ⟨g', hg', hgg⟩ := hkeys k g hg
    exact h.distinct j k f' g' hf' hg' (by rw [hff, hgg]; exact hkey)
  · obtain ⟨f', hf', hff⟩ := hkeys j f hf
    rw [hstate]
    exact h.chained j f' hf' before behind (by rw [hff]; exact hp) k hk
  · have hsize : t'.size = t.size := by rw [← hnext]
    rw [hsize, h.size_eq, hperm.length_eq, (h.split he).1.length_eq]
    rfl

end updates

theorem wellFormed_of_empty (hslot : ∀ i, t.slot i = { state := .empty, entry := none })
    (hsize : t.size = 0) : WellFormed traits t ∧ t.entries = [] := by
  have hnone : ∀ i, t.entryAt i = none := fun i => by simp [entryAt, hslot]
  have hentries : t.entries = [] := by
    simp [entries, hnone]
  refine ⟨⟨fun i => ?_, fun i j e f he => ?_, fun i e he => ?_, ?_⟩, hentries⟩
  · simp [hslot, hnone]
  · rw [hnone] at he
    cases he
  · rw [hnone] at he
    cases he
  · rw [hsize, hentries]
    rfl

end Castle.Container.HashTable

/-!
## The hash table as a finite map

Runs of the operations that change the table, from an empty one: the table does what a
finite map of capacity `N` does, whatever slots the keys collide on.
-/

namespace Castle.Container.HashTable

variable {cap : SlotCount} {K V : Type} {traits : KeyTraits K} {t t' : HashTable cap K V}

/-- The operations that change the table. -/
inductive Op (K V : Type) where
  | insert (key : K) (value : V)
  | emplace (key : K) (value : V)
  | insertOrAssign (key : K) (value : V)
  | erase (key : K)
  | clear

abbrev Map (cap : SlotCount) (traits : KeyTraits K) (V : Type) :=
  FiniteMap traits.equal V cap.size

def Map.empty : Map cap traits V := ⟨[], List.Pairwise.nil, Nat.zero_le _⟩

def Map.insertNew (m : Map cap traits V) (key : K) (value : V) : Status × Map cap traits V :=
  if habsent : FiniteMap.get? traits.equal m.entries key = none then
    if hroom : m.entries.length < cap.size then (.ok, m.insert key value habsent hroom)
    else (.full, m)
  else (.alreadyExists, m)

/-- An operation with the status that it returns; `clear` returns none. -/
def Map.step (m : Map cap traits V) : Op K V → Option Status × Map cap traits V
  | .insert key value | .emplace key value =>
    let (s, m) := Map.insertNew m key value
    (some s, m)
  | .insertOrAssign key value =>
    if FiniteMap.get? traits.equal m.entries key = none then
      let (s, m) := Map.insertNew m key value
      (some s, m)
    else (some .ok, m.assign key value)
  | .erase key =>
    if FiniteMap.get? traits.equal m.entries key = none then (some .notFound, m)
    else (some .ok, m.erase key)
  | .clear => (none, Map.empty)

def Map.run (m : Map cap traits V) : List (Op K V) → List (Option Status) × Map cap traits V
  | [] => ([], m)
  | op :: ops =>
    let (s, m) := Map.step m op
    let (rest, m) := Map.run m ops
    (s :: rest, m)

variable (traits) in
def apply (t : HashTable cap K V) : Op K V → Option (Option Status × HashTable cap K V)
  | .insert key value => do
    let (s, t) ← t.insert traits key value
    some (some s, t)
  | .emplace key value => do
    let (s, t) ← t.emplace traits key value
    some (some s, t)
  | .insertOrAssign key value => do
    let (s, t) ← t.insertOrAssign traits key value
    some (some s, t)
  | .erase key => do
    let (s, t) ← t.erase traits key
    some (some s, t)
  | .clear => some (none, t.clear)

variable (traits) in
def run (t : HashTable cap K V) : List (Op K V) → Option (List (Option Status) × HashTable cap K V)
  | [] => some ([], t)
  | op :: ops => do
    let (s, t) ← t.apply traits op
    let (rest, t) ← run t ops
    some (s :: rest, t)

/-- The table is well-formed and has the entries of the map. -/
structure Refines (traits : KeyTraits K) (t : HashTable cap K V) (m : Map cap traits V) : Prop where
  wellFormed : WellFormed traits t
  perm : m.entries.Perm t.entries

section step

variable {m : Map cap traits V} (h : Refines traits t m)
include h

theorem Refines.get? (key : K) : ∃ p, t.findIndex traits key = some p ∧
    FiniteMap.get? traits.equal m.entries key = p.bind t.entryAt ∧
    (∀ i ∈ p, ∃ e, t.entryAt i = some e ∧ traits.equal e.1 key = true) := by
  obtain ⟨p, heq, hfound⟩ := findIndex_spec h.wellFormed key
  refine ⟨p, heq, ?_, hfound.some⟩
  rw [FiniteMap.get?_perm h.perm m.distinct]
  cases p with
  | none =>
    refine FiniteMap.get?_eq_none.mpr fun e he => ?_
    obtain ⟨i, hi⟩ := mem_entries.mp he
    exact hfound.none rfl i e hi
  | some i =>
    obtain ⟨e, he, hkey⟩ := hfound.some i rfl
    rw [Option.bind_some, he, FiniteMap.get?_eq_some (FiniteMap.distinct_perm h.perm m.distinct)]
    exact ⟨mem_entries.mpr ⟨i, he⟩, hkey⟩

theorem Refines.absent {key : K}
    (habsent : ∀ i e, t.entryAt i = some e → traits.equal e.1 key = false) :
    FiniteMap.get? traits.equal m.entries key = none := by
  refine FiniteMap.get?_eq_none.mpr fun e he => ?_
  obtain ⟨i, hi⟩ := mem_entries.mp (h.perm.mem_iff.mp he)
  exact habsent i e hi

theorem Refines.insertValue (key : K) (value : V) : ∃ t', t.insertValue traits key value =
    some ((Map.insertNew m key value).1, t') ∧ Refines traits t' (Map.insertNew m key value).2 := by
  obtain ⟨⟨s, t'⟩, heq, hres⟩ := insertValue_spec h.wellFormed key value
  cases hres with
  | @present i e he hkey =>
    have hget : FiniteMap.get? traits.equal m.entries key = some e :=
      (FiniteMap.get?_eq_some m.distinct).mpr ⟨h.perm.mem_iff.mpr (mem_entries.mpr ⟨i, he⟩), hkey⟩
    have hmap : Map.insertNew m key value = (.alreadyExists, m) := by
      rw [Map.insertNew, dif_neg (by simp [hget])]
    rw [hmap]
    exact ⟨t, heq, h⟩
  | full habsent hfull =>
    have hlen : m.entries.length = cap.size := by
      have hlive : t.entries.length = (List.finRange cap.size).length :=
        List.filterMap_length_eq_length.mpr fun i _ => (h.wellFormed.live i).mp (hfull i)
      rw [h.perm.length_eq, hlive, List.length_finRange]
    have hmap : Map.insertNew m key value = (.full, m) := by
      rw [Map.insertNew, dif_pos (h.absent habsent), dif_neg (by omega)]
    rw [hmap]
    exact ⟨t, heq, h⟩
  | @ok i habsent hi hchain =>
    obtain ⟨hwell, hperm⟩ := h.wellFormed.place habsent hi hchain
    have hroom : m.entries.length < cap.size := by
      have hle := length_entries_le (t := t.place i key value)
      rw [hperm.length_eq, List.length_cons, ← h.perm.length_eq] at hle
      omega
    have hmap : Map.insertNew m key value = (.ok, m.insert key value (h.absent habsent) hroom) := by
      rw [Map.insertNew, dif_pos (h.absent habsent), dif_pos hroom]
    rw [hmap]
    exact ⟨_, heq, hwell, (h.perm.cons _).trans hperm.symm⟩

theorem Refines.assign {key : K} {i : Fin cap.size} {e : K × V} (he : t.entryAt i = some e)
    (hkey : traits.equal e.1 key = true) (value : V) :
    ∃ t', t.assign i value = some t' ∧ Refines traits t' (m.assign key value) := by
  obtain ⟨t', heq, hwell, hperm⟩ := h.wellFormed.assign he
  obtain ⟨hsplit, hother⟩ := h.wellFormed.split he
  refine ⟨t', heq, hwell, ?_⟩
  have hmap := (h.perm.trans hsplit).map fun f => if traits.equal f.1 key then (f.1, value) else f
  refine hmap.trans (List.Perm.trans (List.Perm.of_eq ?_) hperm.symm)
  have hsame : ∀ f ∈ t.others i, (if traits.equal f.1 key = true then (f.1, value) else f) = f := by
    intro f hf
    rw [if_neg (by simp [hother key hkey f hf])]
  rw [List.map_cons, if_pos hkey, List.map_congr_left hsame, List.map_id']

theorem Refines.bury {key : K} {i : Fin cap.size} {e : K × V} (he : t.entryAt i = some e)
    (hkey : traits.equal e.1 key = true) : Refines traits (t.bury i) (m.erase key) := by
  obtain ⟨hwell, hperm⟩ := h.wellFormed.bury he
  obtain ⟨hsplit, hother⟩ := h.wellFormed.split he
  refine ⟨hwell, ?_⟩
  have hfilter := (h.perm.trans hsplit).filter fun f => !traits.equal f.1 key
  refine hfilter.trans (List.Perm.trans (List.Perm.of_eq ?_) hperm.symm)
  rw [List.filter_cons_of_neg (by simp [hkey]), List.filter_eq_self]
  intro f hf
  simp [hother key hkey f hf]

theorem Refines.clear : Refines traits t.clear (Map.empty : Map cap traits V) := by
  have hslot : ∀ i, t.clear.slot i = { state := .empty, entry := none } := by
    intro i
    show (t.slots.map clearSlot).get i = _
    rw [Table.get_map, clearSlot]
    congr 1
    split
    · rfl
    next hi => exact h.wellFormed.entry_none hi
  obtain ⟨hwell, hentries⟩ := wellFormed_of_empty hslot rfl
  exact ⟨hwell, by rw [hentries]; exact .refl _⟩

theorem apply_refines (op : Op K V) : ∃ t', t.apply traits op =
    some ((Map.step m op).1, t') ∧ Refines traits t' (Map.step m op).2 := by
  cases op with
  | insert key value =>
    obtain ⟨t', heq, href⟩ := h.insertValue key value
    exact ⟨t', by simp only [apply, insert, heq]; rfl, href⟩
  | emplace key value =>
    obtain ⟨p, hp, hget, hsome⟩ := h.get? key
    cases p with
    | none =>
      obtain ⟨t', heq, href⟩ := h.insertValue key value
      exact ⟨t', by simp only [apply, emplace, hp, Option.bind_eq_bind, Option.bind_some, heq]; rfl,
        href⟩
    | some i =>
      obtain ⟨e, he, -⟩ := hsome i rfl
      rw [Option.bind_some, he] at hget
      have hmap : Map.insertNew m key value = (.alreadyExists, m) := by
        rw [Map.insertNew, dif_neg (by simp [hget])]
      have hstep : Map.step m (.emplace key value) = (some .alreadyExists, m) := by
        rw [Map.step, hmap]
      rw [hstep]
      exact ⟨t, by simp [apply, emplace, hp], h⟩
  | insertOrAssign key value =>
    obtain ⟨p, hp, hget, hsome⟩ := h.get? key
    cases p with
    | none =>
      rw [Option.bind_none] at hget
      obtain ⟨t', heq, href⟩ := h.insertValue key value
      have hstep : Map.step m (.insertOrAssign key value) =
          (some (Map.insertNew m key value).1, (Map.insertNew m key value).2) := by
        rw [Map.step, if_pos hget]
      rw [hstep]
      exact ⟨t', by simp [apply, insertOrAssign, insert, hp, heq], href⟩
    | some i =>
      obtain ⟨e, he, hkey⟩ := hsome i rfl
      rw [Option.bind_some, he] at hget
      obtain ⟨t', heq, href⟩ := h.assign he hkey value
      have hstep : Map.step m (.insertOrAssign key value) = (some .ok, m.assign key value) := by
        rw [Map.step, if_neg (by simp [hget])]
      rw [hstep]
      exact ⟨t', by simp [apply, insertOrAssign, hp, heq], href⟩
  | erase key =>
    obtain ⟨p, hp, hget, hsome⟩ := h.get? key
    cases p with
    | none =>
      rw [Option.bind_none] at hget
      have hstep : Map.step m (.erase key) = (some .notFound, m) := by
        rw [Map.step, if_pos hget]
      rw [hstep]
      exact ⟨t, by simp [apply, erase, hp], h⟩
    | some i =>
      obtain ⟨e, he, hkey⟩ := hsome i rfl
      rw [Option.bind_some, he] at hget
      have hentry : (t.slot i).entry = some e := he
      have hstep : Map.step m (.erase key) = (some .ok, m.erase key) := by
        rw [Map.step, if_neg (by simp [hget])]
      rw [hstep]
      exact ⟨t.bury i, by simp [apply, erase, hp, hentry, bury], h.bury he hkey⟩
  | clear => exact ⟨t.clear, rfl, h.clear⟩

theorem run_refines (ops : List (Op K V)) :
    ∃ t', t.run traits ops = some ((Map.run m ops).1, t') ∧ Refines traits t' (Map.run m ops).2 := by
  induction ops generalizing t m with
  | nil => exact ⟨t, rfl, h⟩
  | cons op ops ih =>
    obtain ⟨t₁, happly, h₁⟩ := apply_refines h op
    obtain ⟨t', hrun, h'⟩ := ih h₁
    refine ⟨t', ?_, h'⟩
    rw [run, happly]
    simp only [Option.bind_eq_bind, Option.bind_some, hrun]
    rfl

end step

def entriesFrom (t : HashTable cap K V) (index : ℕ) : List (K × V) :=
  ((List.finRange cap.size).drop index).filterMap t.entryAt

theorem entriesFrom_cons {index : ℕ} (h : index < cap.size) :
    t.entriesFrom index = (t.entryAt ⟨index, h⟩).toList ++ t.entriesFrom (index + 1) := by
  unfold entriesFrom
  rw [List.drop_eq_getElem_cons (by simpa using h), List.getElem_finRange]
  cases hi : t.entryAt ⟨index, h⟩ <;> simp [hi]

theorem entriesFrom_end : t.entriesFrom cap.size = [] := by
  rw [entriesFrom, List.drop_of_length_le (by simp), List.filterMap_nil]

theorem skip_spec (h : WellFormed traits t) {fuel index : ℕ}
    (hi : index ≤ cap.size) (hf : cap.size ≤ index + fuel) : t.entriesFrom (t.skip fuel index) =
    t.entriesFrom index ∧ index ≤ t.skip fuel index ∧ t.skip fuel index ≤ cap.size ∧
    ∀ hlt : t.skip fuel index < cap.size, (t.slot ⟨t.skip fuel index, hlt⟩).state = .occupied := by
  induction fuel generalizing index with
  | zero => exact ⟨rfl, Nat.le_refl _, hi, fun hlt => by simp only [skip] at hlt; omega⟩
  | succ fuel ih =>
    unfold skip
    split
    next hlt =>
      split
      next hocc => exact ⟨rfl, Nat.le_refl _, hi, fun _ => hocc⟩
      next hocc =>
        obtain ⟨heq, hle, hmax, hnext⟩ := @ih (index + 1) hlt (by omega)
        refine ⟨?_, by omega, hmax, hnext⟩
        rw [heq, entriesFrom_cons hlt, h.entry_none hocc]
        rfl
    next hlt => exact ⟨rfl, Nat.le_refl _, hi, fun h => absurd h hlt⟩

theorem visit_spec (h : WellFormed traits t) {fuel index : ℕ} (hi : index ≤ cap.size)
    (hf : cap.size ≤ index + fuel)
    (hocc : ∀ hlt : index < cap.size, (t.slot ⟨index, hlt⟩).state = .occupied) :
    t.visit fuel index = some (t.entriesFrom index) := by
  induction fuel generalizing index with
  | zero =>
    obtain rfl : index = cap.size := by omega
    rw [visit, if_pos rfl, entriesFrom_end]
  | succ fuel ih =>
    unfold visit
    split
    next hlt =>
      obtain ⟨e, he⟩ := h.entry_some (hocc hlt)
      have hentry : (t.slot ⟨index, hlt⟩).entry = some e := he
      have hadv : t.advanceIndex index = t.skip cap.size (index + 1) := by
        rw [advanceIndex, if_neg (by omega)]
      obtain ⟨heq, hle, hmax, hnext⟩ := @skip_spec _ _ _ _ _ h cap.size _ hlt (by omega)
      rw [hentry, hadv, Option.bind_eq_bind, Option.bind_some, ih hmax (by omega) hnext, heq,
        entriesFrom_cons hlt, he]
      rfl
    next hlt =>
      obtain rfl : index = cap.size := by omega
      rw [if_pos rfl, entriesFrom_end]

theorem visitAll_eq (h : WellFormed traits t) : t.visitAll = some t.entries := by
  obtain ⟨heq, hle, hmax, hnext⟩ := @skip_spec _ _ _ _ _ h cap.size 0 (by omega) (by omega)
  unfold visitAll firstOccupied
  rw [visit_spec h hmax (by omega) hnext, heq]
  rfl

/-- `*it`; an iterator that points to no entry has no result. -/
def deref (t : HashTable cap K V) (p : Option (Fin cap.size)) : Option (Option (K × V)) :=
  match p with
  | none => some none
  | some i => do
    let e ← t.entryAt i
    some (some e)

structure Shows (traits : KeyTraits K) (t : HashTable cap K V) (m : Map cap traits V) : Prop where
  find : ∀ key, (t.find traits key).bind t.deref = some (FiniteMap.get? traits.equal m.entries key)
  contains : ∀ key,
    t.contains traits key = some (FiniteMap.get? traits.equal m.entries key).isSome
  get : ∀ key,
    t.get traits key = some ((FiniteMap.get? traits.equal m.entries key).map Prod.snd)
  /-- no key occupies two slots -/
  distinct : ∀ i j e f, (t.slot i).entry = some e → (t.slot j).entry = some f →
    traits.equal e.1 f.1 = true → i = j
  size : t.size = m.entries.length
  occupied : t.size = ((List.finRange cap.size).filter fun i =>
    (t.slot i).state = .occupied).length
  visit : ∃ visited, t.visitAll = some visited ∧ visited.Perm m.entries

theorem length_entries_eq (h : WellFormed traits t) : t.entries.length =
    ((List.finRange cap.size).filter fun i => (t.slot i).state = .occupied).length := by
  unfold entries
  generalize List.finRange cap.size = l
  induction l with
  | nil => rfl
  | cons i l ih =>
    by_cases hi : (t.slot i).state = .occupied
    · obtain ⟨e, he⟩ := h.entry_some hi
      simp [he, hi, ih]
    · simp [h.entry_none hi, hi, ih]

theorem Refines.shows {m : Map cap traits V} (h : Refines traits t m) : Shows traits t m where
  find key := by
    obtain ⟨p, hp, hget, hsome⟩ := h.get? key
    rw [find, hp, hget]
    cases p with
    | none => rfl
    | some i =>
      obtain ⟨e, he, -⟩ := hsome i rfl
      simp [deref, he]
  contains key := by
    obtain ⟨p, hp, hget, hsome⟩ := h.get? key
    rw [HashTable.contains, hp, hget]
    cases p with
    | none => rfl
    | some i =>
      obtain ⟨e, he, -⟩ := hsome i rfl
      simp [he]
  get key := by
    obtain ⟨p, hp, hget, hsome⟩ := h.get? key
    rw [HashTable.get, hp, hget]
    cases p with
    | none => rfl
    | some i =>
      obtain ⟨e, he, -⟩ := hsome i rfl
      have hentry : (t.slot i).entry = some e := he
      simp [he, hentry]
  distinct := h.wellFormed.distinct
  size := by rw [h.wellFormed.size_eq, h.perm.length_eq]
  occupied := by rw [h.wellFormed.size_eq, length_entries_eq h.wellFormed]
  visit := ⟨_, visitAll_eq h.wellFormed, h.perm.symm⟩

theorem refines_init : Refines traits (init : HashTable cap K V) Map.empty := by
  obtain ⟨hwell, hentries⟩ := wellFormed_of_empty (t := (init : HashTable cap K V))
    (fun i => Table.get_replicate _ i) rfl
  exact ⟨hwell, by rw [hentries]; exact .refl _⟩

/-- After any operations from an empty table. -/
theorem run_refines_finite_map (traits : KeyTraits K) (ops : List (Op K V)) :
    ∃ t, (init : HashTable cap K V).run traits ops =
        some ((Map.run (Map.empty : Map cap traits V) ops).1, t) ∧
      Shows traits t (Map.run (Map.empty : Map cap traits V) ops).2 := by
  obtain ⟨t, hrun, h⟩ := run_refines refines_init ops
  exact ⟨t, hrun, h.shows⟩

end Castle.Container.HashTable
