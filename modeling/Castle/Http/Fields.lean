import Castle.Http.Types

/-!
# Looking up, replacing and removing fields (`headers.hpp`)
-/

namespace Castle.Http

def Field.named (name : Bytes) (field : Field) : Bool := asciiIequal field.name name

namespace Headers

def contains (headers : Headers) (name : Bytes) : Bool := headers.any (Field.named name)

/-- The value of the first field of that name, empty when there is none. -/
def get (headers : Headers) (name : Bytes) : Bytes :=
  ((headers.find? (Field.named name)).map Field.value).getD []

/-- The loop of `set`, when there is a field of that name. -/
def replaceFirst (name value : Bytes) : Headers → Headers
  | [] => []
  | field :: headers =>
    if field.named name then ⟨name, value⟩ :: headers
    else field :: replaceFirst name value headers

def set (cap : HeadersCapacity) (headers : Headers) (name value : Bytes) : Status × Headers :=
  if !validName name || !validValue value then (.invalidArgument, headers)
  else if name.length > cap.maxNameSize || value.length > cap.maxValueSize then
    (.outOfRange, headers)
  else if contains headers name then (.ok, replaceFirst name value headers)
  else add cap headers name value

def remove (headers : Headers) (name : Bytes) : Bool × Headers :=
  (contains headers name, headers.eraseP (Field.named name))

def count (headers : Headers) (name : Bytes) : ℕ := headers.countP (Field.named name)

end Headers

theorem asciiIequal_refl (name : Bytes) : asciiIequal name name = true := by
  simp [asciiIequal]

theorem asciiIequal_comm (name other : Bytes) : asciiIequal name other = asciiIequal other name := by
  simp only [asciiIequal, eq_comm]

theorem asciiIequal_trans {a b c : Bytes} (hab : asciiIequal a b = true)
    (hbc : asciiIequal b c = true) : asciiIequal a c = true := by
  simp only [asciiIequal, decide_eq_true_eq] at *
  exact hab.trans hbc

theorem Field.named_congr {a b : Bytes} (h : asciiIequal a b = true) (field : Field) :
    field.named a = field.named b := by
  simp only [asciiIequal, decide_eq_true_eq] at h
  simp only [Field.named, asciiIequal, h]

theorem Field.named_other {a b : Bytes} (hab : asciiIequal a b = false) {field : Field}
    (h : field.named a = true) : field.named b = false := by
  apply Bool.eq_false_iff.mpr
  intro hb
  rw [Field.named, asciiIequal_comm] at h
  have hba := asciiIequal_trans h hb
  rw [hab] at hba
  exact Bool.noConfusion hba

namespace Headers

variable {cap : HeadersCapacity} {headers : Headers} {name other value : Bytes}

theorem contains_eq_false_iff : contains headers name = false ↔ count headers name = 0 := by
  rw [contains, count, List.countP_eq_zero, List.any_eq_false]

theorem contains_iff : contains headers name = true ↔ 0 < count headers name := by
  rw [contains, count, List.countP_pos_iff, List.any_eq_true]

theorem replaceFirst_cons (field : Field) : replaceFirst name value (field :: headers) =
    if field.named name then ⟨name, value⟩ :: headers else field :: replaceFirst name value headers :=
  rfl

theorem count_replaceFirst : count (replaceFirst name value headers) other = count headers other := by
  induction headers with
  | nil => rfl
  | cons field headers ih =>
    rw [replaceFirst_cons]
    split
    next hf =>
      have hname : field.named other = (⟨name, value⟩ : Field).named other := by
        simp only [Field.named]
        simp only [Field.named, asciiIequal, decide_eq_true_eq] at hf
        simp only [asciiIequal, hf]
      simp only [count, List.countP_cons, hname]
    next hf =>
      simp only [count, List.countP_cons] at ih ⊢
      rw [ih]

theorem length_replaceFirst : (replaceFirst name value headers).length = headers.length := by
  induction headers with
  | nil => rfl
  | cons field headers ih =>
    rw [replaceFirst_cons]
    split
    · rfl
    · rw [List.length_cons, List.length_cons, ih]

theorem mem_replaceFirst {field : Field} (h : field ∈ replaceFirst name value headers) :
    field = ⟨name, value⟩ ∨ field ∈ headers := by
  induction headers with
  | nil => cases h
  | cons first headers ih =>
    rw [replaceFirst_cons] at h
    split at h
    · rw [List.mem_cons] at h
      exact h.imp_right (List.mem_cons_of_mem first)
    · rw [List.mem_cons] at h
      apply h.elim
      · intro hf
        exact Or.inr (hf ▸ List.mem_cons_self)
      · intro hf
        exact (ih hf).imp_right (List.mem_cons_of_mem first)

theorem value_of_replaceFirst (hc : count headers name = 1) {field : Field}
    (h : field ∈ replaceFirst name value headers) (hn : field.named name = true) :
    field = ⟨name, value⟩ := by
  induction headers with
  | nil => cases h
  | cons first headers ih =>
    rw [replaceFirst_cons] at h
    simp only [count, List.countP_cons] at hc
    split at h
    next hf =>
      simp only [hf, if_true] at hc
      rw [List.mem_cons] at h
      apply h.resolve_right
      intro hm
      have := List.countP_pos_iff.mpr ⟨field, hm, hn⟩
      omega
    next hf =>
      simp only [hf] at hc
      rw [List.mem_cons] at h
      apply h.elim
      · intro he
        rw [← he] at hf
        exact absurd hn hf
      · intro hm
        exact ih hc hm

theorem count_eraseP (hother : asciiIequal name other = false) :
    count (headers.eraseP (Field.named name)) other = count headers other := by
  induction headers with
  | nil => rfl
  | cons field headers ih =>
    rw [List.eraseP_cons]
    cases hf : field.named name with
    | true =>
      have := Field.named_other hother hf
      simp only [cond_true, count, List.countP_cons, this]
      rfl
    | false =>
      simp only [cond_false, count, List.countP_cons] at ih ⊢
      rw [ih]

theorem count_eraseP_self :
    count (headers.eraseP (Field.named name)) name = count headers name - 1 := by
  induction headers with
  | nil => rfl
  | cons field headers ih =>
    rw [List.eraseP_cons]
    cases hf : field.named name with
    | true => simp [count, hf]
    | false =>
      simp only [cond_false, count, List.countP_cons, hf] at ih ⊢
      rw [ih]
      simp

theorem length_eraseP : (headers.eraseP (Field.named name)).length =
    headers.length - if contains headers name then 1 else 0 := by
  rw [List.length_eraseP, contains]
  split <;> simp

end Headers

/-- A field that `add` or `set` accepted. -/
structure StoredField (cap : HeadersCapacity) (field : Field) : Prop where
  name : validName field.name = true
  value : validValue field.value = true
  nameSize : field.name.length ≤ cap.maxNameSize
  valueSize : field.value.length ≤ cap.maxValueSize

/-- What every collection keeps to, whatever is called on it. -/
structure Headers.Stored (cap : HeadersCapacity) (headers : Headers) : Prop where
  size : headers.length ≤ cap.maxHeaders
  fields : ∀ field ∈ headers, StoredField cap field

namespace Headers

variable {cap : HeadersCapacity} {headers : Headers} {name other value : Bytes}

theorem Stored.nil : Stored cap [] := ⟨Nat.zero_le _, fun _ h => absurd h List.not_mem_nil⟩

/-- Name and value have room in a field. -/
def Fits (cap : HeadersCapacity) (name value : Bytes) : Prop :=
  name.length ≤ cap.maxNameSize ∧ value.length ≤ cap.maxValueSize

instance (name value : Bytes) : Decidable (Fits cap name value) := instDecidableAnd

theorem overlong_iff : (name.length > cap.maxNameSize || value.length > cap.maxValueSize) = true ↔
    ¬Fits cap name value := by
  simp only [Bool.or_eq_true, decide_eq_true_eq, Fits]
  omega

theorem add_eq (hn : validName name = true) (hv : validValue value = true) : add
    cap headers name value = if headers.length = cap.maxHeaders then (.full, headers) else if Fits
    cap name value then (.ok, headers ++ [⟨name, value⟩]) else (.outOfRange, headers) := by
  rw [add, hn, hv]
  simp only [overlong_iff, ite_not]
  rfl

theorem set_eq (hn : validName name = true) (hv : validValue value = true) :
    set cap headers name value = if Fits cap name value then if contains
    headers name then (.ok, replaceFirst name value headers) else if headers.length = cap.maxHeaders
    then (.full, headers) else (.ok, headers ++ [⟨name, value⟩]) else (.outOfRange, headers) := by
  rw [set, add_eq hn hv, hn, hv]
  simp only [overlong_iff, ite_not]
  by_cases hf : Fits cap name value <;> simp [hf]

theorem add_invalid (h : ¬(validName name = true ∧ validValue value = true)) :
    (add cap headers name value).2 = headers := by
  rw [add, if_pos]
  simpa [Bool.and_eq_true, ← Bool.not_and] using h

theorem set_invalid (h : ¬(validName name = true ∧ validValue value = true)) :
    (set cap headers name value).2 = headers := by
  rw [set, if_pos]
  simpa [Bool.and_eq_true, ← Bool.not_and] using h

section

variable (h : Stored cap headers)
include h

theorem Stored.append (hn : validName name = true)
    (hv : validValue value = true) (hf : Fits cap name value) (hl : headers.length ≠ cap.maxHeaders) :
    Stored cap (headers ++ [⟨name, value⟩]) := by
  constructor
  · have := h.size
    rw [List.length_append, List.length_singleton]
    omega
  · intro field hm
    rw [List.mem_append, List.mem_singleton] at hm
    apply hm.elim (h.fields field)
    intro he
    rw [he]
    exact ⟨hn, hv, hf.1, hf.2⟩

theorem Stored.add : Stored cap (add cap headers name value).2 := by
  by_cases hok : validName name = true ∧ validValue value = true
  · rw [add_eq hok.1 hok.2]
    split
    · exact h
    next hl =>
      split
      next hf => exact h.append hok.1 hok.2 hf hl
      · exact h
  · rw [add_invalid hok]
    exact h

theorem Stored.set : Stored cap (set cap headers name value).2 := by
  by_cases hok : validName name = true ∧ validValue value = true
  · rw [set_eq hok.1 hok.2]
    split
    next hf =>
      split
      · constructor
        · rw [length_replaceFirst]
          exact h.size
        · intro field hm
          apply (mem_replaceFirst hm).elim
          · intro he
            rw [he]
            exact ⟨hok.1, hok.2, hf.1, hf.2⟩
          · exact h.fields field
      · split
        · exact h
        next hl => exact h.append hok.1 hok.2 hf hl
    · exact h
  · rw [set_invalid hok]
    exact h

theorem Stored.eraseP (p : Field → Bool) : Stored cap (headers.eraseP p) := by
  constructor
  · exact Nat.le_trans List.eraseP_sublist.length_le h.size
  · exact fun field hm => h.fields field (List.mem_of_mem_eraseP hm)

end

theorem mem_set {field : Field} (h : field ∈ (set cap headers name value).2) :
    field = ⟨name, value⟩ ∨ field ∈ headers := by
  by_cases hok : validName name = true ∧ validValue value = true
  · rw [set_eq hok.1 hok.2] at h
    split at h
    · split at h
      · exact mem_replaceFirst h
      · split at h
        · exact Or.inr h
        · rw [List.mem_append, List.mem_singleton] at h
          exact h.symm
    · exact Or.inr h
  · rw [set_invalid hok] at h
    exact Or.inr h

theorem count_set (hother : asciiIequal name other = false) :
    count (set cap headers name value).2 other = count headers other := by
  have hnew : (⟨name, value⟩ : Field).named other = false := hother
  by_cases hok : validName name = true ∧ validValue value = true
  · rw [set_eq hok.1 hok.2]
    split
    · split
      · exact count_replaceFirst
      · split
        · rfl
        · simp [count, List.countP_append, hnew]
    · rfl
  · rw [set_invalid hok]

theorem count_set_self (h : (set cap headers name value).1 = .ok) :
    count (set cap headers name value).2 name = max 1 (count headers name) := by
  have hnew : (⟨name, value⟩ : Field).named name = true := asciiIequal_refl name
  by_cases hok : validName name = true ∧ validValue value = true
  · rw [set_eq hok.1 hok.2] at h ⊢
    split at h
    next hf =>
      rw [if_pos hf]
      split at h
      next hc =>
        rw [if_pos hc]
        have := contains_iff.mp hc
        simp only [count_replaceFirst]
        omega
      next hc =>
        rw [if_neg hc]
        have := contains_eq_false_iff.mp (Bool.eq_false_iff.mpr hc)
        split at h
        · cases h
        next hl =>
          rw [if_neg hl]
          simp only [count, List.countP_append] at this ⊢
          simp [this, hnew]
    · cases h
  · rw [set, if_pos] at h
    · cases h
    · simpa [Bool.and_eq_true, ← Bool.not_and] using hok

theorem value_of_set (h : (set cap headers name value).1 = .ok) (hc : count headers name ≤ 1)
    {field : Field} (hm : field ∈ (set cap headers name value).2) (hn : field.named name = true) :
    field = ⟨name, value⟩ := by
  by_cases hok : validName name = true ∧ validValue value = true
  · rw [set_eq hok.1 hok.2] at h hm
    split at h
    next hf =>
      rw [if_pos hf] at hm
      split at h
      next hcon =>
        rw [if_pos hcon] at hm
        have := contains_iff.mp hcon
        exact value_of_replaceFirst (by omega) hm hn
      next hcon =>
        rw [if_neg hcon] at hm
        split at h
        · cases h
        next hl =>
          rw [if_neg hl] at hm
          simp only [List.mem_append, List.mem_singleton] at hm
          apply hm.resolve_left
          intro hin
          exact hcon (List.any_eq_true.mpr ⟨field, hin, hn⟩)
    · cases h
  · rw [set, if_pos] at h
    · cases h
    · simpa [Bool.and_eq_true, ← Bool.not_and] using hok

theorem set_ok_iff (hn : validName name = true) (hv : validValue value = true) :
    (set cap headers name value).1 = .ok ↔
      Fits cap name value ∧ (0 < count headers name ∨ headers.length ≠ cap.maxHeaders) := by
  rw [set_eq hn hv, ← contains_iff]
  by_cases hf : Fits cap name value
  · by_cases hc : contains headers name = true
    · simp [hf, hc]
    · by_cases hl : headers.length = cap.maxHeaders <;> simp [hf, hc, hl]
  · simp [hf]

theorem length_set (hn : validName name = true) (hv : validValue value = true) :
    (set cap headers name value).2.length = headers.length +
      if Fits cap name value ∧ count headers name = 0 ∧ headers.length ≠ cap.maxHeaders then 1 else 0 := by
  rw [set_eq hn hv]
  by_cases hf : Fits cap name value
  · cases hc : contains headers name with
    | true =>
      have := contains_iff.mp hc
      simp [hf, length_replaceFirst, Nat.ne_of_gt this]
    | false =>
      have := contains_eq_false_iff.mp hc
      by_cases hl : headers.length = cap.maxHeaders <;> simp [hf, hl, this]
  · simp [hf]

theorem mem_replaceFirst_of_other {field : Field} (h : field ∈ headers) (hn : field.named name = false) :
    field ∈ replaceFirst name value headers := by
  induction headers with
  | nil => cases h
  | cons first headers ih =>
    rw [replaceFirst_cons]
    rw [List.mem_cons] at h
    split
    next hf =>
      apply List.mem_cons_of_mem
      apply h.resolve_left
      intro he
      rw [← he, hn] at hf
      exact Bool.noConfusion hf
    · apply h.elim
      · intro he
        rw [he]
        exact List.mem_cons_self
      · exact fun hm => List.mem_cons_of_mem first (ih hm)

theorem mem_set_of_other {field : Field} (h : field ∈ headers) (hn : field.named name = false) :
    field ∈ (set cap headers name value).2 := by
  by_cases hok : validName name = true ∧ validValue value = true
  · rw [set_eq hok.1 hok.2]
    split
    · split
      · exact mem_replaceFirst_of_other h hn
      · split
        · exact h
        · exact List.mem_append_left _ h
    · exact h
  · rw [set_invalid hok]
    exact h

end Headers

end Castle.Http
