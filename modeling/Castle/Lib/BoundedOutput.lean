import Mathlib.Data.List.Basic

/-!
# Writing to an output of fixed capacity

A writer appends to an output or fails with an error. `Writes cap f text` says that `f` succeeds
exactly when there is a text to write and it fits, and that it then has appended this text.
-/

namespace Castle

theorem bind_eq_ok {ε α β : Type} {x : Except ε α} {f : α → Except ε β} {b : β} :
    (x >>= f) = .ok b ↔ ∃ a, x = .ok a ∧ f a = .ok b := by
  cases x with
  | error e => simp [bind, Except.bind]
  | ok a => simp [bind, Except.bind]

end Castle

namespace Castle.BoundedOutput

variable {ε α : Type} {cap : ℕ}

/-- `f` appends `text`, if it is there and fits. -/
def Writes (cap : ℕ) (f : List α → Except ε (List α)) (text : Option (List α)) : Prop :=
  ∀ out out' : List α, out.length ≤ cap →
    (f out = .ok out' ↔ ∃ t, text = some t ∧ out' = out ++ t ∧ out'.length ≤ cap)

/-- One text after the other. -/
def cat (t u : Option (List α)) : Option (List α) := t.bind fun t => u.map fun u => t ++ u

theorem cat_some (t u : List α) : cat (some t) (some u) = some (t ++ u) := rfl

theorem cat_eq_none_iff {t u : Option (List α)} : cat t u = none ↔ t = none ∨ u = none := by
  cases t <;> cases u <;> simp [cat]

theorem cat_eq_some {t u : Option (List α)} {s : List α} (h : cat t u = some s) :
    ∃ a b, t = some a ∧ u = some b ∧ s = a ++ b := by
  obtain ⟨a, rfl, hb⟩ := Option.bind_eq_some_iff.mp h
  obtain ⟨b, rfl, rfl⟩ := Option.map_eq_some_iff.mp hb
  exact ⟨a, b, rfl, rfl, rfl⟩

variable {f g : List α → Except ε (List α)} {t u : Option (List α)}

theorem Writes.nothing : Writes cap (fun out => (.ok out : Except ε (List α))) (some []) := by
  intro out out' h
  constructor
  · intro he
    cases he
    exact ⟨[], rfl, (List.append_nil _).symm, h⟩
  · rintro ⟨t, ht, rfl, -⟩
    cases ht
    rw [List.append_nil]

theorem Writes.fail (e : ε) : Writes cap (fun _ : List α => .error e) none := by
  intro out out' _
  constructor
  · intro he
    cases he
  · rintro ⟨t, ht, -⟩
    cases ht

/-- A writer that appends a text, unless a check says that it does not fit. -/
theorem Writes.chunk {t : List α} (e : ε) {p : List α → Prop} [DecidablePred p]
    (hp : ∀ out, p out ↔ cap - out.length < t.length) :
    Writes cap (fun out => if p out then .error e else .ok (out ++ t)) (some t) := by
  intro out out' hout
  dsimp only
  split
  next h =>
    rw [hp] at h
    constructor
    · intro he
      cases he
    · rintro ⟨u, hu, rfl, hlen⟩
      cases hu
      rw [List.length_append] at hlen
      omega
  next h =>
    rw [hp] at h
    constructor
    · intro he
      cases he
      refine ⟨t, rfl, rfl, ?_⟩
      rw [List.length_append]
      omega
    · rintro ⟨u, hu, rfl, -⟩
      cases hu
      rfl

theorem Writes.seq (hf : Writes cap f t) (hg : Writes cap g u) :
    Writes cap (fun out => f out >>= g) (cat t u) := by
  intro out out' h
  constructor
  · intro he
    dsimp only at he
    cases hfo : f out with
    | error e =>
      rw [hfo] at he
      cases he
    | ok mid =>
      rw [hfo] at he
      obtain ⟨t, rfl, rfl, hmid⟩ := (hf out mid h).mp hfo
      obtain ⟨u, rfl, rfl, hout⟩ := (hg _ out' hmid).mp he
      exact ⟨t ++ u, rfl, List.append_assoc .., hout⟩
  · rintro ⟨v, hv, rfl, hlen⟩
    obtain ⟨t, u, rfl, rfl, rfl⟩ := cat_eq_some hv
    rw [← List.append_assoc] at hlen ⊢
    have hmid : (out ++ t).length ≤ cap := by
      rw [List.length_append] at hlen
      omega
    show (f out >>= g) = _
    rw [(hf out _ h).mpr ⟨t, rfl, rfl, hmid⟩]
    exact (hg _ _ hmid).mpr ⟨u, rfl, rfl, hlen⟩

theorem Writes.congr {ε' : Type} {g : List α → Except ε' (List α)} (hf : Writes cap f t)
    (hg : ∀ out out', g out = .ok out' ↔ f out = .ok out') : Writes cap g t :=
  fun out out' h => (hg out out').trans (hf out out' h)

theorem Writes.run (hf : Writes cap f t) (out' : List α) :
    f [] = .ok out' ↔ t = some out' ∧ out'.length ≤ cap := by
  rw [hf [] out' (Nat.zero_le _)]
  constructor
  · rintro ⟨t, rfl, rfl, hlen⟩
    exact ⟨rfl, hlen⟩
  · rintro ⟨rfl, hlen⟩
    exact ⟨out', rfl, rfl, hlen⟩

end Castle.BoundedOutput
