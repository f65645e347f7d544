import Mathlib.Data.List.Basic
import Mathlib.Data.List.Infix
import Mathlib.Algebra.Ring.Nat

/-!
# Texts cut at a symbol or at a mark

`cut` splits a text at the first occurrence of a symbol. `firstIndex` finds a mark of one
or more symbols, and `lines` splits a text at every occurrence of it. What was found stays
where it is when more symbols arrive.
-/

namespace Castle

variable {α : Type} [DecidableEq α]

/-- What stands before and behind the first `c`. -/
def cut (c : α) : List α → Option (List α × List α)
  | [] => none
  | x :: text =>
    if x = c then some ([], text) else (cut c text).map fun parts => (x :: parts.1, parts.2)

variable {c : α} {text a b : List α}

theorem cut_append (ha : c ∉ a) (b : List α) : cut c (a ++ c :: b) = some (a, b) := by
  induction a with
  | nil => simp [cut]
  | cons x a ih =>
    rw [List.mem_cons, not_or] at ha
    rw [List.cons_append, cut, if_neg (Ne.symm ha.1), ih ha.2]
    rfl

theorem cut_eq_none_iff : cut c text = none ↔ c ∉ text := by
  induction text with
  | nil => simp [cut]
  | cons x text ih =>
    rw [cut]
    by_cases hx : x = c
    · simp [hx]
    · rw [if_neg hx, Option.map_eq_none_iff, ih, List.mem_cons, not_or]
      exact ⟨fun h => ⟨Ne.symm hx, h⟩, fun h => h.2⟩

theorem cut_eq_some_iff : cut c text = some (a, b) ↔ text = a ++ c :: b ∧ c ∉ a := by
  constructor
  · intro h
    induction text generalizing a with
    | nil => cases h
    | cons x text ih =>
      rw [cut] at h
      split at h
      next hx =>
        cases h
        simp [hx]
      next hx =>
        obtain ⟨parts, hp, he⟩ := Option.map_eq_some_iff.mp h
        cases he
        have := ih hp
        rw [this.1]
        exact ⟨rfl, by simp [Ne.symm hx, this.2]⟩
  · intro h
    rw [h.1, cut_append h.2]

/-- Where the mark `m` stands first in a text. -/
def firstIndex (m : List α) : List α → Option ℕ
  | [] => none
  | x :: text =>
    if m.isPrefixOf (x :: text) then some 0 else (firstIndex m text).map (· + 1)

variable {m : List α} {i : ℕ}

theorem firstIndex_eq_some (h : firstIndex m text = some i) :
    m <+: text.drop i ∧ ∀ j < i, ¬m <+: text.drop j := by
  induction text generalizing i with
  | nil => cases h
  | cons x text ih =>
    rw [firstIndex] at h
    split at h
    next hm =>
      cases h
      exact ⟨List.isPrefixOf_iff_prefix.mp hm, fun j hj => absurd hj (Nat.not_lt_zero j)⟩
    next hm =>
      obtain ⟨k, hk, he⟩ := Option.map_eq_some_iff.mp h
      subst he
      refine ⟨(ih hk).1, ?_⟩
      intro j hj
      cases j with
      | zero => exact fun hp => hm (List.isPrefixOf_iff_prefix.mpr hp)
      | succ j => exact (ih hk).2 j (by omega)

theorem firstIndex_eq_none (h : firstIndex m text = none) (hm : m ≠ []) (j : ℕ) :
    ¬m <+: text.drop j := by
  induction text generalizing j with
  | nil =>
    rw [List.drop_nil]
    exact fun hp => hm (List.prefix_nil.mp hp)
  | cons x text ih =>
    rw [firstIndex] at h
    split at h
    · cases h
    next hp =>
      rw [Option.map_eq_none_iff] at h
      cases j with
      | zero => exact fun h' => hp (List.isPrefixOf_iff_prefix.mpr h')
      | succ j => exact ih h j

theorem firstIndex_of (hm : m ≠ []) (hi : m <+: text.drop i) (hj : ∀ j < i, ¬m <+: text.drop j) :
    firstIndex m text = some i := by
  cases h : firstIndex m text with
  | none => exact absurd hi (firstIndex_eq_none h hm i)
  | some k =>
    have hk := firstIndex_eq_some h
    rcases Nat.lt_trichotomy k i with hlt | heq | hgt
    · exact absurd hk.1 (hj k hlt)
    · rw [heq]
    · exact absurd hi (hk.2 i hgt)

/-- The text is what stands before the mark, the mark and what stands behind it. -/
theorem firstIndex_split (h : firstIndex m text = some i) :
    text = text.take i ++ m ++ text.drop (i + m.length) := by
  obtain ⟨rest, hr⟩ := (firstIndex_eq_some h).1
  rw [← List.drop_drop, ← hr, List.drop_left, List.append_assoc, hr, List.take_append_drop]

theorem firstIndex_le (h : firstIndex m text = some i) : i + m.length ≤ text.length := by
  have hp := (firstIndex_eq_some h).1.length_le
  rw [List.length_drop] at hp
  by_cases hm : m = []
  · subst hm
    by_contra hlt
    have hnil : text.length < i := by simpa using hlt
    exact (firstIndex_eq_some h).2 text.length hnil List.nil_prefix
  · have := List.length_pos_iff.mpr hm
    omega

theorem take_firstIndex (h : firstIndex m text = some i) :
    text.take (i + m.length) = text.take i ++ m := by
  have hle := firstIndex_le h
  have hlen : (text.take i ++ m).length = i + m.length := by
    rw [List.length_append, List.length_take]
    omega
  calc text.take (i + m.length)
      = (text.take i ++ m ++ text.drop (i + m.length)).take (text.take i ++ m).length := by
        rw [← firstIndex_split h, hlen]
    _ = text.take i ++ m := List.take_left

theorem firstIndex_append (hm : m ≠ []) (h : firstIndex m text = some i) (more : List α) :
    firstIndex m (text ++ more) = some i := by
  have hle := firstIndex_le h
  have hfound := firstIndex_eq_some h
  apply firstIndex_of hm
  · rw [List.drop_append_of_le_length (by omega)]
    exact hfound.1.trans (List.prefix_append _ more)
  · intro j hj hp
    rw [List.drop_append_of_le_length (by omega)] at hp
    apply hfound.2 j hj
    have hlen : m.length ≤ (text.drop j).length := by
      rw [List.length_drop]
      omega
    exact List.prefix_of_prefix_length_le hp (List.prefix_append _ more) hlen

/-- A mark of two symbols does not stand in a text without its first symbol. -/
theorem firstIndex_eq_none_of_not_mem {x : α} {rest : List α} (h : x ∉ text) :
    firstIndex (x :: rest) text = none := by
  cases hf : firstIndex (x :: rest) text with
  | none => rfl
  | some i =>
    have hp := (firstIndex_eq_some hf).1
    have hx : x ∈ text.drop i := hp.subset List.mem_cons_self
    exact absurd (List.mem_of_mem_drop hx) h

/-- A text without the first symbol of the mark pushes the mark back. -/
theorem firstIndex_not_mem_append {x : α} {rest : List α} (h : x ∉ a) (b : List α) :
    firstIndex (x :: rest) (a ++ b) = (firstIndex (x :: rest) b).map (a.length + ·) := by
  induction a with
  | nil => simp
  | cons y a ih =>
    rw [List.mem_cons, not_or] at h
    have hp : ¬(x :: rest).isPrefixOf (y :: (a ++ b)) := by
      intro hp
      exact h.1 (List.cons_prefix_cons.mp (List.isPrefixOf_iff_prefix.mp hp)).1
    rw [List.cons_append, firstIndex, if_neg hp, ih h.2, Option.map_map]
    congr 1
    funext n
    simp only [Function.comp, List.length_cons]
    omega

/-- Behind a text without the first symbol of the mark, the mark is found at once. -/
theorem firstIndex_at {x : α} {rest : List α} (h : x ∉ a) (b : List α) :
    firstIndex (x :: rest) (a ++ x :: rest ++ b) = some a.length := by
  have hp : (x :: rest).isPrefixOf (x :: (rest ++ b)) :=
    List.isPrefixOf_iff_prefix.mpr (List.prefix_append (x :: rest) b)
  rw [List.append_assoc, firstIndex_not_mem_append h, List.cons_append, firstIndex, if_pos hp]
  rfl

/-- The texts between the marks; a text behind the last mark counts when it is not empty. -/
def linesWith (m : List α) : ℕ → List α → List (List α)
  | 0, _ => []
  | fuel + 1, text =>
    if text = [] then []
    else
      match firstIndex m text with
      | none => [text]
      | some i => text.take i :: linesWith m fuel (text.drop (i + m.length))

def lines (m text : List α) : List (List α) := linesWith m text.length text

theorem linesWith_eq (hm : m ≠ []) {fuel : ℕ} (hf : text.length ≤ fuel) :
    linesWith m fuel text = lines m text := by
  induction hn : text.length using Nat.strongRecOn generalizing text fuel with
  | ind n ih =>
    have hpos := List.length_pos_iff.mpr hm
    cases text with
    | nil => cases fuel <;> rfl
    | cons x text =>
      have step : ∀ fuel, (x :: text).length ≤ fuel + 1 → linesWith m (fuel + 1) (x :: text) =
          match firstIndex m (x :: text) with
          | none => [x :: text]
          | some i => (x :: text).take i :: lines m ((x :: text).drop (i + m.length)) := by
        intro fuel hf
        rw [linesWith, if_neg (List.cons_ne_nil x text)]
        cases hi : firstIndex m (x :: text) with
        | none => rfl
        | some i =>
          have hlen : ((x :: text).drop (i + m.length)).length ≤ text.length := by
            rw [List.length_drop, List.length_cons]
            omega
          simp only
          rw [ih _ (by rw [← hn]; exact Nat.lt_succ_of_le hlen) (by rw [List.length_cons] at hf; omega) rfl]
      obtain ⟨k, hk⟩ : ∃ k, fuel = k + 1 := ⟨fuel - 1, by rw [List.length_cons] at hf; omega⟩
      rw [hk] at hf ⊢
      rw [step k hf, lines, List.length_cons, step text.length (Nat.le_refl _)]

theorem lines_nil : lines m [] = [] := rfl

theorem lines_eq (hm : m ≠ []) (ht : text ≠ []) :
    lines m text = match firstIndex m text with
      | none => [text]
      | some i => text.take i :: lines m (text.drop (i + m.length)) := by
  have hpos := List.length_pos_iff.mpr hm
  obtain ⟨x, tail, rfl⟩ := List.exists_cons_of_ne_nil ht
  rw [lines, List.length_cons, linesWith, if_neg ht]
  cases firstIndex m (x :: tail) with
  | none => rfl
  | some i =>
    simp only
    rw [linesWith_eq hm]
    rw [List.length_drop, List.length_cons]
    omega

theorem lines_last (hm : m ≠ []) (ht : text ≠ []) (h : firstIndex m text = none) :
    lines m text = [text] := by
  rw [lines_eq hm ht, h]

theorem lines_cons (hm : m ≠ []) (h : firstIndex m (a ++ m ++ b) = some a.length) :
    lines m (a ++ m ++ b) = a :: lines m b := by
  have ht : a ++ m ++ b ≠ [] := by simp [hm]
  rw [lines_eq hm ht, h]
  simp only
  rw [List.append_assoc, List.take_left, ← List.append_assoc, ← List.length_append, List.drop_left]

/-- A text that is not empty and does not end in a mark is its lines, up to the last mark. -/
theorem join_lines (hm : m ≠ []) (ht : text ≠ []) (he : ¬m <:+ text) :
    (lines m text).flatMap (· ++ m) = text ++ m := by
  induction hn : text.length using Nat.strongRecOn generalizing text with
  | ind n ih =>
    rw [lines_eq hm ht]
    cases hi : firstIndex m text with
    | none => simp
    | some i =>
      have hpos := List.length_pos_iff.mpr hm
      have hle := firstIndex_le hi
      have hsplit := firstIndex_split hi
      have hrest : text.drop (i + m.length) ≠ [] := by
        intro hnil
        rw [hnil, List.append_nil] at hsplit
        exact he ⟨_, hsplit.symm⟩
      have hend : ¬m <:+ text.drop (i + m.length) :=
        fun hs => he (hs.trans (List.drop_suffix _ text))
      have hlt : (text.drop (i + m.length)).length < n := by
        rw [List.length_drop]
        omega
      simp only [List.flatMap_cons]
      rw [ih _ hlt hrest hend rfl, ← List.append_assoc, ← hsplit]

theorem not_suffix_of_double (h : firstIndex (m ++ m) text = some i) (hm : m ≠ []) :
    ¬m <:+ text.take i := by
  rintro ⟨front, hf⟩
  have hfound := firstIndex_eq_some h
  have hpos := List.length_pos_iff.mpr hm
  have hsplit := firstIndex_split h
  have hlen : front.length < i := by
    have hl := congrArg List.length hf
    have hle := firstIndex_le h
    rw [List.length_append, List.length_take] at hl
    omega
  apply hfound.2 front.length hlen
  rw [hsplit, ← hf, List.append_assoc, List.append_assoc, List.drop_left]
  refine ⟨m ++ text.drop (i + (m ++ m).length), ?_⟩
  simp only [List.append_assoc]

/-! ## Joining lines

The mark is two different symbols here, and no line holds the first of them. -/

/-- The lines with the mark between them. -/
def joinLines (m : List α) : List (List α) → List α
  | [] => []
  | [line] => line
  | line :: next :: rest => line ++ m ++ joinLines m (next :: rest)

omit [DecidableEq α] in
theorem joinLines_append (m : List α) (ls : List (List α)) (hl : ls ≠ []) :
    joinLines m ls ++ m = ls.flatMap (· ++ m) := by
  induction ls with
  | nil => exact absurd rfl hl
  | cons line rest ih =>
    cases rest with
    | nil => simp [joinLines]
    | cons next rest =>
      rw [joinLines, List.append_assoc, ih (List.cons_ne_nil next rest)]
      rfl

section

variable {x y : α} {ls : List (List α)}

/-- Each line holds something, and not the first symbol of the mark. -/
def Plain (x : α) (line : List α) : Prop := line ≠ [] ∧ x ∉ line

theorem lines_joinLines (hp : ∀ line ∈ ls, Plain x line) : lines [x, y] (joinLines [x, y] ls) = ls := by
  have hm : [x, y] ≠ [] := List.cons_ne_nil x [y]
  induction ls with
  | nil => rfl
  | cons line rest ih =>
    have hline := hp line List.mem_cons_self
    cases rest with
    | nil => exact lines_last hm hline.1 (firstIndex_eq_none_of_not_mem hline.2)
    | cons next rest =>
      rw [joinLines, lines_cons hm (firstIndex_at hline.2 _),
        ih fun l hl => hp l (List.mem_cons_of_mem line hl)]

theorem firstIndex_joinLines (hxy : x ≠ y)
    (hl : ls ≠ []) (hp : ∀ line ∈ ls, Plain x line) (rest : List α) : firstIndex ([x, y] ++ [x, y])
    (joinLines [x, y] ls ++ ([x, y] ++ [x, y]) ++ rest) = some (joinLines [x, y] ls).length := by
  induction ls with
  | nil => exact absurd rfl hl
  | cons line others ih =>
    have hline := hp line List.mem_cons_self
    cases others with
    | nil => exact firstIndex_at hline.2 rest
    | cons next others =>
      have hnext := hp next (List.mem_cons_of_mem line List.mem_cons_self)
      obtain ⟨c, tail, hc⟩ := List.exists_cons_of_ne_nil
        (l := joinLines [x, y] (next :: others)) (by cases others <;> simp [joinLines, hnext.1])
      have hcx : c ≠ x := by
        intro h
        obtain ⟨d, next', hd⟩ := List.exists_cons_of_ne_nil hnext.1
        have hcd : c = d := by
          rw [hd] at hc
          cases others <;> (simp only [joinLines, List.cons_append] at hc; exact (List.cons.inj hc).1.symm)
        exact hnext.2 (by rw [hd, ← hcd, h]; exact List.mem_cons_self)
      have hih := ih (List.cons_ne_nil next others) fun l h => hp l (List.mem_cons_of_mem line h)
      rw [joinLines, List.append_assoc, List.append_assoc, List.append_assoc]
      rw [List.cons_append, firstIndex_not_mem_append hline.2, ← List.cons_append]
      have hskip : firstIndex ([x, y] ++ [x, y]) ([x, y] ++
            (joinLines [x, y] (next :: others) ++ (([x, y] ++ [x, y]) ++ rest))) =
          (firstIndex ([x, y] ++ [x, y])
            (joinLines [x, y] (next :: others) ++ (([x, y] ++ [x, y]) ++ rest))).map (2 + ·) := by
        rw [hc]
        simp [firstIndex, List.isPrefixOf, hxy, Ne.symm hcx, Option.map_map, Function.comp_def]
        congr 1
        funext n
        omega
      rw [hskip, ← List.append_assoc, hih]
      simp only [Option.map_some, List.length_append, List.length_cons, List.length_nil]
      congr 1
      omega

end

end Castle
