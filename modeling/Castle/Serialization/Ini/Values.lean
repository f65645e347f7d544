import Castle.Lib.BoundedOutput
import Castle.Serialization.Ini.Parser
import Castle.Serialization.Json.Render

/-!
# Values as they are written

A value that begins with an apostrophe and needs no quotes is written without them, and read as
a value between apostrophes. Every other value is read again as it was.
-/

namespace Castle.Serialization.Ini

open BoundedOutput
open Json (pushBack_writes appendView_writes)

/-- A text that `trim` leaves as it is. -/
structure Trimmed (text : Bytes) : Prop where
  nonempty : text ≠ []
  first : ∀ c ∈ text.head?, isSpace c = false
  last : ∀ c ∈ text.getLast?, isSpace c = false ∧ isLineEnd c = false

variable {text : Bytes}

theorem rdropWhile_of_last {p : UInt8 → Bool} (h : ∀ c ∈ text.getLast?, p c = false) :
    text.rdropWhile p = text := by
  rw [List.rdropWhile_eq_self_iff]
  intro hne
  rw [Bool.not_eq_true]
  exact h _ (List.getLast?_eq_some_getLast hne)

theorem dropWhile_of_first {p : UInt8 → Bool} (h : ∀ c ∈ text.head?, p c = false) :
    text.dropWhile p = text := by
  cases text with
  | nil => rfl
  | cons c text => rw [List.dropWhile_cons, h c rfl, if_neg Bool.false_ne_true]

theorem Trimmed.trim_eq (h : Trimmed text) : trim text = text := by
  rw [trim, dropWhile_of_first h.first, rdropWhile_of_last fun c hc => (h.last c hc).1,
    rdropWhile_of_last fun c hc => (h.last c hc).2]

theorem Trimmed.trim_cons (h : Trimmed text) : trim (space :: text) = text := by
  rw [trim, List.dropWhile_cons, if_pos (by decide)]
  exact h.trim_eq

theorem Trimmed.trim_concat (h : Trimmed text) : trim (text ++ [space]) = text := by
  have hfirst : ∀ c ∈ (text ++ [space]).head?, isSpace c = false := by
    intro c hc
    rw [List.head?_append_of_ne_nil _ h.nonempty] at hc
    exact h.first c hc
  rw [trim, dropWhile_of_first hfirst, List.rdropWhile_concat_pos _ _ _ (by decide),
    rdropWhile_of_last fun c hc => (h.last c hc).1, rdropWhile_of_last fun c hc => (h.last c hc).2]

theorem trimmed_trim (hline : ∀ c ∈ text, isLineEnd c = false) (hne : trim text ≠ []) :
    Trimmed (trim text) := by
  have hsub : ∀ c ∈ (text.dropWhile isSpace).rdropWhile isSpace, isLineEnd c = false := fun c hc =>
    hline c ((List.dropWhile_sublist _).subset ((List.rdropWhile_prefix _ _).subset hc))
  have htrim : trim text = (text.dropWhile isSpace).rdropWhile isSpace :=
    rdropWhile_of_last fun c hc => hsub c (List.mem_of_getLast? hc)
  rw [htrim] at hne ⊢
  refine ⟨hne, fun c hc => ?_, fun c hc => ⟨?_, hsub c (List.mem_of_getLast? hc)⟩⟩
  · have hfront : (text.dropWhile isSpace).head? = some c := by
      obtain ⟨more, hmore⟩ := List.rdropWhile_prefix isSpace (text.dropWhile isSpace)
      rw [← hmore, List.head?_append_of_ne_nil _ hne]
      exact hc
    have hnot := List.head?_dropWhile_not isSpace text
    rw [hfront] at hnot
    exact hnot
  · have hlast := List.rdropWhile_last_not isSpace _ hne
    rw [List.getLast?_eq_some_getLast hne] at hc
    cases hc
    exact Bool.not_eq_true _ ▸ hlast

def escaped (value : Bytes) : Bytes := value.flatMap escapeChar

def valueText (value : Bytes) :
    Bytes := if needsQuotes value then quote :: (escaped value ++ [quote]) else value

theorem appendChars_quoted (maxOutput : ℕ) (value : Bytes) :
    Writes maxOutput (appendChars maxOutput true value) (some (escaped value)) := by
  induction value with
  | nil => exact .nothing
  | cons c value ih =>
    show Writes maxOutput (fun output => appendChars maxOutput true (c :: value) output) _
    simp only [appendChars, Bool.true_and, escaped, List.flatMap_cons]
    by_cases hc : escapeChar c = [c]
    · simp only [hc, ne_eq, not_true_eq_false, decide_false, Bool.false_eq_true, if_false]
      exact (pushBack_writes maxOutput c).seq ih
    · simp only [hc, ne_eq, not_false_eq_true, decide_true, if_true]
      exact (appendView_writes maxOutput (escapeChar c)).seq ih

theorem appendChars_plain (maxOutput : ℕ) (value : Bytes) :
    Writes maxOutput (appendChars maxOutput false value) (some value) := by
  induction value with
  | nil => exact .nothing
  | cons c value ih => exact (pushBack_writes maxOutput c).seq ih

theorem appendEscapedValue_writes (maxOutput : ℕ) (value : Bytes) :
    Writes maxOutput (appendEscapedValue maxOutput value) (some (valueText value)) := by
  show Writes maxOutput (fun output => appendEscapedValue maxOutput value output) _
  simp only [appendEscapedValue, valueText]
  cases needsQuotes value with
  | false =>
    have h := Writes.nothing.seq ((appendChars_plain maxOutput value).seq (Writes.nothing (ε := Status)))
    rw [cat_some, cat_some, List.nil_append, List.append_nil] at h
    exact h
  | true =>
    exact (pushBack_writes maxOutput quote).seq
      ((appendChars_quoted maxOutput value).seq (pushBack_writes maxOutput quote))

/-- A value that begins with an apostrophe and is written without quotes. -/
def Misread (value : Bytes) : Prop := value.head? = some apostrophe ∧ needsQuotes value = false

instance (value : Bytes) : Decidable (Misread value) := inferInstanceAs (Decidable (_ ∧ _))

theorem isSpecial_of {value : Bytes} (h : needsQuotes value = false) :
    ∀ c ∈ value, isSpecial c = false := by
  rw [needsQuotes, Bool.or_eq_false_iff] at h
  exact fun c hc => by simpa using List.any_eq_false.mp h.2 c hc

theorem nonempty_of {value : Bytes} (h : needsQuotes value = false) : value ≠ [] := by
  rintro rfl
  cases h

theorem of_not_special {c : UInt8} (h : isSpecial c = false) :
    isSpace c = false ∧ isLineEnd c = false ∧ c ≠ quote ∧ c ≠ backslash := by
  simp only [isSpecial, Bool.or_eq_false_iff, decide_eq_false_iff_not] at h
  exact ⟨h.1.1.1.1.1.1.1.1.1.1, h.1.2, h.1.1.1.2, h.1.1.2⟩

theorem trimmed_valueText (value : Bytes) : Trimmed (valueText value) := by
  rw [valueText]
  split
  · refine ⟨List.cons_ne_nil _ _, ?_, ?_⟩
    · rintro c ⟨⟩
      decide
    · intro c hc
      rw [← List.cons_append, List.getLast?_concat] at hc
      cases hc
      decide
  next hplain =>
    rw [Bool.not_eq_true] at hplain
    have hspecial := fun c hc => of_not_special (isSpecial_of hplain c hc)
    exact ⟨nonempty_of hplain, fun c hc => (hspecial c (List.mem_of_mem_head? hc)).1, fun c hc =>
      ⟨(hspecial c (List.mem_of_getLast? hc)).1, (hspecial c (List.mem_of_getLast? hc)).2.1⟩⟩

variable {maxValueLength : ℕ}

theorem decodePlain_eq (line column i : ℕ) {value output : Bytes}
    (hline : ∀ c ∈ value, isLineEnd c = false)
    (hroom : output.length + value.length ≤ maxValueLength) :
    decodePlain maxValueLength line column i value output = .ok (output ++ value) := by
  induction value generalizing i output with
  | nil => rw [decodePlain, List.append_nil]
  | cons c value ih =>
    rw [List.length_cons] at hroom
    rw [decodePlain, hline c List.mem_cons_self, if_neg Bool.false_ne_true, if_neg (by omega),
      ih (i + 1) (fun b hb => hline b (List.mem_cons_of_mem _ hb)) (by
        rw [List.length_append, List.length_singleton]
        omega), List.append_assoc]
    rfl

theorem decodeQuoted_char (line column i : ℕ) (c : UInt8) {raw output : Bytes}
    (hroom : output.length < maxValueLength) : ∃ i',
    decodeQuoted maxValueLength line column quote i (escapeChar c ++ raw) output =
      decodeQuoted maxValueLength line column quote i' raw (output ++ [c]) := by
  by_cases hescape : ∃ letter, escapeChar c = [backslash, letter] ∧ decodeEscape letter = some c
  · obtain ⟨letter, htext, hletter⟩ := hescape
    refine ⟨i + 2, ?_⟩
    rw [htext, List.cons_append, List.cons_append, List.nil_append, decodeQuoted, if_pos rfl, hletter]
    dsimp only
    rw [if_neg (Nat.ne_of_lt hroom)]
  · have hplain : escapeChar c = [c] ∧ c ≠ backslash ∧ c ≠ quote := by
      rw [escapeChar] at hescape ⊢
      split_ifs at hescape ⊢ with h₁ h₂ h₃ h₄ h₅
      · exact absurd ⟨quote, rfl, by rw [h₁]; decide⟩ hescape
      · exact absurd ⟨backslash, rfl, by rw [h₂]; decide⟩ hescape
      · exact absurd ⟨0x6e, rfl, by rw [h₃]; decide⟩ hescape
      · exact absurd ⟨0x72, rfl, by rw [h₄]; decide⟩ hescape
      · exact absurd ⟨0x74, rfl, by rw [h₅]; decide⟩ hescape
      · exact ⟨rfl, h₂, h₁⟩
    refine ⟨i + 1, ?_⟩
    rw [hplain.1, List.singleton_append, decodeQuoted.eq_def]
    dsimp only
    rw [if_neg hplain.2.1, if_neg hplain.2.2, if_neg (Nat.ne_of_lt hroom)]

theorem decodeQuoted_escaped (line column i : ℕ) {value output : Bytes}
    (hroom : output.length + value.length ≤ maxValueLength) :
    decodeQuoted maxValueLength line column quote i (escaped value) output = .ok (output ++ value) := by
  induction value generalizing i output with
  | nil =>
    rw [List.append_nil]
    rfl
  | cons c value ih =>
    rw [List.length_cons] at hroom
    obtain ⟨i', hchar⟩ := @decodeQuoted_char maxValueLength line column i c (escaped value) output (by omega)
    rw [escaped, List.flatMap_cons, ← escaped, hchar, ih i' (by
      rw [List.length_append, List.length_singleton]
      omega), List.append_assoc]
    rfl

theorem decodeQuoted_plain (line column i : ℕ) {delimiter : UInt8} {raw output value : Bytes}
    (hraw : ∀ c ∈ raw, c ≠ backslash) (hroom : output.length + raw.length ≤ maxValueLength) :
    decodeQuoted maxValueLength line column delimiter i raw output = .ok value ↔
      delimiter ∉ raw ∧ output ++ raw = value := by
  induction raw generalizing i output with
  | nil => rw [decodeQuoted, Except.ok.injEq, List.append_nil, and_iff_right List.not_mem_nil]
  | cons c raw ih =>
    rw [List.length_cons] at hroom
    rw [decodeQuoted.eq_def]
    dsimp only
    rw [if_neg (hraw c List.mem_cons_self), List.mem_cons, not_or]
    split_ifs with hdelimiter hfull
    · exact iff_of_false (fun h => nomatch h) fun h => h.1.1 hdelimiter.symm
    · omega
    · rw [ih (i + 1) (fun b hb => hraw b (List.mem_cons_of_mem _ hb)) (by
        rw [List.length_append, List.length_singleton]
        omega), List.append_assoc, List.singleton_append, and_iff_right (Ne.symm hdelimiter)]

theorem decodePlain_fits {line column i : ℕ} {raw output value : Bytes}
    (hroom : output.length ≤ maxValueLength)
    (h : decodePlain maxValueLength line column i raw output = .ok value) :
    value.length ≤ maxValueLength := by
  induction raw generalizing i output with
  | nil =>
    cases h
    exact hroom
  | cons c raw ih =>
    rw [decodePlain] at h
    split_ifs at h with hline hfull
    refine ih ?_ h
    rw [List.length_append, List.length_singleton]
    omega

theorem decodeQuoted_fits {line column i : ℕ} {delimiter : UInt8} {raw output value : Bytes}
    (hroom : output.length ≤ maxValueLength)
    (h : decodeQuoted maxValueLength line column delimiter i raw output = .ok value) :
    value.length ≤ maxValueLength := by
  induction hn : raw.length using Nat.strongRecOn generalizing i raw output with
  | ind n ih =>
    cases raw with
    | nil =>
      cases h
      exact hroom
    | cons c raw =>
      rw [List.length_cons] at hn
      rw [decodeQuoted.eq_def] at h
      dsimp only at h
      split at h
      · cases raw with
        | nil => cases h
        | cons letter raw =>
          dsimp only at h
          rw [List.length_cons] at hn
          split at h
          · cases h
          · split at h
            · cases h
            · refine ih raw.length (by omega) ?_ h rfl
              rw [List.length_append, List.length_singleton]
              omega
      · split_ifs at h
        refine ih raw.length (by omega) ?_ h rfl
        rw [List.length_append, List.length_singleton]
        omega

theorem decodeValue_fits {line column : ℕ} {raw value : Bytes}
    (h : decodeValue maxValueLength raw line column = .ok value) :
    value.length ≤ maxValueLength := by
  rw [decodeValue] at h
  split at h
  · cases h
    exact Nat.zero_le _
  · split_ifs at h
    · exact decodePlain_fits (Nat.zero_le _) h
    · exact decodeQuoted_fits (Nat.zero_le _) h

theorem decodeValue_valueText (line column : ℕ) {value : Bytes}
    (hroom : value.length ≤ maxValueLength) (h : ¬Misread value) :
    decodeValue maxValueLength (space :: valueText value) line column = .ok value := by
  rw [decodeValue, (trimmed_valueText value).trim_cons, valueText]
  by_cases hquotes : needsQuotes value = true
  · rw [if_pos hquotes]
    dsimp only
    rw [if_neg (by decide), List.getLast?_concat, if_neg (not_not.mpr rfl), List.dropLast_concat]
    exact decodeQuoted_escaped line column 1 (by rw [List.length_nil, Nat.zero_add]; exact hroom)
  · rw [Bool.not_eq_true] at hquotes
    have hspecial := fun c hc => of_not_special (isSpecial_of hquotes c hc)
    rw [if_neg (by rw [hquotes]; decide)]
    cases value with
    | nil => exact absurd rfl (nonempty_of hquotes)
    | cons c value =>
      have hquote := (hspecial c List.mem_cons_self).2.2.1
      have hapostrophe : c ≠ apostrophe := fun hc => h ⟨by rw [hc]; rfl, hquotes⟩
      dsimp only
      rw [if_pos (by simp [hquote, hapostrophe])]
      exact decodePlain_eq line column 0 (fun b hb => (hspecial b hb).2.1) (by
        rw [List.length_nil, Nat.zero_add]
        exact hroom)

/-- What a value is read as again: an apostrophe in front is taken for a quote. -/
def rereadValue (value : Bytes) : Option Bytes :=
  if Misread value then
    if value.tail.getLast? = some apostrophe ∧ apostrophe ∉ value.tail.dropLast then
      some value.tail.dropLast
    else none
  else some value

theorem rereadValue_ne {value : Bytes} (h : Misread value) : rereadValue value ≠ some value := by
  rw [rereadValue, if_pos h]
  split_ifs
  · intro heq
    have hlen := congrArg List.length (Option.some.inj heq)
    have hpos := List.length_pos_iff.mpr (nonempty_of h.2)
    rw [List.length_dropLast, List.length_tail] at hlen
    omega
  · exact fun heq => nomatch heq

theorem decodeValue_misread (line column : ℕ) {text value : Bytes} (h : needsQuotes (apostrophe :: text) = false)
    (hroom : text.length ≤ maxValueLength) :
    decodeValue maxValueLength (space :: valueText (apostrophe :: text)) line column = .ok value ↔
      (text.getLast? = some apostrophe ∧ apostrophe ∉ text.dropLast) ∧ text.dropLast = value := by
  have hspecial := fun c hc => of_not_special (isSpecial_of h c hc)
  rw [decodeValue, (trimmed_valueText _).trim_cons, valueText, if_neg (by rw [h]; decide)]
  dsimp only
  rw [if_neg (by decide)]
  split_ifs with hlast
  · exact iff_of_false (fun h => nomatch h) fun h => hlast h.1.1
  · have hplain := @decodeQuoted_plain maxValueLength line column 1 apostrophe text.dropLast [] value (fun c hc =>
      (hspecial c (List.mem_cons_of_mem _ (List.dropLast_subset _ hc))).2.2.2) (by
        rw [List.length_nil, List.length_dropLast]
        omega)
    rw [hplain, not_not.mp hlast, and_iff_right rfl, List.nil_append]

theorem decodeValue_iff (line column : ℕ) {value value' : Bytes} (hroom : value.length ≤ maxValueLength) :
    decodeValue maxValueLength (space :: valueText value) line column = .ok value' ↔
      rereadValue value = some value' := by
  rw [rereadValue]
  by_cases hmisread : Misread value
  · obtain ⟨hhead, hquotes⟩ := id hmisread
    obtain ⟨text, rfl⟩ := List.head?_eq_some_iff.mp hhead
    rw [if_pos hmisread, decodeValue_misread line column hquotes ((Nat.le_succ _).trans hroom), List.tail_cons]
    split_ifs with hread
    · rw [and_iff_right hread, Option.some.injEq]
    · exact iff_of_false (fun h => hread h.1) fun h => nomatch h
  · rw [if_neg hmisread, decodeValue_valueText line column hroom hmisread, Except.ok.injEq, Option.some.injEq]

end Castle.Serialization.Ini
