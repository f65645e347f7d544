import Castle.Lib.WordBits
import Castle.Dns.Message

/-!
# The names of a message (`message.hpp`, `decode_name`)

A name is a list of labels. What stands at an offset of a message is told by a relation: labels and
pointers are followed until the root.
-/

namespace Castle.Dns

abbrev Label := Bytes

/-- A character that a name may have: ASCII without NUL. -/
def IsNameByte (c : UInt8) : Prop := 0 < c ∧ c ≤ 127

instance (c : UInt8) : Decidable (IsNameByte c) := inferInstanceAs (Decidable (_ ∧ _))

/-- The bytes of a name on the wire without compression. -/
def wireSize (labels : List Label) : ℕ := (labels.map fun label => label.length + 1).sum + 1

def nameText (labels : List Label) : Bytes := [dot].intercalate labels

@[simp] theorem wireSize_nil : wireSize [] = 1 := rfl

@[simp] theorem wireSize_cons (label : Label) (labels : List Label) :
    wireSize (label :: labels) = label.length + 1 + wireSize labels := by
  rw [wireSize, wireSize, List.map_cons, List.sum_cons, Nat.add_assoc]

def pointerTarget (high low : UInt8) : ℕ := (high &&& 0x3F).toNat * 256 + low.toNat

/-- The labels of a name at an offset, with the number of labels, pointers and roots on the way,
and the bytes that the name takes at the offset. A pointer leads to the front of where it stands. -/
inductive NameAt (data : Bytes) : ℕ → List Label → ℕ → ℕ → Prop
  | root {offset : ℕ} (hroot : data[offset]? = some 0) : NameAt data offset [] 1 1
  | label {offset : ℕ} {length : UInt8} {labels : List Label} {hops extent : ℕ}
    (hlength : data[offset]? = some length) (hpos : 0 < length) (hle : length ≤ 63)
    (hrest : NameAt data (offset + 1 + length.toNat) labels hops extent) :
    NameAt data offset ((data.drop (offset + 1)).take length.toNat :: labels) (hops + 1)
      (1 + length.toNat + extent)
  | pointer {offset : ℕ} {high low : UInt8} {labels : List Label} {hops extent : ℕ}
    (hhigh : data[offset]? = some high) (hlow : data[offset + 1]? = some low)
    (hmark : high &&& 0xC0 = 0xC0) (hback : pointerTarget high low < offset)
    (hrest : NameAt data (pointerTarget high low) labels hops extent) :
    NameAt data offset labels (hops + 1) 2

variable {data : Bytes}

theorem small_and_mark {c : UInt8} (h : c ≤ 63) : c &&& 0xC0 = 0 := by
  have hall : ∀ c : UInt8, c ≤ 63 → c &&& 0xC0 = 0 := by
    refine WordBits.forall_byte ?_
    set_option maxRecDepth 1000 in
    decide
  exact hall c h

variable {labels : List Label}

theorem NameAt.offset_lt {offset hops extent : ℕ} (h : NameAt data offset labels hops extent) :
    offset < data.length := by
  cases h with
  | root hroot => exact (List.getElem?_eq_some_iff.mp hroot).1
  | label hlength hpos hle hrest => exact (List.getElem?_eq_some_iff.mp hlength).1
  | pointer hhigh hlow hmark hback hrest => exact (List.getElem?_eq_some_iff.mp hhigh).1

theorem NameAt.label_length {offset hops extent length : ℕ}
    (h : NameAt data (offset + length) labels hops extent) :
    ((data.drop offset).take length).length = length := by
  have hlt := h.offset_lt
  rw [List.length_take, List.length_drop]
  omega

theorem NameAt.unique {offset hops hops' extent extent' : ℕ} {labels' : List Label}
    (h : NameAt data offset labels hops extent) (h' : NameAt data offset labels' hops' extent') :
    labels = labels' ∧ hops = hops' ∧ extent = extent' := by
  induction h generalizing labels' hops' extent' with
  | root hroot =>
    cases h' with
    | root _ => exact ⟨rfl, rfl, rfl⟩
    | label hlength hpos _ _ =>
      cases hlength.symm.trans hroot
      exact absurd hpos (by decide)
    | pointer hhigh _ hmark _ _ =>
      cases hhigh.symm.trans hroot
      exact absurd hmark (by decide)
  | label hlength hpos hle _ ih =>
    cases h' with
    | root hroot =>
      cases hlength.symm.trans hroot
      exact absurd hpos (by decide)
    | label hlength' _ _ hrest' =>
      cases hlength.symm.trans hlength'
      obtain ⟨hlabels, hhops, hextent⟩ := ih hrest'
      exact ⟨by rw [hlabels], by rw [hhops], by rw [hextent]⟩
    | pointer hhigh _ hmark _ _ =>
      cases hlength.symm.trans hhigh
      rw [small_and_mark hle] at hmark
      exact absurd hmark (by decide)
  | pointer hhigh hlow hmark _ _ ih =>
    cases h' with
    | root hroot =>
      cases hhigh.symm.trans hroot
      exact absurd hmark (by decide)
    | label hlength _ hle _ =>
      cases hlength.symm.trans hhigh
      rw [small_and_mark hle] at hmark
      exact absurd hmark (by decide)
    | pointer hhigh' hlow' _ _ hrest' =>
      cases hhigh.symm.trans hhigh'
      cases hlow.symm.trans hlow'
      obtain ⟨hlabels, hhops, _⟩ := ih hrest'
      exact ⟨hlabels, by rw [hhops], rfl⟩

theorem NameAt.label_ne_nil {offset hops extent : ℕ} (h : NameAt data offset labels hops extent) :
    ∀ label ∈ labels, 1 ≤ label.length ∧ label.length ≤ 63 := by
  induction h with
  | root _ => simp
  | label hlength hpos hle hrest ih =>
    rw [List.forall_mem_cons]
    refine ⟨?_, ih⟩
    rw [hrest.label_length]
    exact ⟨UInt8.lt_iff_toNat_lt.mp hpos, UInt8.le_iff_toNat_le.mp hle⟩
  | pointer _ _ _ _ _ ih => exact ih

/-- A text with the labels of a name behind it, each behind a dot unless it is the first. -/
def extendText : Bytes → List Label → Bytes
  | text, [] => text
  | text, label :: labels => extendText ((if text ≠ [] then text ++ [dot] else text) ++ label) labels

theorem extendText_append (text : Bytes) (htext : text ≠ []) (labels : List Label) :
    extendText text labels = [dot].intercalate (text :: labels) := by
  induction labels generalizing text with
  | nil => rw [extendText, List.intercalate_singleton]
  | cons label labels ih =>
    rw [extendText, if_pos htext, ih _ (by simp [htext]), List.intercalate_cons_cons]
    cases labels with
    | nil => simp
    | cons next labels => simp [List.intercalate_cons_cons]

theorem extendText_nil (h : ∀ label ∈ labels, 1 ≤ label.length) :
    extendText [] labels = nameText labels := by
  cases labels with
  | nil => rfl
  | cons label labels =>
    have hlabel : label ≠ [] := List.ne_nil_of_length_pos (h label List.mem_cons_self)
    rw [extendText, if_neg (by simp), List.nil_append, extendText_append label hlabel, nameText]

theorem le_length_extendText (text : Bytes) (labels : List Label) :
    text.length ≤ (extendText text labels).length := by
  induction labels generalizing text with
  | nil => exact le_rfl
  | cons label labels ih =>
    refine le_trans ?_ (ih _)
    split
    · simp only [List.length_append]
      omega
    · simp

theorem length_nameText (labels : List Label) (h : labels ≠ []) :
    (nameText labels).length + 2 = wireSize labels := by
  induction labels with
  | nil => exact absurd rfl h
  | cons label labels ih =>
    cases labels with
    | nil => simp [nameText, wireSize]
    | cons next labels =>
      have hnext := ih (by simp)
      rw [nameText] at hnext ⊢
      rw [List.intercalate_cons_cons, wireSize_cons, ← hnext]
      simp only [List.length_append, List.length_singleton]
      omega

theorem length_nameText_lt (h : wireSize labels ≤ 255) :
    (nameText labels).length < textCapacity := by
  rw [textCapacity]
  by_cases hnil : labels = []
  · subst hnil
    decide
  · have hlength := length_nameText labels hnil
    omega

namespace NameCursor

variable {capacity : ℕ} {s s' : NameCursor}

def jump (s : NameCursor) (target : ℕ) : NameCursor :=
  { s with
    cursor := target
    jumped := true
    consumed := if s.jumped then s.consumed else s.consumed + 2 }

def pass (s : NameCursor) (label : Label) : NameCursor :=
  { s with
    cursor := s.cursor + 1 + label.length
    text := (if s.text ≠ [] then s.text ++ [dot] else s.text) ++ label
    wireSize := s.wireSize + 1 + label.length
    consumed := if s.jumped then s.consumed else s.consumed + 1 + label.length }

def stop (s : NameCursor) : NameCursor :=
  { s with
    cursor := s.cursor + 1
    consumed := if s.jumped then s.consumed else s.consumed + 1
    wireSize := s.wireSize + 1 }

theorem any_not_nameByte {label : Label} :
    (label.any fun c => c = 0 || c > 127) = false ↔ ∀ c ∈ label, IsNameByte c := by
  simp only [List.any_eq_false, Bool.or_eq_true, decide_eq_true_eq, not_or]
  refine forall₂_congr fun c _ => and_congr ?_ UInt8.not_lt
  rw [UInt8.lt_iff_toNat_lt, ← UInt8.toNat_inj, UInt8.toNat_zero]
  omega

theorem step_root (hroot : data[s.cursor]? = some 0) (hwire : s.wireSize < 255) :
    s.step data capacity = .finished s.stop := by
  obtain ⟨hlt, _⟩ := List.getElem?_eq_some_iff.mp hroot
  have hget : data.getD s.cursor 0 = 0 := by rw [List.getD_eq_getElem?_getD, hroot]; rfl
  rw [step, if_neg (by omega)]
  simp only [hget]
  rw [if_neg (by decide), if_neg (by decide), if_neg (by omega), if_pos True.intro, stop]

theorem step_pointer {high low : UInt8} (hhigh : data[s.cursor]? = some high)
    (hlow : data[s.cursor + 1]? = some low) (hmark : high &&& 0xC0 = 0xC0)
    (hback : pointerTarget high low < s.cursor) :
    s.step data capacity = .next (s.jump (pointerTarget high low)) := by
  obtain ⟨hlt, _⟩ := List.getElem?_eq_some_iff.mp hlow
  have hget : data.getD s.cursor 0 = high := by rw [List.getD_eq_getElem?_getD, hhigh]; rfl
  have hbyte : readByte data (s.cursor + 1) = low.toNat := by
    rw [readByte, List.getD_eq_getElem?_getD, hlow]
    rfl
  rw [step, if_neg (by omega)]
  simp only [hget, hbyte]
  rw [pointerTarget] at hback
  rw [if_pos hmark, if_neg (by omega), if_neg (by omega), jump, pointerTarget]

theorem step_label {length : UInt8} (hlength : data[s.cursor]? = some length) (hpos : 0 < length)
    (hle : length ≤ 63) (hfit : s.cursor + 1 + length.toNat ≤ data.length)
    (hwire : s.wireSize + 1 + length.toNat ≤ 255)
    (hbytes : ∀ c ∈ (data.drop (s.cursor + 1)).take length.toNat, IsNameByte c)
    (hroom : (s.pass ((data.drop (s.cursor + 1)).take length.toNat)).text.length < capacity) :
    s.step data capacity = .next (s.pass ((data.drop (s.cursor + 1)).take length.toNat)) := by
  have hget : data.getD s.cursor 0 = length := by rw [List.getD_eq_getElem?_getD, hlength]; rfl
  have hsize : ((data.drop (s.cursor + 1)).take length.toNat).length = length.toNat := by
    rw [List.length_take, List.length_drop]
    omega
  have hne : length ≠ 0 := (UInt8.ne_of_lt hpos).symm
  have hposNat : 0 < length.toNat := UInt8.lt_iff_toNat_lt.mp hpos
  have hand := small_and_mark hle
  rw [pass] at hroom
  simp only [List.length_append, hsize] at hroom
  rw [step, if_neg (by omega)]
  simp only [hget, hand]
  rw [if_neg (by decide), if_neg (by simpa using hle), if_neg (by omega), if_neg hne,
    if_neg (by omega), label]
  by_cases htext : s.text = []
  · simp only [htext, ne_eq, not_true_eq_false, if_false, false_and] at hroom ⊢
    rw [if_neg (by simp only [List.length_nil] at hroom ⊢; omega), any_not_nameByte.mpr hbytes]
    simp only [Bool.false_eq_true, if_false, pass, htext, ne_eq, not_true_eq_false, hsize, Nat.add_assoc]
    congr 2
    split
    · rfl
    · rw [Nat.add_assoc]
  · simp only [ne_eq, htext, not_false_eq_true, if_true, true_and, List.length_append,
      List.length_singleton] at hroom ⊢
    rw [if_neg (by omega), if_neg (by omega), any_not_nameByte.mpr hbytes]
    simp only [Bool.false_eq_true, if_false, pass, htext, ne_eq, not_false_eq_true, if_true, hsize, Nat.add_assoc]
    congr 2
    split
    · rfl
    · rw [Nat.add_assoc]

theorem label_cases (data : Bytes) (capacity : ℕ) (s : NameCursor) (length : ℕ) :
    (∃ result, result ≠ .ok ∧ s.label data capacity length = .failed result) ∨
    ((∀ c ∈ (data.drop s.cursor).take length, IsNameByte c) ∧
      s.label data capacity length =
        .next { s with
          text := (if s.text ≠ [] then s.text ++ [dot] else s.text) ++ (data.drop s.cursor).take length
          cursor := s.cursor + length
          consumed := if s.jumped then s.consumed else s.consumed + length }) := by
  rw [label]
  by_cases hdot : s.text ≠ [] ∧ s.text.length + 1 ≥ capacity
  · exact .inl ⟨.full, by decide, if_pos hdot⟩
  rw [if_neg hdot]
  generalize (if s.text ≠ [] then s.text ++ [dot] else s.text) = text
  dsimp only
  by_cases hfull : length > capacity - 1 - text.length
  · exact .inl ⟨.full, by decide, if_pos hfull⟩
  rw [if_neg hfull]
  by_cases hbytes : (((data.drop s.cursor).take length).any fun c => c = 0 || c > 127) = true
  · exact .inl ⟨.invalidArgument, by decide, if_pos hbytes⟩
  · exact .inr ⟨any_not_nameByte.mp (Bool.not_eq_true _ ▸ hbytes), if_neg hbytes⟩

theorem step_next (h : s.step data capacity = .next s') :
    (∃ high low, data[s.cursor]? = some high ∧ data[s.cursor + 1]? = some low ∧ high &&& 0xC0 = 0xC0 ∧
      pointerTarget high low < s.cursor ∧ s' = s.jump (pointerTarget high low)) ∨
    ∃ length : UInt8, data[s.cursor]? = some length ∧ 0 < length ∧ length ≤ 63 ∧
      s.wireSize + 1 + length.toNat ≤ 255 ∧
      (∀ c ∈ (data.drop (s.cursor + 1)).take length.toNat, IsNameByte c) ∧
      ((data.drop (s.cursor + 1)).take length.toNat).length = length.toNat ∧
      s' = s.pass ((data.drop (s.cursor + 1)).take length.toNat) := by
  rw [step] at h
  split at h
  · cases h
  next hlt =>
  have hlt : s.cursor < data.length := by omega
  have hread : data[s.cursor]? = some (data.getD s.cursor 0) := by
    rw [List.getD_eq_getElem?_getD, List.getElem?_eq_getElem hlt, Option.getD_some]
  generalize data.getD s.cursor 0 = length at h hread
  dsimp only at h
  split at h
  next hmark =>
    left
    split at h
    · cases h
    next hlow =>
    have hlow : s.cursor + 1 < data.length := by omega
    split at h
    · cases h
    next hback =>
    refine ⟨length, data[s.cursor + 1], hread, List.getElem?_eq_getElem hlow, hmark, ?_, ?_⟩
    · rw [readByte, List.getD_eq_getElem?_getD, List.getElem?_eq_getElem hlow, Option.getD_some] at hback
      rw [pointerTarget]
      omega
    · rw [readByte, List.getD_eq_getElem?_getD, List.getElem?_eq_getElem hlow, Option.getD_some] at h
      cases h
      rfl
  · right
    split at h
    · cases h
    next hle =>
    rw [not_or] at hle
    split at h
    · cases h
    next hwire =>
    split at h
    · cases h
    next hne =>
    split at h
    · cases h
    next hfit =>
    have hsize : ((data.drop (s.cursor + 1)).take length.toNat).length = length.toNat := by
      rw [List.length_take, List.length_drop]
      omega
    have hpos : 0 < length := by
      rw [UInt8.lt_iff_toNat_lt, UInt8.toNat_zero]
      rw [← UInt8.toNat_inj, UInt8.toNat_zero] at hne
      omega
    rcases label_cases data capacity
        { s with
          cursor := s.cursor + 1
          consumed := if s.jumped then s.consumed else s.consumed + 1
          wireSize := s.wireSize + 1 + length.toNat } length.toNat with ⟨result, _, hlabel⟩ | ⟨hbytes, hlabel⟩
    · rw [hlabel] at h
      cases h
    · rw [hlabel] at h
      cases h
      refine ⟨length, hread, hpos, UInt8.not_lt.mp hle.2, by omega, hbytes, hsize, ?_⟩
      rw [pass, hsize]
      congr 1
      split
      · rfl
      · rw [Nat.add_assoc]

theorem step_finished (h : s.step data capacity = .finished s') :
    data[s.cursor]? = some 0 ∧ s.wireSize < 255 ∧ s' = s.stop := by
  rw [step] at h
  split at h
  · cases h
  next hlt =>
  have hlt : s.cursor < data.length := by omega
  have hread : data[s.cursor]? = some (data.getD s.cursor 0) := by
    rw [List.getD_eq_getElem?_getD, List.getElem?_eq_getElem hlt, Option.getD_some]
  generalize data.getD s.cursor 0 = length at h hread
  dsimp only at h
  split at h
  · split at h
    · cases h
    · split at h <;> cases h
  next =>
  split at h
  · cases h
  next =>
  split at h
  · cases h
  next hwire =>
  split at h
  next hzero =>
    cases h
    exact ⟨by rw [hread, hzero], by omega, rfl⟩
  next =>
  split at h
  · cases h
  · rcases label_cases data capacity
        { s with
          cursor := s.cursor + 1
          consumed := if s.jumped then s.consumed else s.consumed + 1
          wireSize := s.wireSize + 1 + length.toNat } length.toNat with ⟨result, _, hlabel⟩ | ⟨_, hlabel⟩
    · rw [hlabel] at h
      cases h
    · rw [hlabel] at h
      cases h

end NameCursor

section Loop

variable {capacity : ℕ}

theorem decodeNameLoop_ok {passes consumed : ℕ} {s : NameCursor}
    {text : Bytes} (h : decodeNameLoop data capacity passes s = .ok (text, consumed)) :
    ∃ labels hops extent, NameAt data s.cursor labels hops extent ∧ hops ≤ passes ∧
    s.wireSize + wireSize labels ≤ 255 ∧ (∀ label ∈ labels, ∀ c ∈ label, IsNameByte c) ∧ text =
    extendText s.text labels ∧ consumed = if s.jumped then s.consumed else s.consumed + extent := by
  induction passes generalizing s with
  | zero => cases h
  | succ passes ih =>
    rw [decodeNameLoop] at h
    cases hstep : s.step data capacity with
    | failed result =>
      rw [hstep] at h
      cases h
    | finished s' =>
      rw [hstep] at h
      obtain ⟨hroot, hwire, rfl⟩ := NameCursor.step_finished hstep
      cases h
      exact ⟨[], 1, 1, .root hroot, by omega, by rw [wireSize_nil]; omega, by simp, rfl, rfl⟩
    | next s' =>
      rw [hstep] at h
      obtain ⟨labels, hops, extent, hname, hhops, hwire, hbytes, htext, hconsumed⟩ := ih h
      rcases NameCursor.step_next hstep with ⟨high, low, hhigh, hlow, hmark, hback, rfl⟩ |
        ⟨length, hlength, hpos, hle, hfits, hlabel, hsize, rfl⟩
      · refine ⟨labels, hops + 1, 2, .pointer hhigh hlow hmark hback hname, by omega, hwire, hbytes,
          htext, ?_⟩
        rw [hconsumed]
        rfl
      · rw [NameCursor.pass] at hname hwire htext hconsumed
        simp only [hsize] at hname hwire hconsumed
        refine ⟨_ :: labels, hops + 1, 1 + length.toNat + extent, .label hlength hpos hle hname, by omega,
          ?_, ?_, ?_, ?_⟩
        · rw [wireSize_cons, hsize]
          omega
        · rw [List.forall_mem_cons]
          exact ⟨hlabel, hbytes⟩
        · rw [htext, extendText]
        · rw [hconsumed]
          split <;> omega

theorem decodeNameLoop_of_nameAt {offset hops extent : ℕ} {labels : List Label}
    (h : NameAt data offset labels hops extent) {passes : ℕ} {s : NameCursor} (hcursor : s.cursor = offset)
    (hhops : hops ≤ passes) (hwire : s.wireSize + wireSize labels ≤ 255)
    (hbytes : ∀ label ∈ labels, ∀ c ∈ label, IsNameByte c)
    (hroom : (extendText s.text labels).length < capacity) :
    decodeNameLoop data capacity passes s =
      .ok (extendText s.text labels, if s.jumped then s.consumed else s.consumed + extent) := by
  induction h generalizing passes s with
  | root hroot =>
    obtain ⟨passes, rfl⟩ : ∃ n, passes = n + 1 := ⟨passes - 1, by omega⟩
    subst hcursor
    rw [wireSize_nil] at hwire
    rw [decodeNameLoop, NameCursor.step_root hroot (by omega)]
    rfl
  | @label offset length labels hops extent hlength hpos hle hrest ih =>
    obtain ⟨passes, rfl⟩ : ∃ n, passes = n + 1 := ⟨passes - 1, by omega⟩
    subst hcursor
    have hsize := hrest.label_length
    have hfit := hrest.offset_lt
    rw [List.forall_mem_cons] at hbytes
    rw [wireSize_cons, hsize] at hwire
    rw [extendText] at hroom ⊢
    have htext := lt_of_le_of_lt (le_length_extendText _ _) hroom
    rw [decodeNameLoop, NameCursor.step_label hlength hpos hle (by omega) (by omega) hbytes.1 htext]
    have hnext := @ih passes (s.pass ((data.drop (s.cursor + 1)).take length.toNat))
      (by rw [NameCursor.pass, hsize]) (by omega) (by rw [NameCursor.pass, hsize]; dsimp only; omega)
      hbytes.2 hroom
    dsimp only
    rw [hnext, NameCursor.pass, hsize]
    congr 2
    dsimp only
    split <;> omega
  | pointer hhigh hlow hmark hback hrest ih =>
    obtain ⟨passes, rfl⟩ : ∃ n, passes = n + 1 := ⟨passes - 1, by omega⟩
    subst hcursor
    rw [decodeNameLoop, NameCursor.step_pointer hhigh hlow hmark hback]
    exact @ih passes (s.jump _) rfl (by omega) hwire hbytes hroom

end Loop

/-- A name that `decode_name` may give out: what stands at the offset takes at most 128 labels,
pointers and roots, is at most 255 bytes long, and has ASCII labels without NUL. -/
structure Decodable (data : Bytes) (offset : ℕ) (labels : List Label) (extent : ℕ) : Prop where
  stands : ∃ hops ≤ 128, NameAt data offset labels hops extent
  fits : wireSize labels ≤ 255
  ascii : ∀ label ∈ labels, ∀ c ∈ label, IsNameByte c

theorem decodeName_sound {offset capacity consumed : ℕ} {text : Bytes}
    (h : decodeName data offset capacity = .ok (text, consumed)) :
    ∃ labels, Decodable data offset labels consumed ∧ text = nameText labels := by
  rw [decodeName] at h
  split at h
  · cases h
  · obtain ⟨labels, hops, extent, hname, hhops, hwire, hbytes, htext, hconsumed⟩ := decodeNameLoop_ok h
    have hextent : consumed = extent := by
      rw [hconsumed, if_neg Bool.false_ne_true]
      exact Nat.zero_add extent
    rw [hextent]
    refine ⟨labels, ⟨⟨hops, hhops, hname⟩, by omega, hbytes⟩, ?_⟩
    rw [htext, extendText_nil fun label hlabel => (hname.label_ne_nil label hlabel).1]

theorem Decodable.decodeName {offset extent : ℕ} (h : Decodable data offset labels extent) :
    decodeName data offset textCapacity = .ok (nameText labels, extent) := by
  obtain ⟨hops, hhops, hname⟩ := h.stands
  have htext : extendText [] labels = nameText labels :=
    extendText_nil fun label hlabel => (hname.label_ne_nil label hlabel).1
  have hoffset := hname.offset_lt
  have hroom := length_nameText_lt h.fits
  rw [Dns.decodeName, if_neg (by rw [not_or]; exact ⟨by decide, by omega⟩)]
  have hwire : (0 : ℕ) + wireSize labels ≤ 255 := by simpa using h.fits
  have hloop : decodeNameLoop data textCapacity 128 { cursor := offset } = _ :=
    decodeNameLoop_of_nameAt hname rfl hhops hwire h.ascii (by rwa [htext])
  rw [hloop, htext, if_neg Bool.false_ne_true, Nat.zero_add]

/-- So many bytes from an offset on; none when one of them is outside the message. -/
def readBytes (data : Bytes) : ℕ → ℕ → Option Bytes
  | _, 0 => some []
  | offset, count + 1 => do
    let byte ← data[offset]?
    let bytes ← readBytes data (offset + 1) count
    some (byte :: bytes)

theorem readBytes_eq {offset count : ℕ} (h : offset + count ≤ data.length) :
    readBytes data offset count = some ((data.drop offset).take count) := by
  induction count generalizing offset with
  | zero => rw [readBytes, List.take_zero]
  | succ count ih =>
    have hlt : offset < data.length := by omega
    rw [readBytes, List.getElem?_eq_getElem hlt, Option.bind_eq_bind, Option.bind_some, ih (by omega),
      List.drop_eq_getElem_cons hlt, List.take_succ_cons]
    rfl

namespace NameCursor

/-- `label` with checked reads; none is a read outside the message. -/
def labelChecked (data : Bytes) (capacity : ℕ) (length : ℕ) (s : NameCursor) : Option NameStep :=
  if s.text ≠ [] ∧ s.text.length + 1 ≥ capacity then some (.failed .full)
  else
    let text := if s.text ≠ [] then s.text ++ [dot] else s.text
    if length > capacity - 1 - text.length then some (.failed .full)
    else do
      let bytes ← readBytes data s.cursor length
      if bytes.any fun c => c = 0 || c > 127 then some (.failed .invalidArgument)
      else
        some (.next { s with
          text := text ++ bytes
          cursor := s.cursor + length
          consumed := if s.jumped then s.consumed else s.consumed + length })

/-- `step` with checked reads. -/
def stepChecked (data : Bytes) (capacity : ℕ) (s : NameCursor) : Option NameStep :=
  if s.cursor ≥ data.length then some (.failed .invalidArgument)
  else do
    let length ← data[s.cursor]?
    if length &&& 0xC0 = 0xC0 then
      if s.cursor + 1 ≥ data.length then some (.failed .invalidArgument)
      else do
        let low ← data[s.cursor + 1]?
        let pointer := pointerTarget length low
        if pointer ≥ data.length ∨ pointer ≥ s.cursor then some (.failed .invalidArgument)
        else some (.next (s.jump pointer))
    else if length &&& 0xC0 ≠ 0 ∨ length > 63 then some (.failed .invalidArgument)
    else if s.wireSize ≥ 255 then some (.failed .invalidArgument)
    else
      let s := s.stop
      if length = 0 then some (.finished s)
      else if length.toNat > data.length - s.cursor ∨ s.wireSize + length.toNat > 255 then
        some (.failed .invalidArgument)
      else labelChecked data capacity length.toNat { s with wireSize := s.wireSize + length.toNat }

theorem labelChecked_eq {capacity length : ℕ} {s : NameCursor} (h : s.cursor + length ≤ data.length) :
    s.labelChecked data capacity length = some (s.label data capacity length) := by
  rw [labelChecked, label, readBytes_eq h]
  simp only [Option.bind_eq_bind, Option.bind_some]
  generalize (if s.text ≠ [] then s.text ++ [dot] else s.text) = text
  by_cases hdot : s.text ≠ [] ∧ s.text.length + 1 ≥ capacity
  · rw [if_pos hdot, if_pos hdot]
  · rw [if_neg hdot, if_neg hdot]
    split
    · rfl
    · split <;> rfl

theorem stepChecked_eq (data : Bytes) (capacity : ℕ) (s : NameCursor) :
    s.stepChecked data capacity = some (s.step data capacity) := by
  rw [stepChecked, step]
  split
  · rfl
  next hlt =>
  have hlt : s.cursor < data.length := by omega
  rw [List.getD_eq_getElem?_getD, List.getElem?_eq_getElem hlt, Option.bind_eq_bind, Option.bind_some,
    Option.getD_some]
  generalize data[s.cursor] = length
  dsimp only
  split
  · split
    · rfl
    next hlow =>
    have hlow : s.cursor + 1 < data.length := by omega
    rw [readByte, List.getD_eq_getElem?_getD, List.getElem?_eq_getElem hlow,
      Option.bind_some, Option.getD_some, pointerTarget]
    split <;> rfl
  next =>
  split
  · rfl
  split
  · rfl
  split
  · rfl
  next hzero =>
  rw [stop]
  dsimp only
  split
  · rfl
  next hfit =>
  rw [labelChecked_eq]
  dsimp only
  have hpos : length.toNat ≠ 0 := by
    rwa [ne_eq, ← UInt8.toNat_zero, UInt8.toNat_inj]
  omega

end NameCursor

/-- The loop of `decode_name` with checked reads. -/
def decodeNameLoopChecked (data : Bytes) (capacity : ℕ) : ℕ → NameCursor → Option (Except Status (Bytes × ℕ))
  | 0, _ => some (.error .invalidArgument)
  | passes + 1, s => do
    match ← s.stepChecked data capacity with
    | .failed result => some (.error result)
    | .finished s => some (.ok (s.text, s.consumed))
    | .next s => decodeNameLoopChecked data capacity passes s

/-- `decode_name` with checked reads. -/
def decodeNameChecked (data : Bytes) (offset capacity : ℕ) : Option (Except Status (Bytes × ℕ)) :=
  if capacity = 0 ∨ offset ≥ data.length then some (.error .invalidArgument)
  else decodeNameLoopChecked data capacity 128 { cursor := offset }

theorem decodeNameLoopChecked_eq (data : Bytes) (capacity passes : ℕ) (s : NameCursor) :
    decodeNameLoopChecked data capacity passes s = some (decodeNameLoop data capacity passes s) := by
  induction passes generalizing s with
  | zero => rfl
  | succ passes ih =>
    rw [decodeNameLoopChecked, decodeNameLoop, NameCursor.stepChecked_eq, Option.bind_eq_bind, Option.bind_some]
    cases s.step data capacity with
    | failed result => rfl
    | finished s' => rfl
    | next s' => exact ih s'

theorem decodeNameChecked_eq (data : Bytes) (offset capacity : ℕ) :
    decodeNameChecked data offset capacity = some (decodeName data offset capacity) := by
  rw [decodeNameChecked, decodeName]
  split
  · rfl
  · exact decodeNameLoopChecked_eq data capacity 128 _

/-- No read is outside the message, and a name is decoded exactly when one stands at the offset. -/
theorem decodeName_ok_iff (data : Bytes) (offset : ℕ) :
    (∀ capacity, decodeNameChecked data offset capacity = some (decodeName data offset capacity)) ∧
    ∀ text consumed, decodeName data offset textCapacity = .ok (text, consumed) ↔
      ∃ labels hops, NameAt data offset labels hops consumed ∧ hops ≤ 128 ∧ wireSize labels ≤ 255 ∧
        (∀ label ∈ labels, ∀ c ∈ label, IsNameByte c) ∧ text = nameText labels := by
  refine ⟨decodeNameChecked_eq data offset, fun text consumed => ⟨fun h => ?_, ?_⟩⟩
  · obtain ⟨labels, hname, htext⟩ := decodeName_sound h
    obtain ⟨hops, hhops, hstands⟩ := hname.stands
    exact ⟨labels, hops, hstands, hhops, hname.fits, hname.ascii, htext⟩
  · rintro ⟨labels, hops, hstands, hhops, hfits, hascii, rfl⟩
    exact Decodable.decodeName ⟨⟨hops, hhops, hstands⟩, hfits, hascii⟩

/-- A root, 127 labels of one byte, and a pointer to the root. -/
def longName : Bytes := 0 :: (List.replicate 127 [0x01, 0x61]).flatten ++ [0xC0, 0x00]

theorem longName_labels (n : ℕ) (h : n ≤ 127) :
    NameAt longName (255 - 2 * n) (List.replicate n [0x61]) (n + 2) (2 * n + 2) := by
  induction n with
  | zero =>
    have hhigh : longName[255]? = some 0xC0 := by decide
    have hlow : longName[256]? = some 0x00 := by decide
    exact .pointer hhigh hlow (by decide) (by decide) (.root (by decide))
  | succ n ih =>
    have hall : ∀ k : Fin 127, longName[255 - 2 * (k.val + 1)]? = some 1 ∧
        (longName.drop (255 - 2 * (k.val + 1) + 1)).take 1 = [0x61] := by
      set_option maxRecDepth 1000 in
      decide
    obtain ⟨hlength, hlabel⟩ := hall ⟨n, by omega⟩
    dsimp only at hlength hlabel
    have hnext : 255 - 2 * n = 255 - 2 * (n + 1) + 1 + (1 : UInt8).toNat := by
      rw [UInt8.toNat_one]
      omega
    have hrest := ih (by omega)
    rw [hnext] at hrest
    have hname := NameAt.label hlength (by decide) (by decide) hrest
    rw [UInt8.toNat_one, hlabel, ← List.replicate_succ] at hname
    have hextent : 1 + 1 + (2 * n + 2) = 2 * (n + 1) + 2 := by omega
    rwa [hextent] at hname

/-- A name of 255 bytes that ends in a pointer takes 129 passes. -/
theorem longName_refused :
    (∃ labels hops extent, NameAt longName 1 labels hops extent ∧ wireSize labels ≤ 255 ∧
      ∀ label ∈ labels, ∀ c ∈ label, IsNameByte c) ∧
    decodeName longName 1 textCapacity = .error .invalidArgument := by
  refine ⟨⟨_, _, _, longName_labels 127 le_rfl, by decide +kernel, ?_⟩, by decide +kernel⟩
  intro label hlabel c hc
  rw [List.eq_of_mem_replicate hlabel, List.mem_singleton] at hc
  rw [hc]
  exact ⟨by decide, by decide⟩

end Castle.Dns
