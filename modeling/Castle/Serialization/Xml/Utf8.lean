import Mathlib.Algebra.Ring.Nat
import Mathlib.Data.List.Forall2
import Castle.Lib.WordBits
import Castle.Lib.Utf8

/-!
# The UTF-8 sequences of XML texts (`serialization/xml.hpp`)

`decode_utf8` tests only the top bit of the bytes behind the first. A byte from `0xC0` on passes
there for the continuation byte that is `0x40` less.
-/

namespace Castle.Serialization.Xml

open Utf8

abbrev Bytes := List UInt8

def isXmlChar (codepoint : ℕ) : Bool :=
  codepoint = 0x09 || codepoint = 0x0A || codepoint = 0x0D || (0x20 ≤ codepoint && codepoint ≤ 0xD7FF) ||
    (0xE000 ≤ codepoint && codepoint ≤ 0xFFFD) || (0x10000 ≤ codepoint && codepoint ≤ 0x10FFFF)

def utf8SequenceLength : Bytes → ℕ
  | [] => 0
  | first :: rest =>
    let c0 := first.toNat
    if c0 ≤ 0x7F then 1
    else if 0xC2 ≤ c0 ∧ c0 ≤ 0xDF then if rest.length + 1 ≥ 2 then 2 else 0
    else if 0xE0 ≤ c0 ∧ c0 ≤ 0xEF then if rest.length + 1 ≥ 3 then 3 else 0
    else if 0xF0 ≤ c0 ∧ c0 ≤ 0xF4 then if rest.length + 1 ≥ 4 then 4 else 0
    else 0

/-- The code point that `decode_utf8` makes of a sequence. -/
def sequenceCodepoint : Bytes → ℕ
  | [c0, c1] => (c0.toNat &&& 0x1F) <<< 6 ||| (c1.toNat &&& 0x3F)
  | [c0, c1, c2] => (c0.toNat &&& 0x0F) <<< 12 ||| (c1.toNat &&& 0x3F) <<< 6 ||| (c2.toNat &&& 0x3F)
  | [c0, c1, c2, c3] =>
    (c0.toNat &&& 0x07) <<< 18 ||| (c1.toNat &&& 0x3F) <<< 12 ||| (c2.toNat &&& 0x3F) <<< 6 ||| (c3.toNat &&& 0x3F)
  | sequence => (sequence.headD 0).toNat

/-- What `decode_utf8` checks of a sequence that is long enough. -/
def decodeSequence (sequence : Bytes) : Option (ℕ × ℕ) :=
  let length := sequence.length
  let codepoint := sequenceCodepoint sequence
  if length = 1 then if isXmlChar codepoint then some (codepoint, length) else none
  else if (sequence.drop 1).any fun ci => ci &&& 0x80 ≠ 0x80 then none
  else if !isXmlChar codepoint then none
  else if length = 3 ∧ codepoint < 0x800 ∨ length = 4 ∧ codepoint < 0x10000 then none
  else if 0xD800 ≤ codepoint ∧ codepoint ≤ 0xDFFF then none
  else some (codepoint, length)

/-- `decode_utf8`: the code point and the length of the sequence. -/
def decodeUtf8 (data : Bytes) : Option (ℕ × ℕ) :=
  let length := utf8SequenceLength data
  if length = 0 then none else decodeSequence (data.take length)

/-- The loop of `valid_xml_string`, of which each round takes a byte at least. -/
def validXmlFrom : ℕ → Bytes → Bool
  | _, [] => true
  | 0, _ :: _ => false
  | fuel + 1, text =>
    match decodeUtf8 text with
    | none => false
    | some (_, length) => validXmlFrom fuel (text.drop length)

def validXmlString (text : Bytes) : Bool := validXmlFrom text.length text

/-- `append_utf8` behind the bytes that are used. -/
def appendUtf8 (codepoint : ℕ) (output : Bytes) (capacity : ℕ) : Option Bytes :=
  let room := capacity - output.length
  let low := UInt8.ofNat (0x80 ||| (codepoint &&& 0x3F))
  let middle := UInt8.ofNat (0x80 ||| (codepoint >>> 6 &&& 0x3F))
  if !isXmlChar codepoint then none
  else if codepoint ≤ 0x7F then
    if output.length ≥ capacity then none else some (output ++ [UInt8.ofNat codepoint])
  else if codepoint ≤ 0x7FF then
    if room < 2 then none else some (output ++ [UInt8.ofNat (0xC0 ||| codepoint >>> 6), low])
  else if codepoint ≤ 0xFFFF then
    if room < 3 then none else some (output ++ [UInt8.ofNat (0xE0 ||| codepoint >>> 12), middle, low])
  else if room < 4 then none
  else some (output ++ [UInt8.ofNat (0xF0 ||| codepoint >>> 18),
    UInt8.ofNat (0x80 ||| (codepoint >>> 12 &&& 0x3F)), middle, low])

/-- The continuation byte that a byte passes for. -/
def lowered (b : UInt8) : UInt8 := if 0xC0 ≤ b.toNat then b - 0x40 else b

def XmlChar (c : Char) : Prop := isXmlChar c.toNat = true

/-- A sequence that is read as a character. It is the encoding of the character, if no byte from
`0xC0` on stands behind its first. -/
def TakenFor (piece : Bytes) (c : Char) : Prop :=
  ∃ first tail, piece = first :: tail ∧ String.utf8EncodeChar c = first :: tail.map lowered ∧ XmlChar c

theorem isValidChar_of_xml {cp : ℕ} (h : isXmlChar cp = true) : cp.isValidChar := by
  simp only [isXmlChar, decide_eq_true_eq, Bool.or_eq_true, Bool.and_eq_true, or_assoc] at h
  unfold Nat.isValidChar
  omega

theorem and_80 (b : UInt8) : b &&& 0x80 = 0x80 ↔ 0x80 ≤ b.toNat := by
  revert b
  refine WordBits.forall_byte ?_
  set_option maxRecDepth 1000 in
  decide

theorem lowered_eq_iff {b : UInt8} {d : ℕ} (hd : d < 64) :
    lowered b = continuationByte d ↔ 0x80 ≤ b.toNat ∧ b.toNat % 64 = d := by
  have hb := b.toNat_lt
  rw [lowered, ← UInt8.toNat_inj, toNat_continuationByte hd]
  split_ifs with h
  · rw [UInt8.toNat_sub_of_le _ _ (UInt8.le_iff_toNat_le.mpr (Nat.le_trans (by decide) h))]
    show b.toNat - 64 = _ ↔ _
    omega
  · omega

theorem shiftLeft_or (a : ℕ) {k b : ℕ} (h : b < 2 ^ k) : a <<< k ||| b = a * 2 ^ k + b := by
  rw [← Nat.shiftLeft_add_eq_or_of_lt h, Nat.shiftLeft_eq]

theorem sequenceCodepoint_eq {first : UInt8} {bits minimum : ℕ} {tail : Bytes}
    (h : lead first.toNat = some (bits, tail.length, minimum)) :
    sequenceCodepoint (first :: tail) = (tail.map fun b => b.toNat % 64).foldl (fun cp d => cp * 64 + d) bits := by
  have hmask : ∀ n k, n &&& (2 ^ k - 1) = n % 2 ^ k := Nat.and_two_pow_sub_one_eq_mod
  have hdigit : ∀ b : UInt8, b.toNat &&& 0x3F = b.toNat % 64 := fun b => hmask _ 6
  have hstep : ∀ (cp : ℕ) (b : UInt8), cp * 64 + b.toNat % 64 = cp <<< 6 ||| b.toNat % 64 :=
    fun cp b => (shiftLeft_or cp (show b.toNat % 64 < 2 ^ 6 from Nat.mod_lt _ (by decide))).symm
  have htwice : ∀ n : ℕ, n <<< 12 = n <<< 6 <<< 6 ∧ n <<< 18 = n <<< 6 <<< 6 <<< 6 :=
    fun n => ⟨Nat.shiftLeft_add n 6 6, by rw [← Nat.shiftLeft_add, ← Nat.shiftLeft_add]⟩
  rw [lead] at h
  split_ifs at h with h₁ h₂ h₃
  · obtain ⟨rfl, hlen, -⟩ : _ ∧ 1 = tail.length ∧ _ := by simpa using h
    obtain ⟨b, rfl⟩ := List.length_eq_one_iff.mp hlen.symm
    have hmod : first.toNat &&& 0x1F = first.toNat % 32 := hmask _ 5
    have hbits : first.toNat &&& 0x1F = first.toNat - 0xC0 := hmod.trans (by omega)
    simp [sequenceCodepoint, hdigit, hbits, hstep]
  · obtain ⟨rfl, hlen, -⟩ : _ ∧ 2 = tail.length ∧ _ := by simpa using h
    obtain ⟨b, c, rfl⟩ := List.length_eq_two.mp hlen.symm
    have hmod : first.toNat &&& 0x0F = first.toNat % 16 := hmask _ 4
    have hbits : first.toNat &&& 0x0F = first.toNat - 0xE0 := hmod.trans (by omega)
    simp only [sequenceCodepoint, hdigit, hbits, List.map_cons, List.map_nil, List.foldl_cons, List.foldl_nil, hstep,
      htwice, Nat.shiftLeft_or_distrib]
  · obtain ⟨rfl, hlen, -⟩ : _ ∧ 3 = tail.length ∧ _ := by simpa using h
    obtain ⟨b, c, d, rfl⟩ := List.length_eq_three.mp hlen.symm
    have hmod : first.toNat &&& 0x07 = first.toNat % 8 := hmask _ 3
    have hbits : first.toNat &&& 0x07 = first.toNat - 0xF0 := hmod.trans (by omega)
    simp only [sequenceCodepoint, hdigit, hbits, List.map_cons, List.map_nil, List.foldl_cons, List.foldl_nil, hstep,
      htwice, Nat.shiftLeft_or_distrib]

theorem map_lowered {tail : Bytes} {digits : List ℕ} (hdigits : ∀ d ∈ digits, d < 64) :
    tail.map lowered = digits.map continuationByte ↔
      (∀ b ∈ tail, 0x80 ≤ b.toNat) ∧ digits = tail.map fun b => b.toNat % 64 := by
  induction tail generalizing digits with
  | nil =>
    rw [List.map_nil, List.map_nil, eq_comm, List.map_eq_nil_iff]
    exact (and_iff_right fun b hb => absurd hb List.not_mem_nil).symm
  | cons b tail ih =>
    cases digits with
    | nil => exact iff_of_false (List.cons_ne_nil _ _) fun h => List.cons_ne_nil _ _ h.2.symm
    | cons d digits =>
      rw [List.forall_mem_cons] at hdigits
      rw [List.map_cons, List.map_cons, List.map_cons, List.cons.injEq, List.cons.injEq, List.forall_mem_cons,
        lowered_eq_iff hdigits.1, ih hdigits.2, eq_comm (a := d)]
      exact and_and_and_comm

variable {first : UInt8} {bits count minimum : ℕ} {tail rest : Bytes} {c : Char}

theorem utf8SequenceLength_lead (h : lead first.toNat = some (bits, tail.length, minimum))
    (hmin : 0xC2 ≤ first.toNat) (hmax : first.toNat ≤ 0xF4) :
    utf8SequenceLength (first :: (tail ++ rest)) = tail.length + 1 := by
  rw [utf8SequenceLength, List.length_append]
  rw [lead] at h
  split_ifs at h with h₁ h₂ h₃
  all_goals
    obtain ⟨-, hlen, -⟩ : _ ∧ _ = tail.length ∧ _ := by simpa using h
    rw [← hlen]
  · rw [if_neg (by omega), if_pos (by omega), if_pos (by omega)]
  · rw [if_neg (by omega), if_neg (by omega), if_pos (by omega), if_pos (by omega)]
  · rw [if_neg (by omega), if_neg (by omega), if_neg (by omega), if_pos (by omega), if_pos (by omega)]

theorem lead_of_utf8SequenceLength (h : utf8SequenceLength (first :: rest) = count + 1) (hcount : count ≠ 0) :
    (∃ bits minimum, lead first.toNat = some (bits, count, minimum)) ∧ count ≤ rest.length ∧ 0xC2 ≤ first.toNat := by
  rw [utf8SequenceLength] at h
  rw [lead]
  split_ifs at h with hascii h₁ hroom h₂ hroom h₃ hroom
  · omega
  · obtain rfl : count = 1 := by omega
    rw [if_pos (by omega)]
    exact ⟨⟨_, _, rfl⟩, by omega, h₁.1⟩
  · obtain rfl : count = 2 := by omega
    rw [if_neg (by omega), if_pos (by omega)]
    exact ⟨⟨_, _, rfl⟩, by omega, by omega⟩
  · obtain rfl : count = 3 := by omega
    rw [if_neg (by omega), if_neg (by omega), if_pos (by omega)]
    exact ⟨⟨_, _, rfl⟩, by omega, by omega⟩

theorem lead_bounds {digits : List ℕ} (h : lead first.toNat = some (bits, digits.length, minimum))
    (hdigits : ∀ d ∈ digits, d < 64) :
    0xC2 ≤ first.toNat ∧ (digits.length = 2 → 0x800 ≤ digits.foldl (fun cp d => cp * 64 + d) bits) ∧
        (digits.length = 3 → 0x10000 ≤ digits.foldl (fun cp d => cp * 64 + d) bits) ↔
      minimum ≤ digits.foldl (fun cp d => cp * 64 + d) bits := by
  rw [lead] at h
  split_ifs at h with h₁ h₂ h₃
  · obtain ⟨rfl, hlen, rfl⟩ : _ ∧ 1 = digits.length ∧ _ := by simpa using h
    obtain ⟨d, rfl⟩ := List.length_eq_one_iff.mp hlen.symm
    have hd := hdigits d (by simp)
    simp only [List.foldl_cons, List.foldl_nil, List.length_singleton]
    omega
  · obtain ⟨rfl, hlen, rfl⟩ : _ ∧ 2 = digits.length ∧ _ := by simpa using h
    rw [← hlen]
    omega
  · obtain ⟨rfl, hlen, rfl⟩ : _ ∧ 3 = digits.length ∧ _ := by simpa using h
    rw [← hlen]
    omega

theorem lead_max {digits : List ℕ} (h : lead first.toNat = some (bits, digits.length, minimum))
    (hmax : digits.foldl (fun cp d => cp * 64 + d) bits < 0x110000) : first.toNat ≤ 0xF4 ∧ digits.length ≠ 0 := by
  rw [lead] at h
  split_ifs at h with h₁ h₂ h₃
  · obtain ⟨-, hlen, -⟩ : _ ∧ 1 = digits.length ∧ _ := by simpa using h
    omega
  · obtain ⟨-, hlen, -⟩ : _ ∧ 2 = digits.length ∧ _ := by simpa using h
    omega
  · obtain ⟨rfl, hlen, -⟩ : _ ∧ 3 = digits.length ∧ _ := by simpa using h
    obtain ⟨d, e, f, rfl⟩ := List.length_eq_three.mp hlen.symm
    simp only [List.foldl_cons, List.foldl_nil, List.length_cons] at hmax ⊢
    omega

theorem decodeUtf8_taken {piece : Bytes} (h : TakenFor piece c) (rest : Bytes) :
    decodeUtf8 (piece ++ rest) = some (c.toNat, piece.length) := by
  obtain ⟨first, tail, rfl, henc, hxml⟩ := h
  have hlt := char_toNat_lt c
  suffices h : utf8SequenceLength (first :: (tail ++ rest)) = tail.length + 1 ∧
      decodeSequence (first :: tail) = some (c.toNat, tail.length + 1) by
    rw [List.cons_append, decodeUtf8, h.1, if_neg (Nat.succ_ne_zero _), List.take_succ_cons, List.take_left, h.2]
    rfl
  rcases utf8EncodeChar_cases c with
    ⟨hascii, hone⟩ | ⟨first', bits, minimum, digits, hmulti, hfirst, hlead, hdigits, hcp, hmin⟩
  · rw [hone, List.cons.injEq] at henc
    obtain ⟨rfl, hnil⟩ := henc
    obtain rfl := List.map_eq_nil_iff.mp hnil.symm
    have hbyte : (UInt8.ofNat c.toNat).toNat = c.toNat := by
      rw [UInt8.toNat_ofNat']
      omega
    constructor
    · rw [utf8SequenceLength, hbyte, if_pos (by omega)]
      rfl
    · have hcodepoint : sequenceCodepoint [UInt8.ofNat c.toNat] = c.toNat := hbyte
      simp only [decodeSequence, hcodepoint]
      rw [if_pos List.length_singleton, if_pos (show isXmlChar c.toNat = true from hxml)]
      rfl
  · rw [hmulti, List.cons.injEq] at henc
    obtain ⟨rfl, hmap⟩ := henc
    obtain ⟨hcont, rfl⟩ := (map_lowered hdigits).mp hmap.symm
    obtain ⟨hc2, h₂, h₃⟩ := (lead_bounds hlead hdigits).mpr (hcp ▸ hmin)
    obtain ⟨hf4, hcount⟩ := lead_max hlead (hcp ▸ hlt)
    rw [List.length_map] at hlead h₂ h₃ hcount
    have hcodepoint := sequenceCodepoint_eq hlead
    rw [hcp] at hcodepoint h₂ h₃
    have hvalid : c.toNat < 0xD800 ∨ 0xDFFF < c.toNat ∧ c.toNat < 0x110000 := c.valid
    refine ⟨utf8SequenceLength_lead hlead hc2 hf4, ?_⟩
    simp only [decodeSequence, hcodepoint, List.length_cons, List.drop_one, List.tail_cons]
    rw [if_neg (by omega), if_neg (by simpa [and_80] using hcont), if_neg (by rw [hxml]; decide),
      if_neg (by omega), if_neg (by omega)]

theorem decodeUtf8_sound {data : Bytes} {cp n : ℕ} (h : decodeUtf8 data = some (cp, n)) :
    ∃ c piece rest, data = piece ++ rest ∧ TakenFor piece c ∧ cp = c.toNat ∧ n = piece.length := by
  cases data with
  | nil => cases h
  | cons first rest =>
    rw [decodeUtf8] at h
    split_ifs at h with hzero
    obtain ⟨count, hlength⟩ := Nat.exists_eq_succ_of_ne_zero hzero
    rw [hlength, List.take_succ_cons, decodeSequence] at h
    by_cases hone : count = 0
    · subst hone
      rw [List.take_zero, if_pos List.length_singleton] at h
      split_ifs at h with hxml
      cases h
      have hascii : first.toNat ≤ 0x7F := by
        by_contra hlarge
        rw [utf8SequenceLength, if_neg hlarge] at hlength
        split_ifs at hlength <;> omega
      have hvalid : first.toNat.isValidChar := .inl (by omega)
      refine ⟨Char.ofNat first.toNat, [first], rest, rfl, ⟨first, [], rfl, ?_, ?_⟩, (toNat_ofNat_of_valid hvalid).symm, rfl⟩
      · rw [utf8EncodeChar_ofNat hvalid, if_pos hascii, UInt8.ofNat_toNat]
        rfl
      · rw [XmlChar, toNat_ofNat_of_valid hvalid]
        exact hxml
    · obtain ⟨⟨bits, minimum, hlead⟩, hroom, hc2⟩ := lead_of_utf8SequenceLength hlength hone
      have htail : (rest.take count).length = count := by
        rw [List.length_take]
        omega
      have hcut : rest = rest.take count ++ rest.drop count := (List.take_append_drop _ _).symm
      generalize rest.take count = tail at h htail hcut
      generalize rest.drop count = more at hcut
      subst hcut htail
      rw [List.length_cons, if_neg (by omega), List.drop_one, List.tail_cons] at h
      split_ifs at h with hcont hxml hmin hsurrogate
      cases h
      rw [Bool.not_eq_true', Bool.not_eq_false] at hxml
      have hcontinued : ∀ b ∈ tail, 0x80 ≤ b.toNat := by simpa [and_80] using hcont
      have hdigits : ∀ d ∈ tail.map fun b => b.toNat % 64, d < 64 := by
        intro d hd
        obtain ⟨b, -, rfl⟩ := List.mem_map.mp hd
        exact Nat.mod_lt _ (by decide)
      have hcodepoint := sequenceCodepoint_eq hlead
      rw [← @List.length_map _ _ tail fun b => b.toNat % 64] at hlead
      have hvalid := isValidChar_of_xml hxml
      have hbounds := (lead_bounds hlead hdigits).mp ⟨hc2, fun h => ?_, fun h => ?_⟩
      · refine ⟨Char.ofNat _, first :: tail, more, rfl, ⟨first, tail, rfl, ?_, ?_⟩,
          (toNat_ofNat_of_valid hvalid).symm, rfl⟩
        · rw [(map_lowered hdigits).mpr ⟨hcontinued, rfl⟩]
          exact utf8EncodeChar_digits hlead hdigits hcodepoint (hcodepoint ▸ hbounds) hvalid
        · rw [XmlChar, toNat_ofNat_of_valid hvalid]
          exact hxml
      all_goals
        rw [← hcodepoint]
        rw [List.length_map] at h
        omega

theorem TakenFor.length_pos {piece : Bytes} (h : TakenFor piece c) : 0 < piece.length := by
  obtain ⟨first, tail, rfl, -⟩ := h
  exact Nat.succ_pos _

theorem validXmlFrom_succ {fuel : ℕ} {text : Bytes} (h : text ≠ []) :
    validXmlFrom (fuel + 1) text = true ↔ ∃ c piece rest, text = piece ++ rest ∧ TakenFor piece c ∧
      validXmlFrom fuel rest = true := by
  obtain ⟨first, rest, rfl⟩ := List.exists_cons_of_ne_nil h
  simp only [validXmlFrom]
  constructor
  · intro h
    split at h
    · cases h
    next cp n hdecode =>
    obtain ⟨c, piece, more, htext, htaken, -, rfl⟩ := decodeUtf8_sound hdecode
    rw [htext, List.drop_left] at h
    exact ⟨c, piece, more, htext, htaken, h⟩
  · rintro ⟨c, piece, more, htext, htaken, h⟩
    rw [htext, decodeUtf8_taken htaken]
    dsimp only
    rw [List.drop_left]
    exact h

theorem validXmlFrom_iff {fuel : ℕ} {text : Bytes} (hfuel : text.length ≤ fuel) :
    validXmlFrom fuel text = true ↔ ∃ pieces cs, text = pieces.flatten ∧ List.Forall₂ TakenFor pieces cs := by
  by_cases hne : text = []
  · subst hne
    exact iff_of_true (by cases fuel <;> rfl) ⟨[], [], rfl, .nil⟩
  · induction fuel generalizing text with
    | zero => exact absurd (List.eq_nil_of_length_eq_zero (Nat.le_zero.mp hfuel)) hne
    | succ fuel ih =>
      have hrest : ∀ {piece rest c}, text = piece ++ rest → TakenFor piece c → (validXmlFrom fuel rest = true ↔
          ∃ pieces cs, rest = pieces.flatten ∧ List.Forall₂ TakenFor pieces cs) := by
        rintro piece rest c rfl htaken
        have hpos := htaken.length_pos
        rw [List.length_append] at hfuel
        by_cases hempty : rest = []
        · subst hempty
          exact iff_of_true (by cases fuel <;> rfl) ⟨[], [], rfl, .nil⟩
        · exact ih (by omega) hempty
      rw [validXmlFrom_succ hne]
      constructor
      · rintro ⟨c, piece, rest, htext, htaken, h⟩
        obtain ⟨pieces, cs, rfl, hpieces⟩ := (hrest htext htaken).mp h
        exact ⟨piece :: pieces, c :: cs, htext, .cons htaken hpieces⟩
      · rintro ⟨pieces, cs, htext, hpieces⟩
        cases hpieces with
        | nil => exact absurd htext hne
        | @cons piece c pieces cs htaken hpieces =>
          exact ⟨c, piece, pieces.flatten, htext, htaken, (hrest htext htaken).mpr ⟨pieces, cs, rfl, hpieces⟩⟩

theorem takenFor_encoding (h : XmlChar c) : TakenFor (String.utf8EncodeChar c) c := by
  rcases utf8EncodeChar_cases c with ⟨-, hone⟩ | ⟨first, bits, minimum, digits, hmulti, -, -, hdigits, -, -⟩
  · exact ⟨_, [], hone, hone, h⟩
  · refine ⟨first, _, hmulti, ?_, h⟩
    rw [hmulti, List.map_map]
    refine congrArg (first :: ·) (List.map_congr_left fun d hd => ?_)
    have hbyte := toNat_continuationByte (hdigits d hd)
    have hd := hdigits d hd
    exact ((lowered_eq_iff hd).mpr (by omega)).symm

theorem takenFor_unique {pieces pieces' : List Bytes} {cs cs' : List Char} (h : List.Forall₂ TakenFor pieces cs)
    (h' : List.Forall₂ TakenFor pieces' cs') (htext : pieces.flatten = pieces'.flatten) : pieces = pieces' ∧ cs = cs' := by
  have hne : ∀ {piece c}, TakenFor piece c → piece ≠ [] := fun h => List.ne_nil_of_length_pos h.length_pos
  induction h generalizing pieces' cs' with
  | nil =>
    cases h' with
    | nil => exact ⟨rfl, rfl⟩
    | cons hfirst _ => exact absurd (List.append_eq_nil_iff.mp htext.symm).1 (hne hfirst)
  | @cons piece c pieces cs hfirst hrest ih =>
    cases h' with
    | nil => exact absurd (List.append_eq_nil_iff.mp htext).1 (hne hfirst)
    | @cons piece' c' pieces' cs' hfirst' hrest' =>
      rw [List.flatten_cons, List.flatten_cons] at htext
      have hread := decodeUtf8_taken hfirst pieces.flatten
      rw [htext, decodeUtf8_taken hfirst', Option.some.injEq, Prod.mk.injEq] at hread
      obtain ⟨rfl, hflatten⟩ := List.append_inj htext hread.2.symm
      obtain ⟨rfl, rfl⟩ := ih hrest' hflatten
      exact ⟨rfl, congrArg (· :: _) (Char.toNat_inj.mp hread.1.symm)⟩

theorem appendUtf8_eq (h : XmlChar c) {output : Bytes} {capacity : ℕ}
    (hroom : output.length + (String.utf8EncodeChar c).length ≤ capacity) :
    appendUtf8 c.toNat output capacity = some (output ++ String.utf8EncodeChar c) := by
  have hvalid := isValidChar_of_xml h
  have hlt := char_toNat_lt c
  have hmask : ∀ n, n &&& 0x3F = n % 64 := fun n => Nat.and_two_pow_sub_one_eq_mod n 6
  have hlow : ∀ n, UInt8.ofNat (0x80 ||| n % 64) = continuationByte (n % 64) := fun n => by
    have hor : 0x80 ||| n % 64 = 0x80 + n % 64 :=
      shiftLeft_or 2 (show n % 64 < 2 ^ 6 from Nat.mod_lt n (by decide))
    rw [hor, continuationByte, Nat.add_comm]
  have hfirst : ∀ k n, n < 2 ^ k → ∀ a, UInt8.ofNat (a <<< k ||| n) = UInt8.ofNat (a * 2 ^ k + n) :=
    fun k n hn a => congrArg UInt8.ofNat (shiftLeft_or a hn)
  have henc := utf8EncodeChar_ofNat hvalid
  rw [Char.ofNat_toNat] at henc
  rw [henc] at hroom ⊢
  simp only [appendUtf8, hmask, hlow, Nat.shiftRight_eq_div_pow]
  rw [if_neg (by rw [h]; decide)]
  split_ifs at hroom ⊢ with h₁ h₂ h₃ h₄ h₅ h₆
  all_goals
    simp only [List.length_cons, List.length_nil] at hroom
    try omega
  · rfl
  · have hbits : c.toNat / 64 % 0x20 + 0xC0 = 6 * 2 ^ 5 + c.toNat / 2 ^ 6 := by omega
    rw [hbits, ← hfirst 5 _ (by omega)]
    rfl
  · have hbits : c.toNat / 4096 % 0x10 + 0xE0 = 14 * 2 ^ 4 + c.toNat / 2 ^ 12 := by omega
    rw [hbits, ← hfirst 4 _ (by omega)]
    rfl
  · have hbits : c.toNat / 262144 % 0x08 + 0xF0 = 30 * 2 ^ 3 + c.toNat / 2 ^ 18 := by omega
    rw [hbits, ← hfirst 3 _ (by omega)]
    rfl

/-- `decode_utf8` reads the encoding of an XML character in front of a text, and nothing else. -/
def DecodesEncodings (data : Bytes) : Prop :=
  ∀ cp n, decodeUtf8 data = some (cp, n) ↔ ∃ c rest, data = String.utf8EncodeChar c ++ rest ∧ XmlChar c ∧
    cp = c.toNat ∧ n = (String.utf8EncodeChar c).length

/-- `valid_xml_string` accepts the encodings of XML characters, and nothing else. -/
def ValidatesEncodings (text : Bytes) : Prop :=
  validXmlString text = true ↔ ∃ cs : List Char, text = cs.flatMap String.utf8EncodeChar ∧ ∀ c ∈ cs, XmlChar c

theorem decodesEncodings_iff (data : Bytes) : DecodesEncodings data ↔
    ∀ piece rest c, data = piece ++ rest → TakenFor piece c → piece = String.utf8EncodeChar c := by
  constructor
  · rintro h piece rest c rfl htaken
    obtain ⟨c', rest', htext, -, hcp, hlength⟩ := (h _ _).mp (decodeUtf8_taken htaken rest)
    rw [Char.toNat_inj.mp hcp]
    exact (List.append_inj htext hlength).1
  · intro h cp n
    constructor
    · intro hdecode
      obtain ⟨c, piece, rest, rfl, htaken, hcp, hn⟩ := decodeUtf8_sound hdecode
      obtain rfl := h piece rest c rfl htaken
      obtain ⟨-, -, -, -, hxml⟩ := htaken
      exact ⟨c, rest, rfl, hxml, hcp, hn⟩
    · rintro ⟨c, rest, rfl, hxml, rfl, rfl⟩
      exact decodeUtf8_taken (takenFor_encoding hxml) rest

theorem takenFor_encodings {cs : List Char} (h : ∀ c ∈ cs, XmlChar c) :
    List.Forall₂ TakenFor (cs.map String.utf8EncodeChar) cs := by
  rw [List.forall₂_map_left_iff, List.forall₂_same]
  exact fun c hc => takenFor_encoding (h c hc)

theorem xmlChar_of_forall₂ {pieces : List Bytes} {cs : List Char} (h : List.Forall₂ TakenFor pieces cs) :
    ∀ c ∈ cs, XmlChar c := by
  induction h with
  | nil => exact fun c hc => absurd hc List.not_mem_nil
  | cons hfirst _ ih =>
    obtain ⟨-, -, -, -, hxml⟩ := hfirst
    exact List.forall_mem_cons.mpr ⟨hxml, ih⟩

theorem validatesEncodings_iff (text : Bytes) : ValidatesEncodings text ↔
    ∀ pieces cs, text = pieces.flatten → List.Forall₂ TakenFor pieces cs → pieces = cs.map String.utf8EncodeChar := by
  rw [ValidatesEncodings, validXmlString, validXmlFrom_iff (Nat.le_refl _)]
  constructor
  · intro h pieces cs htext hpieces
    obtain ⟨cs', htext', hcs'⟩ := h.mp ⟨pieces, cs, htext, hpieces⟩
    rw [List.flatMap_def, htext] at htext'
    obtain ⟨rfl, rfl⟩ := takenFor_unique hpieces (takenFor_encodings hcs') htext'
    rfl
  · intro h
    constructor
    · rintro ⟨pieces, cs, rfl, hpieces⟩
      refine ⟨cs, ?_, xmlChar_of_forall₂ hpieces⟩
      rw [h pieces cs rfl hpieces, List.flatMap_def]
    · rintro ⟨cs, rfl, hcs⟩
      exact ⟨_, cs, List.flatMap_def, takenFor_encodings hcs⟩

/-- What is read are the encodings of XML characters exactly where no byte from `0xC0` on stands
for a continuation byte. What is appended for a character is always read as the character. -/
theorem decodes_and_validates (data : Bytes) :
    (DecodesEncodings data ↔
      ∀ piece rest c, data = piece ++ rest → TakenFor piece c → piece = String.utf8EncodeChar c) ∧
    (ValidatesEncodings data ↔
      ∀ pieces cs, data = pieces.flatten → List.Forall₂ TakenFor pieces cs →
        pieces = cs.map String.utf8EncodeChar) ∧
    ∀ c, XmlChar c → ∀ capacity, data.length + (String.utf8EncodeChar c).length ≤ capacity → ∃ added,
      appendUtf8 c.toNat data capacity = some (data ++ added) ∧
        ∀ rest, decodeUtf8 (added ++ rest) = some (c.toNat, added.length) :=
  ⟨decodesEncodings_iff data, validatesEncodings_iff data, fun _ hxml _ hroom =>
    ⟨_, appendUtf8_eq hxml hroom, decodeUtf8_taken (takenFor_encoding hxml)⟩⟩

/-- `C3 FF` is read as U+00FF, whose encoding is `C3 BF`. -/
theorem wrong_continuation_accepted : decodeUtf8 [0xC3, 0xFF] = some (0xFF, 2) ∧ validXmlString [0xC3, 0xFF] = true ∧
    ¬DecodesEncodings [0xC3, 0xFF] ∧ ¬ValidatesEncodings [0xC3, 0xFF] := by
  have htaken : TakenFor [0xC3, 0xFF] (Char.ofNat 0xFF) := ⟨0xC3, [0xFF], rfl, by decide, show isXmlChar 0xFF = true by decide⟩
  refine ⟨by decide, by decide, fun h => ?_, fun h => ?_⟩
  · exact absurd ((decodesEncodings_iff _).mp h _ [] _ rfl htaken) (by decide)
  · exact absurd ((validatesEncodings_iff _).mp h [[0xC3, 0xFF]] _ rfl (.cons htaken .nil)) (by decide)

end Castle.Serialization.Xml
