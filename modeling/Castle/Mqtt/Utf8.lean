import Castle.Lib.WordBits
import Castle.Lib.Utf8
import Castle.Mqtt.Topic

/-!
# The texts that `valid_utf8` accepts (`topic.hpp`)

The UTF-8 encoding of a Unicode scalar value is Lean's own `String.utf8EncodeChar`. The
loop is modelled a second time on indices into the text, where a read behind the end shows.
-/

namespace Castle.Mqtt

open Utf8

/-- The characters an MQTT text may hold: not U+0000, and no noncharacter. -/
def Permitted (c : Char) : Prop :=
  c.toNat ≠ 0 ∧ ¬(0xFDD0 ≤ c.toNat ∧ c.toNat ≤ 0xFDEF) ∧
    c.toNat % 0x10000 ≠ 0xFFFE ∧ c.toNat % 0x10000 ≠ 0xFFFF

/-- A sequence of permitted characters, each in its shortest form. -/
def MqttText (value : Bytes) : Prop :=
  ∃ cs : List Char, value = cs.flatMap String.utf8EncodeChar ∧ ∀ c ∈ cs, Permitted c

/-- The inner loop over `count` continuation bytes from index `i`: the code point and the
next index, if every byte is one. `none` is a read behind the end. -/
def readContinuation (value : Bytes) : ℕ → ℕ → ℕ → Option (Option (ℕ × ℕ))
  | 0, i, cp => some (some (cp, i))
  | count + 1, i, cp =>
    match value[i]? with
    | none => none
    | some next =>
      if next &&& 0xC0 ≠ 0x80 then some none
      else readContinuation value count (i + 1) (cp * 64 + (next &&& 0x3F).toNat)

/-- The loop of `valid_utf8` at index `i`; `none` is a read behind the end, or a loop that
takes more than `fuel` turns. -/
def readUtf8 (value : Bytes) : ℕ → ℕ → Option Bool
  | 0, i => if i < value.length then none else some true
  | fuel + 1, i =>
    if i < value.length then
      match value[i]? with
      | none => none
      | some first =>
        let cp := first.toNat
        if cp = 0 ∨ cp = 0xFFFF ∨ cp = 0xFFFE then some false
        else if cp < 0x80 then readUtf8 value fuel (i + 1)
        else
          match leadByte cp with
          | none => some false
          | some (bits, continuation, minimum) =>
            if i + 1 + continuation > value.length then some false
            else
              match readContinuation value continuation (i + 1) bits with
              | none => none
              | some none => some false
              | some (some (cp, i)) =>
                if cp < minimum ∨ cp > 0x10FFFF ∨ (0xD800 ≤ cp ∧ cp ≤ 0xDFFF) ∨
                    (0xFDD0 ≤ cp ∧ cp ≤ 0xFDEF) ∨ cp % 0x10000 = 0xFFFE ∨
                    cp % 0x10000 = 0xFFFF then
                  some false
                else readUtf8 value fuel i
    else some true

theorem continuationBytes_rest {count cp cp' : ℕ} {rest rest' : Bytes}
    (h : continuationBytes count cp rest = some (cp', rest')) : rest' = rest.drop count := by
  induction count generalizing cp rest with
  | zero =>
    cases h
    rfl
  | succ count ih =>
    cases rest with
    | nil => cases h
    | cons next rest =>
      simp only [continuationBytes] at h
      split at h
      · cases h
      · rw [ih h, List.drop_succ_cons]

theorem readContinuation_eq {value : Bytes} {count i : ℕ} (cp : ℕ) (h : i + count ≤ value.length) :
    readContinuation value count i cp =
      some ((continuationBytes count cp (value.drop i)).map fun found => (found.1, i + count)) := by
  induction count generalizing i cp with
  | zero => rfl
  | succ count ih =>
    have hi : i < value.length := by omega
    rw [List.drop_eq_getElem_cons hi]
    simp only [readContinuation, continuationBytes, List.getElem?_eq_getElem hi]
    split_ifs with hnext
    · rfl
    · rw [ih _ (by omega), Nat.add_assoc, Nat.add_comm 1 count]

theorem readUtf8_eq {value : Bytes} {fuel i : ℕ} (h : value.length - i ≤ fuel) :
    readUtf8 value fuel i = some (validUtf8From fuel (value.drop i)) := by
  induction fuel generalizing i with
  | zero =>
    have hi : ¬i < value.length := by omega
    rw [readUtf8, if_neg hi, List.drop_eq_nil_of_le (not_lt.mp hi)]
    rfl
  | succ fuel ih =>
    rw [readUtf8]
    split_ifs with hi
    · rw [List.drop_eq_getElem_cons hi]
      simp only [List.getElem?_eq_getElem hi, validUtf8From]
      have hbyte := value[i].toNat_lt
      have hnever : (value[i].toNat = 0 ∨ value[i].toNat = 0xFFFF ∨ value[i].toNat = 0xFFFE) ↔
          value[i].toNat = 0 := by omega
      simp only [hnever]
      split_ifs with hzero hascii
      · rfl
      · exact ih (by omega)
      · cases hlead : leadByte value[i].toNat with
        | none => rfl
        | some lead =>
          obtain ⟨bits, continuation, minimum⟩ := lead
          dsimp only
          have hlength : (value.drop (i + 1)).length < continuation ↔
              i + 1 + continuation > value.length := by
            rw [List.length_drop]
            omega
          simp only [hlength]
          split_ifs with hroom
          · rfl
          rw [readContinuation_eq bits (not_lt.mp hroom)]
          cases hread : continuationBytes continuation bits (value.drop (i + 1)) with
          | none => rfl
          | some found =>
            obtain ⟨cp, rest⟩ := found
            rw [continuationBytes_rest hread, List.drop_drop]
            simp only [Option.map_some]
            split_ifs
            · rfl
            · exact ih (by omega)
    · rw [List.drop_eq_nil_of_le (not_lt.mp hi)]
      rfl

theorem isContinuation_iff (b : UInt8) : b &&& 0xC0 = 0x80 ↔ 0x80 ≤ b.toNat ∧ b.toNat < 0xC0 := by
  revert b
  refine WordBits.forall_byte ?_
  set_option maxRecDepth 1000 in
  decide

theorem toNat_and_3f (b : UInt8) : (b &&& 0x3F).toNat = b.toNat % 64 := by
  rw [UInt8.toNat_and]
  exact Nat.and_two_pow_sub_one_eq_mod b.toNat 6

theorem leadByte_eq {n : ℕ} (h : n < 256) : leadByte n = lead n := by
  have hall : ∀ n : Fin 256, leadByte n.val = lead n.val := by set_option maxRecDepth 1000 in decide
  exact hall ⟨n, h⟩

theorem continuationBytes_eq_some {count cp cp' : ℕ} {rest rest' : Bytes} :
    continuationBytes count cp rest =
    some (cp', rest') ↔ ∃ digits : List ℕ, digits.length = count ∧ (∀ d ∈ digits, d < 64) ∧ rest =
    digits.map continuationByte ++ rest' ∧ cp' = digits.foldl (fun cp d => cp * 64 + d) cp := by
  induction count generalizing cp rest with
  | zero =>
    rw [continuationBytes, Option.some.injEq, Prod.mk.injEq]
    constructor
    · rintro ⟨rfl, rfl⟩
      exact ⟨[], rfl, by simp, rfl, rfl⟩
    · rintro ⟨digits, hlength, -, hrest, hcp⟩
      rw [List.length_eq_zero_iff.mp hlength] at hrest hcp
      exact ⟨hcp.symm, hrest⟩
  | succ count ih =>
    constructor
    · intro h
      cases rest with
      | nil => cases h
      | cons next rest =>
        simp only [continuationBytes] at h
        split at h
        · cases h
        next hnext =>
        rw [not_not, isContinuation_iff] at hnext
        obtain ⟨digits, hlength, hdigits, rfl, rfl⟩ := ih.mp h
        have hbyte : continuationByte (next.toNat % 64) = next := by
          have hsum : next.toNat % 64 + 0x80 = next.toNat := by omega
          rw [continuationByte, hsum, UInt8.ofNat_toNat]
        refine ⟨next.toNat % 64 :: digits, by rw [List.length_cons, hlength], ?_, ?_, ?_⟩
        · intro d hd
          rcases List.mem_cons.mp hd with rfl | hd
          · omega
          · exact hdigits d hd
        · rw [List.map_cons, hbyte, List.cons_append]
        · rw [List.foldl_cons, toNat_and_3f]
    · rintro ⟨digits, hlength, hdigits, rfl, rfl⟩
      cases digits with
      | nil => cases hlength
      | cons d digits =>
        have hd := hdigits d List.mem_cons_self
        have hbyte := toNat_continuationByte hd
        rw [List.map_cons, List.cons_append, continuationBytes, if_neg, toNat_and_3f, hbyte]
        · apply ih.mpr
          refine ⟨digits, by simpa using hlength, fun d' hd' => hdigits d' (List.mem_cons_of_mem _ hd'), rfl, ?_⟩
          have hdigit : (d + 0x80) % 64 = d := by omega
          rw [List.foldl_cons, hdigit]
        · rw [not_not, isContinuation_iff, hbyte]
          omega

theorem MqttText.cons {c : Char} {rest : Bytes} (hc : Permitted c) (h : MqttText rest) :
    MqttText (String.utf8EncodeChar c ++ rest) := by
  obtain ⟨cs, rfl, hcs⟩ := h
  refine ⟨c :: cs, rfl, fun d hd => ?_⟩
  rcases List.mem_cons.mp hd with rfl | hd
  · exact hc
  · exact hcs d hd

theorem validUtf8From_sound {fuel : ℕ} {value : Bytes} (h : validUtf8From fuel value = true) :
    MqttText value := by
  induction fuel generalizing value with
  | zero =>
    cases value with
    | nil => exact ⟨[], rfl, by simp⟩
    | cons first rest => cases h
  | succ fuel ih =>
    cases value with
    | nil => exact ⟨[], rfl, by simp⟩
    | cons first rest =>
      simp only [validUtf8From] at h
      split at h
      · cases h
      next hzero =>
      split at h
      next hascii =>
        have hvalid : first.toNat.isValidChar := .inl (by omega)
        have hval := toNat_ofNat_of_valid hvalid
        have hone : String.utf8EncodeChar (Char.ofNat first.toNat) = [first] := by
          rw [utf8EncodeChar_ofNat hvalid, if_pos (Nat.le_of_lt_succ hascii), UInt8.ofNat_toNat]
        have hpermitted : Permitted (Char.ofNat first.toNat) := by
          rw [Permitted, hval]
          omega
        have htext := MqttText.cons hpermitted (ih h)
        rwa [hone] at htext
      next hmulti =>
      cases hlead : leadByte first.toNat with
      | none =>
        rw [hlead] at h
        cases h
      | some lead =>
        obtain ⟨bits, continuation, minimum⟩ := lead
        rw [hlead] at h
        dsimp only at h
        split at h
        · cases h
        split at h
        · cases h
        next cp rest' hcont =>
        split at h
        · cases h
        next haccept =>
        obtain ⟨digits, rfl, hdigits, rfl, rfl⟩ := continuationBytes_eq_some.mp hcont
        simp only [not_or, not_and, not_le, not_lt] at haccept
        obtain ⟨hmin, hmax, hsurrogate, hnon, hfffe, hffff⟩ := haccept
        have hvalid : (digits.foldl (fun cp d => cp * 64 + d) bits).isValidChar := by
          unfold Nat.isValidChar
          omega
        have hpermitted : Permitted (Char.ofNat (digits.foldl (fun cp d => cp * 64 + d) bits)) := by
          have hpos : 0x80 ≤ minimum := by
            rw [leadByte_eq first.toNat_lt, lead] at hlead
            split_ifs at hlead <;> simp only [Option.some.injEq, Prod.mk.injEq] at hlead <;> omega
          rw [Permitted, toNat_ofNat_of_valid hvalid]
          omega
        have htext := MqttText.cons hpermitted (ih h)
        rwa [utf8EncodeChar_digits (leadByte_eq first.toNat_lt ▸ hlead) hdigits rfl hmin hvalid] at htext

theorem validUtf8From_append {c : Char} (hc : Permitted c) (fuel : ℕ) (rest : Bytes) :
    validUtf8From (fuel + 1) (String.utf8EncodeChar c ++ rest) = validUtf8From fuel rest := by
  obtain ⟨hzero, hnon, hfffe, hffff⟩ := hc
  have hlt := char_toNat_lt c
  rcases utf8EncodeChar_cases c with ⟨hascii, henc⟩ | ⟨first, bits, minimum, digits, henc, hfirst, hlead, hdigits, hcp, hmin⟩
  · have hbyte : (UInt8.ofNat c.toNat).toNat = c.toNat := by
      rw [UInt8.toNat_ofNat']
      omega
    rw [henc, List.singleton_append]
    simp only [validUtf8From, hbyte]
    rw [if_neg hzero, if_pos hascii]
  · have hread : continuationBytes digits.length bits (digits.map continuationByte ++ rest) = some (c.toNat, rest) :=
      continuationBytes_eq_some.mpr ⟨digits, rfl, hdigits, rfl, hcp.symm⟩
    have hroom : ¬(digits.map continuationByte ++ rest).length < digits.length := by simp
    have hsurrogate : c.toNat < 0xD800 ∨ 0xDFFF < c.toNat ∧ c.toNat < 0x110000 := c.valid
    rw [henc, List.cons_append]
    simp only [validUtf8From, leadByte_eq first.toNat_lt, hlead, hread]
    rw [if_neg (by omega), if_neg (by omega), if_neg hroom, if_neg (by omega)]

theorem validUtf8From_complete {cs : List Char} (hcs : ∀ c ∈ cs, Permitted c) {fuel : ℕ}
    (h : cs.length ≤ fuel) : validUtf8From fuel (cs.flatMap String.utf8EncodeChar) = true := by
  induction cs generalizing fuel with
  | nil => cases fuel <;> rfl
  | cons c cs ih =>
    obtain ⟨fuel, rfl⟩ := Nat.exists_eq_add_of_le' (Nat.one_le_of_lt h)
    rw [List.flatMap_cons, validUtf8From_append (hcs c List.mem_cons_self)]
    exact ih (fun d hd => hcs d (List.mem_cons_of_mem _ hd)) (Nat.le_of_succ_le_succ h)

theorem length_le_utf8 (cs : List Char) : cs.length ≤ (cs.flatMap String.utf8EncodeChar).length := by
  induction cs with
  | nil => exact le_rfl
  | cons c cs ih =>
    have hpos := c.utf8Size_pos
    rw [List.flatMap_cons, List.length_append, String.length_utf8EncodeChar, List.length_cons]
    omega

theorem validUtf8_iff {value : Bytes} : validUtf8 value = true ↔ MqttText value := by
  constructor
  · exact validUtf8From_sound
  · rintro ⟨cs, rfl, hcs⟩
    exact validUtf8From_complete hcs (length_le_utf8 cs)

/-- The loop on indices reads inside of the text only and decides whether it is an MQTT text. -/
theorem readUtf8_spec (value : Bytes) : ∃ accepted, readUtf8 value value.length 0 = some accepted ∧
    (accepted = true ↔ MqttText value) := by
  refine ⟨validUtf8 value, ?_, validUtf8_iff⟩
  rw [readUtf8_eq (Nat.sub_le _ _), List.drop_zero]
  rfl

end Castle.Mqtt
