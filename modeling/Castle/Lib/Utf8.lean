import Mathlib.Data.List.Basic
import Mathlib.Tactic.SplitIfs

/-!
# The UTF-8 encoding of characters

Lean's `String.utf8EncodeChar` by a first byte and the six-bit digits behind it.
-/

namespace Castle.Utf8

/-- The class of a first byte from `0x80` on: the bits it contributes, the number of bytes behind it
and the least code point of that length. -/
def lead (n : ℕ) : Option (ℕ × ℕ × ℕ) :=
  if 0xC0 ≤ n ∧ n < 0xE0 then some (n - 0xC0, 1, 0x80)
  else if 0xE0 ≤ n ∧ n < 0xF0 then some (n - 0xE0, 2, 0x800)
  else if 0xF0 ≤ n ∧ n < 0xF8 then some (n - 0xF0, 3, 0x10000)
  else none

/-- The continuation byte of a six-bit digit. -/
def continuationByte (digit : ℕ) : UInt8 := UInt8.ofNat (digit + 0x80)

theorem toNat_continuationByte {d : ℕ} (h : d < 64) : (continuationByte d).toNat = d + 0x80 := by
  rw [continuationByte, UInt8.toNat_ofNat']
  omega

theorem toNat_ofNat_of_valid {n : ℕ} (h : n.isValidChar) : (Char.ofNat n).toNat = n := by
  rw [Char.ofNat, dif_pos h]
  rfl

theorem char_toNat_lt (c : Char) : c.toNat < 0x110000 := by
  have hvalid : c.toNat < 0xD800 ∨ 0xDFFF < c.toNat ∧ c.toNat < 0x110000 := c.valid
  omega

/-- The encoding of a character: one byte, or a first byte and the digits of the code point. -/
theorem utf8EncodeChar_cases (c : Char) :
    (c.toNat < 0x80 ∧ String.utf8EncodeChar c = [UInt8.ofNat c.toNat]) ∨
      ∃ (first : UInt8) (bits minimum : ℕ) (digits : List ℕ),
        String.utf8EncodeChar c = first :: digits.map continuationByte ∧ 0x80 ≤ first.toNat ∧
          lead first.toNat = some (bits, digits.length, minimum) ∧ (∀ d ∈ digits, d < 64) ∧
          digits.foldl (fun cp d => cp * 64 + d) bits = c.toNat ∧ minimum ≤ c.toNat := by
  have hlead : ∀ n : ℕ, n < 256 → (UInt8.ofNat n).toNat = n := fun n hn => by
    rw [UInt8.toNat_ofNat', Nat.mod_eq_of_lt hn]
  obtain ⟨v, hv⟩ : ∃ v, c.val.toNat = v := ⟨_, rfl⟩
  have hlt : v < 0x110000 := hv ▸ char_toNat_lt c
  rw [show c.toNat = v from hv]
  unfold String.utf8EncodeChar
  simp only [hv]
  split_ifs with h₁ h₂ h₃
  · exact .inl ⟨by omega, rfl⟩
  · have hfirst := hlead (v / 64 % 0x20 + 0xc0) (by omega)
    have hbits : v / 64 % 0x20 + 0xc0 - 0xC0 = v / 64 := by omega
    refine .inr ⟨_, v / 64, 0x80, [v % 64], rfl, by omega, ?_, by simp; omega, ?_, by omega⟩
    · rw [hfirst, lead, if_pos (by omega), hbits]
      rfl
    · simp only [List.foldl_cons, List.foldl_nil]
      omega
  · have hfirst := hlead (v / 4096 % 0x10 + 0xe0) (by omega)
    have hbits : v / 4096 % 0x10 + 0xe0 - 0xE0 = v / 4096 := by omega
    refine .inr ⟨_, v / 4096, 0x800, [v / 64 % 64, v % 64], rfl, by omega, ?_, by simp; omega, ?_, by omega⟩
    · rw [hfirst, lead, if_neg (by omega), if_pos (by omega), hbits]
      rfl
    · simp only [List.foldl_cons, List.foldl_nil]
      omega
  · have hfirst := hlead (v / 262144 % 0x08 + 0xf0) (by omega)
    have hbits : v / 262144 % 0x08 + 0xf0 - 0xF0 = v / 262144 := by omega
    refine .inr ⟨_, v / 262144, 0x10000, [v / 4096 % 64, v / 64 % 64, v % 64], rfl, by omega, ?_,
      by simp; omega, ?_, by omega⟩
    · rw [hfirst, lead, if_neg (by omega), if_neg (by omega), if_pos (by omega), hbits]
      rfl
    · simp only [List.foldl_cons, List.foldl_nil]
      omega

theorem utf8EncodeChar_ofNat {n : ℕ} (h : n.isValidChar) : String.utf8EncodeChar (Char.ofNat n) =
    if n ≤ 0x7F then [UInt8.ofNat n]
    else if n ≤ 0x7FF then [UInt8.ofNat (n / 64 % 0x20 + 0xC0), continuationByte (n % 64)]
    else if n ≤ 0xFFFF then
      [UInt8.ofNat (n / 4096 % 0x10 + 0xE0), continuationByte (n / 64 % 64), continuationByte (n % 64)]
    else
      [UInt8.ofNat (n / 262144 % 0x08 + 0xF0), continuationByte (n / 4096 % 64),
        continuationByte (n / 64 % 64), continuationByte (n % 64)] := by
  have hval : (Char.ofNat n).val.toNat = n := toNat_ofNat_of_valid h
  simp only [String.utf8EncodeChar, hval]
  rfl

/-- A first byte and digits encode the code point they make, if it is a scalar value of that
length. -/
theorem utf8EncodeChar_digits {first : UInt8} {bits minimum cp : ℕ} {digits : List ℕ}
    (hlead : lead first.toNat = some (bits, digits.length, minimum)) (hdigits : ∀ d ∈ digits, d < 64)
    (hcp : cp = digits.foldl (fun cp d => cp * 64 + d) bits) (hmin : minimum ≤ cp) (hvalid : cp.isValidChar) :
    String.utf8EncodeChar (Char.ofNat cp) = first :: digits.map continuationByte := by
  have hbyte := first.toNat_lt
  have hback : ∀ n, n = first.toNat → UInt8.ofNat n = first := fun n hn => by
    rw [hn, UInt8.ofNat_toNat]
  rw [utf8EncodeChar_ofNat hvalid]
  rw [lead] at hlead
  -- the digits are one, two or three, as the first byte says
  split_ifs at hlead with h₁ h₂ h₃
  · simp only [Option.some.injEq, Prod.mk.injEq] at hlead
    obtain ⟨rfl, hlength, rfl⟩ := hlead
    obtain ⟨d, rfl⟩ := List.length_eq_one_iff.mp hlength.symm
    have hd := hdigits d (by simp)
    simp only [List.foldl_cons, List.foldl_nil] at hcp
    have htail : cp % 64 = d := by omega
    rw [if_neg (by omega), if_pos (by omega), hback _ (by omega), htail]
    rfl
  · simp only [Option.some.injEq, Prod.mk.injEq] at hlead
    obtain ⟨rfl, hlength, rfl⟩ := hlead
    obtain ⟨d, e, rfl⟩ := List.length_eq_two.mp hlength.symm
    have hd := hdigits d (by simp)
    have he := hdigits e (by simp)
    simp only [List.foldl_cons, List.foldl_nil] at hcp
    have htail : cp % 64 = e := by omega
    have hmiddle : cp / 64 % 64 = d := by omega
    rw [if_neg (by omega), if_neg (by omega), if_pos (by omega), hback _ (by omega), htail, hmiddle]
    rfl
  · simp only [Option.some.injEq, Prod.mk.injEq] at hlead
    obtain ⟨rfl, hlength, rfl⟩ := hlead
    obtain ⟨d, e, f, rfl⟩ := List.length_eq_three.mp hlength.symm
    have hd := hdigits d (by simp)
    have he := hdigits e (by simp)
    have hf := hdigits f (by simp)
    simp only [List.foldl_cons, List.foldl_nil] at hcp
    have htail : cp % 64 = f := by omega
    have hmiddle : cp / 64 % 64 = e := by omega
    have hupper : cp / 4096 % 64 = d := by omega
    rw [if_neg (by omega), if_neg (by omega), if_neg (by omega), hback _ (by omega), htail, hmiddle, hupper]
    rfl

end Castle.Utf8
