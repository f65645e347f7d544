import Castle.Lib.SignedArithmetic
import Castle.Serialization.Json.Scanner

/-!
# Integers as text (`json.hpp`, `parse_integer` and `format_integer`)

The template parameter is a signedness and a width. Signed operations are recorded with their
overflows; a type narrower than `int` is promoted to it first.
-/

namespace Castle.Serialization.Json

structure IntegerType where
  signed : Bool
  bits : ℕ
  bits_ge : 8 ≤ bits
  bits_le : bits ≤ 64

namespace IntegerType

variable (T : IntegerType)

def Holds (value : ℤ) : Prop :=
  if T.signed then SignedFits T.bits value else 0 ≤ value ∧ value < 2 ^ T.bits

instance (value : ℤ) : Decidable (T.Holds value) := by
  unfold Holds
  infer_instance

/-- `static_cast<T>` -/
def cast (value : ℤ) : ℤ := if T.signed then value.bmod (2 ^ T.bits) else value % 2 ^ T.bits

/-- `static_cast<U>`, where `U` is the unsigned type of the width. -/
def castUnsigned (value : ℤ) : ℕ := (value % 2 ^ T.bits).toNat

/-- `numeric_limits<U>::max()` -/
def maxUnsigned : ℕ := 2 ^ T.bits - 1

/-- The width of signed operations on values of the type. -/
def promotedBits : ℕ := max 32 T.bits

end IntegerType

/-- `static_cast<U>(value) + static_cast<U>(1)`, stored in a `U`: a narrow `U` is promoted to `int`. -/
def unsignedSuccessor (T : IntegerType) (value : ℕ) : Tracked ℕ :=
  if T.bits < 32 then do
    let sum ← Castle.signed 32 (value + 1)
    pure (T.castUnsigned sum)
  else pure ((value + 1) % 2 ^ T.bits)

/-- The magnitude of `format_integer`. -/
def magnitudeOf (T : IntegerType) (value : ℤ) : Tracked ℕ :=
  if T.signed && value < 0 then do
    let sum ← Castle.signed T.promotedBits (value + 1)
    let negated ← Castle.signed T.promotedBits (-sum)
    unsignedSuccessor T (T.castUnsigned negated)
  else pure (T.castUnsigned value)

/-- `format_integer` of a type, into a string of 32 characters. -/
def formatIntegerOf (T : IntegerType) (value : ℤ) : Tracked (Option Bytes) := do
  let magnitude ← magnitudeOf T value
  let digits := (digitsOf (magnitude + 1) magnitude).reverse
  let text := if T.signed && value < 0 then minus :: digits else digits
  pure (if text.length ≤ 32 then some text else none)

def maxUint64 : ℕ := 2 ^ 64 - 1

/-- The loop over the digits. -/
def parseMagnitude : Bytes → ℕ → Except Status ℕ
  | [], magnitude => .ok magnitude
  | c :: text, magnitude =>
    if !isDigit c then .error .invalidArgument
    else
      let digit := c.toNat - digitZero.toNat
      if magnitude > (maxUint64 - digit) / 10 then .error .outOfRange
      else parseMagnitude text ((magnitude * 10 + digit) % 2 ^ 64)

/-- The negative value of a magnitude that is not too large. -/
def negativeOf (T : IntegerType) (magnitude : ℕ) : Tracked ℤ :=
  if magnitude = T.maxUnsigned / 2 + 1 then do
    let negated ← Castle.signed T.promotedBits (-T.cast (magnitude - 1 : ℕ))
    let value ← Castle.signed T.promotedBits (negated - T.cast 1)
    pure (T.cast value)
  else do
    let negated ← Castle.signed T.promotedBits (-T.cast magnitude)
    pure (T.cast negated)

/-- `parse_integer`: the status, and the output after the call. -/
def parseInteger (T : IntegerType) (text : Bytes) (output : ℤ) : Tracked (Status × ℤ) :=
  let negative := text.head? = some minus
  let rest := if negative then text.drop 1 else text
  if text = [] then pure (.invalidArgument, output)
  else if text.head? = some plus then pure (.invalidArgument, output)
  else if rest = [] ∨ (negative ∧ T.signed = false) then pure (.invalidArgument, output)
  else
    match parseMagnitude rest 0 with
    | .error result => pure (result, output)
    | .ok magnitude =>
      if ¬negative then
        if magnitude > T.maxUnsigned ∨ (T.signed = true ∧ magnitude > T.maxUnsigned / 2) then
          pure (.outOfRange, output)
        else pure (.ok, T.cast (T.castUnsigned magnitude))
      else if magnitude > T.maxUnsigned / 2 + 1 then pure (.outOfRange, output)
      else do
        let value ← negativeOf T magnitude
        pure (.ok, value)

def decimalFrom (value : ℕ) (digits : Bytes) : ℕ :=
  digits.foldl (fun n c => n * 10 + (c.toNat - digitZero.toNat)) value

/-- One or more digits, behind a minus sign for a signed type, and the value that they denote. -/
inductive Denotes (signed : Bool) : Bytes → ℤ → Prop
  | natural {digits : Bytes} (hne : digits ≠ []) (hdigits : ∀ c ∈ digits, isDigit c = true) :
    Denotes signed digits (decimalFrom 0 digits)
  | negative {digits : Bytes} (hsigned : signed = true) (hne : digits ≠ [])
    (hdigits : ∀ c ∈ digits, isDigit c = true) : Denotes signed (minus :: digits) (-(decimalFrom 0 digits : ℤ))

theorem decimalFrom_cons (value : ℕ) (c : UInt8) (digits : Bytes) :
    decimalFrom value (c :: digits) = decimalFrom (value * 10 + (c.toNat - digitZero.toNat)) digits := by
  simp only [decimalFrom, List.foldl_cons]

theorem le_decimalFrom (value : ℕ) (digits : Bytes) : value ≤ decimalFrom value digits := by
  induction digits generalizing value with
  | nil => exact le_rfl
  | cons c digits ih =>
    rw [decimalFrom_cons]
    refine le_trans ?_ (ih _)
    omega

theorem digit_le {c : UInt8} (h : isDigit c = true) : c.toNat - digitZero.toNat ≤ 9 := by
  rw [isDigit, Bool.and_eq_true, decide_eq_true_iff, decide_eq_true_iff, UInt8.le_iff_toNat_le,
    UInt8.le_iff_toNat_le] at h
  have hzero : digitZero.toNat = 48 := rfl
  have hnine : digitNine.toNat = 57 := rfl
  omega

theorem guard_iff {magnitude digit : ℕ} (h : digit ≤ 9) :
    magnitude > (maxUint64 - digit) / 10 ↔ maxUint64 < magnitude * 10 + digit := by
  have hmax : maxUint64 = 18446744073709551615 := by decide
  rw [hmax]
  omega

theorem parseMagnitude_digits {digits : Bytes} (h : ∀ c ∈ digits, isDigit c = true) {magnitude : ℕ}
    (hle : magnitude ≤ maxUint64) : parseMagnitude digits magnitude =
      if decimalFrom magnitude digits ≤ maxUint64 then .ok (decimalFrom magnitude digits) else .error .outOfRange := by
  induction digits generalizing magnitude with
  | nil => exact (if_pos hle).symm
  | cons c digits ih =>
    rw [List.forall_mem_cons] at h
    have hdigit := digit_le h.1
    rw [parseMagnitude, h.1, decimalFrom_cons, if_neg (by decide)]
    dsimp only
    by_cases hguard : magnitude > (maxUint64 - (c.toNat - digitZero.toNat)) / 10
    · have hlarge := le_decimalFrom (magnitude * 10 + (c.toNat - digitZero.toNat)) digits
      rw [if_pos hguard, if_neg]
      rw [guard_iff hdigit] at hguard
      omega
    · rw [if_neg hguard]
      rw [guard_iff hdigit, not_lt] at hguard
      have hmod : (magnitude * 10 + (c.toNat - digitZero.toNat)) % 2 ^ 64 =
          magnitude * 10 + (c.toNat - digitZero.toNat) := by
        rw [maxUint64] at hguard
        exact Nat.mod_eq_of_lt (by omega)
      rw [hmod, ih h.2 hguard]

theorem parseMagnitude_other {text : Bytes} (h : ¬∀ c ∈ text, isDigit c = true) (magnitude : ℕ) :
    ∃ result, result ≠ .ok ∧ parseMagnitude text magnitude = .error result := by
  induction text generalizing magnitude with
  | nil => simp at h
  | cons c text ih =>
    rw [parseMagnitude]
    by_cases hc : isDigit c = true
    · rw [List.forall_mem_cons, not_and] at h
      rw [hc, if_neg (by decide)]
      dsimp only
      split
      · exact ⟨.outOfRange, by decide, rfl⟩
      · exact ih (h hc) _
    · rw [Bool.not_eq_true] at hc
      rw [hc, if_pos (by decide)]
      exact ⟨.invalidArgument, by decide, rfl⟩

namespace IntegerType

variable (T : IntegerType)

/-- The magnitude of the least signed value. -/
def half : ℕ := 2 ^ (T.bits - 1)

theorem two_half : 2 ^ T.bits = 2 * T.half := by
  have hbits := T.bits_ge
  rw [half, ← pow_succ']
  congr 1
  omega

theorem half_pos : 0 < T.half := Nat.two_pow_pos _

theorem half_ge : 128 ≤ T.half := by
  have hbits := T.bits_ge
  calc 128 = 2 ^ 7 := by decide
    _ ≤ 2 ^ (T.bits - 1) := Nat.pow_le_pow_right (by decide) (by omega)

theorem half_le : T.half ≤ 2 ^ 63 := by
  have hbits := T.bits_le
  exact Nat.pow_le_pow_right (by decide) (by omega)

theorem minimumMagnitude_eq : T.maxUnsigned / 2 + 1 = T.half := by
  have hpos := T.half_pos
  rw [maxUnsigned, T.two_half]
  omega

theorem maxUnsigned_eq : T.maxUnsigned = 2 * T.half - 1 := by rw [maxUnsigned, T.two_half]

theorem cast_half : (T.half : ℤ) = 2 ^ (T.bits - 1) := by
  rw [half]
  push_cast
  rfl

theorem cast_two_half : (2 ^ T.bits : ℤ) = 2 * T.half := by
  have htwo := T.two_half
  exact_mod_cast htwo

theorem holds_signed (h : T.signed = true) (value : ℤ) :
    T.Holds value ↔ -(T.half : ℤ) ≤ value ∧ value < T.half := by
  rw [Holds, if_pos h, SignedFits, cast_half]

theorem holds_unsigned (h : T.signed = false) (value : ℤ) :
    T.Holds value ↔ 0 ≤ value ∧ value < 2 * T.half := by
  rw [Holds, if_neg (by rw [h]; decide), cast_two_half]

theorem cast_of_holds {value : ℤ} (h : T.Holds value) : T.cast value = value := by
  have hbits := T.bits_ge
  rw [Holds] at h
  rw [cast]
  split at h
  next hsigned => rw [if_pos hsigned, h.bmod_eq (by omega)]
  next hsigned => rw [if_neg hsigned, Int.emod_eq_of_lt h.1 h.2]

theorem signed_promoted {value : ℤ} (hlo : -(T.half : ℤ) ≤ value) (hhi : value ≤ T.half - 1) :
    Castle.signed T.promotedBits value = pure value := by
  have hbits := T.bits_ge
  refine signed_eq_pure (lt_of_lt_of_le (by decide) (le_max_left 32 T.bits)) ?_
  have hle : (T.half : ℤ) ≤ 2 ^ (T.promotedBits - 1) := by
    rw [cast_half]
    refine pow_le_pow_right₀ (by decide) ?_
    have hmax := le_max_right 32 T.bits
    rw [promotedBits]
    omega
  exact ⟨by omega, by omega⟩

end IntegerType

variable (T : IntegerType)

theorem not_isDigit_minus : isDigit minus = false := by decide

theorem not_isDigit_plus : isDigit plus = false := by decide

theorem head_digits {digits : Bytes} {c : UInt8} (hc : isDigit c = false)
    (hdigits : ∀ d ∈ digits, isDigit d = true) : digits.head? ≠ some c := by
  intro hhead
  rw [hdigits c (List.mem_of_head? hhead)] at hc
  cases hc

theorem parseInteger_natural {digits : Bytes} (hne : digits ≠ []) (hdigits : ∀ c ∈ digits, isDigit c = true)
    (output : ℤ) : parseInteger T digits output =
      pure (if T.Holds (decimalFrom 0 digits) then (.ok, (decimalFrom 0 digits : ℤ)) else (.outOfRange, output)) := by
  have hminus := head_digits not_isDigit_minus hdigits
  have hplus := head_digits not_isDigit_plus hdigits
  have hpos := T.half_pos
  have hhalf := T.half_le
  have hmax : maxUint64 + 1 = 2 * 2 ^ 63 := by decide
  simp only [parseInteger, hminus, hne, hplus, if_false, false_and, or_false,
    not_false_eq_true, if_true, parseMagnitude_digits hdigits (Nat.zero_le _), T.maxUnsigned_eq]
  by_cases hfits : decimalFrom 0 digits ≤ maxUint64
  · rw [if_pos hfits]
    dsimp only
    by_cases hholds : T.Holds (decimalFrom 0 digits)
    · have hcast : T.cast (T.castUnsigned (decimalFrom 0 digits)) = decimalFrom 0 digits := by
        have hlt : (decimalFrom 0 digits : ℤ) < 2 ^ T.bits := by
          rw [T.cast_two_half]
          cases hs : T.signed with
          | true =>
            have hlimit := ((T.holds_signed hs _).mp hholds).2
            omega
          | false => exact ((T.holds_unsigned hs _).mp hholds).2
        rw [IntegerType.castUnsigned, Int.emod_eq_of_lt (Int.natCast_nonneg _) hlt, Int.toNat_natCast,
          T.cast_of_holds hholds]
      rw [if_neg, if_pos hholds, hcast]
      cases hs : T.signed with
      | true =>
        have hlimit := ((T.holds_signed hs _).mp hholds).2
        omega
      | false =>
        have hlimit := ((T.holds_unsigned hs _).mp hholds).2
        simp only [Bool.false_eq_true, false_and, or_false, gt_iff_lt, not_lt]
        omega
    · rw [if_pos, if_neg hholds]
      cases hs : T.signed with
      | true =>
        rw [T.holds_signed hs] at hholds
        right
        exact ⟨rfl, by omega⟩
      | false =>
        rw [T.holds_unsigned hs] at hholds
        left
        omega
  · rw [if_neg hfits, if_neg]
    cases hs : T.signed with
    | true =>
      rw [T.holds_signed hs]
      omega
    | false =>
      rw [T.holds_unsigned hs]
      omega

theorem negativeOf_eq (hsigned : T.signed = true) {magnitude : ℕ} (h : magnitude ≤ T.half) :
    negativeOf T magnitude = pure (-(magnitude : ℤ)) := by
  have hge := T.half_ge
  have hholds : ∀ value : ℤ, -(T.half : ℤ) ≤ value → value < T.half → T.cast value = value := fun value hlo hhi =>
    T.cast_of_holds ((T.holds_signed hsigned value).mpr ⟨hlo, hhi⟩)
  rw [negativeOf, T.minimumMagnitude_eq]
  split
  next hmin =>
    have hone : T.cast 1 = 1 := hholds 1 (by omega) (by omega)
    rw [hone, hholds ((magnitude - 1 : ℕ) : ℤ) (by omega) (by omega),
      Tracked.bind_of_eq_pure (T.signed_promoted (by omega) (by omega)),
      Tracked.bind_of_eq_pure (T.signed_promoted (by omega) (by omega)), hholds _ (by omega) (by omega)]
    congr 1
    omega
  next hmin =>
    rw [hholds magnitude (by omega) (by omega),
      Tracked.bind_of_eq_pure (T.signed_promoted (by omega) (by omega)), hholds _ (by omega) (by omega)]

theorem parseInteger_negative (hsigned : T.signed = true) {digits : Bytes} (hne : digits ≠ [])
    (hdigits : ∀ c ∈ digits, isDigit c = true) (output : ℤ) : parseInteger T (minus :: digits) output =
      pure (if T.Holds (-(decimalFrom 0 digits : ℤ)) then (.ok, -(decimalFrom 0 digits : ℤ))
        else (.outOfRange, output)) := by
  have hpos := T.half_pos
  have hhalf := T.half_le
  have hmax : maxUint64 + 1 = 2 * 2 ^ 63 := by decide
  have hholds : T.Holds (-(decimalFrom 0 digits : ℤ)) ↔ decimalFrom 0 digits ≤ T.half := by
    rw [T.holds_signed hsigned]
    omega
  have hsign : ¬(some minus = some plus) := by decide
  simp only [parseInteger, List.head?_cons, if_true, List.drop_succ_cons, List.drop_zero, hne,
    reduceCtorEq, if_false, hsign, hsigned, Bool.true_eq_false, and_false, or_false,
    not_true_eq_false, parseMagnitude_digits hdigits (Nat.zero_le _), T.minimumMagnitude_eq]
  by_cases hfits : decimalFrom 0 digits ≤ maxUint64
  · rw [if_pos hfits]
    dsimp only
    by_cases hle : decimalFrom 0 digits ≤ T.half
    · rw [if_neg (by omega), Tracked.bind_of_eq_pure (negativeOf_eq T hsigned hle), if_pos (hholds.mpr hle)]
    · rw [if_pos (by omega), if_neg (hholds.not.mpr hle)]
  · rw [if_neg hfits, if_neg (hholds.not.mpr (by omega))]

theorem parseInteger_denotes {text : Bytes} {value : ℤ} (h : Denotes T.signed text value) (output : ℤ) :
    parseInteger T text output = pure (if T.Holds value then (.ok, value) else (.outOfRange, output)) := by
  cases h with
  | natural hne hdigits => exact parseInteger_natural T hne hdigits output
  | negative hsigned hne hdigits => exact parseInteger_negative T hsigned hne hdigits output

theorem parseInteger_other {text : Bytes} (h : ∀ value, ¬Denotes T.signed text value) (output : ℤ) :
    ∃ result, result ≠ .ok ∧ parseInteger T text output = pure (result, output) := by
  rw [parseInteger]
  by_cases hne : text = []
  · exact ⟨.invalidArgument, by decide, if_pos hne⟩
  rw [if_neg hne]
  by_cases hplus : text.head? = some plus
  · exact ⟨.invalidArgument, by decide, if_pos hplus⟩
  rw [if_neg hplus]
  by_cases hrest : (if text.head? = some minus then text.drop 1 else text) = [] ∨
      (text.head? = some minus ∧ T.signed = false)
  · exact ⟨.invalidArgument, by decide, if_pos hrest⟩
  rw [if_neg hrest]
  rw [not_or] at hrest
  obtain ⟨hrest, hsign⟩ := hrest
  have hother : ¬∀ c ∈ (if text.head? = some minus then text.drop 1 else text), isDigit c = true := by
    intro hdigits
    by_cases hminus : text.head? = some minus
    · rw [if_pos hminus] at hdigits hrest
      have htext : text = minus :: text.drop 1 := by
        cases text with
        | nil => exact absurd rfl hne
        | cons c text => rw [List.head?_cons, Option.some_inj] at hminus; rw [hminus]; rfl
      have hsigned : T.signed = true := by
        cases hs : T.signed with
        | true => rfl
        | false => exact absurd ⟨hminus, hs⟩ hsign
      refine h (-(decimalFrom 0 (text.drop 1) : ℤ)) ?_
      rw [htext]
      exact .negative hsigned hrest hdigits
    · rw [if_neg hminus] at hdigits
      exact h _ (.natural hne hdigits)
  obtain ⟨result, hresult, hparse⟩ := parseMagnitude_other hother 0
  rw [hparse]
  exact ⟨result, hresult, rfl⟩

theorem digit_toNat (magnitude : ℕ) :
    (UInt8.ofNat (digitZero.toNat + magnitude % 10)).toNat = digitZero.toNat + magnitude % 10 := by
  have hzero : digitZero.toNat = 48 := by decide
  rw [hzero, UInt8.toNat_ofNat']
  omega

theorem isDigit_digit (magnitude : ℕ) : isDigit (UInt8.ofNat (digitZero.toNat + magnitude % 10)) = true := by
  have hnine : digitNine.toNat = digitZero.toNat + 9 := by decide
  rw [isDigit, Bool.and_eq_true, decide_eq_true_iff, decide_eq_true_iff, UInt8.le_iff_toNat_le,
    UInt8.le_iff_toNat_le, digit_toNat, hnine]
  omega

theorem isDigit_digitsOf (fuel magnitude : ℕ) : ∀ c ∈ digitsOf fuel magnitude, isDigit c = true := by
  induction fuel generalizing magnitude with
  | zero => simp [digitsOf]
  | succ fuel ih =>
    rw [digitsOf]
    split
    · rw [List.forall_mem_singleton]
      exact isDigit_digit magnitude
    · rw [List.forall_mem_cons]
      exact ⟨isDigit_digit magnitude, ih _⟩

theorem decimalFrom_concat (value : ℕ) (digits : Bytes) (c : UInt8) :
    decimalFrom value (digits ++ [c]) = decimalFrom value digits * 10 + (c.toNat - digitZero.toNat) := by
  simp [decimalFrom]

theorem decimalFrom_digitsOf {fuel magnitude : ℕ} (h : magnitude < fuel) :
    decimalFrom 0 (digitsOf fuel magnitude).reverse = magnitude := by
  induction fuel generalizing magnitude with
  | zero => omega
  | succ fuel ih =>
    rw [digitsOf]
    split
    next hsmall =>
      have hsingle : decimalFrom 0 [UInt8.ofNat (digitZero.toNat + magnitude % 10)] = magnitude % 10 := by
        rw [decimalFrom_cons, digit_toNat, Nat.zero_mul, Nat.zero_add, Nat.add_sub_cancel_left]
        rfl
      rw [List.reverse_singleton, hsingle]
      omega
    next hlarge =>
      rw [List.reverse_cons, decimalFrom_concat, digit_toNat, ih (by omega), Nat.add_sub_cancel_left]
      omega

theorem digitsOf_ne_nil (fuel magnitude : ℕ) : digitsOf (fuel + 1) magnitude ≠ [] := by
  rw [digitsOf]
  split <;> simp

theorem length_digitsOf {count : ℕ} (fuel : ℕ) {magnitude : ℕ} (h : magnitude < 10 ^ (count + 1)) :
    (digitsOf fuel magnitude).length ≤ count + 1 := by
  induction fuel generalizing magnitude count with
  | zero => exact Nat.zero_le _
  | succ fuel ih =>
    rw [digitsOf]
    split
    · exact Nat.succ_le_succ (Nat.zero_le count)
    next hlarge =>
      cases count with
      | zero =>
        rw [zero_add, pow_one] at h
        omega
      | succ count =>
        have hnext : magnitude / 10 < 10 ^ (count + 1) := by
          rw [pow_succ] at h
          omega
        exact Nat.succ_le_succ (ih hnext)

theorem magnitudeOf_eq {value : ℤ} (h : T.Holds value) : magnitudeOf T value = pure value.natAbs := by
  have hge := T.half_ge
  rw [magnitudeOf]
  split
  next hnegative =>
    rw [Bool.and_eq_true, decide_eq_true_iff] at hnegative
    obtain ⟨hsigned, hneg⟩ := hnegative
    obtain ⟨hlo, _⟩ := (T.holds_signed hsigned value).mp h
    rw [Tracked.bind_of_eq_pure (T.signed_promoted (by omega) (by omega)),
      Tracked.bind_of_eq_pure (T.signed_promoted (by omega) (by omega))]
    have hcast : (T.castUnsigned (-(value + 1)) : ℤ) = -(value + 1) := by
      rw [IntegerType.castUnsigned, Int.emod_eq_of_lt (by omega) (by rw [T.cast_two_half]; omega),
        Int.toNat_of_nonneg (by omega)]
    have hsum : T.castUnsigned (-(value + 1)) + 1 = value.natAbs := by omega
    have hlt : value.natAbs < 2 ^ T.bits := by
      rw [T.two_half]
      omega
    rw [unsignedSuccessor]
    split
    next hnarrow =>
      have hwide : (2 ^ T.bits : ℕ) ≤ 2 ^ 31 := Nat.pow_le_pow_right (by decide) (by omega)
      have hfits : SignedFits 32 ((T.castUnsigned (-(value + 1)) : ℤ) + 1) := by
        have hpow : (2 : ℤ) ^ (32 - 1) = 2147483648 := by decide
        rw [SignedFits, hpow]
        omega
      have hsumInt : (T.castUnsigned (-(value + 1)) : ℤ) + 1 = (value.natAbs : ℤ) := by omega
      rw [Tracked.bind_of_eq_pure (signed_eq_pure (by decide) hfits), hsumInt, IntegerType.castUnsigned,
        Int.emod_eq_of_lt (Int.natCast_nonneg _) (by exact_mod_cast hlt), Int.toNat_natCast]
    · rw [hsum, Nat.mod_eq_of_lt hlt]
  next hnatural =>
    have hrange : 0 ≤ value ∧ value < 2 ^ T.bits := by
      rw [T.cast_two_half]
      cases hs : T.signed with
      | true =>
        have hholds := (T.holds_signed hs value).mp h
        rw [hs, Bool.true_and, decide_eq_true_iff] at hnatural
        omega
      | false => exact (T.holds_unsigned hs value).mp h
    rw [IntegerType.castUnsigned, Int.emod_eq_of_lt hrange.1 hrange.2]
    congr 1
    omega

theorem formatIntegerOf_denotes {value : ℤ} (h : T.Holds value) :
    ∃ text, formatIntegerOf T value = pure (some text) ∧ Denotes T.signed text value := by
  have hhalf := T.half_le
  have habs : value.natAbs < 10 ^ (19 + 1) := by
    cases hs : T.signed with
    | true =>
      have hholds := (T.holds_signed hs value).mp h
      omega
    | false =>
      have hholds := (T.holds_unsigned hs value).mp h
      omega
  have hdigits : ∀ c ∈ (digitsOf (value.natAbs + 1) value.natAbs).reverse, isDigit c = true := by
    intro c hc
    exact isDigit_digitsOf _ _ c (List.mem_reverse.mp hc)
  have hne : (digitsOf (value.natAbs + 1) value.natAbs).reverse ≠ [] := by
    rw [ne_eq, List.reverse_eq_nil_iff]
    exact digitsOf_ne_nil _ _
  have hvalue := decimalFrom_digitsOf (Nat.lt_succ_self value.natAbs)
  have hlength := length_digitsOf (value.natAbs + 1) habs
  rw [← List.length_reverse] at hlength
  rw [formatIntegerOf, Tracked.bind_of_eq_pure (magnitudeOf_eq T h)]
  dsimp only
  split
  next hnegative =>
    rw [Bool.and_eq_true, decide_eq_true_iff] at hnegative
    refine ⟨_, by rw [if_pos (by rw [List.length_cons]; omega)], ?_⟩
    have hdenotes := Denotes.negative hnegative.1 hne hdigits
    rw [hvalue] at hdenotes
    have hsame : -(value.natAbs : ℤ) = value := by omega
    rwa [hsame] at hdenotes
  next hnatural =>
    refine ⟨_, by rw [if_pos (by omega)], ?_⟩
    have hdenotes : Denotes T.signed _ _ := .natural hne hdigits
    rw [hvalue] at hdenotes
    have hsame : (value.natAbs : ℤ) = value := by
      cases hs : T.signed with
      | true =>
        rw [hs, Bool.true_and, decide_eq_true_iff] at hnatural
        omega
      | false =>
        have hholds := (T.holds_unsigned hs value).mp h
        omega
    rwa [hsame] at hdenotes

/-- Every value of a type is formatted and parsed without a signed overflow, to the same value; and a
text is parsed exactly when it denotes a value of the type, while one that denotes another value is out
of range. -/
theorem integers_convert :
    (∀ value, T.Holds value → ∃ text, formatIntegerOf T value = ⟨some text, true⟩ ∧
      ∀ output, parseInteger T text output = ⟨(.ok, value), true⟩) ∧
    ∀ text output,
      (∀ value, parseInteger T text output = ⟨(.ok, value), true⟩ ↔ Denotes T.signed text value ∧ T.Holds value) ∧
      (∀ value, Denotes T.signed text value → ¬T.Holds value →
        parseInteger T text output = ⟨(.outOfRange, output), true⟩) ∧
      ((∀ value, ¬Denotes T.signed text value) →
        ∃ result, result ≠ .ok ∧ parseInteger T text output = ⟨(result, output), true⟩) := by
  refine ⟨fun value h => ?_, fun text output => ⟨fun value => ⟨fun h => ?_, ?_⟩, fun value hdenotes hrange => ?_,
    fun h => parseInteger_other T h output⟩⟩
  · obtain ⟨text, hformat, hdenotes⟩ := formatIntegerOf_denotes T h
    refine ⟨text, hformat, fun output => ?_⟩
    rw [parseInteger_denotes T hdenotes, if_pos h]
    rfl
  · by_cases hany : ∃ denoted, Denotes T.signed text denoted
    · obtain ⟨denoted, hdenotes⟩ := hany
      rw [parseInteger_denotes T hdenotes] at h
      by_cases hrange : T.Holds denoted
      · rw [if_pos hrange] at h
        cases h
        exact ⟨hdenotes, hrange⟩
      · rw [if_neg hrange] at h
        cases h
    · push Not at hany
      obtain ⟨result, hresult, hparse⟩ := parseInteger_other T hany output
      rw [hparse] at h
      cases h
      exact absurd rfl hresult
  · rintro ⟨hdenotes, hrange⟩
    rw [parseInteger_denotes T hdenotes, if_pos hrange]
    rfl
  · rw [parseInteger_denotes T hdenotes, if_neg hrange]
    rfl

example : parseInteger ⟨true, 8, by decide, by decide⟩ [minus, 0x31, 0x32, 0x38] 0 = ⟨(.ok, -128), true⟩ := by
  decide

end Castle.Serialization.Json
