import Mathlib.Data.Rat.Floor
import Mathlib.Tactic.FieldSimp
import Castle.Nmea.Parser

/-!
# Coordinate fields (`nmea_generator.hpp`, `string_builder.hpp`)

A double is a rational number, and the builder has room for all that is appended.
-/

namespace Castle.Nmea

def dot : UInt8 := 0x2e

def digit (value : ℕ) : UInt8 := UInt8.ofNat (0x30 + value % 10)

/-- `append_integer_truncating`, in which `fuel` is `max_integer_digits` -/
def integerText : ℕ → ℕ → Bytes
  | 0, _ => []
  | fuel + 1, magnitude =>
    (if magnitude / 10 = 0 then [] else integerText fuel (magnitude / 10)) ++ [digit magnitude]

def appendInteger (value : ℕ) : Bytes := integerText 20 value

def fractionText : ℕ → ℕ → Bytes
  | 0, _ => []
  | precision + 1, scaled => fractionText precision (scaled / 10) ++ [digit scaled]

/-- `append` with a precision, of which at most `max_float_precision` is used -/
def appendFloating (value : ℚ) (decimals : ℕ) : Bytes :=
  let precision := min decimals 9
  let sign : Bytes := if value < 0 then [0x2d] else []
  if |value| ≥ 18446744073709551615 then sign ++ [0x69, 0x6e, 0x66]
  else
    let integerPart := ⌊|value|⌋₊
    let scale := 10 ^ precision
    let scaled := ⌊(|value| - integerPart) * (scale : ℕ) + 1 / 2⌋₊
    let (integerPart, scaled) :=
      if scaled ≥ scale then (integerPart + 1, scaled - scale) else (integerPart, scaled)
    sign ++ (appendInteger integerPart ++ if precision > 0 then dot :: fractionText precision scaled else [])

/-- The zeros in front of a value, from the `divisor` with this many zeros on -/
def leadingZeros (value : ℕ) : ℕ → Bytes
  | 0 => []
  | zeros + 1 => if value < 10 ^ (zeros + 1) then digit 0 :: leadingZeros value zeros else []

def appendPadded (value width : ℕ) : Bytes := leadingZeros value (width - 1) ++ appendInteger value

/-- `append_latitude` and `append_longitude`, which differ in the width of the degrees -/
def appendCoordinate (width : ℕ) (coordinate : ℚ) (decimals : ℕ) : Bytes :=
  let degrees := ⌊|coordinate|⌋₊
  let minutes := (|coordinate| - degrees) * 60
  appendPadded degrees width ++ ((if minutes < 10 then [digit 0] else []) ++ appendFloating minutes decimals)

def appendLatitude : ℚ → ℕ → Bytes := appendCoordinate 2

def appendLongitude : ℚ → ℕ → Bytes := appendCoordinate 3

/-- A number in as many digits as it should have -/
abbrev Digits (length value : ℕ) (text : Bytes) : Prop :=
  text.length = length ∧ (∀ c ∈ text, 0x30 ≤ c ∧ c ≤ 0x39) ∧
    text.foldl (fun n c => 10 * n + (c.toNat - 0x30)) 0 = value

/-- Degrees, minutes below 60 and their decimals, at most half a unit of the last digit off -/
def Written (width decimals : ℕ) (magnitude : ℚ) (text : Bytes) : Prop :=
  ∃ degrees minutes fraction d m f, text = degrees ++ (minutes ++ dot :: fraction) ∧ Digits width d degrees ∧
    Digits 2 m minutes ∧ Digits decimals f fraction ∧ m < 60 ∧
    |d + (m + f / 10 ^ decimals) / 60 - magnitude| ≤ 1 / 2 / 10 ^ decimals / (60 : ℚ)

/-- The minutes are within half a unit of the last digit below 10 or 60. -/
def RoundsOver (decimals : ℕ) (magnitude : ℚ) : Prop :=
  let minutes := (magnitude - ⌊magnitude⌋₊) * 60
  10 - 1 / 2 / 10 ^ decimals ≤ minutes ∧ minutes < 10 ∨ 60 - 1 / 2 / 10 ^ decimals ≤ minutes

theorem digits_fraction (precision scaled : ℕ) :
    Digits precision (scaled % 10 ^ precision) (fractionText precision scaled) := by
  induction precision generalizing scaled with
  | zero => exact ⟨rfl, by simp [fractionText], (Nat.mod_one _).symm⟩
  | succ precision ih =>
    obtain ⟨hlength, hdigits, hvalue⟩ := ih (scaled / 10)
    have hdigit : ∀ r < 10, (0x30 ≤ digit r ∧ digit r ≤ 0x39) ∧ (digit r).toNat - 0x30 = r := by decide
    have hlast := hdigit _ (Nat.mod_lt scaled (by decide))
    rw [digit, Nat.mod_mod, ← digit] at hlast
    refine ⟨by rw [fractionText, List.length_append, hlength]; rfl, ?_, ?_⟩
    · intro c hc
      obtain hc | hc := List.mem_append.mp hc
      · exact hdigits c hc
      · rw [List.mem_singleton.mp hc]
        exact hlast.1
    · rw [fractionText, List.foldl_append, hvalue, List.foldl_cons, List.foldl_nil, hlast.2, Nat.pow_succ',
        Nat.mod_mul]
      omega

theorem digits_short {precision value : ℕ} (h : value < 10 ^ precision) :
    Digits precision value (fractionText precision value) := by
  have hdigits := digits_fraction precision value
  rwa [Nat.mod_eq_of_lt h] at hdigits

/-- The rounding of `append_floating_truncating` -/
theorem rounded (minutes : ℚ) (hminutes : 0 ≤ minutes) {scale : ℕ} (hscale : 0 < scale) :
    let scaled := ⌊(minutes - ⌊minutes⌋₊) * scale + 1 / 2⌋₊
    |⌊minutes⌋₊ + scaled / scale - minutes| ≤ 1 / 2 / (scale : ℚ) ∧ scaled ≤ scale ∧
      (scale ≤ scaled ↔ ⌊minutes⌋₊ + 1 - 1 / 2 / (scale : ℚ) ≤ minutes) := by
  intro scaled
  have hpos : (0 : ℚ) < scale := Nat.cast_pos.mpr hscale
  have hfloor := Nat.floor_le hminutes
  have hfract := Nat.lt_floor_add_one minutes
  have hnonneg : 0 ≤ (minutes - ⌊minutes⌋₊) * scale + 1 / 2 := by
    have := mul_nonneg (sub_nonneg.mpr hfloor) hpos.le
    linarith
  have hle : (scaled : ℚ) ≤ (minutes - ⌊minutes⌋₊) * scale + 1 / 2 := Nat.floor_le hnonneg
  have hlt : (minutes - ⌊minutes⌋₊) * scale + 1 / 2 < scaled + 1 := Nat.lt_floor_add_one _
  refine ⟨?_, ?_, ?_⟩
  · rw [abs_le, div_div]
    constructor
    · field_simp
      linarith
    · field_simp
      linarith
  · have : ((scaled : ℕ) : ℚ) < scale + 1 := by nlinarith
    exact Nat.lt_succ_iff.mp (by exact_mod_cast this)
  · rw [Nat.le_floor_iff hnonneg, div_div]
    constructor
    · intro h
      field_simp
      linarith
    · intro h
      field_simp at h
      linarith

theorem appendFloating_eq {minutes : ℚ} {decimals : ℕ} (hminutes : 0 ≤ minutes) (hlt : minutes < 60)
    (hpos : 0 < decimals) (hle : decimals ≤ 9) {scaled : ℕ}
    (hscaled : ⌊(minutes - ⌊minutes⌋₊) * (10 ^ decimals : ℕ) + 1 / 2⌋₊ = scaled) :
    appendFloating minutes decimals = if 10 ^ decimals ≤ scaled
      then appendInteger (⌊minutes⌋₊ + 1) ++ dot :: fractionText decimals (scaled - 10 ^ decimals)
      else appendInteger ⌊minutes⌋₊ ++ dot :: fractionText decimals scaled := by
  rw [appendFloating, abs_of_nonneg hminutes, if_neg (not_lt.mpr hminutes), if_neg (by linarith), min_eq_left hle]
  dsimp only
  rw [hscaled, if_pos hpos]
  split_ifs <;> rfl

/-- The field is right unless the minutes are rounded to 10 behind a leading zero, or to 60. -/
theorem written_coordinate_iff {width decimals : ℕ} {coordinate : ℚ}
    (hdegrees : Digits width ⌊|coordinate|⌋₊ (appendPadded ⌊|coordinate|⌋₊ width))
    (hpos : 0 < decimals) (hle : decimals ≤ 9) :
    Written width decimals |coordinate| (appendCoordinate width coordinate decimals) ↔
      ¬RoundsOver decimals |coordinate| := by
  have hfloor := Nat.floor_le (abs_nonneg coordinate)
  have hfract := Nat.lt_floor_add_one |coordinate|
  rw [RoundsOver, appendCoordinate]
  generalize |coordinate| = magnitude at *
  generalize hminutes : (magnitude - ⌊magnitude⌋₊) * 60 = minutes
  have hnonneg : 0 ≤ minutes := by linarith
  have hlt : minutes < 60 := by linarith
  have hscale : 0 < 10 ^ decimals := Nat.pow_pos (by decide)
  obtain ⟨hnear, hmost, hcarry⟩ := rounded minutes hnonneg hscale
  have htext := appendFloating_eq hnonneg hlt hpos hle rfl
  generalize ⌊(minutes - ⌊minutes⌋₊) * (10 ^ decimals : ℕ) + 1 / 2⌋₊ = scaled at *
  have hwhole := Nat.floor_le hnonneg
  have hpart := Nat.lt_floor_add_one minutes
  have hsmall : ⌊minutes⌋₊ < 60 := (Nat.floor_lt hnonneg).mpr hlt
  have hzero : minutes < 10 ↔ ⌊minutes⌋₊ < 10 := (Nat.floor_lt hnonneg).symm
  generalize ⌊minutes⌋₊ = whole at *
  push_cast at hnear hcarry
  have hunit : (1 : ℚ) / 2 / 10 ^ decimals ≤ 1 / 2 :=
    div_le_self (by norm_num) (one_le_pow₀ (by norm_num))
  have hover : (10 - 1 / 2 / 10 ^ decimals ≤ minutes ∧ minutes < 10 ∨ 60 - 1 / 2 / 10 ^ decimals ≤ minutes) ↔
      10 ^ decimals ≤ scaled ∧ (whole = 9 ∨ whole = 59) := by
    rw [hcarry]
    constructor
    · rintro (⟨habove, hbelow⟩ | habove)
      · have : 8 < whole := by exact_mod_cast (by linarith : (8 : ℚ) < whole)
        obtain rfl : whole = 9 := Nat.le_antisymm (Nat.le_of_lt_succ (hzero.mp hbelow)) this
        exact ⟨by push_cast; linarith, Or.inl rfl⟩
      · have : 58 < whole := by exact_mod_cast (by linarith : (58 : ℚ) < whole)
        obtain rfl : whole = 59 := Nat.le_antisymm (Nat.le_of_lt_succ hsmall) this
        exact ⟨by push_cast; linarith, Or.inr rfl⟩
    · rintro ⟨habove, rfl | rfl⟩
      · push_cast at habove hpart
        exact Or.inl ⟨by linarith, by linarith⟩
      · push_cast at habove
        exact Or.inr (by linarith)
  rw [hover, htext]
  simp only [hzero]
  have hshort : ∀ n < 60, (if n < 10 then [digit 0] else []) ++ appendInteger n = fractionText 2 n := by decide
  have hwritten : ∀ n f : ℕ, n < 60 → f < 10 ^ decimals → (whole < 10 ↔ n < 10) →
      (n : ℚ) + f / 10 ^ decimals = whole + scaled / 10 ^ decimals →
      Written width decimals magnitude (appendPadded ⌊magnitude⌋₊ width ++
        ((if whole < 10 then [digit 0] else []) ++ (appendInteger n ++ dot :: fractionText decimals f))) := by
    intro n f hn hf hzeros hvalue
    simp only [hzeros]
    refine ⟨_, _, _, _, n, f, by rw [← List.append_assoc _ (appendInteger n)], hdegrees,
      hshort n hn ▸ digits_short (by omega),
      Nat.mod_eq_of_lt hf ▸ digits_fraction decimals f, hn, ?_⟩
    have hdiff : ⌊magnitude⌋₊ + (whole + scaled / 10 ^ decimals) / 60 - magnitude =
        (whole + scaled / 10 ^ decimals - minutes) / 60 := by
      rw [← hminutes]
      ring
    rw [hvalue, hdiff, abs_div, abs_of_pos (by norm_num : (0 : ℚ) < 60)]
    gcongr
  by_cases hc : 10 ^ decimals ≤ scaled
  · rw [if_pos hc]
    obtain rfl := le_antisymm hmost hc
    rw [Nat.sub_self]
    by_cases hnine : whole = 9 ∨ whole = 59
    · refine iff_of_false ?_ fun h => h ⟨hc, hnine⟩
      rintro ⟨degrees, rest, fraction, d, m, f, heq, hd, hm, hf, hbelow, -⟩
      obtain ⟨-, hrest⟩ := List.append_inj heq (hdegrees.1.trans hd.1.symm)
      rw [← List.append_assoc] at hrest
      obtain ⟨rfl, -⟩ := List.append_inj' hrest (by
        rw [List.length_cons, List.length_cons, hf.1, (digits_fraction decimals 0).1])
      obtain rfl | rfl := hnine
      · exact absurd hm.1 (by decide)
      · rw [← hm.2.2] at hbelow
        exact absurd hbelow (by decide)
    · refine iff_of_true (hwritten (whole + 1) 0 (by omega) hscale (by omega) ?_) fun h => hnine h.2
      push_cast
      rw [zero_div, add_zero, div_self (pow_ne_zero _ (by norm_num))]
  · rw [if_neg hc]
    exact iff_of_true (hwritten whole scaled hsmall (not_le.mp hc) Iff.rfl rfl) fun h => hc h.1

theorem digits_degrees : (∀ d ≤ 90, Digits 2 d (appendPadded d 2)) ∧
    ∀ d ≤ 180, Digits 3 d (appendPadded d 3) := by
  have hlatitude : ∀ d ≤ 90, appendPadded d 2 = fractionText 2 d := by decide
  have hlongitude : ∀ d ≤ 180, appendPadded d 3 = fractionText 3 d := by set_option maxRecDepth 1000 in decide
  exact ⟨fun d h => hlatitude d h ▸ digits_short (by omega), fun d h => hlongitude d h ▸ digits_short (by omega)⟩

/-- The latitude and longitude fields are right unless their minutes are rounded to 10 or to 60. -/
theorem coordinates_written_iff {decimals : ℕ} (hpos : 0 < decimals) (hle : decimals ≤ 9) :
    (∀ latitude, |latitude| ≤ 90 → (Written 2 decimals |latitude| (appendLatitude latitude decimals) ↔
      ¬RoundsOver decimals |latitude|)) ∧
    ∀ longitude, |longitude| ≤ 180 → (Written 3 decimals |longitude| (appendLongitude longitude decimals) ↔
      ¬RoundsOver decimals |longitude|) := by
  constructor
  · intro latitude h
    rw [appendLatitude]
    exact written_coordinate_iff (digits_degrees.1 _ (Nat.floor_le_of_le (by exact_mod_cast h))) hpos hle
  · intro longitude h
    rw [appendLongitude]
    exact written_coordinate_iff (digits_degrees.2 _ (Nat.floor_le_of_le (by exact_mod_cast h))) hpos hle

theorem coordinates_written_iff_half : Written 2 1 |1 / 2| (appendLatitude (1 / 2) 1) :=
  ((coordinates_written_iff Nat.one_pos (by decide)).1 (1 / 2) (by norm_num [abs_of_pos])).mpr (by
    have hfloor : ⌊(1 / 2 : ℚ)⌋₊ = 0 := Nat.floor_eq_zero.mpr (by norm_num)
    norm_num [RoundsOver, abs_of_pos, hfloor])

/-- 59.99 minutes with one decimal are written as 60.0. -/
theorem minutes_rounded_over : ¬Written 2 1 |5999 / 6000| (appendLatitude (5999 / 6000) 1) := by
  have hpos : |(5999 / 6000 : ℚ)| = 5999 / 6000 := abs_of_pos (by norm_num)
  have hfloor : ⌊(5999 / 6000 : ℚ)⌋₊ = 0 := Nat.floor_eq_zero.mpr (by norm_num)
  have hdegrees := digits_degrees.1 0 (by decide)
  rw [appendLatitude, written_coordinate_iff (by rwa [hpos, hfloor]) Nat.one_pos (by decide), hpos]
  norm_num [RoundsOver, hfloor]

end Castle.Nmea
