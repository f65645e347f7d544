import Mathlib.Data.Nat.Bitwise
import Castle.Serialization.Json.Scanner

/-!
# The scanner and the grammar: characters and strings
-/

namespace Castle.Serialization.Json

variable {c : UInt8}

theorem isSpace_iff : isSpace c = true ↔ IsWs c := by
  simp only [isSpace, IsWs, Bool.or_eq_true, decide_eq_true_eq]
  tauto

theorem isDigit_iff : isDigit c = true ↔ IsDigit c := by
  simp [isDigit, IsDigit]

theorem hexDigit_iff {x : ℕ} : HexDigit c x ↔ isHex c = true ∧ hexValue c = x := by
  simp only [HexDigit, isHex, hexValue, Bool.or_eq_true, Bool.and_eq_true, decide_eq_true_eq,
    UInt8.le_iff_toNat_le]
  have hd : digitZero.toNat = 0x30 := rfl
  have hd' : digitNine.toNat = 0x39 := rfl
  have hl : letterLowerA.toNat = 0x61 := rfl
  have hl' : letterLowerF.toNat = 0x66 := rfl
  have hu : letterUpperA.toNat = 0x41 := rfl
  have hu' : letterUpperF.toNat = 0x46 := rfl
  rw [hd, hd', hl, hl', hu, hu']
  split_ifs <;> omega

theorem unescape_iff {e d : UInt8} : unescape e = some d ↔ Escape e d := by
  constructor
  · intro h
    unfold unescape at h
    split_ifs at h with h₁ h₂ h₃ h₄ h₅ h₆ h₇ h₈ <;> cases h <;> subst_vars <;> constructor
  · intro h
    cases h <;> rfl

theorem not_escape_unicode {d : UInt8} : ¬ Escape letterLowerU d := by
  rw [← unescape_iff]
  exact fun h => by cases h

theorem toNat_ofNat {code : ℕ} (hlt : code < 0x10000) (hsurrogate : ¬ IsSurrogate code) :
    (Char.ofNat code).val.toNat = code := by
  have hvalid : code.isValidChar := by
    unfold IsSurrogate at hsurrogate
    unfold Nat.isValidChar
    omega
  rw [Char.ofNat, dif_pos hvalid]
  rfl

theorem utf8Bytes_eq {code : ℕ} (hlt : code < 0x10000) (hsurrogate : ¬ IsSurrogate code) :
    utf8Bytes code = String.utf8EncodeChar (Char.ofNat code) := by
  have hval := toNat_ofNat hlt hsurrogate
  have hmask (n : ℕ) : n &&& 0x3f = n % 64 := Nat.and_two_pow_sub_one_eq_mod n 6
  have hor (a b i : ℕ) (hb : b < 2 ^ i) : 2 ^ i * a ||| b = 2 ^ i * a + b :=
    (Nat.two_pow_add_eq_or_of_lt hb a).symm
  have htail (n : ℕ) : 0x80 ||| n % 64 = n % 64 + 0x80 := by
    have hsum : 0x80 ||| n % 64 = 0x80 + n % 64 := hor 2 (n % 64) 6 (by omega)
    omega
  unfold utf8Bytes String.utf8EncodeChar
  simp only [hval, hmask, htail, Nat.shiftRight_eq_div_pow]
  split_ifs with h1 h2
  · rfl
  · have hhead : 0xc0 ||| code / 2 ^ 6 = code / 64 % 0x20 + 0xc0 := by
      have hsum : 0xc0 ||| code / 2 ^ 6 = 0xc0 + code / 2 ^ 6 := hor 3 (code / 2 ^ 6) 6 (by omega)
      omega
    rw [hhead]
  · have hhead : 0xe0 ||| code / 2 ^ 12 = code / 4096 % 0x10 + 0xe0 := by
      have hsum : 0xe0 ||| code / 2 ^ 12 = 0xe0 + code / 2 ^ 12 :=
        hor 7 (code / 2 ^ 12) 5 (by omega)
      omega
    rw [hhead]
  · omega

theorem hexValue_lt (h : isHex c = true) : hexValue c < 16 := by
  have hx := hexDigit_iff.mpr ⟨h, rfl⟩
  simp only [HexDigit, UInt8.le_iff_toNat_le] at hx
  have hd' : digitNine.toNat = 0x39 := rfl
  have hl' : letterLowerF.toNat = 0x66 := rfl
  have hu' : letterUpperF.toNat = 0x46 := rfl
  rw [hd', hl', hu'] at hx
  omega

theorem codeOf_four (c₁ c₂ c₃ c₄ : UInt8) : codeOf [c₁, c₂, c₃, c₄] =
    ((hexValue c₁ * 16 + hexValue c₂) * 16 + hexValue c₃) * 16 + hexValue c₄ := by
  simp [codeOf]

theorem codeOf_lt {c₁ c₂ c₃ c₄ : UInt8} (h₁ : isHex c₁ = true) (h₂ : isHex c₂ = true)
    (h₃ : isHex c₃ = true) (h₄ : isHex c₄ = true) : codeOf [c₁, c₂, c₃, c₄] < 0x10000 := by
  have hx₁ := hexValue_lt h₁
  have hx₂ := hexValue_lt h₂
  have hx₃ := hexValue_lt h₃
  have hx₄ := hexValue_lt h₄
  rw [codeOf_four]
  omega

theorem pushAll_eq_true_iff {cap : ℕ} {output output' bytes : Bytes} (h : output.length ≤ cap) :
    pushAll cap output bytes = (true, output') ↔
      output' = output ++ bytes ∧ output'.length ≤ cap := by
  induction bytes generalizing output with
  | nil =>
    simp only [pushAll, Prod.mk.injEq, true_and, List.append_nil]
    constructor
    · rintro rfl
      exact ⟨rfl, h⟩
    · exact fun he => he.1.symm
  | cons b bytes ih =>
    unfold pushAll
    split
    next hfull =>
      simp only [Prod.mk.injEq, Bool.false_eq_true, false_and, false_iff, not_and]
      rintro rfl
      rw [List.length_append, List.length_cons]
      omega
    next hroom =>
      rw [ih (by rw [List.length_append, List.length_singleton]; omega), List.append_assoc]
      rfl

theorem appendUtf8_eq_true_iff {cap code : ℕ} {output output' : Bytes} (h : output.length ≤ cap)
    (hlt : code < 0x10000) : appendUtf8 cap code output = (true, output') ↔ ¬ IsSurrogate code ∧
    output' = output ++ String.utf8EncodeChar (Char.ofNat code) ∧ output'.length ≤ cap := by
  unfold appendUtf8
  by_cases hs : IsSurrogate code
  · rw [if_pos (by simpa [IsSurrogate] using hs)]
    simp [hs]
  · rw [if_neg (by simpa [IsSurrogate] using hs), pushAll_eq_true_iff h, utf8Bytes_eq hlt hs]
    simp [hs]

theorem isControl_eq_false_iff : isControl c = false ↔ 0x20 ≤ c := by
  simp [isControl]

theorem Chars.suffix {s v r : Bytes} (h : Chars s v r) : r <:+ s := by
  induction h with
  | close => exact List.suffix_cons _ _
  | raw _ _ _ _ ih => exact ih.trans (List.suffix_cons _ _)
  | escape _ _ ih => exact (ih.trans (List.suffix_cons _ _)).trans (List.suffix_cons _ _)
  | unicode _ _ _ _ _ _ ih =>
    refine ih.trans ⟨[_, _, _, _, _, _], rfl⟩

theorem findIdx?_hex {c₁ c₂ c₃ c₄ : UInt8} : ([c₁, c₂, c₃, c₄].findIdx? fun c => !isHex c) =
    none ↔ isHex c₁ = true ∧ isHex c₂ = true ∧ isHex c₃ = true ∧ isHex c₄ = true := by
  simp [List.findIdx?_eq_none_iff]

theorem decodeLoop_sound {cap : ℕ} {rest output output' : Bytes} {position position' : ℕ}
    {r : Result} (hroom : output.length ≤ cap)
    (h : decodeLoop cap rest position output = (r, position', output'))
    (hr : r.succeeded = true) : ∃ v after, Chars rest v after ∧ output' = output ++ v ∧
      position' + after.length = position + rest.length ∧ output'.length ≤ cap := by
  induction hn : rest.length using Nat.strong_induction_on generalizing rest position output with
  | _ n ih =>
  subst hn
  have refused {code : ErrorCode} {status : Status} {offset : ℕ} {p : ℕ × Bytes} (hs : status ≠ .ok)
      {Q : Prop} (h : (({ status, code, offset } : Result), p) = (r, position', output')) : Q := by
    cases h
    exact absurd (of_decide_eq_true hr) hs
  rw [decodeLoop.eq_def] at h
  split at h
  · exact refused (by decide) h
  next c rest =>
  split at h
  next hq =>
    cases h
    rw [hq]
    exact ⟨[], rest, .close, (List.append_nil _).symm, by rw [List.length_cons]; omega, hroom⟩
  next hq =>
  split at h
  · exact refused (by decide) h
  next hc =>
  split at h
  next hb =>
    split at h
    · exact refused (by decide) h
    next hfull =>
      obtain ⟨v, after, hchars, hout, hpos, hlen⟩ := ih _ (Nat.lt_succ_self _)
        (by rw [List.length_append, List.length_singleton]; omega) h rfl
      refine ⟨c :: v, after, .raw ?_ hq hb hchars, ?_, by rw [List.length_cons]; omega, hlen⟩
      · exact isControl_eq_false_iff.mp (Bool.eq_false_iff.mpr hc)
      · rw [hout, List.append_assoc]
        rfl
  next hb =>
  obtain rfl : c = backslash := not_not.mp hb
  split at h
  · exact refused (by decide) h
  next escape rest =>
  split at h
  next decoded hescape =>
    split at h
    · exact refused (by decide) h
    next hfull =>
      obtain ⟨v, after, hchars, hout, hpos, hlen⟩ := ih _ (by simp only [List.length_cons]; omega)
        (by rw [List.length_append, List.length_singleton]; omega) h rfl
      refine ⟨decoded :: v, after, .escape (unescape_iff.mp hescape) hchars, ?_, ?_, hlen⟩
      · rw [hout, List.append_assoc]
        rfl
      · rw [List.length_cons, List.length_cons]
        omega
  next hescape =>
  split at h
  next hunicode =>
    split at h
    next c₁ c₂ c₃ c₄ rest =>
      split at h
      · exact refused (by decide) h
      next hhex =>
        dsimp only at h
        split at h
        · exact refused (by decide) h
        next hok =>
          obtain rfl : escape = letterLowerU := hunicode
          have happend : appendUtf8 cap (codeOf [c₁, c₂, c₃, c₄]) output =
              (true, (appendUtf8 cap (codeOf [c₁, c₂, c₃, c₄]) output).2) :=
            Prod.ext (by simpa using hok) rfl
          obtain ⟨h₁, h₂, h₃, h₄⟩ := findIdx?_hex.mp hhex
          have hlt : codeOf [c₁, c₂, c₃, c₄] < 0x10000 := codeOf_lt h₁ h₂ h₃ h₄
          obtain ⟨hsurrogate, hnext, hfits⟩ := (appendUtf8_eq_true_iff hroom hlt).mp happend
          rw [hnext] at h hfits
          obtain ⟨v, after, hchars, hout, hpos, hlen⟩ := ih _ (by simp only [List.length_cons]; omega)
            hfits h rfl
          rw [codeOf_four] at hsurrogate hout
          refine ⟨_, after, .unicode (hexDigit_iff.mpr ⟨h₁, rfl⟩) (hexDigit_iff.mpr ⟨h₂, rfl⟩)
            (hexDigit_iff.mpr ⟨h₃, rfl⟩) (hexDigit_iff.mpr ⟨h₄, rfl⟩) hsurrogate hchars, ?_, ?_, hlen⟩
          · rw [hout, List.append_assoc]
          · simp only [List.length_cons]
            omega
    · exact refused (by decide) h
  · exact refused (by decide) h

theorem decodeLoop_complete {cap : ℕ} {rest v after : Bytes} (h : Chars rest v after)
    {output : Bytes} (position : ℕ) (hroom : output.length + v.length ≤ cap) : decodeLoop
    cap rest position output = ({}, position + (rest.length - after.length), output ++ v) := by
  induction h generalizing output position with
  | close =>
    rw [decodeLoop.eq_def]
    simp
  | @raw c s v r hc hq hb hs ih =>
    have hle := hs.suffix.length_le
    rw [List.length_cons] at hroom
    rw [decodeLoop.eq_def]
    dsimp only
    rw [if_neg hq, if_neg (by simp [isControl_eq_false_iff.mpr hc]), if_pos hb, if_neg (by omega),
      ih _ (by rw [List.length_append, List.length_singleton]; omega), List.append_assoc,
      List.length_cons, Nat.sub_add_comm hle]
    congr 2
    omega
  | @escape e d s v r he hs ih =>
    have hle := hs.suffix.length_le
    rw [List.length_cons] at hroom
    rw [decodeLoop.eq_def]
    dsimp only
    rw [if_neg (by decide), if_neg (by decide), if_neg (by simp), unescape_iff.mpr he]
    dsimp only
    rw [if_neg (by omega), ih _ (by rw [List.length_append, List.length_singleton]; omega),
      List.append_assoc, List.length_cons, List.length_cons]
    congr 2
    omega
  | @unicode c₁ c₂ c₃ c₄ x₁ x₂ x₃ x₄ s v r hx₁ hx₂ hx₃ hx₄ hsurrogate hs ih =>
    have hle := hs.suffix.length_le
    obtain ⟨h₁, rfl⟩ := hexDigit_iff.mp hx₁
    obtain ⟨h₂, rfl⟩ := hexDigit_iff.mp hx₂
    obtain ⟨h₃, rfl⟩ := hexDigit_iff.mp hx₃
    obtain ⟨h₄, rfl⟩ := hexDigit_iff.mp hx₄
    rw [List.length_append] at hroom
    rw [← codeOf_four] at hroom hsurrogate ⊢
    have happend : appendUtf8 cap (codeOf [c₁, c₂, c₃, c₄]) output =
        (true, output ++ String.utf8EncodeChar (Char.ofNat (codeOf [c₁, c₂, c₃, c₄]))) :=
      (appendUtf8_eq_true_iff (by omega) (codeOf_lt h₁ h₂ h₃ h₄)).mpr
        ⟨hsurrogate, rfl, by rw [List.length_append]; omega⟩
    rw [decodeLoop.eq_def]
    dsimp only
    rw [if_neg (by decide), if_neg (by decide), if_neg (by simp),
      show unescape letterLowerU = none from rfl]
    dsimp only
    rw [if_pos rfl, findIdx?_hex.mpr ⟨h₁, h₂, h₃, h₄⟩]
    dsimp only
    rw [happend]
    dsimp only
    rw [if_neg (by simp), ih _ (by rw [List.length_append]; omega), List.append_assoc]
    simp only [List.length_cons]
    congr 2
    omega

theorem decodeString_sound {cap position position' : ℕ} {source output : Bytes} {r : Result}
    (h : decodeString cap source position = (r, position', output)) (hr : r.succeeded = true) :
    ∃ s, source.drop position = quote :: s ∧ Chars s output (source.drop position') ∧
      position < position' ∧ output.length ≤ cap := by
  unfold decodeString at h
  split at h
  · cases h
    simp [Result.succeeded] at hr
  next c rest hdrop =>
    split at h
    · cases h
      simp [Result.succeeded] at hr
    next hq =>
      obtain rfl : c = quote := not_not.mp hq
      obtain ⟨v, after, hchars, hout, hpos, hlen⟩ := decodeLoop_sound (Nat.zero_le _) h hr
      have hle := hchars.suffix.length_le
      have hafter : after = source.drop position' := by
        have htail : source.drop (position + 1) = rest := by
          rw [← List.tail_drop, hdrop]
          rfl
        obtain ⟨n, hn⟩ : ∃ n, n = rest.length - after.length := ⟨_, rfl⟩
        rw [List.suffix_iff_eq_drop.mp hchars.suffix, ← hn, ← htail, List.drop_drop]
        congr 1
        omega
      rw [List.nil_append] at hout
      subst hout
      exact ⟨rest, hdrop, hafter ▸ hchars, by omega, hlen⟩

theorem decodeString_complete {cap position : ℕ} {source s v after : Bytes}
    (hdrop : source.drop position = quote :: s) (h : Chars s v after) (hroom : v.length ≤ cap) :
    decodeString cap source position = ({}, position + 1 + (s.length - after.length), v) := by
  rw [decodeString, hdrop]
  simp only [ne_eq, not_true_eq_false, if_false]
  rw [decodeLoop_complete h _ (by simpa using hroom), List.nil_append]

/-!
## The scanner and the grammar: numbers
-/

/-- The text does not go on with a digit. -/
def NoDigit (s : Bytes) : Prop := ∀ c r, s = c :: r → isDigit c = false

theorem noDigit_nil : NoDigit [] := by
  intro c r h
  cases h

theorem noDigit_cons {s : Bytes} (h : isDigit c = false) : NoDigit (c :: s) := by
  intro d r he
  cases he
  exact h

theorem skipDigits_append {ds r : Bytes} (hds : ∀ c ∈ ds, IsDigit c) (hr : NoDigit r) :
    skipDigits (ds ++ r) = r := by
  unfold skipDigits
  rw [List.dropWhile_append_of_pos fun c hc => isDigit_iff.mpr (hds c hc)]
  cases r with
  | nil => rfl
  | cons c r => rw [List.dropWhile_cons_of_neg (by simp [hr c r rfl])]

theorem skipDigits_split (s : Bytes) :
    ∃ ds, (∀ c ∈ ds, IsDigit c) ∧ s = ds ++ skipDigits s ∧ NoDigit (skipDigits s) := by
  induction s with
  | nil => exact ⟨[], by simp, rfl, noDigit_nil⟩
  | cons c s ih =>
    by_cases hc : isDigit c = true
    · obtain ⟨ds, hds, hs, hr⟩ := ih
      have hskip : skipDigits (c :: s) = skipDigits s := List.dropWhile_cons_of_pos hc
      rw [hskip]
      refine ⟨c :: ds, fun d hd => ?_, by rw [List.cons_append, ← hs], hr⟩
      rcases List.mem_cons.mp hd with rfl | hd
      · exact isDigit_iff.mp hc
      · exact hds d hd
    · have hskip : skipDigits (c :: s) = c :: s := List.dropWhile_cons_of_neg hc
      rw [hskip]
      exact ⟨[], by simp, rfl, noDigit_cons (Bool.eq_false_iff.mpr hc)⟩

theorem afterDigits_eq_some_iff {s r : Bytes} :
    afterDigits s = some r ↔ ∃ ds, Digits ds ∧ s = ds ++ r ∧ NoDigit r := by
  constructor
  · intro h
    cases s with
    | nil => cases h
    | cons c s =>
      rw [afterDigits] at h
      split at h
      next hc =>
        cases h
        obtain ⟨ds, hds, hs, hr⟩ := skipDigits_split (c :: s)
        refine ⟨ds, ⟨?_, hds⟩, hs, hr⟩
        rintro rfl
        rw [List.nil_append] at hs
        rw [← hs] at hr
        have hnot := hr c s rfl
        rw [hc] at hnot
        cases hnot
      · cases h
  · rintro ⟨ds, ⟨hne, hds⟩, rfl, hr⟩
    cases ds with
    | nil => exact absurd rfl hne
    | cons c ds =>
      rw [List.cons_append, afterDigits, if_pos (isDigit_iff.mpr (hds c (by simp))),
        ← List.cons_append, skipDigits_append hds hr]

theorem isDigit_of_nonzero (h : digitOne ≤ c ∧ c ≤ digitNine) : isDigit c = true := by
  obtain ⟨h1, h9⟩ := h
  have hzero : digitZero ≤ c := UInt8.le_trans (by decide) h1
  simp [isDigit, hzero, h9]

theorem afterInteger_sound {s r : Bytes} (h : afterInteger c s = some r) :
    ∃ i, IntPart i ∧ c :: s = i ++ r := by
  unfold afterInteger at h
  split at h
  next hzero =>
    subst hzero
    refine ⟨[digitZero], .zero, ?_⟩
    split at h
    · cases h; rfl
    next d s =>
      split at h
      · cases h
      · cases h; rfl
  · split at h
    · cases h
    next hrange =>
      cases h
      rw [Bool.or_eq_true, decide_eq_true_eq, decide_eq_true_eq, not_or, UInt8.not_lt,
        UInt8.not_lt] at hrange
      obtain ⟨ds, hds, hs, -⟩ := skipDigits_split s
      have hskip : skipDigits (c :: s) = skipDigits s :=
        List.dropWhile_cons_of_pos (isDigit_of_nonzero hrange)
      exact ⟨c :: ds, .digits hrange hds, by rw [hskip, List.cons_append, ← hs]⟩

theorem afterInteger_complete {i s r : Bytes} (hi : IntPart i) (hr : NoDigit r)
    (h : i ++ r = c :: s) : afterInteger c s = some r := by
  cases hi with
  | zero =>
    cases h
    unfold afterInteger
    rw [if_pos rfl]
    cases r with
    | nil => rfl
    | cons d r => exact if_neg (by simp [hr d r rfl])
  | @digits d ds hd hds =>
    cases h
    unfold afterInteger
    rw [if_neg, if_neg]
    · refine congrArg some (@skipDigits_append (c :: ds) _ (fun e he => ?_) hr)
      rcases List.mem_cons.mp he with rfl | he
      · exact isDigit_iff.mp (isDigit_of_nonzero hd)
      · exact hds e he
    · rw [Bool.or_eq_true, decide_eq_true_eq, decide_eq_true_eq, not_or, UInt8.not_lt, UInt8.not_lt]
      exact hd
    · rintro rfl
      exact absurd hd.1 (by decide)

theorem afterFraction_sound {s r : Bytes} (h : afterFraction s = some r) :
    ∃ f, FracPart f ∧ s = f ++ r := by
  cases s with
  | nil => cases h; exact ⟨[], .none, rfl⟩
  | cons c s =>
    rw [afterFraction] at h
    split at h
    next hc =>
      subst hc
      obtain ⟨ds, hds, rfl, -⟩ := afterDigits_eq_some_iff.mp h
      exact ⟨period :: ds, .digits hds, rfl⟩
    · cases h; exact ⟨[], .none, rfl⟩

theorem afterExponent_sound {s r : Bytes} (h : afterExponent s = some r) :
    ∃ e, ExpPart e ∧ s = e ++ r := by
  cases s with
  | nil => cases h; exact ⟨[], .none, rfl⟩
  | cons c s =>
    rw [afterExponent] at h
    split at h
    next hc =>
      rw [Bool.or_eq_true, decide_eq_true_eq, decide_eq_true_eq] at hc
      cases s with
      | nil => cases h
      | cons sign s =>
        rw [afterSign] at h
        split at h
        next hsign =>
          rw [Bool.or_eq_true, decide_eq_true_eq, decide_eq_true_eq] at hsign
          obtain ⟨ds, hds, rfl, -⟩ := afterDigits_eq_some_iff.mp h
          exact ⟨c :: sign :: ds, .signed hc hsign hds, rfl⟩
        · obtain ⟨ds, hds, hs, -⟩ := afterDigits_eq_some_iff.mp h
          exact ⟨c :: ds, .unsigned hc hds, by rw [hs]; rfl⟩
    · cases h; exact ⟨[], .none, rfl⟩

theorem afterDigits_complete {ds : Bytes} (hds : Digits ds) : afterDigits ds = some [] :=
  afterDigits_eq_some_iff.mpr ⟨ds, hds, (List.append_nil _).symm, noDigit_nil⟩

theorem afterExponent_complete {e : Bytes} (he : ExpPart e) : afterExponent e = some [] := by
  cases he with
  | none => rfl
  | @unsigned c ds hc hds =>
    rw [afterExponent, if_pos (by simpa using hc)]
    cases ds with
    | nil => exact absurd rfl hds.1
    | cons d ds =>
      rw [afterSign, if_neg, afterDigits_complete hds]
      -- a sign is no digit
      intro hsign
      have hd := isDigit_iff.mpr (hds.2 d (by simp))
      rw [Bool.or_eq_true, decide_eq_true_eq, decide_eq_true_eq] at hsign
      rcases hsign with rfl | rfl <;> exact absurd hd (by decide)
  | @signed c sign ds hc hsign hds =>
    rw [afterExponent, if_pos (by simpa using hc), afterSign, if_pos (by simpa using hsign)]
    exact afterDigits_complete hds

theorem ExpPart.head {e : Bytes} (he : ExpPart (c :: e)) : isDigit c = false ∧ c ≠ period := by
  have hletter : c = letterLowerE ∨ c = letterUpperE := by
    cases he with
    | unsigned hc _ => exact hc
    | signed hc _ _ => exact hc
  rcases hletter with rfl | rfl <;> decide

theorem ExpPart.noDigit {e : Bytes} (he : ExpPart e) : NoDigit e := by
  rintro c r rfl
  exact he.head.1

theorem afterFraction_complete {f e : Bytes} (hf : FracPart f) (he : ExpPart e) :
    afterFraction (f ++ e) = some e := by
  cases hf with
  | none =>
    cases e with
    | nil => rfl
    | cons c e => rw [List.nil_append, afterFraction, if_neg he.head.2]
  | @digits ds hds =>
    rw [List.cons_append, afterFraction, if_pos rfl]
    exact afterDigits_eq_some_iff.mpr ⟨ds, hds, rfl, he.noDigit⟩

theorem FracPart.noDigit {f e : Bytes} (hf : FracPart f) (he : ExpPart e) : NoDigit (f ++ e) := by
  cases hf with
  | none => exact he.noDigit
  | digits => exact noDigit_cons rfl

theorem IntPart.cons {i : Bytes} (hi : IntPart i) : ∃ c s, i = c :: s ∧ isDigit c = true := by
  cases hi with
  | zero => exact ⟨_, _, rfl, rfl⟩
  | digits hc _ => exact ⟨_, _, rfl, isDigit_of_nonzero hc⟩

theorem validUnsigned_iff {s : Bytes} : validUnsigned s = true ↔
    ∃ i f e, IntPart i ∧ FracPart f ∧ ExpPart e ∧ s = i ++ f ++ e := by
  constructor
  · intro h
    cases s with
    | nil => cases h
    | cons c s =>
      rw [validUnsigned] at h
      split at h
      · cases h
      next rest hrest =>
        obtain rfl : rest = [] := List.isEmpty_iff.mp h
        obtain ⟨r, hr, htail⟩ := Option.bind_eq_some_iff.mp hrest
        obtain ⟨r', hr', hlast⟩ := Option.bind_eq_some_iff.mp htail
        obtain ⟨i, hi, hi'⟩ := afterInteger_sound hr
        obtain ⟨f, hf, rfl⟩ := afterFraction_sound hr'
        obtain ⟨e, he, rfl⟩ := afterExponent_sound hlast
        exact ⟨i, f, e, hi, hf, he, by rw [hi', List.append_nil, List.append_assoc]⟩
  · rintro ⟨i, f, e, hi, hf, he, rfl⟩
    obtain ⟨c, s, rfl, -⟩ := hi.cons
    have hall : ((afterInteger c (s ++ f ++ e)).bind fun rest =>
        (afterFraction rest).bind afterExponent) = some [] := by
      rw [afterInteger_complete hi (hf.noDigit he) (by simp), Option.bind_some,
        afterFraction_complete hf he, Option.bind_some, afterExponent_complete he]
    show validUnsigned (c :: (s ++ f ++ e)) = true
    rw [validUnsigned, hall]
    rfl

theorem validNumber_iff {s : Bytes} : validNumber s = true ↔ IsNumber s := by
  unfold validNumber
  rw [validUnsigned_iff]
  constructor
  · rintro ⟨i, f, e, hi, hf, he, hs⟩
    split at hs
    next hminus =>
      cases s with
      | nil => cases hminus
      | cons c s =>
        rw [List.head?_cons, Option.some.injEq] at hminus
        rw [List.tail_cons] at hs
        subst hminus hs
        exact .negative hi hf he
    · subst hs
      exact .positive hi hf he
  · rintro (⟨hi, hf, he⟩ | ⟨hi, hf, he⟩)
    · refine ⟨_, _, _, hi, hf, he, if_neg ?_⟩
      obtain ⟨c, s, rfl, hc⟩ := hi.cons
      simp only [List.cons_append, List.head?_cons, Option.some.injEq]
      rintro rfl
      exact absurd hc (by decide)
    · exact ⟨_, _, _, hi, hf, he, if_pos rfl⟩

theorem isNumberChar_of_digit (h : IsDigit c) : isNumberChar c = true := by
  simp [isNumberChar, isDigit_iff.mpr h]

theorem isNumberChar_not_delimiter (h : isNumberChar c = true) : isNumberDelimiter c = false := by
  by_contra hd
  rw [Bool.not_eq_false] at hd
  simp only [isNumberDelimiter, isSpace, Bool.or_eq_true, decide_eq_true_eq] at hd
  rcases hd with (((((rfl | rfl) | rfl) | rfl) | rfl) | rfl) | rfl <;> exact absurd h (by decide)

theorem IsNumber.chars {t : Bytes} (h : IsNumber t) : ∀ c ∈ t, isNumberChar c = true := by
  have hint {i : Bytes} (hi : IntPart i) : ∀ c ∈ i, isNumberChar c = true := by
    cases hi with
    | zero =>
      intro d hd
      rw [List.mem_singleton] at hd
      subst hd
      rfl
    | digits hc hs =>
      intro d hd
      rcases List.mem_cons.mp hd with rfl | hd
      · exact isNumberChar_of_digit (isDigit_iff.mp (isDigit_of_nonzero hc))
      · exact isNumberChar_of_digit (hs d hd)
  have hfrac {f : Bytes} (hf : FracPart f) : ∀ c ∈ f, isNumberChar c = true := by
    cases hf with
    | none => simp
    | digits hs =>
      intro d hd
      rcases List.mem_cons.mp hd with rfl | hd
      · rfl
      · exact isNumberChar_of_digit (hs.2 d hd)
  have hletter {e : UInt8} (he : e = letterLowerE ∨ e = letterUpperE) : isNumberChar e = true := by
    rcases he with rfl | rfl <;> rfl
  have hexp {e : Bytes} (he : ExpPart e) : ∀ c ∈ e, isNumberChar c = true := by
    cases he with
    | none => simp
    | unsigned hc hs =>
      intro d hd
      rcases List.mem_cons.mp hd with rfl | hd
      · exact hletter hc
      · exact isNumberChar_of_digit (hs.2 d hd)
    | signed hc hsign hs =>
      intro d hd
      rcases List.mem_cons.mp hd with rfl | hd
      · exact hletter hc
      · rcases List.mem_cons.mp hd with rfl | hd
        · rcases hsign with rfl | rfl <;> rfl
        · exact isNumberChar_of_digit (hs.2 d hd)
  have hparts {i f e : Bytes} (hi : IntPart i) (hf : FracPart f) (he : ExpPart e) :
      ∀ c ∈ i ++ f ++ e, isNumberChar c = true := by
    intro c hc
    rcases List.mem_append.mp hc with hc | hc
    · rcases List.mem_append.mp hc with hc | hc
      · exact hint hi c hc
      · exact hfrac hf c hc
    · exact hexp he c hc
  cases h with
  | positive hi hf he => exact hparts hi hf he
  | negative hi hf he =>
    intro c hc
    rcases List.mem_cons.mp hc with rfl | hc
    · rfl
    · exact hparts hi hf he c hc

theorem IsNumber.cons {t : Bytes} (h : IsNumber t) :
    ∃ c s, t = c :: s ∧ (c = minus ∨ isDigit c = true) := by
  cases h with
  | positive hi hf he =>
    obtain ⟨c, s, rfl, hc⟩ := hi.cons
    exact ⟨c, _, rfl, .inr hc⟩
  | negative hi hf he => exact ⟨minus, _, rfl, .inl rfl⟩

end Castle.Serialization.Json
