import Mathlib.Data.List.TakeWhile
import Castle.Http.Types
import Castle.Lib.Lines

/-!
# Characters and numbers of HTTP/1 (`server.hpp` and `http1.hpp`)

Client and server have the same loops here.
-/

namespace Castle.Http

def space : UInt8 := 0x20
def tab : UInt8 := 0x09
def carriageReturn : UInt8 := 0x0d
def lineFeed : UInt8 := 0x0a
def colon : UInt8 := 0x3a
def slash : UInt8 := 0x2f
def question : UInt8 := 0x3f
def semicolon : UInt8 := 0x3b

def crlf : Bytes := [carriageReturn, lineFeed]

theorem crlf_ne : carriageReturn ≠ lineFeed := by decide

theorem crlf_ne_nil : crlf ≠ [] := List.cons_ne_nil _ _

def isBlank (c : UInt8) : Bool := c = space || c = tab

/-- `trim_ows`, `server_trim_ows` -/
def trimOws (value : Bytes) : Bytes :=
  ((value.dropWhile isBlank).reverse.dropWhile isBlank).reverse

def hexDigit (c : UInt8) : Option ℕ :=
  if between 0x30 0x39 c then some (c.toNat - 0x30)
  else if between 0x61 0x66 c then some (c.toNat - 0x61 + 10)
  else if between 0x41 0x46 c then some (c.toNat - 0x41 + 10)
  else none

/-- The loop of `parse_hex` and `server_parse_hex`, with its test for an overflow. -/
def parseHexLoop : Bytes → ℕ → Option ℕ
  | [], result => some result
  | c :: value, result =>
    match hexDigit c with
    | none => none
    | some digit =>
      if result > (2 ^ 64 - 1 - digit) / 16 then none
      else parseHexLoop value (result * 16 + digit)

def decimalDigit (value : ℕ) : UInt8 := UInt8.ofNat (0x30 + value % 10)

/-- The digits of a number, the last ones in `digits` already; at most `fuel` more. -/
def decimalLoop : ℕ → ℕ → Bytes → Bytes
  | 0, _, digits => digits
  | fuel + 1, value, digits =>
    if value / 10 = 0 then decimalDigit value :: digits
    else decimalLoop fuel (value / 10) (decimalDigit value :: digits)

theorem tokenChar_ne {c d : UInt8} (h : tokenChar c = true) (hd : tokenChar d = false) : c ≠ d := by
  intro he
  rw [he, hd] at h
  exact Bool.noConfusion h

theorem isToken_iff {text : Bytes} :
    isToken text = true ↔ text ≠ [] ∧ ∀ c ∈ text, tokenChar c = true := by
  simp [isToken, List.all_eq_true]

theorem not_mem_token {text : Bytes} (h : isToken text = true) {d : UInt8} (hd : tokenChar d = false) :
    d ∉ text := fun hm => tokenChar_ne ((isToken_iff.mp h).2 d hm) hd rfl

theorem carriageReturn_not_token : tokenChar carriageReturn = false := by decide

theorem not_mem_value {text : Bytes} (h : validValue text = true) {d : UInt8}
    (hd : (!(d < 0x20 && d ≠ 0x09) && d ≠ 0x7f) = false) : d ∉ text := by
  intro hm
  have := List.all_eq_true.mp h d hm
  rw [hd] at this
  exact Bool.noConfusion this

theorem carriageReturn_not_mem {text : Bytes} (h : validValue text = true) : carriageReturn ∉ text :=
  not_mem_value h (by decide)

theorem validValue_append {a b : Bytes} : validValue (a ++ b) = (validValue a && validValue b) :=
  List.all_append

theorem validValue_of_token {text : Bytes} (h : ∀ c ∈ text, tokenChar c = true) :
    validValue text = true := by
  apply List.all_eq_true.mpr
  intro c hc
  have ht := h c hc
  simp only [Bool.and_eq_true, Bool.not_eq_true', decide_eq_true_eq, Bool.and_eq_false_iff,
    decide_eq_false_iff_not]
  constructor
  · apply Or.inl
    intro hlt
    have hn : c.toNat < 32 := hlt
    have hall : ∀ n < 32, tokenChar (UInt8.ofNat n) = false := by decide
    have hcn := hall c.toNat hn
    rw [UInt8.ofNat_toNat] at hcn
    rw [hcn] at ht
    exact Bool.noConfusion ht
  · exact tokenChar_ne ht (by decide)

theorem trimOws_eq_self {value : Bytes} (hhead : ∀ c ∈ value.head?, isBlank c = false)
    (hlast : ∀ c ∈ value.getLast?, isBlank c = false) : trimOws value = value := by
  have hfront : value.dropWhile isBlank = value := by
    cases value with
    | nil => rfl
    | cons c value => rw [List.dropWhile_cons_of_neg (by rw [hhead c rfl]; exact Bool.false_ne_true)]
  rw [trimOws, hfront]
  have hback : value.reverse.dropWhile isBlank = value.reverse := by
    cases hr : value.reverse with
    | nil => rfl
    | cons c rest =>
      have hc : isBlank c = false := by
        apply hlast
        rw [List.getLast?_eq_head?_reverse, hr]
        rfl
      rw [List.dropWhile_cons_of_neg (by rw [hc]; exact Bool.false_ne_true)]
  rw [hback, List.reverse_reverse]

theorem trimOws_split (value : Bytes) : ∃ before after : Bytes, value = before ++ trimOws value ++ after ∧
    (∀ c ∈ before, isBlank c = true) ∧ ∀ c ∈ after, isBlank c = true := by
  refine ⟨value.takeWhile isBlank, ((value.dropWhile isBlank).reverse.takeWhile isBlank).reverse, ?_, ?_, ?_⟩
  · rw [trimOws, List.append_assoc, ← List.reverse_append, List.takeWhile_append_dropWhile,
      List.reverse_reverse, List.takeWhile_append_dropWhile]
  · exact fun c hc => List.mem_takeWhile_imp hc
  · intro c hc
    rw [List.mem_reverse] at hc
    exact List.mem_takeWhile_imp hc

theorem trimOws_sublist (value : Bytes) : ∀ c ∈ trimOws value, c ∈ value := by
  intro c hc
  rw [trimOws, List.mem_reverse] at hc
  have := (List.dropWhile_sublist _).subset hc
  rw [List.mem_reverse] at this
  exact (List.dropWhile_sublist _).subset this

theorem validValue_trimOws {value : Bytes} (h : validValue value = true) :
    validValue (trimOws value) = true :=
  List.all_eq_true.mpr fun c hc => List.all_eq_true.mp h c (trimOws_sublist value c hc)

theorem trimOws_cons_space (value : Bytes) : trimOws (space :: value) = trimOws value := by
  rw [trimOws, List.dropWhile_cons_of_pos (by decide)]
  rfl

theorem decimalDigit_toNat (value : ℕ) : (decimalDigit value).toNat = 0x30 + value % 10 := by
  rw [decimalDigit, UInt8.toNat_ofNat']
  omega

theorem between_decimalDigit (value : ℕ) : between 0x30 0x39 (decimalDigit value) = true := by
  have := decimalDigit_toNat value
  simp only [between, Bool.and_eq_true, decide_eq_true_eq, UInt8.le_iff_toNat_le, this]
  have : value % 10 < 10 := Nat.mod_lt _ (by omega)
  constructor
  · exact Nat.le_add_right _ _
  · change 0x30 + value % 10 ≤ 0x39
    omega

theorem decimalLoop_append (fuel value : ℕ) (digits : Bytes) :
    decimalLoop fuel value digits = decimalLoop fuel value [] ++ digits := by
  induction fuel generalizing value digits with
  | zero => rfl
  | succ fuel ih =>
    rw [decimalLoop, decimalLoop]
    split
    · rfl
    · rw [ih, ih (value / 10) [decimalDigit value], List.append_assoc]
      rfl

theorem parseDecimalLoop_append (a b : Bytes) (result : ℕ) :
    parseDecimalLoop (a ++ b) result = (parseDecimalLoop a result).bind (parseDecimalLoop b) := by
  induction a generalizing result with
  | nil => rfl
  | cons c a ih =>
    rw [List.cons_append, parseDecimalLoop, parseDecimalLoop]
    split
    · rfl
    · simp only
      split
      · rfl
      · exact ih _

theorem decimalLoop_ne_nil (fuel value : ℕ) : decimalLoop (fuel + 1) value [] ≠ [] := by
  rw [decimalLoop]
  split
  · exact List.cons_ne_nil _ _
  · rw [decimalLoop_append]
    exact List.append_ne_nil_of_right_ne_nil _ (List.cons_ne_nil _ _)

theorem parseDecimalLoop_digits {fuel value : ℕ} (hv : value < 10 ^ (fuel + 1)) (hw : value < 2 ^ 64) :
    parseDecimalLoop (decimalLoop (fuel + 1) value []) 0 = some value := by
  induction fuel generalizing value with
  | zero =>
    have hlt : value < 10 := by simpa using hv
    have hz : value / 10 = 0 := by omega
    rw [decimalLoop, if_pos hz, parseDecimalLoop, between_decimalDigit, decimalDigit_toNat]
    simp only [Bool.not_true, Bool.false_eq_true, if_false]
    rw [if_neg (by omega), parseDecimalLoop]
    congr 1
    omega
  | succ fuel ih =>
    rw [decimalLoop]
    split
    next hz =>
      rw [parseDecimalLoop, between_decimalDigit, decimalDigit_toNat]
      simp only [Bool.not_true, Bool.false_eq_true, if_false]
      rw [if_neg (by omega), parseDecimalLoop]
      congr 1
      omega
    next hz =>
      have hrec : parseDecimalLoop (decimalLoop (fuel + 1) (value / 10) []) 0 = some (value / 10) := by
        apply ih
        · rw [Nat.pow_succ] at hv
          omega
        · omega
      rw [decimalLoop_append, parseDecimalLoop_append, hrec, Option.bind_some, parseDecimalLoop,
        between_decimalDigit, decimalDigit_toNat]
      simp only [Bool.not_true, Bool.false_eq_true, if_false]
      rw [if_neg (by omega), parseDecimalLoop]
      congr 1
      omega

theorem parseDecimal_digits {fuel value : ℕ} (hv : value < 10 ^ (fuel + 1)) (hw : value < 2 ^ 64) :
    parseDecimal (decimalLoop (fuel + 1) value []) = some value := by
  rw [parseDecimal, if_neg (by rw [List.isEmpty_iff]; exact decimalLoop_ne_nil fuel value)]
  exact parseDecimalLoop_digits hv hw

theorem mem_decimalLoop {fuel value : ℕ} {c : UInt8} (h : c ∈ decimalLoop fuel value []) :
    between 0x30 0x39 c = true := by
  induction fuel generalizing value with
  | zero => cases h
  | succ fuel ih =>
    rw [decimalLoop] at h
    split at h
    · rw [List.mem_singleton.mp h]
      exact between_decimalDigit value
    · rw [decimalLoop_append, List.mem_append] at h
      apply h.elim ih
      intro hc
      rw [List.mem_singleton.mp hc]
      exact between_decimalDigit value

theorem length_decimalLoop (fuel value : ℕ) : (decimalLoop fuel value []).length ≤ fuel := by
  induction fuel generalizing value with
  | zero => exact Nat.le_refl 0
  | succ fuel ih =>
    rw [decimalLoop]
    split
    · exact Nat.succ_le_succ (Nat.zero_le fuel)
    · rw [decimalLoop_append, List.length_append]
      exact Nat.succ_le_succ (ih _)

theorem tokenChar_of_digit {c : UInt8} (h : between 0x30 0x39 c = true) : tokenChar c = true := by
  rw [tokenChar, h]
  rfl

theorem isBlank_of_token {c : UInt8} (h : tokenChar c = true) : isBlank c = false := by
  have hs : c ≠ space := tokenChar_ne h (by decide)
  have ht : c ≠ tab := tokenChar_ne h (by decide)
  simp [isBlank, hs, ht]

theorem trimOws_token {value : Bytes} (h : ∀ c ∈ value, tokenChar c = true) : trimOws value = value := by
  apply trimOws_eq_self
  · exact fun c hc => isBlank_of_token (h c (List.mem_of_mem_head? hc))
  · exact fun c hc => isBlank_of_token (h c (List.mem_of_getLast? hc))

end Castle.Http
