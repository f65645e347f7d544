import Mathlib.Data.List.TakeWhile
import Castle.Mqtt.Codec

/-!
# Topic names and topic filters (`topic.hpp`)
-/

namespace Castle.Mqtt

/-- The class of a first byte from `0x80` on: the bits it contributes, the number
of continuation bytes and the least code point of that length. -/
def leadByte (cp : ℕ) : Option (ℕ × ℕ × ℕ) :=
  if cp &&& 0xE0 = 0xC0 then some (cp &&& 0x1F, 1, 0x80)
  else if cp &&& 0xF0 = 0xE0 then some (cp &&& 0x0F, 2, 0x800)
  else if cp &&& 0xF8 = 0xF0 then some (cp &&& 0x07, 3, 0x10000)
  else none

/-- The inner loop over `count` continuation bytes. -/
def continuationBytes : ℕ → ℕ → Bytes → Option (ℕ × Bytes)
  | 0, cp, rest => some (cp, rest)
  | _ + 1, _, [] => none
  | count + 1, cp, next :: rest =>
    if next &&& 0xC0 ≠ 0x80 then none
    else continuationBytes count (cp * 64 + (next &&& 0x3F).toNat) rest

/-- The loop of `valid_utf8`; `fuel` is the number of bytes left. -/
def validUtf8From : ℕ → Bytes → Bool
  | _, [] => true
  | 0, _ :: _ => false
  | fuel + 1, first :: rest =>
    let cp := first.toNat
    if cp = 0 then false
    else if cp < 0x80 then validUtf8From fuel rest
    else
      match leadByte cp with
      | none => false
      | some (bits, continuation, minimum) =>
        if rest.length < continuation then false
        else
          match continuationBytes continuation bits rest with
          | none => false
          | some (cp, rest) =>
            if cp < minimum ∨ cp > 0x10FFFF ∨ (0xD800 ≤ cp ∧ cp ≤ 0xDFFF) ∨
                (0xFDD0 ≤ cp ∧ cp ≤ 0xFDEF) ∨ cp % 0x10000 = 0xFFFE ∨ cp % 0x10000 = 0xFFFF then
              false
            else validUtf8From fuel rest

def validUtf8 (value : Bytes) : Bool := validUtf8From value.length value

theorem continuationBytes_ne_zero {count cp cp' : ℕ} {rest rest' : Bytes}
    (h : continuationBytes count cp rest = some (cp', rest')) (h0 : 0 ∈ rest) : 0 ∈ rest' := by
  induction count generalizing cp rest with
  | zero =>
    cases h
    exact h0
  | succ count ih =>
    cases rest with
    | nil => cases h
    | cons next rest =>
      simp only [continuationBytes] at h
      split at h
      · cases h
      next hnext =>
      rcases List.mem_cons.mp h0 with rfl | h0
      · exact absurd (by decide) hnext
      · exact ih h h0

theorem validUtf8From_ne_zero {fuel : ℕ} {value : Bytes} (h : validUtf8From fuel value = true) :
    0 ∉ value := by
  induction fuel generalizing value with
  | zero =>
    cases value with
    | nil => simp
    | cons first rest => cases h
  | succ fuel ih =>
    cases value with
    | nil => simp
    | cons first rest =>
      simp only [validUtf8From] at h
      split at h
      · cases h
      next hfirst =>
      intro h0
      rcases List.mem_cons.mp h0 with rfl | h0
      · exact hfirst rfl
      split at h
      · exact ih h h0
      split at h
      · cases h
      split at h
      · cases h
      split at h
      · cases h
      next hcont =>
      split at h
      · cases h
      · exact ih h (continuationBytes_ne_zero hcont h0)

theorem cstr_of_validUtf8 {value : Bytes} (h : validUtf8 value = true) : cstr value = value := by
  refine List.takeWhile_eq_self_iff.mpr fun c hc => ?_
  have h0 := validUtf8From_ne_zero h
  simpa using fun he : c = 0 => h0 (he ▸ hc)

def slash : UInt8 := 0x2F
def plus : UInt8 := 0x2B
def hash : UInt8 := 0x23
def dollar : UInt8 := 0x24

def validateTopicName (topic : Bytes) : Status :=
  if topic = [] ∨ validUtf8 topic = false then .invalidArgument
  else if topic.any fun c => c = plus || c = hash then .invalidArgument
  else .ok

theorem cstr_of_validTopicName {topic : Bytes} (h : validateTopicName topic = .ok) :
    cstr topic = topic := by
  unfold validateTopicName at h
  split at h
  · cases h
  next hv =>
  rw [not_or] at hv
  exact cstr_of_validUtf8 (by simpa using hv.2)

/-- The wildcard checks on one level; `last` when the filter ends behind it. -/
def validLevel (level : Bytes) (last : Bool) : Bool :=
  level.all fun c =>
    !(c = plus && level.length ≠ 1) && !(c = hash && !(level.length = 1 && last))

/-- The level loop, with the bytes of the current level read so far. -/
def validLevels (level : Bytes) : Bytes → Bool
  | [] => validLevel level true
  | c :: rest =>
    if c = slash then validLevel level false && validLevels [] rest
    else validLevels (level ++ [c]) rest

def validateTopicFilter (filter : Bytes) : Status :=
  if filter = [] ∨ validUtf8 filter = false then .invalidArgument
  else if validLevels [] filter then .ok
  else .invalidArgument

/-- The loop of `topic_matches` at the starts of two levels; `fuel` bounds the
bytes of the filter that are left. -/
def matchLevels : ℕ → Bytes → Bytes → Bool
  | 0, _, topic => topic = []
  | _, [], topic => topic = []
  | fuel + 1, first :: filter, topic =>
    if first = hash then true
    else
      let fLevel := (first :: filter).takeWhile (· ≠ slash)
      let tLevel := topic.takeWhile (· ≠ slash)
      if fLevel ≠ [plus] ∧ fLevel ≠ tLevel then false
      else
        match (first :: filter).dropWhile (· ≠ slash), topic.dropWhile (· ≠ slash) with
        | [], tMore => tMore = []
        | _ :: fNext, [] => fNext = [hash]
        | _ :: fNext, _ :: tNext => matchLevels fuel fNext tNext

def topicMatches (filter topic : Bytes) : Bool :=
  if validateTopicFilter filter ≠ .ok ∨ validateTopicName topic ≠ .ok then false
  else if topic.head? = some dollar ∧ filter.head? ≠ some dollar then false
  else matchLevels filter.length filter topic

end Castle.Mqtt
