import Mathlib.Data.List.TakeWhile
import Castle.Mqtt.RemainingLength

/-!
# Property lists and their wire form (`types.hpp`, `codec.hpp`)

A list built with the `add_` functions of `property_list`, written by `encode_properties` and read
again by `decode_properties`.
-/

namespace Castle.Mqtt

open PropertyId

section

variable (limits : PropertyLimits) (properties : List Property)

def addInteger (id : PropertyId) (value : UInt32) : Except Status (List Property) :=
  if properties.length = limits.maxProperties then .error .full
  else .ok (properties ++ [{ id, integer := value }])

def addString (id : PropertyId) (value : Bytes) : Except Status (List Property) :=
  if properties.length = limits.maxProperties then .error .full
  else if limits.stringCapacity ≤ value.length then .error .outOfRange
  else .ok (properties ++ [{ id, stringValue := value }])

def addBinary (id : PropertyId) (data : Bytes) : Except Status (List Property) :=
  if properties.length = limits.maxProperties then .error .full
  else if limits.binaryCapacity < data.length then .error .outOfRange
  else .ok (properties ++ [{ id, binaryValue := data }])

def addUserProperty (key value : Bytes) : Except Status (List Property) :=
  if properties.length = limits.maxProperties then .error .full
  else if limits.stringCapacity ≤ key.length ∨ limits.stringCapacity ≤ value.length then
    .error .outOfRange
  else .ok (properties ++ [{ id := userProperty, stringValue := key, userValue := value }])

/-- A call of one of the `add_` functions. -/
inductive PropertyCall where
  | integer (id : PropertyId) (value : UInt32)
  | string (id : PropertyId) (value : Bytes)
  | binary (id : PropertyId) (data : Bytes)
  | user (key value : Bytes)
  deriving DecidableEq, Repr

def addProperty : PropertyCall → Except Status (List Property)
  | .integer id value => addInteger limits properties id value
  | .string id value => addString limits properties id value
  | .binary id data => addBinary limits properties id data
  | .user key value => addUserProperty limits properties key value

/-- The calls one after the other, all of them successful. -/
def addProperties : List Property → List PropertyCall → Except Status (List Property)
  | properties, [] => .ok properties
  | properties, call :: calls =>
    match addProperty limits properties call with
    | .error status => .error status
    | .ok properties => addProperties properties calls

end

/-- The values of an entry lie in its arrays, with room for the NUL of a text. -/
def Property.Fits (limits : PropertyLimits) (p : Property) : Prop :=
  p.stringValue.length < limits.stringCapacity ∧ p.userValue.length < limits.stringCapacity ∧
    p.binaryValue.length ≤ limits.binaryCapacity

variable {limits : PropertyLimits} {properties : List Property}

theorem addProperty_ok {after : List Property} {call : PropertyCall}
    (hcap : 0 < limits.stringCapacity) (h : addProperty limits properties call = .ok after) :
    ∃ p, after = properties ++ [p] ∧ p.Fits limits := by
  cases call with
  | integer id value =>
    simp only [addProperty, addInteger] at h
    split at h
    · cases h
    · cases h
      exact ⟨_, rfl, hcap, hcap, Nat.zero_le _⟩
  | string id value =>
    simp only [addProperty, addString] at h
    split at h
    · cases h
    split at h
    · cases h
    next hsize =>
      cases h
      exact ⟨_, rfl, not_le.mp hsize, hcap, Nat.zero_le _⟩
  | binary id data =>
    simp only [addProperty, addBinary] at h
    split at h
    · cases h
    split at h
    · cases h
    next hsize =>
      cases h
      exact ⟨_, rfl, hcap, hcap, not_lt.mp hsize⟩
  | user key value =>
    simp only [addProperty, addUserProperty] at h
    split at h
    · cases h
    split at h
    · cases h
    next hsize =>
      cases h
      rw [not_or, not_le, not_le] at hsize
      exact ⟨_, rfl, hsize.1, hsize.2, Nat.zero_le _⟩

theorem addProperties_fits {after : List Property} {calls : List PropertyCall}
    (hcap : 0 < limits.stringCapacity) (hfits : ∀ p ∈ properties, p.Fits limits)
    (h : addProperties limits properties calls = .ok after) : ∀ p ∈ after, p.Fits limits := by
  induction calls generalizing properties with
  | nil =>
    cases h
    exact hfits
  | cons call calls ih =>
    rw [addProperties] at h
    split at h
    · cases h
    next next hcall =>
      obtain ⟨p, rfl, hp⟩ := addProperty_ok hcap hcall
      exact ih (by simpa [or_imp, forall_and, hp] using hfits) h

theorem readBe16_writeBe16 (value : UInt16) :
    readBe16 (UInt8.ofNat (value.toNat / 256)) (UInt8.ofNat (value.toNat % 256)) = value := by
  have hlt := value.toNat_lt
  have hhi : (UInt8.ofNat (value.toNat / 256)).toNat = value.toNat / 256 :=
    UInt8.toNat_ofNat_of_lt' (by simp only [UInt8.size]; omega)
  have hlo : (UInt8.ofNat (value.toNat % 256)).toNat = value.toNat % 256 :=
    UInt8.toNat_ofNat_of_lt' (by simp only [UInt8.size]; omega)
  have hsum : value.toNat / 256 * 256 + value.toNat % 256 = value.toNat := by omega
  rw [readBe16, hhi, hlo, hsum, UInt16.ofNat_toNat]

theorem readBe32_writeBe32 (value : UInt32) :
    readBe32 (UInt8.ofNat (value.toNat / 16777216)) (UInt8.ofNat (value.toNat / 65536 % 256))
      (UInt8.ofNat (value.toNat / 256 % 256)) (UInt8.ofNat (value.toNat % 256)) = value := by
  have hlt := value.toNat_lt
  have hbyte (n : ℕ) (h : n < 256) : (UInt8.ofNat n).toNat = n := UInt8.toNat_ofNat_of_lt' h
  rw [readBe32, hbyte _ (by omega), hbyte _ (by omega), hbyte _ (by omega), hbyte _ (by omega)]
  have hsum : ((value.toNat / 16777216 * 256 + value.toNat / 65536 % 256) * 256 +
      value.toNat / 256 % 256) * 256 + value.toNat % 256 = value.toNat := by
    omega
  rw [hsum, UInt32.ofNat_toNat]

/-- A text or binary value behind its length. -/
def lengthPrefixed (value : Bytes) : Bytes := writeBe16 (UInt16.ofNat value.length) ++ value

namespace PacketReader

theorem getU16_writeBe16 (value : UInt16) (more : Bytes) :
    (⟨writeBe16 value ++ more, .ok⟩ : PacketReader).getU16 = ⟨.ok, value, ⟨more, .ok⟩⟩ := by
  have hread := readBe16_writeBe16 value
  simp [writeBe16, getU16, advance, hread]

theorem getU32_writeBe32 (value : UInt32) (more : Bytes) :
    (⟨writeBe32 value ++ more, .ok⟩ : PacketReader).getU32 = ⟨.ok, value, ⟨more, .ok⟩⟩ := by
  have hread := readBe32_writeBe32 value
  simp [writeBe32, getU32, advance, hread]

theorem getUtf8_lengthPrefixed {value : Bytes} {capacity : ℕ} (hlen : value.length ≤ 65535)
    (hcap : value.length < capacity) (more : Bytes) :
    (⟨lengthPrefixed value ++ more, .ok⟩ : PacketReader).getUtf8 capacity = ⟨.ok, value, ⟨more, .ok⟩⟩ := by
  have hcount : (UInt16.ofNat value.length).toNat = value.length :=
    UInt16.toNat_ofNat_of_lt' (Nat.lt_succ_of_le hlen)
  have hroom : ¬(value ++ more).length < value.length := by
    rw [List.length_append]
    omega
  rw [lengthPrefixed, List.append_assoc, getUtf8, getU16_writeBe16]
  dsimp only
  rw [if_neg (by simp), hcount, if_neg (not_le.mpr hcap), remaining, if_neg hroom, advance, List.take_left,
    List.drop_left]

theorem getVarint_digits {value : ℕ} (h : value ≤ maximumRemainingLength) (more : Bytes) :
    (⟨remainingLengthDigits 4 value ++ more, .ok⟩ : PacketReader).getVarint = ⟨.ok, value, ⟨more, .ok⟩⟩ := by
  rw [getVarint, decode_encode h more]
  dsimp only [advance]
  rw [List.drop_left]

end PacketReader

namespace PacketWriter

variable {w : PacketWriter}

theorem putBytes_data {bytes : Bytes} (h : (w.putBytes bytes).status = .ok) :
    (w.putBytes bytes).data = w.data ++ bytes := by
  unfold putBytes at h ⊢
  split at h
  · cases h
  next hroom => rw [if_neg hroom]

theorem putU8_data {value : UInt8} (hw : w.status = .ok) (h : (w.putU8 value).status = .ok) :
    (w.putU8 value).data = w.data ++ [value] := by
  unfold putU8 at h ⊢
  rw [if_neg (not_not.mpr hw)] at h ⊢
  split at h
  · cases h
  next hroom => rw [if_neg hroom]

theorem putUtf8_data {value : Bytes} (h : (w.putUtf8 value).status = .ok) :
    value.length ≤ 65535 ∧ (w.putUtf8 value).data = w.data ++ lengthPrefixed value := by
  unfold putUtf8 at h ⊢
  split at h
  · cases h
  next hlen =>
  rw [if_neg hlen]
  dsimp only at h ⊢
  split at h
  next hfirst =>
    rw [if_pos hfirst, putBytes_data h, putU16, putBytes_data hfirst, lengthPrefixed, List.append_assoc]
    exact ⟨not_lt.mp hlen, rfl⟩
  next hfirst => exact absurd h hfirst

theorem putVarint_data {value : ℕ} (h : (w.putVarint value).status = .ok) :
    value ≤ maximumRemainingLength ∧ (w.putVarint value).data = w.data ++ remainingLengthDigits 4 value := by
  unfold putVarint at h ⊢
  by_cases hmax : value ≤ maximumRemainingLength
  · rw [encodeRemainingLength_ok hmax] at h ⊢
    exact ⟨hmax, putBytes_data h⟩
  · rw [encodeRemainingLength, if_pos (not_le.mp hmax)] at h
    cases h

end PacketWriter

/-- The value of an entry as `encode_properties` writes it. -/
def Property.valueBytes (p : Property) : Bytes :=
  if propertyIsByte p.id then [p.integer.toUInt8]
  else if propertyIsU16 p.id then writeBe16 p.integer.toUInt16
  else if propertyIsU32 p.id then writeBe32 p.integer
  else if propertyIsVarint p.id then remainingLengthDigits 4 p.integer.toNat
  else if propertyIsBinary p.id then lengthPrefixed p.binaryValue
  else if propertyIsPair p.id then lengthPrefixed (cstr p.stringValue) ++ lengthPrefixed (cstr p.userValue)
  else lengthPrefixed (cstr p.stringValue)

/-- What the encoder has checked of an entry that it wrote. -/
def Property.Checked (p : Property) : Prop :=
  if propertyIsByte p.id ∨ propertyIsU16 p.id ∨ propertyIsU32 p.id then True
  else if propertyIsVarint p.id then p.integer.toNat ≤ maximumRemainingLength
  else if propertyIsBinary p.id then p.binaryValue.length ≤ 65535
  else if propertyIsPair p.id then (cstr p.stringValue).length ≤ 65535 ∧ (cstr p.userValue).length ≤ 65535
  else propertyIsString p.id ∧ (cstr p.stringValue).length ≤ 65535

/-- The entry that the decoder makes of the written bytes. -/
def Property.readBack (p : Property) : Property :=
  if propertyIsByte p.id then { id := p.id, integer := p.integer.toUInt8.toUInt32 }
  else if propertyIsU16 p.id then { id := p.id, integer := p.integer.toUInt16.toUInt32 }
  else if propertyIsU32 p.id ∨ propertyIsVarint p.id then { id := p.id, integer := p.integer }
  else if propertyIsBinary p.id then { id := p.id, binaryValue := p.binaryValue }
  else if propertyIsPair p.id then
    { id := p.id, stringValue := cstr p.stringValue, userValue := cstr p.userValue }
  else { id := p.id, stringValue := cstr p.stringValue }

/-- The written value passes the range checks of the decoder. -/
def Property.Accepted (p : Property) : Prop :=
  if propertyIsByte p.id then p.integer.toUInt8 ≤ 1
  else if propertyIsU16 p.id then ¬(p.integer.toUInt16 = 0 ∧ (p.id = receiveMaximum ∨ p.id = topicAlias))
  else if propertyIsU32 p.id then True
  else if propertyIsVarint p.id then p.integer ≠ 0
  else True

/-- The fields that its identifier does not carry are empty, integers are in range and texts hold no
NUL. -/
def Property.Representable (p : Property) : Prop :=
  if propertyIsByte p.id then p = { id := p.id, integer := p.integer } ∧ p.integer ≤ 1
  else if propertyIsU16 p.id then
    p = { id := p.id, integer := p.integer } ∧ p.integer ≤ 65535 ∧
      ¬(p.integer = 0 ∧ (p.id = receiveMaximum ∨ p.id = topicAlias))
  else if propertyIsU32 p.id then p = { id := p.id, integer := p.integer }
  else if propertyIsVarint p.id then p = { id := p.id, integer := p.integer } ∧ p.integer ≠ 0
  else if propertyIsBinary p.id then p = { id := p.id, binaryValue := p.binaryValue }
  else if propertyIsPair p.id then
    p = { id := p.id, stringValue := p.stringValue, userValue := p.userValue } ∧
      0 ∉ p.stringValue ∧ 0 ∉ p.userValue
  else p = { id := p.id, stringValue := p.stringValue } ∧ 0 ∉ p.stringValue

theorem cstr_eq_self {v : List UInt8} : cstr v = v ↔ 0 ∉ v := by
  rw [cstr, List.takeWhile_eq_self_iff]
  constructor
  · intro h hmem
    exact absurd (h 0 hmem) (by simp)
  · intro h x hx
    exact decide_eq_true (ne_of_mem_of_not_mem hx h)

theorem toUInt8_toUInt32_eq {n : UInt32} : n.toUInt8.toUInt32 = n ↔ n ≤ 255 := by
  rw [← UInt32.toNat_inj, UInt8.toNat_toUInt32, UInt32.toNat_toUInt8, UInt32.le_iff_toNat_le]
  constructor
  · intro h
    have hmod := Nat.mod_lt n.toNat (by omega : 0 < 2 ^ 8)
    change n.toNat ≤ 255
    omega
  · intro h
    exact Nat.mod_eq_of_lt (Nat.lt_succ_of_le h)

theorem toUInt16_toUInt32_eq {n : UInt32} : n.toUInt16.toUInt32 = n ↔ n ≤ 65535 := by
  rw [← UInt32.toNat_inj, UInt16.toNat_toUInt32, UInt32.toNat_toUInt16, UInt32.le_iff_toNat_le]
  constructor
  · intro h
    have hmod := Nat.mod_lt n.toNat (by omega : 0 < 2 ^ 16)
    change n.toNat ≤ 65535
    omega
  · intro h
    exact Nat.mod_eq_of_lt (Nat.lt_succ_of_le h)

theorem representable_iff (p : Property) : p.Representable ↔ p.Accepted ∧ p.readBack = p := by
  obtain ⟨id, n, text, data, user⟩ := p
  unfold Property.Representable Property.Accepted Property.readBack
  by_cases hbyte : propertyIsByte id = true
  · have hle : n ≤ 1 ↔ n.toUInt8 ≤ 1 ∧ n.toUInt8.toUInt32 = n := by
      rw [toUInt8_toUInt32_eq, UInt32.le_iff_toNat_le, UInt32.le_iff_toNat_le, UInt8.le_iff_toNat_le,
        UInt32.toNat_toUInt8]
      change n.toNat ≤ 1 ↔ n.toNat % 2 ^ 8 ≤ 1 ∧ n.toNat ≤ 255
      omega
    simp only [hbyte, if_true, Property.mk.injEq, true_and, hle]
    tauto
  by_cases hu16 : propertyIsU16 id = true
  · have hzero : n ≤ 65535 → (n.toUInt16 = 0 ↔ n = 0) := by
      intro hle
      have hback := toUInt16_toUInt32_eq.mpr hle
      constructor
      · intro h
        rw [← hback, h]
        rfl
      · rintro rfl
        rfl
    simp only [hbyte, hu16, if_true, Bool.false_eq_true, if_false, Property.mk.injEq, true_and,
      toUInt16_toUInt32_eq]
    tauto
  by_cases hu32 : propertyIsU32 id = true
  · simp [hbyte, hu16, hu32]
  by_cases hvar : propertyIsVarint id = true
  · simp [hbyte, hu16, hu32, hvar]
    tauto
  by_cases hbin : propertyIsBinary id = true
  · simp [hbyte, hu16, hu32, hvar, hbin]
    tauto
  by_cases hpair : propertyIsPair id = true
  · simp [hbyte, hu16, hu32, hvar, hbin, hpair, cstr_eq_self]
    tauto
  · simp [hbyte, hu16, hu32, hvar, hbin, hpair, cstr_eq_self]
    tauto

theorem encodeProperty_ok {w after : PacketWriter} {p : Property} (h : encodeProperty w p = .ok after)
    (hok : after.status = .ok) :
    p.Checked ∧ after.data = w.data ++ (remainingLengthDigits 4 p.id.toNat ++ p.valueBytes) := by
  unfold encodeProperty at h
  dsimp only at h
  split at h
  · cases h
  next hid =>
  rw [not_not] at hid
  obtain ⟨-, hdata⟩ := PacketWriter.putVarint_data hid
  unfold Property.Checked Property.valueBytes
  rw [← List.append_assoc, ← hdata]
  by_cases hbyte : propertyIsByte p.id = true
  · rw [if_pos hbyte] at h
    cases h
    simp only [hbyte, true_or, if_true, true_and]
    exact PacketWriter.putU8_data hid hok
  by_cases hu16 : propertyIsU16 p.id = true
  · rw [if_neg hbyte, if_pos hu16] at h
    cases h
    simp only [hbyte, hu16, or_true, true_or, if_true, if_false, true_and, Bool.false_eq_true]
    exact PacketWriter.putBytes_data hok
  by_cases hu32 : propertyIsU32 p.id = true
  · rw [if_neg hbyte, if_neg hu16, if_pos hu32] at h
    cases h
    simp only [hbyte, hu16, hu32, or_true, if_true, if_false, true_and, Bool.false_eq_true]
    exact PacketWriter.putBytes_data hok
  by_cases hvar : propertyIsVarint p.id = true
  · rw [if_neg hbyte, if_neg hu16, if_neg hu32, if_pos hvar] at h
    cases h
    simp only [hbyte, hu16, hu32, hvar, or_self, if_true, if_false, Bool.false_eq_true]
    exact PacketWriter.putVarint_data hok
  by_cases hbin : propertyIsBinary p.id = true
  · rw [if_neg hbyte, if_neg hu16, if_neg hu32, if_neg hvar, if_pos hbin] at h
    cases h
    simp only [hbyte, hu16, hu32, hvar, hbin, or_self, if_true, if_false, Bool.false_eq_true]
    exact PacketWriter.putUtf8_data hok
  rw [if_neg hbyte, if_neg hu16, if_neg hu32, if_neg hvar, if_neg hbin] at h
  simp only [hbyte, hu16, hu32, hvar, hbin, or_self, if_false, Bool.false_eq_true]
  by_cases hpair : propertyIsPair p.id = true
  · rw [if_pos hpair] at h
    cases h
    rw [if_pos hpair, if_pos hpair]
    split at hok
    next hkey =>
      obtain ⟨hlen, htext⟩ := PacketWriter.putUtf8_data hkey
      obtain ⟨huser, hdata⟩ := PacketWriter.putUtf8_data hok
      rw [if_pos hkey, hdata, htext, List.append_assoc]
      exact ⟨⟨hlen, huser⟩, rfl⟩
    next hkey => exact absurd hok hkey
  · rw [if_neg hpair] at h ⊢
    rw [if_neg hpair]
    split at h
    next hstring =>
      cases h
      obtain ⟨hlen, htext⟩ := PacketWriter.putUtf8_data hok
      exact ⟨⟨hstring, hlen⟩, htext⟩
    · cases h

theorem decodePropertyValue_valueBytes {p : Property} (hfits : p.Fits limits) (hchecked : p.Checked)
    (more : Bytes) [Decidable p.Accepted] :
    decodePropertyValue limits p.id ⟨p.valueBytes ++ more, .ok⟩ =
      if p.Accepted then .ok (p.readBack, ⟨more, .ok⟩) else .error .invalidArgument := by
  have hcstr (v : Bytes) : (cstr v).length ≤ v.length := (List.takeWhile_sublist _).length_le
  unfold Property.Fits at hfits
  unfold Property.Checked at hchecked
  unfold decodePropertyValue Property.valueBytes
  by_cases hbyte : propertyIsByte p.id = true
  · have hread : (⟨[p.integer.toUInt8] ++ more, .ok⟩ : PacketReader).getU8 =
        ⟨.ok, p.integer.toUInt8, ⟨more, .ok⟩⟩ := rfl
    simp only [hbyte, if_true, hread, ne_eq, not_true_eq_false, if_false]
    simp only [Property.Accepted, Property.readBack, hbyte, if_true, gt_iff_lt]
    by_cases hle : p.integer.toUInt8 ≤ 1
    · rw [if_pos hle, if_neg (UInt8.not_lt.mpr hle)]
    · rw [if_neg hle, if_pos (UInt8.not_le.mp hle)]
  by_cases hu16 : propertyIsU16 p.id = true
  · simp only [hbyte, hu16, if_true, if_false, PacketReader.getU16_writeBe16, ne_eq, not_true_eq_false,
      Bool.false_eq_true, Property.Accepted, Property.readBack, ite_not]
  by_cases hu32 : propertyIsU32 p.id = true
  · simp only [hbyte, hu16, hu32, if_true, if_false, PacketReader.getU32_writeBe32, ne_eq, not_true_eq_false,
      Bool.false_eq_true, Property.Accepted, Property.readBack, true_or]
  by_cases hvar : propertyIsVarint p.id = true
  · simp only [hbyte, hu16, hu32, hvar, or_self, if_true, if_false, Bool.false_eq_true] at hchecked
    have hzero : p.integer.toNat = 0 ↔ p.integer = 0 := by rw [← UInt32.toNat_inj, UInt32.toNat_zero]
    simp only [hbyte, hu16, hu32, hvar, if_true, if_false, PacketReader.getVarint_digits hchecked, ne_eq,
      not_true_eq_false, Bool.false_eq_true, Property.Accepted, Property.readBack, or_true, ite_not, hzero,
      UInt32.ofNat_toNat]
  by_cases hbin : propertyIsBinary p.id = true
  · simp only [hbyte, hu16, hu32, hvar, hbin, or_self, if_true, if_false, Bool.false_eq_true] at hchecked
    have hread := PacketReader.getUtf8_lengthPrefixed hchecked (Nat.lt_succ_of_le hfits.2.2) more
    simp only [hbyte, hu16, hu32, hvar, hbin, if_true, if_false, PacketReader.getBinary, hread, ne_eq,
      not_true_eq_false, Bool.false_eq_true, Property.Accepted, Property.readBack, or_self]
  simp only [hbyte, hu16, hu32, hvar, hbin, or_self, if_false, Bool.false_eq_true] at hchecked ⊢
  simp only [Property.Accepted, Property.readBack, hbyte, hu16, hu32, hvar, hbin, or_self, if_false, if_true,
    Bool.false_eq_true]
  have htext := (hcstr p.stringValue).trans_lt hfits.1
  by_cases hpair : propertyIsPair p.id = true
  · have huser := (hcstr p.userValue).trans_lt hfits.2.1
    simp only [hpair, if_true] at hchecked
    simp only [hpair, if_true, Bool.or_true, List.append_assoc,
      PacketReader.getUtf8_lengthPrefixed hchecked.1 htext, PacketReader.getUtf8_lengthPrefixed hchecked.2 huser,
      ne_eq, not_true_eq_false, if_false]
  · simp only [hpair, if_false, Bool.false_eq_true] at hchecked
    simp only [hpair, hchecked.1, if_true, Bool.or_false, Bool.false_eq_true,
      PacketReader.getUtf8_lengthPrefixed hchecked.2 htext, ne_eq, not_true_eq_false, if_false]

/-- The bytes of a list, without its length. -/
def propertyListBytes (properties : List Property) : Bytes :=
  properties.flatMap fun p => remainingLengthDigits 4 p.id.toNat ++ p.valueBytes

theorem encodePropertyBody_ok {w after : PacketWriter} (hw : w.status = .ok)
    (h : encodePropertyBody w properties = .ok after) :
    (∀ p ∈ properties, p.Checked) ∧ after.data = w.data ++ propertyListBytes properties := by
  induction properties generalizing w with
  | nil =>
    cases h
    simp [propertyListBytes]
  | cons p properties ih =>
    rw [encodePropertyBody] at h
    split at h
    · cases h
    next next hp =>
    split at h
    · cases h
    next hok =>
    rw [not_not] at hok
    obtain ⟨hchecked, hdata⟩ := encodeProperty_ok hp hok
    obtain ⟨hall, hrest⟩ := ih hok h
    refine ⟨List.forall_mem_cons.mpr ⟨hchecked, hall⟩, ?_⟩
    rw [hrest, hdata, propertyListBytes, propertyListBytes, List.flatMap_cons, List.append_assoc]

theorem encodeProperties_ok {capacity : ℕ} {bytes : Bytes}
    (h : encodeProperties limits properties capacity = .ok bytes) :
    properties.length ≤ limits.maxProperties ∧ (∀ p ∈ properties, p.Checked) ∧
      (propertyListBytes properties).length ≤ maximumRemainingLength ∧
      bytes = remainingLengthDigits 4 (propertyListBytes properties).length ++ propertyListBytes properties := by
  unfold encodeProperties at h
  split at h
  · cases h
  next hcount =>
  split at h
  · cases h
  dsimp only at h
  split at h
  · cases h
  next body hbody =>
  obtain ⟨hchecked, hdata⟩ := encodePropertyBody_ok rfl hbody
  rw [List.nil_append] at hdata
  rw [hdata] at h
  by_cases hlength : (({ capacity } : PacketWriter).putVarint (propertyListBytes properties).length).status = .ok
  · rw [if_pos hlength] at h
    obtain ⟨hmax, htarget⟩ := PacketWriter.putVarint_data hlength
    split at h
    next hok =>
      cases h
      refine ⟨not_lt.mp hcount, hchecked, hmax, ?_⟩
      rw [PacketWriter.putBytes_data hok, htarget, List.nil_append]
    · cases h
  · rw [if_neg hlength, if_neg hlength] at h
    cases h

theorem propertyKnown_of_checked {p : Property} (h : p.Checked) : propertyKnown p.id.toNat = true := by
  have hall : ∀ id : UInt8, (propertyIsByte id || propertyIsU16 id || propertyIsU32 id || propertyIsVarint id ||
      propertyIsBinary id || propertyIsPair id || propertyIsString id) = true → propertyKnown id.toNat = true := by
    refine WordBits.forall_byte ?_
    set_option maxRecDepth 1000 in
    decide
  apply hall
  unfold Property.Checked at h
  split_ifs at h with h1 h2 h3 h4
  · rcases h1 with h1 | h1 | h1 <;> simp [h1]
  · simp [h2]
  · simp [h3]
  · simp [h4]
  · simp [h.1]

open Classical in
theorem decodePropertyList_bytes {ignoreUnknown : Bool} {fuel : ℕ} {output : List Property}
    (hfuel : (propertyListBytes properties).length ≤ fuel)
    (hcount : output.length + properties.length ≤ limits.maxProperties)
    (hfits : ∀ p ∈ properties, p.Fits limits) (hchecked : ∀ p ∈ properties, p.Checked) :
    decodePropertyList limits ignoreUnknown fuel ⟨propertyListBytes properties, .ok⟩ output =
      if ∀ p ∈ properties, p.Accepted then .ok (output ++ properties.map Property.readBack)
      else .error .invalidArgument := by
  induction properties generalizing fuel output with
  | nil => cases fuel <;> simp [decodePropertyList, propertyListBytes, PacketReader.remaining]
  | cons p properties ih =>
    obtain ⟨hfit, hfits⟩ := List.forall_mem_cons.mp hfits
    obtain ⟨hcheck, hchecked⟩ := List.forall_mem_cons.mp hchecked
    have hid : p.id.toNat ≤ maximumRemainingLength := by
      have hlt := p.id.toNat_lt
      unfold maximumRemainingLength
      omega
    have hpos := remainingLengthDigits_length_pos p.id.toNat
    have hbytes : propertyListBytes (p :: properties) =
        remainingLengthDigits 4 p.id.toNat ++ (p.valueBytes ++ propertyListBytes properties) := by
      rw [propertyListBytes, List.flatMap_cons, List.append_assoc]
      rfl
    have hlength := congrArg List.length hbytes
    simp only [List.length_append] at hlength
    cases fuel with
    | zero => omega
    | succ fuel =>
      have hremaining : ¬(⟨propertyListBytes (p :: properties), .ok⟩ : PacketReader).remaining = 0 := by
        change ¬(propertyListBytes (p :: properties)).length = 0
        omega
      rw [List.length_cons] at hcount
      have hroom : ¬output.length = limits.maxProperties := by omega
      rw [decodePropertyList, if_neg hremaining]
      dsimp only
      rw [hbytes, PacketReader.getVarint_digits hid]
      dsimp only
      rw [if_neg (by simp [propertyKnown_of_checked hcheck]), if_neg hroom, UInt8.ofNat_toNat,
        decodePropertyValue_valueBytes hfit hcheck]
      by_cases hacc : p.Accepted
      · rw [if_pos hacc]
        dsimp only
        have hnext : (output ++ [p.readBack]).length + properties.length ≤ limits.maxProperties := by
          rw [List.length_append, List.length_singleton]
          omega
        rw [ih (by omega) hnext hfits hchecked]
        simp [hacc, true_and, List.map_cons, List.append_assoc]
      · rw [if_neg hacc, if_neg fun h => hacc (List.forall_mem_cons.mp h).1]

theorem decodeProperties_bytes {ignoreUnknown : Bool}
    (hcount : properties.length ≤ limits.maxProperties)
    (hmax : (propertyListBytes properties).length ≤ maximumRemainingLength)
    (hfits : ∀ p ∈ properties, p.Fits limits) (hchecked : ∀ p ∈ properties, p.Checked) :
    decodeProperties limits ⟨remainingLengthDigits 4 (propertyListBytes properties).length ++
        propertyListBytes properties, .ok⟩ ignoreUnknown = ⟨.ok, properties, ⟨[], .ok⟩⟩ ↔
      ∀ p ∈ properties, p.Representable := by
  classical
  have hlist := @decodePropertyList_bytes limits properties ignoreUnknown _ [] le_rfl
    (by rwa [List.length_nil, Nat.zero_add]) hfits hchecked
  have hself : properties.map Property.readBack = properties ↔ ∀ p ∈ properties, p.readBack = p := by
    conv_lhs => rhs; rw [← List.map_id properties]
    exact List.map_inj_left
  unfold decodeProperties
  rw [PacketReader.getVarint_digits hmax]
  simp only [PacketReader.remaining, ne_eq, not_true_eq_false, if_false, lt_irrefl, List.take_length, hlist]
  simp only [representable_iff, forall_and]
  by_cases hacc : ∀ p ∈ properties, p.Accepted
  · rw [if_pos hacc]
    simp only [PacketReader.skip, PacketReader.remaining, lt_irrefl, if_false, PacketReader.advance,
      List.drop_length, List.nil_append, Read.mk.injEq, and_true, true_and]
    rw [hself]
    exact (and_iff_right hacc).symm
  · rw [if_neg hacc]
    simp only [Read.mk.injEq, reduceCtorEq, false_and, false_iff, not_and]
    exact fun h => absurd h hacc

/-- A list built with the `add_` functions and written without an error is read back as it was exactly
when all its entries are representable. -/
theorem properties_round_trip {limits : PropertyLimits} {calls : List PropertyCall} {properties : List Property}
    {capacity : ℕ} {bytes : Bytes} (ignoreUnknown : Bool) (hcap : 0 < limits.stringCapacity)
    (hbuilt : addProperties limits [] calls = .ok properties)
    (hwritten : encodeProperties limits properties capacity = .ok bytes) :
    decodeProperties limits ⟨bytes, .ok⟩ ignoreUnknown = ⟨.ok, properties, ⟨[], .ok⟩⟩ ↔
      ∀ p ∈ properties, p.Representable := by
  have hfits := addProperties_fits hcap (List.forall_mem_nil _) hbuilt
  obtain ⟨hcount, hchecked, hmax, rfl⟩ := encodeProperties_ok hwritten
  exact decodeProperties_bytes hcount hmax hfits hchecked

/-- `receive_maximum` and a user property, both in range. -/
theorem properties_round_trip_pair :
    decodeProperties ⟨8, 64, 32⟩ ⟨[0x0C, 0x21, 0x00, 0x14, 0x26, 0x00, 0x01, 0x6B, 0x00, 0x03, 0x76, 0x61, 0x6C], .ok⟩
        false =
      ⟨.ok, [{ id := receiveMaximum, integer := 20 },
        { id := userProperty, stringValue := [0x6B], userValue := [0x76, 0x61, 0x6C] }], ⟨[], .ok⟩⟩ := by
  apply (@properties_round_trip ⟨8, 64, 32⟩
    [.integer receiveMaximum 20, .user [0x6B] [0x76, 0x61, 0x6C]] _ 128 _ false (by decide) (by rfl) (by rfl)).mpr
  refine List.forall_mem_cons.mpr ⟨?_, List.forall_mem_singleton.mpr ?_⟩
  · unfold Property.Representable
    decide
  · unfold Property.Representable
    decide

/-- `receive_maximum` 70000 is written as 4464. -/
theorem properties_narrowed : ¬∀ limits calls properties capacity bytes, 0 < limits.stringCapacity →
    addProperties limits [] calls = .ok properties → encodeProperties limits properties capacity =
    .ok bytes → decodeProperties limits ⟨bytes, .ok⟩ false = ⟨.ok, properties, ⟨[], .ok⟩⟩ := by
  intro h
  have hread := h ⟨8, 64, 32⟩ [.integer receiveMaximum 70000] [{ id := receiveMaximum, integer := 70000 }] 128
    [0x03, 0x21, 0x11, 0x70] (by decide) (by rfl) (by rfl)
  have hwritten : decodeProperties ⟨8, 64, 32⟩ ⟨[0x03, 0x21, 0x11, 0x70], .ok⟩ false =
      ⟨.ok, [{ id := receiveMaximum, integer := 4464 }], ⟨[], .ok⟩⟩ := by
    rfl
  rw [hwritten] at hread
  have hvalue := congrArg Read.value hread
  dsimp only at hvalue
  exact absurd hvalue (by decide)

end Castle.Mqtt
