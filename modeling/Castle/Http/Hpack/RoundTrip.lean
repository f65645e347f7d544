import Castle.Http.Hpack.DynamicTable
import Castle.Http.Hpack.Coding

/-!
# The decoder after the encoder

What the encoder writes, as a list of bytes without a capacity, is read back by the decoder,
whatever its dynamic table holds: the encoder refers to static entries only.
-/

namespace Castle.Http.Hpack

def continuationBytes (value : ℕ) : Bytes :=
  if 128 ≤ value then UInt8.ofNat (value % 128 + 128) :: continuationBytes (value / 128)
  else [UInt8.ofNat value]
termination_by value
decreasing_by omega

def integerBytes (bits : ℕ) (highBits : UInt8) (value : ℕ) : Bytes :=
  if value < 2 ^ bits - 1 then [highBits ||| UInt8.ofNat value]
  else (highBits ||| UInt8.ofNat (2 ^ bits - 1)) :: continuationBytes (value - (2 ^ bits - 1))

theorem or_80 {n : ℕ} (h : n < 128) : n ||| 0x80 = n + 128 := by
  have hor : 2 ^ 7 * 1 + n = 2 ^ 7 * 1 ||| n := Nat.two_pow_add_eq_or_of_lt h 1
  rw [Nat.or_comm, Nat.add_comm]
  exact hor.symm

variable {output : Bytes} {capacity : ℕ}

theorem writeContinuation_eq {value : ℕ} {out : Bytes}
    (h : writeContinuation capacity value output = some out) :
    out = output ++ continuationBytes value := by
  induction value using Nat.strongRecOn generalizing output with
  | ind value ih =>
    rw [writeContinuation] at h
    rw [continuationBytes]
    split at h
    next hmore =>
      rw [if_pos hmore]
      split at h
      · cases h
      · rw [Nat.shiftRight_eq_div_pow] at h
        rw [ih _ (Nat.div_lt_self (by omega) (by decide)) h, and_7f, or_80 (Nat.mod_lt _ (by decide)),
          List.append_assoc]
        rfl
    next hlast =>
      rw [if_neg hlast]
      split at h
      · cases h
      · cases h
        rfl

variable {highBits : UInt8}

theorem writeInteger_eq {bits value : ℕ} {out : Bytes}
    (h : writeInteger capacity bits highBits value output = some out) :
    out = output ++ integerBytes bits highBits value := by
  rw [writeInteger] at h
  rw [integerBytes]
  split at h
  · cases h
  · split at h
    next hsmall =>
      cases h
      rw [if_pos hsmall]
    next hlarge =>
      rw [if_neg hlarge, writeContinuation_eq h, List.append_assoc]
      rfl

theorem readContinuation_cons {count shift value : ℕ} {c : UInt8} (s : Bytes)
    (hfit : value + c.toNat % 128 * 2 ^ shift < 2 ^ 64) : readContinuation (count + 1) shift value
    (c :: s) = if c.toNat < 128 then (.ok, s, value + c.toNat % 128 * 2 ^ shift)
    else readContinuation count (shift + 7) (value + c.toNat % 128 * 2 ^ shift) s := by
  have hpart : ¬c.toNat % 128 > (2 ^ 64 - 1) >>> shift := by
    rw [Nat.shiftRight_eq_div_pow, not_lt]
    exact (Nat.le_div_iff_mul_le (Nat.two_pow_pos shift)).mpr (by omega)
  rw [readContinuation]
  dsimp only
  rw [and_7f, Nat.shiftLeft_eq, if_neg hpart, if_neg (by omega)]
  by_cases hlast : c.toNat < 128
  · rw [if_pos ((and_80_eq_zero_iff c).mpr hlast), if_pos hlast]
  · rw [if_neg ((and_80_eq_zero_iff c).not.mpr hlast), if_neg hlast]

theorem readContinuation_last {count shift value m : ℕ}
    (rest : Bytes) (hm : m < 128) (hfit : value + m * 2 ^ shift < 2 ^ 64) : readContinuation
    (count + 1) shift value (continuationBytes m ++ rest) = (.ok, rest, value + m * 2 ^ shift) := by
  have hbyte : (UInt8.ofNat m).toNat = m := by
    rw [UInt8.toNat_ofNat']
    omega
  have hmod : (UInt8.ofNat m).toNat % 128 = m := by
    rw [hbyte]
    omega
  rw [continuationBytes, if_neg (by omega), List.singleton_append,
    readContinuation_cons _ (by rw [hmod]; exact hfit), hmod, if_pos (by omega)]

theorem readContinuation_bytes {count shift value m : ℕ} (rest : Bytes)
    (hm : m < 128 ^ (count + 1)) (hfit : value + m * 2 ^ shift < 2 ^ 64) : readContinuation
    (count + 1) shift value (continuationBytes m ++ rest) = (.ok, rest, value + m * 2 ^ shift) := by
  induction count generalizing shift value m with
  | zero => exact readContinuation_last rest (by simpa using hm) hfit
  | succ count ih =>
    by_cases hlast : m < 128
    · exact readContinuation_last rest hlast hfit
    · have hbyte : (UInt8.ofNat (m % 128 + 128)).toNat = m % 128 + 128 := by
        rw [UInt8.toNat_ofNat']
        omega
      have hmod : (UInt8.ofNat (m % 128 + 128)).toNat % 128 = m % 128 := by
        rw [hbyte]
        omega
      have hsum : m % 128 * 2 ^ shift + m / 128 * 2 ^ (shift + 7) = m * 2 ^ shift := by
        calc m % 128 * 2 ^ shift + m / 128 * 2 ^ (shift + 7)
            = (m % 128 + 128 * (m / 128)) * 2 ^ shift := by
              rw [Nat.pow_add]
              ring
          _ = m * 2 ^ shift := by rw [Nat.mod_add_div]
      rw [continuationBytes, if_pos (by omega), List.cons_append,
        readContinuation_cons _ (by rw [hmod]; omega), hmod, if_neg (by omega),
        ih (by rw [Nat.pow_succ] at hm; omega) (by omega)]
      congr 2
      omega

theorem integerBytes_cons (bits : ℕ) (highBits : UInt8) (value : ℕ) : ∃ low ≤ 2 ^ bits -
    1, ∃ tail, integerBytes bits highBits value = (highBits ||| UInt8.ofNat low) :: tail := by
  rw [integerBytes]
  split
  next h => exact ⟨_, h.le, _, rfl⟩
  · exact ⟨_, Nat.le_refl _, _, rfl⟩

theorem low_or {bits low : ℕ} (hbits : bits ≤ 8) (hhigh : highBits.toNat % 2 ^ bits = 0)
    (hlow : low ≤ 2 ^ bits - 1) : (highBits ||| UInt8.ofNat low).toNat % 2 ^ bits = low := by
  have hpos := Nat.two_pow_pos bits
  have hle : 2 ^ bits ≤ 2 ^ 8 := Nat.pow_le_pow_right (by decide) hbits
  rw [UInt8.toNat_or, Nat.or_mod_two_pow, hhigh, Nat.zero_or, UInt8.toNat_ofNat',
    Nat.mod_mod_of_dvd _ (Nat.pow_dvd_pow 2 hbits)]
  exact Nat.mod_eq_of_lt (by omega)

theorem readInteger_bytes {bits value : ℕ} (rest : Bytes) (hpos : bits ≠ 0) (hbits : bits ≤ 8)
    (hhigh : highBits.toNat % 2 ^ bits = 0) (hvalue : value < 2 ^ 32) :
    readInteger bits (integerBytes bits highBits value ++ rest) = (.ok, rest, value) := by
  have hguard : ¬(decide (bits = 0) || decide (bits > 8)) = true := by
    simp [hpos, hbits]
  rw [integerBytes]
  split
  next hsmall =>
    rw [List.singleton_append, readInteger, if_neg hguard]
    dsimp only
    rw [Nat.and_two_pow_sub_one_eq_mod, low_or hbits hhigh hsmall.le, if_pos hsmall]
  next hlarge =>
    rw [List.cons_append, readInteger, if_neg hguard]
    dsimp only
    rw [Nat.and_two_pow_sub_one_eq_mod, low_or hbits hhigh (Nat.le_refl _), if_neg (lt_irrefl _),
      readContinuation_bytes rest (by omega) (by omega)]
    congr 2
    omega

theorem length_continuationBytes {count value : ℕ} (h : value < 128 ^ (count + 1)) :
    (continuationBytes value).length ≤ count + 1 := by
  induction count generalizing value with
  | zero =>
    rw [zero_add, pow_one] at h
    rw [continuationBytes, if_neg (by omega), List.length_singleton]
  | succ count ih =>
    rw [continuationBytes]
    split
    · have hnext : value / 128 < 128 ^ (count + 1) := by
        rw [pow_succ] at h
        omega
      exact Nat.succ_le_succ (ih hnext)
    · exact Nat.succ_le_succ (Nat.zero_le _)

theorem writeContinuation_isSome {value : ℕ}
    (h : output.length + (continuationBytes value).length ≤ capacity) :
    (writeContinuation capacity value output).isSome = true := by
  induction value using Nat.strongRecOn generalizing output with
  | ind value ih =>
    rw [continuationBytes] at h
    rw [writeContinuation]
    split
    next hmore =>
      rw [if_pos hmore, List.length_cons] at h
      rw [if_neg (by omega), Nat.shiftRight_eq_div_pow]
      refine ih _ (Nat.div_lt_self (by omega) (by decide)) ?_
      have hpow : (2 : ℕ) ^ 7 = 128 := by decide
      rw [List.length_append, List.length_singleton, hpow]
      omega
    next hlast =>
      rw [if_neg hlast, List.length_singleton] at h
      rw [if_neg (by omega)]
      rfl

theorem writeInteger_isSome {bits value : ℕ} (highBits : UInt8) (hvalue : value < 2 ^ 32)
    (hroom : output.length + 6 ≤ capacity) :
    (writeInteger capacity bits highBits value output).isSome = true := by
  rw [writeInteger, if_neg (by omega)]
  split
  · rfl
  · have hsmall : value - (2 ^ bits - 1) < 128 ^ (4 + 1) := by
      have hpow : (128 : ℕ) ^ (4 + 1) = 2 ^ 35 := by decide
      omega
    have hlength := length_continuationBytes hsmall
    refine writeContinuation_isSome ?_
    rw [List.length_append, List.length_singleton]
    omega

theorem readContinuation_stops (count shift value : ℕ) (input : Bytes) :
    ∃ status consumed rest value', readContinuation count shift value input = (status, rest, value') ∧
      input = consumed ++ rest ∧ (status = .ok ∨ status = .dataLoss ∨ status = .outOfRange) := by
  induction count generalizing shift value input with
  | zero => exact ⟨.outOfRange, [], input, value, rfl, rfl, .inr (.inr rfl)⟩
  | succ count ih =>
    cases input with
    | nil => exact ⟨.dataLoss, [], [], value, rfl, rfl, .inr (.inl rfl)⟩
    | cons c input =>
      rw [readContinuation]
      dsimp only
      split
      · exact ⟨.outOfRange, [c], input, value, rfl, rfl, .inr (.inr rfl)⟩
      split
      · exact ⟨.outOfRange, [c], input, value, rfl, rfl, .inr (.inr rfl)⟩
      split
      · exact ⟨.ok, [c], input, _, rfl, rfl, .inl rfl⟩
      · obtain ⟨status, consumed, rest, value', hread, hinput, hstatus⟩ :=
          ih (shift + 7) (value + (c.toNat &&& 0x7f) <<< shift) input
        exact ⟨status, c :: consumed, rest, value', hread, by rw [hinput]; rfl, hstatus⟩

theorem readInteger_stops (bits : ℕ) (input : Bytes) :
    ∃ status consumed rest value, readInteger bits input = (status, rest, value) ∧
      input = consumed ++ rest ∧ (status = .ok ∨ status = .dataLoss ∨ status = .outOfRange) := by
  cases input with
  | nil => exact ⟨.dataLoss, [], [], 0, rfl, rfl, .inr (.inl rfl)⟩
  | cons first input =>
    rw [readInteger]
    dsimp only
    split
    · exact ⟨.dataLoss, [], first :: input, 0, rfl, rfl, .inr (.inl rfl)⟩
    split
    · exact ⟨.ok, [first], input, _, rfl, rfl, .inl rfl⟩
    · obtain ⟨status, consumed, rest, value, hread, hinput, hstatus⟩ :=
        readContinuation_stops 10 0 (first.toNat &&& (2 ^ bits - 1)) input
      exact ⟨status, first :: consumed, rest, value, hread, by rw [hinput]; rfl, hstatus⟩

/-- What is written in a prefix whose other bits are `highBits` is read back, up to the bytes behind it;
and whatever is read without an error has its exact value, from the front of the input. -/
theorem integers_read :
    (∀ bits capacity highBits value output, 1 ≤ bits → bits ≤ 8 → highBits.toNat % 2 ^ bits = 0 →
      value < 2 ^ 32 →
      (output.length + 6 ≤ capacity → (writeInteger capacity bits highBits value output).isSome = true) ∧
      ∀ out, writeInteger capacity bits highBits value output = some out →
        ∃ written, out = output ++ written ∧
          ∀ rest, readInteger bits (written ++ rest) = (.ok, rest, value)) ∧
    ∀ bits input, ∃ status consumed rest value, readInteger bits input = (status, rest, value) ∧
      input = consumed ++ rest ∧ (status = .ok → prefixedInteger bits input = some (value, rest)) ∧
      (status = .ok ∨ status = .dataLoss ∨ status = .outOfRange) := by
  constructor
  · intro bits capacity highBits value output hpos hbits hhigh hvalue
    refine ⟨writeInteger_isSome highBits hvalue, fun out hwrite => ?_⟩
    refine ⟨integerBytes bits highBits value, writeInteger_eq hwrite, fun rest => ?_⟩
    exact readInteger_bytes rest (by omega) hbits hhigh hvalue
  · intro bits input
    obtain ⟨status, consumed, rest, value, hread, hinput, hstatus⟩ := readInteger_stops bits input
    refine ⟨status, consumed, rest, value, hread, hinput, ?_, hstatus⟩
    rintro rfl
    exact readInteger_ok hread

def stringBytes (value : Bytes) : Bytes := integerBytes 7 0 value.length ++ value

theorem encodeString_eq {value out : Bytes} (hlen : value.length < 2 ^ 32)
    (h : encodeString capacity value output = some out) : out = output ++ stringBytes value := by
  obtain ⟨output', hwrite, h⟩ := Option.bind_eq_some_iff.mp h
  rw [Nat.mod_eq_of_lt hlen] at hwrite
  split at h
  · cases h
  · cases h
    rw [writeInteger_eq hwrite, stringBytes, List.append_assoc]

theorem readString_bytes {maxStringSize : ℕ} {value : Bytes} (rest : Bytes)
    (hlen : value.length < 2 ^ 32) (hmax : value.length ≤ maxStringSize) :
    readString maxStringSize (stringBytes value ++ rest) = (.ok, rest, value) := by
  obtain ⟨low, hlow, tail, hcons⟩ := integerBytes_cons 7 0 value.length
  have hread : readInteger 7 (integerBytes 7 0 value.length ++ (value ++ rest)) =
      (.ok, value ++ rest, value.length) :=
    readInteger_bytes (value ++ rest) (by decide) (by decide) rfl hlen
  have hraw : (0 ||| UInt8.ofNat low) &&& 0x80 = 0 := by
    rw [and_80_eq_zero_iff, UInt8.zero_or, UInt8.toNat_ofNat']
    omega
  rw [hcons, List.cons_append] at hread
  rw [stringBytes, List.append_assoc, hcons, List.cons_append, readString, hread]
  dsimp only
  rw [if_neg (by simp), if_neg (not_not.mpr hraw), if_neg (by omega), List.drop_left, List.take_left]

theorem findStaticFrom_spec {name value : Bytes} {entries : List (String × String)}
    {i nameIndex index : ℕ} {found : Bool} (hentries : staticTable.drop i = entries)
    (hname : nameIndex = 0 ∨ nameIndex ≤ 61 ∧
      ∃ field, staticTable[nameIndex - 1]?.map staticField = some field ∧ field.name = name)
    (h : findStaticFrom name value entries i nameIndex = (index, found)) :
    index ≤ 61 ∧ (index = 0 → found = false) ∧
      (index ≠ 0 → ∃ field, staticTable[index - 1]?.map staticField = some field ∧
        field.name = name ∧ (found = true → field.value = value)) := by
  induction entries generalizing i nameIndex with
  | nil =>
    cases h
    refine ⟨by omega, fun _ => rfl, fun hne => ?_⟩
    obtain ⟨-, field, hfield, heq⟩ := hname.resolve_left hne
    exact ⟨field, hfield, heq, fun hfalse => absurd hfalse (by simp)⟩
  | cons entry entries ih =>
    have hget : staticTable[i]? = some entry := by
      rw [← Nat.add_zero i, ← List.getElem?_drop, hentries]
      rfl
    have hlt : i < 61 := (List.getElem?_eq_some_iff.mp hget).1
    have hdrop : staticTable.drop (i + 1) = entries := by
      rw [← List.drop_drop, hentries]
      rfl
    rw [findStaticFrom] at h
    split at h
    · exact ih hdrop hname h
    next heq =>
      rw [not_not] at heq
      have hhere : staticTable[i + 1 - 1]?.map staticField = some (staticField entry) := by
        rw [Nat.add_sub_cancel, hget]
        rfl
      split at h
      next hvalue =>
        cases h
        exact ⟨hlt, fun hzero => absurd hzero (Nat.succ_ne_zero i),
          fun _ => ⟨_, hhere, heq, fun _ => hvalue⟩⟩
      · refine ih hdrop ?_ h
        by_cases hfirst : nameIndex = 0
        · rw [if_pos hfirst]
          exact Or.inr ⟨hlt, _, hhere, heq⟩
        · rw [if_neg hfirst]
          exact hname

/-- What the encoder writes for a field, with the index that it found. -/
def fieldBytes (name value : Bytes) : Bytes :=
  match findStatic name value with
  | (index, true) => integerBytes 7 0x80 index
  | (index, false) =>
    integerBytes 4 0 index ++ (if index = 0 then stringBytes name else []) ++ stringBytes value

theorem fieldBytes_ne_nil (name value : Bytes) : fieldBytes name value ≠ [] := by
  rw [fieldBytes]
  split
  next index hfind =>
    obtain ⟨low, -, tail, hcons⟩ := integerBytes_cons 7 0x80 index
    simp [hcons]
  next index hfind =>
    obtain ⟨low, -, tail, hcons⟩ := integerBytes_cons 4 0 index
    simp [hcons]

theorem encodeWithNameIndex_ok {nameIndex : ℕ} {name value : Bytes}
    {buffer : Option ℕ} (h : (encodeWithNameIndex nameIndex name value buffer).status = .ok) :
    name ≠ [] ∧ name.length < 2 ^ 32 ∧ value.length <
    2 ^ 32 ∧ (encodeWithNameIndex nameIndex name value buffer).bytes = integerBytes 4 0 nameIndex ++
    (if nameIndex = 0 then stringBytes name else []) ++ stringBytes value := by
  cases buffer with
  | none => cases h
  | some capacity =>
    rw [encodeWithNameIndex] at h ⊢
    split at h
    · cases h
    next hempty =>
      split at h
      · cases h
      next hlong =>
        rw [if_neg hempty, if_neg hlong]
        simp only [gt_iff_lt, Bool.or_eq_true, decide_eq_true_eq, not_or, not_lt] at hlong
        have hname : name.length < 2 ^ 32 := by omega
        have hvalue : value.length < 2 ^ 32 := by omega
        refine ⟨fun hnil => hempty (by rw [hnil]; rfl), hname, hvalue, ?_⟩
        dsimp only at h ⊢
        split at h
        · cases h
        next output hwritten =>
          obtain ⟨first, hfirst, hwritten⟩ := Option.bind_eq_some_iff.mp hwritten
          rw [writeInteger_eq hfirst, List.nil_append] at hwritten
          split at hwritten
          next hindex =>
            obtain ⟨second, hsecond, hlast⟩ := Option.bind_eq_some_iff.mp hwritten
            dsimp only
            rw [encodeString_eq hvalue hlast, encodeString_eq hname hsecond, if_pos hindex]
          next hindex =>
            dsimp only
            rw [encodeString_eq hvalue hwritten, if_neg hindex, List.append_nil]

theorem encodeField_ok {name value : Bytes} {buffer : Option ℕ}
    (h : (encodeField name value buffer).status = .ok) :
    name ≠ [] ∧ (encodeField name value buffer).bytes = fieldBytes name value ∧
      ((findStatic name value).2 = false → name.length < 2 ^ 32 ∧ value.length < 2 ^ 32) := by
  cases buffer with
  | none => cases h
  | some capacity =>
    rw [encodeField] at h ⊢
    split at h
    · cases h
    next hempty =>
      rw [if_neg hempty, fieldBytes]
      generalize hfind : findStatic name value = find at h
      obtain ⟨index, found⟩ := find
      cases found with
      | false =>
        obtain ⟨hne, hname, hvalue, hbytes⟩ := encodeWithNameIndex_ok h
        exact ⟨hne, hbytes, fun _ => ⟨hname, hvalue⟩⟩
      | true =>
        dsimp only at h ⊢
        refine ⟨fun hnil => hempty (by rw [hnil]; rfl), ?_, fun hfalse => absurd hfalse (by simp)⟩
        split at h
        · cases h
        next output hwrite => exact writeInteger_eq hwrite

theorem encodeField_used (name value : Bytes) (buffer : Option ℕ) :
    (encodeField name value buffer).status ≠ .ok → (encodeField name value buffer).used = 0 := by
  cases buffer with
  | none => exact fun _ => rfl
  | some capacity =>
    rw [encodeField]
    split
    · exact fun _ => rfl
    · generalize findStatic name value = find
      obtain ⟨index, found⟩ := find
      cases found with
      | false =>
        dsimp only
        rw [encodeWithNameIndex]
        split
        · exact fun _ => rfl
        · split
          · exact fun _ => rfl
          · dsimp only
            split
            · exact fun _ => rfl
            · exact fun h => absurd rfl h
      | true =>
        dsimp only
        split
        · exact fun _ => rfl
        · exact fun h => absurd rfl h

namespace Decoder

variable {cap : DecoderCapacity} {σ : Type} (add : σ → Bytes → Bytes → Status × σ) (d : Decoder cap)

theorem lookup_static {index : ℕ} {field : Field} (hindex : index ≠ 0) (hstatic : index ≤ 61)
    (hfield : staticTable[index - 1]?.map staticField = some field) :
    d.lookup index = some (some field) := by
  obtain ⟨entry, hentry, rfl⟩ := Option.map_eq_some_iff.mp hfield
  have hwrap : (index + (2 ^ 64 - 1)) % 2 ^ 64 = index - 1 := by omega
  rw [lookup, if_pos hstatic, hwrap, hentry]
  rfl

theorem decodeIndexed_bytes
    {index : ℕ} {field : Field} (rest : Bytes) {output output' : σ} (hindex : index ≠ 0)
    (hstatic : index ≤ 61) (hfield : staticTable[index - 1]?.map staticField = some field)
    (hadd : add output field.name field.value = (.ok, output')) : d.decodeIndexed add
    (integerBytes 7 0x80 index ++ rest) output = some ⟨.ok, rest, d, output'⟩ := by
  rw [decodeIndexed, readInteger_bytes rest (by decide) (by decide) rfl (by omega)]
  dsimp only
  rw [if_neg (by simp [hindex]), d.lookup_static hindex hstatic hfield, Option.bind_eq_bind,
    Option.bind_some]
  dsimp only
  rw [hadd]

theorem decodeName_bytes {index : ℕ} {name : Bytes} (rest : Bytes) (hstatic : index ≤ 61)
    (hfield : index ≠ 0 → ∃ field, staticTable[index - 1]?.map staticField = some field ∧
      field.name = name)
    (hsize : name.length < 2 ^ 32) (hmax : name.length ≤ cap.maxStringSize) :
    d.decodeName 4 (integerBytes 4 0 index ++ ((if index = 0 then stringBytes name else []) ++ rest)) =
      some (.ok, rest, name) := by
  rw [decodeName, readInteger_bytes _ (by decide) (by decide) rfl (by omega)]
  dsimp only
  rw [if_neg (not_not.mpr rfl)]
  by_cases hindex : index = 0
  · rw [if_neg (not_not.mpr hindex), if_pos hindex, readString_bytes rest hsize hmax]
  · obtain ⟨field, hget, rfl⟩ := hfield hindex
    rw [if_pos hindex, if_neg hindex, List.nil_append, d.lookup_static hindex hstatic hget,
      Option.bind_eq_bind, Option.bind_some]
    dsimp only
    rw [if_neg (by omega)]

theorem decodeLiteral_bytes {name value input rest : Bytes} {output output' : σ} (hname : name ≠ [])
    (hsize : value.length < 2 ^ 32) (hmax : value.length ≤ cap.maxStringSize)
    (hread : d.decodeName 4 input = some (.ok, stringBytes value ++ rest, name))
    (hadd : add output name value = (.ok, output')) :
    d.decodeLiteral add false input output = some ⟨.ok, rest, d, output'⟩ := by
  rw [decodeLiteral]
  simp only [Bool.false_eq_true, if_false]
  rw [hread, Option.bind_eq_bind, Option.bind_some]
  dsimp only
  rw [if_neg (not_not.mpr rfl), readString_bytes rest hsize hmax]
  dsimp only
  rw [if_neg (not_not.mpr rfl), if_neg (by rwa [List.length_eq_zero_iff]), hadd]
  dsimp only
  rw [if_neg (not_not.mpr rfl)]

theorem decodePass_fieldBytes
    {name value : Bytes} {output output' : σ} (rest : Bytes) (sawField : Bool) (hname : name ≠ [])
    (hnameSize : name.length ≤ cap.maxStringSize) (hvalueSize : value.length ≤ cap.maxStringSize)
    (hsize : (findStatic name value).2 = false → name.length < 2 ^ 32 ∧ value.length < 2 ^ 32)
    (hadd : add output name value = (.ok, output')) : ∃ c s, fieldBytes name value ++ rest = c ::
    s ∧ d.decodePass add c (c :: s) sawField output = some (⟨.ok, rest, d, output'⟩, true) := by
  generalize hfind : findStatic name value = find at hsize
  obtain ⟨index, found⟩ := find
  obtain ⟨hindex, hzero, hfield⟩ := findStaticFrom_spec List.drop_zero (Or.inl rfl) hfind
  rw [fieldBytes, hfind]
  cases found with
  | true =>
    have hne : index ≠ 0 := fun h => absurd (hzero h) (by simp)
    obtain ⟨⟨n, v⟩, hget, rfl, hv⟩ := hfield hne
    have hread := decodeIndexed_bytes add d rest hne hindex hget
      (by rw [hv rfl]; exact hadd)
    obtain ⟨low, hlow, tail, hcons⟩ := integerBytes_cons 7 0x80 index
    have hhigh : (0x80 ||| UInt8.ofNat low) &&& 0x80 ≠ 0 := by
      rw [ne_eq, and_80_eq_zero_iff, not_lt, UInt8.toNat_or]
      exact Nat.left_le_or
    dsimp only
    rw [hcons, List.cons_append] at hread ⊢
    refine ⟨_, _, rfl, ?_⟩
    rw [decodePass, if_pos hhigh, hread]
    rfl
  | false =>
    obtain ⟨hname', hvalue'⟩ := hsize rfl
    have hread := d.decodeName_bytes (stringBytes value ++ rest) hindex
      (fun hne => by
        obtain ⟨field, hget, heq, -⟩ := hfield hne
        exact ⟨field, hget, heq⟩) hname' hnameSize
    have hliteral := decodeLiteral_bytes add d hname hvalue' hvalueSize hread hadd
    obtain ⟨low, hlow, tail, hcons⟩ := integerBytes_cons 4 0 index
    have hbyte : (0 ||| UInt8.ofNat low).toNat < 16 := by
      rw [UInt8.zero_or, UInt8.toNat_ofNat']
      omega
    dsimp only
    rw [List.append_assoc, List.append_assoc]
    rw [hcons, List.cons_append] at hliteral ⊢
    refine ⟨_, _, rfl, ?_⟩
    rw [decodePass, if_neg (not_not.mpr ((and_80_eq_zero_iff _).mpr (by omega))),
      if_neg (by rw [and_e0_eq_iff]; omega), decide_eq_false (by rw [and_c0_eq_iff]; omega), hliteral]
    rfl

end Decoder

abbrev Request := Field × Option ℕ

def Request.encoded (request : Request) : Encoded :=
  encodeField request.1.name request.1.value request.2

def acceptedFields (requests : List Request) : List Field :=
  (requests.filter fun request => request.encoded.status = .ok).map Prod.fst

/-- What is written for them, one after the other. -/
def encodedBlock (requests : List Request) : Bytes :=
  (requests.filter fun request => request.encoded.status = .ok).flatMap fun request =>
    request.encoded.bytes

theorem acceptedFields_cons (request : Request) (requests : List Request) :
    acceptedFields (request :: requests) = if request.encoded.status = .ok then
      request.1 :: acceptedFields requests else acceptedFields requests := by
  rw [acceptedFields, List.filter_cons]
  by_cases h : request.encoded.status = .ok <;> simp [h, acceptedFields]

theorem encodedBlock_cons (request : Request) (requests : List Request) :
    encodedBlock (request :: requests) = if request.encoded.status = .ok then
      request.encoded.bytes ++ encodedBlock requests else encodedBlock requests := by
  rw [encodedBlock, List.filter_cons]
  by_cases h : request.encoded.status = .ok <;> simp [h, encodedBlock]

namespace Decoder

variable {cap : DecoderCapacity} {σ : Type} (add : σ → Bytes → Bytes → Status × σ) (d : Decoder cap)

theorem decodeLoop_encodedBlock {requests : List Request} {fuel : ℕ} {output output' : σ}
    (hfuel : (encodedBlock requests).length ≤ fuel) (sawField : Bool)
    (hsize : ∀ field ∈ acceptedFields requests,
      field.name.length ≤ cap.maxStringSize ∧ field.value.length ≤ cap.maxStringSize)
    (hadd : addFields add (acceptedFields requests) output = some output') :
    decodeLoop add fuel (encodedBlock requests) sawField d output = some (.ok, d, output') := by
  induction requests generalizing fuel sawField output with
  | nil =>
    cases hadd
    cases fuel <;> rfl
  | cons request requests ih =>
    rw [acceptedFields_cons] at hsize hadd
    rw [encodedBlock_cons] at hfuel ⊢
    split at hsize
    next hok =>
      rw [if_pos hok] at hadd hfuel ⊢
      obtain ⟨hname, hbytes, hlen⟩ := encodeField_ok hok
      obtain ⟨hnameSize, hvalueSize⟩ := hsize _ List.mem_cons_self
      rw [addFields] at hadd
      split at hadd
      next output₁ hfirst =>
        obtain ⟨c, s, hcons, hpass⟩ := decodePass_fieldBytes add d (encodedBlock requests) sawField
          hname hnameSize hvalueSize hlen hfirst
        have htotal : request.encoded.bytes ++ encodedBlock requests = c :: s := by
          rw [← hcons, ← hbytes]
          rfl
        have hrest : (encodedBlock requests).length < (c :: s).length := by
          have hpos := List.length_pos_of_ne_nil (fieldBytes_ne_nil request.1.name request.1.value)
          rw [← hcons, List.length_append]
          omega
        rw [htotal] at hfuel ⊢
        cases fuel with
        | zero => exact absurd hfuel (by simp)
        | succ fuel =>
          rw [decodeLoop, hpass, Option.bind_eq_bind, Option.bind_some]
          dsimp only
          rw [if_neg (not_not.mpr rfl)]
          exact ih (by omega) true (fun field hfield => hsize field (List.mem_cons_of_mem _ hfield)) hadd
      · cases hadd
    next hfail =>
      rw [if_neg hfail] at hadd hfuel ⊢
      exact ih hfuel sawField hsize hadd

theorem addFields_headers {headersCap : HeadersCapacity} {fields : List Field} {headers : Headers}
    (hroom : headers.length + fields.length ≤ headersCap.maxHeaders)
    (hfields : ∀ field ∈ fields, validName field.name = true ∧ validValue field.value = true ∧
      field.name.length ≤ headersCap.maxNameSize ∧ field.value.length ≤ headersCap.maxValueSize) :
    addFields (Headers.add headersCap) fields headers = some (headers ++ fields) := by
  induction fields generalizing headers with
  | nil => rw [List.append_nil, addFields]
  | cons field fields ih =>
    obtain ⟨hname, hvalue, hnameSize, hvalueSize⟩ := hfields field List.mem_cons_self
    rw [List.length_cons] at hroom
    have hadd : Headers.add headersCap headers field.name field.value =
        (.ok, headers ++ [field]) := by
      rw [Headers.add, if_neg (by simp [hname, hvalue]), if_neg (by omega),
        if_neg (by simp [hnameSize, hvalueSize])]
    rw [addFields, hadd]
    dsimp only
    rw [ih (by simp; omega) fun f hf => hfields f (List.mem_cons_of_mem _ hf), List.append_assoc]
    rfl

/-- Decoding what was encoded gives the same fields and leaves the decoder as it was, whatever
its state; a field that is not encoded uses no bytes. -/
theorem decodeBlock_encodedBlock (headersCap : HeadersCapacity) (requests : List Request)
    (headers : Headers)
    (hroom : headers.length + (acceptedFields requests).length ≤ headersCap.maxHeaders)
    (hfields : ∀ field ∈ acceptedFields requests,
      validName field.name = true ∧ validValue field.value = true ∧
      field.name.length ≤ headersCap.maxNameSize ∧ field.value.length ≤ headersCap.maxValueSize ∧
      field.name.length ≤ cap.maxStringSize ∧ field.value.length ≤ cap.maxStringSize) :
    d.decodeBlock (Headers.add headersCap) (encodedBlock requests) headers =
        some (.ok, d, headers ++ acceptedFields requests) ∧
      ∀ request ∈ requests, request.encoded.status ≠ .ok → request.encoded.used = 0 := by
  refine ⟨?_, fun request _ => encodeField_used _ _ _⟩
  refine decodeLoop_encodedBlock _ d (Nat.le_refl _) false ?_ (addFields_headers hroom ?_)
  · intro field hfield
    exact (hfields field hfield).2.2.2.2
  · intro field hfield
    obtain ⟨hname, hvalue, hnameSize, hvalueSize, -⟩ := hfields field hfield
    exact ⟨hname, hvalue, hnameSize, hvalueSize⟩

/-- A request with an indexed field, a name from the table and a literal name. -/
theorem decodeBlock_encodedBlock_get :
    (init ⟨0, 256, by decide⟩).decodeBlock (Headers.add ⟨24, 64, 256⟩)
        (encodedBlock [(⟨octets ":method", octets "GET"⟩, some 64),
          (⟨octets ":path", octets "/a"⟩, some 64), (⟨octets "x-a", octets "b"⟩, some 64)]) [] =
      some (.ok, init ⟨0, 256, by decide⟩, [⟨octets ":method", octets "GET"⟩,
        ⟨octets ":path", octets "/a"⟩, ⟨octets "x-a", octets "b"⟩]) := by
  have haccepted : acceptedFields [(⟨octets ":method", octets "GET"⟩, some 64),
      (⟨octets ":path", octets "/a"⟩, some 64), (⟨octets "x-a", octets "b"⟩, some 64)] =
      [⟨octets ":method", octets "GET"⟩, ⟨octets ":path", octets "/a"⟩,
        ⟨octets "x-a", octets "b"⟩] := by
    decide
  have h := (decodeBlock_encodedBlock (init ⟨0, 256, by decide⟩) ⟨24, 64, 256⟩ _ []
    (by rw [haccepted]; decide) (by rw [haccepted]; decide)).1
  rw [haccepted] at h
  exact h

/-- A name may be valid and its value may not: the encoder writes a carriage return, and the
decoder refuses it. -/
theorem decodeBlock_control_value :
    validName (octets "a") = true ∧
      Request.encoded (⟨octets "a", octets "\r"⟩, some 64) = ⟨.ok, 5, [0, 1, 0x61, 1, 0x0d]⟩ ∧
      (init ⟨0, 256, by decide⟩).decodeBlock (Headers.add ⟨24, 64, 256⟩) [0, 1, 0x61, 1, 0x0d] [] =
        some (.invalidArgument, init ⟨0, 256, by decide⟩, []) := by
  decide

end Decoder
end Castle.Http.Hpack
