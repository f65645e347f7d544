import Castle.Lib.BoundedOutput
import Castle.Coap.Codec

/-!
# Messages and their bytes

The encoder writes the bytes of a message, and the decoder reads the message back.
-/

namespace Castle.Coap

open BoundedOutput

def extendedBytes (value : ℕ) : Bytes :=
  if value < 13 then []
  else if value < 269 then [UInt8.ofNat (value - 13)]
  else writeBe16 (value - 269)

theorem encodeNibble_lt (value : ℕ) : encodeNibble value < 15 := by
  rw [encodeNibble]
  split
  next h => omega
  · split <;> decide

theorem readBe16_writeBe16 {value : ℕ} (h : value < 2 ^ 16) :
    readBe16 (UInt8.ofNat (value / 2 ^ 8)) (UInt8.ofNat value) = value := by
  rw [readBe16, UInt8.toNat_ofNat', UInt8.toNat_ofNat']
  omega

variable (capacity : ℕ)

theorem writeByte_writes (value : UInt8) :
    Writes capacity (writeByte capacity value) (some [value]) := by
  refine Writes.chunk (p := fun out => out.length ≥ capacity) Status.full fun out => ?_
  rw [List.length_singleton]
  omega

theorem writeExtended_writes (value : ℕ) : Writes capacity
    (writeExtended capacity (encodeNibble value) value) (some (extendedBytes value)) := by
  rw [encodeNibble, extendedBytes]
  split
  next h =>
    have hwrite : writeExtended capacity value value = fun out => .ok out := by
      funext out
      rw [writeExtended, if_pos h]
    rw [hwrite]
    exact Writes.nothing
  · split
    · exact writeByte_writes capacity _
    · exact Writes.chunk (p := fun out => capacity - out.length < 2) Status.full fun _ => Iff.rfl

theorem decodeNibble_encodeNibble {value : ℕ} (h : value ≤ 65804) (rest : Bytes) :
    decodeNibble (encodeNibble value) (extendedBytes value ++ rest) = some (value, rest) := by
  rw [encodeNibble, extendedBytes]
  split
  next hsmall =>
    unfold decodeNibble
    rw [if_pos hsmall, List.nil_append]
  · split
    · have hbyte : 13 + (UInt8.ofNat (value - 13)).toNat = value := by
        rw [UInt8.toNat_ofNat']
        omega
      unfold decodeNibble
      rw [if_neg (by decide), if_pos rfl, List.cons_append, List.nil_append]
      dsimp only
      rw [hbyte]
    · have hword : 269 + readBe16 (UInt8.ofNat ((value - 269) / 2 ^ 8)) (UInt8.ofNat (value - 269)) =
          value := by
        rw [readBe16_writeBe16 (by omega)]
        omega
      unfold decodeNibble
      rw [if_neg (by decide), if_neg (by decide), if_pos rfl, writeBe16, List.cons_append,
        List.cons_append, List.nil_append]
      dsimp only
      rw [hword]

/-- The bytes of an option behind one with the number `previous`. -/
def optionBytes (previous : UInt16) (option : MessageOption) : Bytes :=
  let delta := option.number.toNat - previous.toNat
  UInt8.ofNat (encodeNibble delta <<< 4 ||| encodeNibble option.value.length) ::
    (extendedBytes delta ++ (extendedBytes option.value.length ++ option.value))

def optionsBytes : UInt16 → List MessageOption → Bytes
  | _, [] => []
  | previous, option :: options => optionBytes previous option ++ optionsBytes option.number options

/-- An option that the encoder takes behind one with the number `previous`. -/
structure Encodable (cap : MessageCapacity) (previous : UInt16) (option : MessageOption) : Prop where
  number_ne : option.number ≠ 0
  previous_le : previous ≤ option.number
  length_le : option.value.length ≤ cap.optionValueCapacity
  length_le' : option.value.length ≤ 65804
  valid : isSupportedOption option.number = true →
    validOptionLength option.number option.value.length = true

variable {cap : MessageCapacity} {previous : UInt16} {option : MessageOption}

theorem encodeOption_writes (h : Encodable cap previous option) : Writes capacity
    (encodeOption cap capacity previous option) (some (optionBytes previous option)) := by
  have hle : previous.toNat ≤ option.number.toNat := h.previous_le
  have hlt := option.number.toNat_lt
  have hchecks : ¬(option.number = 0 || option.number < previous ||
      option.number.toNat - previous.toNat > 65804 ||
      option.value.length > cap.optionValueCapacity ||
      (isSupportedOption option.number &&
        !validOptionLength option.number option.value.length)) = true := by
    have hnot : ¬option.number < previous := UInt16.not_lt.mpr h.previous_le
    simp only [Bool.or_eq_true, Bool.and_eq_true, Bool.not_eq_true', decide_eq_true_eq, not_or,
      not_and, Bool.not_eq_false]
    exact ⟨⟨⟨⟨h.number_ne, hnot⟩, by omega⟩, not_lt.mpr h.length_le⟩, h.valid⟩
  have hheader := ((writeByte_writes capacity
    (UInt8.ofNat (encodeNibble (option.number.toNat - previous.toNat) <<< 4 |||
      encodeNibble option.value.length))).seq
    ((writeExtended_writes capacity (option.number.toNat - previous.toNat)).seq
      (writeExtended_writes capacity option.value.length)))
  have hvalue : Writes capacity (fun out => if option.value.length > capacity - out.length then
      .error Status.full else .ok (out ++ option.value)) (some option.value) :=
    Writes.chunk (p := fun out => option.value.length > capacity - out.length) _ fun _ => Iff.rfl
  have hseq := hheader.seq hvalue
  rw [cat_some, cat_some, cat_some, List.singleton_append, List.cons_append, List.append_assoc]
    at hseq
  refine hseq.congr fun out out' => ?_
  rw [encodeOption, if_neg hchecks]
  dsimp only
  rw [if_neg (not_lt.mpr h.length_le')]
  generalize (do
    let output ← writeByte capacity (UInt8.ofNat (encodeNibble (option.number.toNat -
      previous.toNat) <<< 4 ||| encodeNibble option.value.length)) out
    let output ← writeExtended capacity (encodeNibble (option.number.toNat - previous.toNat))
      (option.number.toNat - previous.toNat) output
    writeExtended capacity (encodeNibble option.value.length) option.value.length output) = header
  cases header with
  | error status =>
    constructor
    · intro he
      cases he
    · intro he
      cases he
  | ok output => exact Iff.rfl

theorem encodeOption_refuses {capacity : ℕ} {out out' : Bytes}
    (h : encodeOption cap capacity previous option out = .ok out') :
    Encodable cap previous option := by
  rw [encodeOption] at h
  split at h
  · cases h
  next hchecks =>
    dsimp only at h
    split at h
    · cases h
    next hlength =>
      simp only [Bool.or_eq_true, Bool.and_eq_true, Bool.not_eq_true', decide_eq_true_eq, not_or,
        not_and, Bool.not_eq_false] at hchecks
      obtain ⟨⟨⟨⟨hnumber, hprevious⟩, -⟩, hle⟩, hvalid⟩ := hchecks
      exact ⟨hnumber, UInt16.not_lt.mp hprevious, not_lt.mp hle, not_lt.mp hlength, hvalid⟩

/-- Options that the encoder takes, in order, behind one with the number `previous`. -/
def EncodableFrom (cap : MessageCapacity) : UInt16 → List MessageOption → Prop
  | _, [] => True
  | previous, option :: options =>
    Encodable cap previous option ∧ EncodableFrom cap option.number options

variable {options : List MessageOption}

theorem encodeOptions_writes (h : EncodableFrom cap previous options) : Writes capacity
    (encodeOptions cap capacity previous options) (some (optionsBytes previous options)) := by
  induction options generalizing previous with
  | nil => exact Writes.nothing
  | cons option options ih =>
    have hseq := (encodeOption_writes capacity h.1).seq (ih h.2)
    rw [cat_some] at hseq
    exact hseq

theorem encodeOptions_refuses {capacity : ℕ} {out out' : Bytes}
    (h : encodeOptions cap capacity previous options out = .ok out') :
    EncodableFrom cap previous options := by
  induction options generalizing previous out with
  | nil => trivial
  | cons option options ih =>
    rw [encodeOptions] at h
    cases hfirst : encodeOption cap capacity previous option out with
    | error status =>
      rw [hfirst] at h
      cases h
    | ok output =>
      rw [hfirst] at h
      exact ⟨encodeOption_refuses hfirst, ih h⟩

def payloadBytes (payload : Bytes) : Bytes := if payload = [] then [] else 0xff :: payload

def Message.bytes (m : Message) : Bytes :=
  m.header ++ optionsBytes 0 m.options ++ payloadBytes m.payload

theorem Message.header_length (m : Message) : m.header.length = 4 + m.token.length := by
  rw [header, List.length_append]
  rfl

theorem encodePayload_writes (payload : Bytes) :
    Writes capacity (encodePayload capacity payload) (some (payloadBytes payload)) := by
  cases payload with
  | nil => exact Writes.nothing
  | cons c payload =>
    exact Writes.chunk (p := fun out => capacity - out.length < (c :: payload).length + 1)
      Status.full fun _ => Iff.rfl

variable {m : Message}

/-- The encoder writes the bytes of a message that passes its checks and fits, and no others. -/
theorem encodeMessage_ok_iff {capacity : ℕ} {out : Bytes} :
    encodeMessage cap m (some capacity) = .ok out ↔ m.refused cap =
    false ∧ EncodableFrom cap 0 m.options ∧ out = m.bytes ∧ m.bytes.length ≤ capacity := by
  rw [encodeMessage]
  constructor
  · intro h
    split at h
    · cases h
    next hchecks =>
      split at h
      · cases h
      next hroom =>
        rw [not_lt, ← m.header_length] at hroom
        cases hoptions : encodeOptions cap capacity 0 m.options m.header with
        | error status =>
          rw [hoptions] at h
          cases h
        | ok output =>
          have hencodable := encodeOptions_refuses hoptions
          have hwrites := (encodeOptions_writes capacity hencodable).seq
            (encodePayload_writes capacity m.payload)
          obtain ⟨t, ht, rfl, hlen⟩ := (hwrites m.header out hroom).mp h
          cases ht
          rw [← List.append_assoc] at hlen ⊢
          exact ⟨Bool.not_eq_true _ ▸ hchecks, hencodable, rfl, hlen⟩
  · rintro ⟨hchecks, hencodable, rfl, hlen⟩
    have hroom : m.header.length ≤ capacity := by
      rw [Message.bytes, List.length_append, List.length_append] at hlen
      omega
    have hwrites := (encodeOptions_writes capacity hencodable).seq
      (encodePayload_writes capacity m.payload)
    rw [hchecks, if_neg Bool.false_ne_true, if_neg (by rw [← m.header_length]; omega)]
    refine (hwrites m.header m.bytes hroom).mpr ⟨_, rfl, ?_, hlen⟩
    rw [Message.bytes, List.append_assoc]

theorem nibbles_toNat {d l : ℕ} (hd : d < 15) (hl : l < 15) :
    (UInt8.ofNat (d <<< 4 ||| l)).toNat = d * 16 + l := by
  rw [← Nat.shiftLeft_add_eq_or_of_lt (show l < 2 ^ 4 by omega), Nat.shiftLeft_eq,
    UInt8.toNat_ofNat']
  omega

theorem insertOption_eq_append (h : ∀ other ∈ options, other.number ≤ option.number) :
    insertOption options option = options ++ [option] := by
  have hlast (hne : options ≠ []) :
      ¬decide ((options.getLast hne).number > option.number) = true := by
    rw [decide_eq_true_eq]
    exact UInt16.not_lt.mpr (h _ (List.getLast_mem hne))
  rw [insertOption, List.rdropWhile_eq_self_iff.mpr hlast, List.rtakeWhile_eq_nil_iff.mpr hlast]

theorem findOption_eq_none_iff {number : UInt16} (h : ∀ option ∈ options, option.number ≤ number) :
    findOption number options = none ↔ ∀ option ∈ options, option.number ≠ number := by
  induction options with
  | nil => simp [findOption]
  | cons option options ih =>
    rw [List.forall_mem_cons] at h
    rw [findOption, List.forall_mem_cons]
    split
    next heq =>
      constructor
      · intro hnone
        cases hnone
      · intro hne
        exact absurd heq hne.1
    next hne =>
      rw [if_neg (UInt16.not_lt.mpr h.1), ih h.2]
      exact (and_iff_right hne).symm

variable {output : Message}

theorem decodeOptions_option (fuel : ℕ) (rest : Bytes) (h : Encodable cap previous option)
    (hsupported : isSupportedOption option.number = true)
    (hlast : ∀ other ∈ output.options, other.number ≤ option.number)
    (honce : isRepeatableOption option.number = true ∨
      ∀ other ∈ output.options, other.number ≠ option.number)
    (hroom : output.options.length < cap.maxOptions) :
    decodeOptions cap (fuel + 1) previous.toNat (optionBytes previous option ++ rest) output =
      decodeOptions cap fuel option.number.toNat rest
        { output with options := output.options ++ [option] } := by
  have hle : previous.toNat ≤ option.number.toNat := h.previous_le
  have hlt : option.number.toNat < 2 ^ 16 := option.number.toNat_lt
  have hnumber : option.number.toNat ≠ 0 := by
    intro hzero
    exact h.number_ne (UInt16.toNat_inj.mp hzero)
  have hdelta : option.number.toNat - previous.toNat ≤ 65804 := by omega
  have hsum : previous.toNat + (option.number.toNat - previous.toNat) = option.number.toNat := by
    omega
  have hd := encodeNibble_lt (option.number.toNat - previous.toNat)
  have hl := encodeNibble_lt option.value.length
  have hheader := nibbles_toNat hd hl
  have hmarker : UInt8.ofNat (encodeNibble (option.number.toNat - previous.toNat) <<< 4 |||
      encodeNibble option.value.length) ≠ 0xff := by
    intro heq
    rw [heq] at hheader
    have hff : (0xff : UInt8).toNat = 255 := rfl
    omega
  have hhigh : (UInt8.ofNat (encodeNibble (option.number.toNat - previous.toNat) <<< 4 |||
      encodeNibble option.value.length)).toNat >>> 4 =
        encodeNibble (option.number.toNat - previous.toNat) := by
    rw [hheader, Nat.shiftRight_eq_div_pow]
    omega
  have hlow : (UInt8.ofNat (encodeNibble (option.number.toNat - previous.toNat) <<< 4 |||
      encodeNibble option.value.length)).toNat &&& 0x0f = encodeNibble option.value.length := by
    rw [hheader, show 0x0f = 2 ^ 4 - 1 from rfl, Nat.and_two_pow_sub_one_eq_mod]
    omega
  have hcurrent : UInt16.ofNat (previous.toNat + (option.number.toNat - previous.toNat)) =
      option.number := by
    rw [hsum, UInt16.ofNat_toNat]
  have hrecognized : (isSupportedOption option.number &&
      validOptionLength option.number option.value.length &&
      !(!isRepeatableOption option.number &&
        (findOption option.number output.options).isSome)) = true := by
    rw [hsupported, h.valid hsupported, Bool.true_and, Bool.true_and, Bool.not_eq_true',
      Bool.and_eq_false_iff, Bool.not_eq_false']
    refine honce.imp id fun hne => ?_
    rw [(findOption_eq_none_iff hlast).mpr hne]
    rfl
  have happend : output.appendOption cap option.number (some option.value) =
      (.ok, { output with options := output.options ++ [option] }) := by
    rw [Message.appendOption, if_neg h.number_ne, if_neg (not_lt.mpr h.length_le),
      if_neg (not_le.mpr hroom), insertOption_eq_append hlast]
  rw [optionBytes, List.cons_append, List.append_assoc, List.append_assoc, decodeOptions, if_neg hmarker]
  dsimp only
  rw [hhigh, hlow, if_neg (by omega), decodeNibble_encodeNibble hdelta, Option.bind_eq_bind,
    Option.bind_some]
  dsimp only
  rw [decodeNibble_encodeNibble h.length_le', Option.bind_some]
  dsimp only
  rw [if_neg (by rw [List.length_append]; omega), if_neg (by omega), hcurrent, hsum, hrecognized,
    List.take_left, List.drop_left, happend]
  rfl

/-- The occurrences of an option that is not repeatable. -/
def AtMostOnce (options : List MessageOption) : Prop :=
  options.Pairwise fun option other =>
    option.number = other.number → isRepeatableOption option.number = true

/-- The types and codes that a message can have, and what an empty message has. -/
structure Message.CodeAllowed (m : Message) : Prop where
  empty : m.codeValue = emptyCode → m.token = [] ∧ m.options = [] ∧ m.payload = [] ∧
    (m.type = .acknowledgement ∨ m.type = .reset)
  reset : m.type = .reset → m.codeValue = emptyCode
  acknowledgement : m.type = .acknowledgement → m.codeValue >>> 5 = 0 → m.codeValue = emptyCode

/-- The options that a message can hold: known ones, in order, as often as they are allowed. -/
structure OptionsHeld (cap : MessageCapacity) (options : List MessageOption) : Prop where
  count : options.length ≤ cap.maxOptions
  values : ∀ option ∈ options, option.value.length ≤ cap.optionValueCapacity
  sorted : options.Pairwise fun option other => option.number ≤ other.number
  supported : ∀ option ∈ options, isSupportedOption option.number = true
  once : AtMostOnce options

def ValidLengths (options : List MessageOption) : Prop :=
  ∀ option ∈ options, validOptionLength option.number option.value.length = true

/-- A message that the decoder can have read. -/
structure Message.WellFormed (cap : MessageCapacity) (m : Message) : Prop where
  version : m.version = protocolVersion
  token : m.token.length ≤ maximumTokenLength
  payload : m.payload.length ≤ cap.payloadCapacity
  options : OptionsHeld cap m.options
  lengths : ValidLengths m.options
  code : m.CodeAllowed

theorem validOptionLength_le {number : UInt16} {length : ℕ}
    (h : validOptionLength number length = true) : length ≤ 65804 := by
  by_contra hlong
  have hlarge (bound : ℕ) (hbound : bound ≤ 1034) : decide (length ≤ bound) = false :=
    decide_eq_false (by omega)
  have hzero : decide (length = 0) = false := decide_eq_false (by omega)
  rw [validOptionLength, hlarge 8 (by omega), hlarge 255 (by omega), hlarge 3 (by omega),
    hlarge 2 (by omega), hlarge 4 (by omega), hlarge 1034 (by omega), hzero] at h
  simp only [Bool.and_false, ite_self, Bool.false_eq_true] at h

theorem isSupportedOption_ne_zero {number : UInt16} (h : isSupportedOption number = true) :
    number ≠ 0 := by
  rintro rfl
  exact absurd h (by decide)

theorem encodableFrom_of_sorted (hprevious : ∀ option ∈ options, previous ≤ option.number)
    (hvalues : ∀ option ∈ options, option.value.length ≤ cap.optionValueCapacity)
    (hsorted : options.Pairwise fun option other => option.number ≤ other.number)
    (hsupported : ∀ option ∈ options, isSupportedOption option.number = true)
    (hlengths : ValidLengths options) : EncodableFrom cap previous options := by
  induction options generalizing previous with
  | nil => trivial
  | cons option options ih =>
    rw [ValidLengths, List.forall_mem_cons] at hlengths
    rw [List.forall_mem_cons] at hprevious hvalues hsupported
    rw [List.pairwise_cons] at hsorted
    refine ⟨⟨isSupportedOption_ne_zero hsupported.1, hprevious.1, hvalues.1,
      validOptionLength_le hlengths.1, fun _ => hlengths.1⟩, ?_⟩
    exact ih hsorted.1 hvalues.2 hsorted.2 hsupported.2 hlengths.2

theorem OptionsHeld.encodable_iff (h : OptionsHeld cap options) :
    EncodableFrom cap 0 options ↔ ValidLengths options := by
  constructor
  · have hsupported := h.supported
    clear h
    generalize (0 : UInt16) = previous
    intro hencodable
    induction options generalizing previous with
    | nil => exact fun _ hoption => absurd hoption List.not_mem_nil
    | cons option options ih =>
      rw [List.forall_mem_cons] at hsupported
      rw [ValidLengths, List.forall_mem_cons]
      exact ⟨hencodable.1.valid hsupported.1, ih hsupported.2 _ hencodable.2⟩
  · exact encodableFrom_of_sorted (fun _ _ => UInt16.zero_le) h.values h.sorted h.supported

theorem Message.refused_eq_false_iff :
    m.refused cap = false ↔ m.version = protocolVersion ∧ m.token.length ≤ maximumTokenLength ∧
    m.options.length ≤ cap.maxOptions ∧ m.payload.length ≤ cap.payloadCapacity ∧ m.CodeAllowed := by
  rw [refused]
  simp only [Bool.or_eq_false_iff, decide_eq_false_iff_not, Bool.and_eq_false_iff, ne_eq, not_not,
    not_lt, List.length_eq_zero_iff]
  constructor
  · rintro ⟨⟨⟨⟨⟨⟨hversion, htoken⟩, hoptions⟩, hpayload⟩, hempty⟩, hreset⟩, hack⟩
    refine ⟨hversion, htoken, hoptions, hpayload, fun hcode => ?_, fun htype => ?_,
      fun htype hclass => ?_⟩
    · obtain ⟨⟨⟨htoken', hoptions'⟩, hpayload'⟩, htype⟩ := hempty.resolve_left (not_not.mpr hcode)
      exact ⟨htoken', hoptions', hpayload', htype⟩
    · exact hreset.resolve_left (not_not.mpr htype)
    · obtain (hne | hne) | heq := hack
      · exact absurd htype hne
      · exact absurd hclass hne
      · exact heq
  · rintro ⟨hversion, htoken, hoptions, hpayload, hcode⟩
    refine ⟨⟨⟨⟨⟨⟨hversion, htoken⟩, hoptions⟩, hpayload⟩, ?_⟩, ?_⟩, ?_⟩
    · by_cases hempty : m.codeValue = emptyCode
      · obtain ⟨htoken', hoptions', hpayload', htype⟩ := hcode.empty hempty
        exact Or.inr ⟨⟨⟨htoken', hoptions'⟩, hpayload'⟩, htype⟩
      · exact Or.inl hempty
    · by_cases htype : m.type = .reset
      · exact Or.inr (hcode.reset htype)
      · exact Or.inl htype
    · by_cases htype : m.type = .acknowledgement
      · by_cases hclass : m.codeValue >>> 5 = 0
        · exact Or.inr (hcode.acknowledgement htype hclass)
        · exact Or.inl (Or.inr hclass)
      · exact Or.inl (Or.inl htype)

theorem optionsBytes_length (previous : UInt16) (options : List MessageOption) :
    options.length ≤ (optionsBytes previous options).length := by
  induction options generalizing previous with
  | nil => exact Nat.zero_le _
  | cons option options ih =>
    have hrest := ih option.number
    rw [optionsBytes, optionBytes, List.cons_append, List.length_cons, List.length_cons,
      List.length_append]
    omega

theorem decodeOptions_bytes {payload : Bytes} {fuel : ℕ} (h : EncodableFrom cap previous options)
    (hsupported : ∀ option ∈ options, isSupportedOption option.number = true)
    (hsorted : (output.options ++ options).Pairwise fun option other =>
      option.number ≤ other.number) (honce : AtMostOnce (output.options ++ options))
    (hroom : (output.options ++ options).length ≤ cap.maxOptions)
    (hpayload : payload.length ≤ cap.payloadCapacity) (hempty : output.payload = [])
    (hfuel : options.length + (payloadBytes payload).length ≤ fuel) :
    decodeOptions cap fuel previous.toNat (optionsBytes previous options ++ payloadBytes payload)
        output =
      ⟨.ok, .none, { output with options := output.options ++ options, payload := payload }⟩ := by
  induction options generalizing previous output fuel with
  | nil =>
    rw [optionsBytes, List.nil_append, List.append_nil]
    cases payload with
    | nil =>
      have hread : decodeOptions cap fuel previous.toNat [] output = ⟨.ok, .none, output⟩ := by
        cases fuel <;> rfl
      rw [payloadBytes, if_pos rfl, hread, ← hempty]
    | cons c payload =>
      obtain ⟨fuel, rfl⟩ : ∃ n, fuel = n + 1 := by
        refine ⟨fuel - 1, ?_⟩
        rw [payloadBytes, if_neg (List.cons_ne_nil _ _), List.length_cons] at hfuel
        omega
      have hset : output.setPayload cap (some (c :: payload)) =
          (.ok, { output with payload := c :: payload }) := if_neg (not_lt.mpr hpayload)
      rw [payloadBytes, if_neg (List.cons_ne_nil _ _), decodeOptions, if_pos rfl,
        if_neg (List.cons_ne_nil _ _), hset]
      rfl
  | cons option options ih =>
    rw [List.forall_mem_cons] at hsupported
    rw [List.length_cons] at hfuel
    obtain ⟨fuel, rfl⟩ : ∃ n, fuel = n + 1 := ⟨fuel - 1, by omega⟩
    have happend : output.options ++ option :: options =
        (output.options ++ [option]) ++ options := by
      rw [List.append_assoc, List.singleton_append]
    have hlast : ∀ other ∈ output.options, other.number ≤ option.number := by
      intro other hother
      exact (List.pairwise_append.mp hsorted).2.2 other hother option List.mem_cons_self
    have honce' : isRepeatableOption option.number = true ∨
        ∀ other ∈ output.options, other.number ≠ option.number := by
      by_cases hrepeatable : isRepeatableOption option.number = true
      · exact Or.inl hrepeatable
      · right
        intro other hother heq
        have hrepeats := (List.pairwise_append.mp honce).2.2 other hother option List.mem_cons_self
        exact hrepeatable (heq ▸ hrepeats heq)
    rw [happend] at hsorted honce hroom
    rw [List.append_assoc, List.length_append, List.length_append, List.length_singleton] at hroom
    rw [optionsBytes, List.append_assoc, decodeOptions_option fuel _ h.1 hsupported.1 hlast honce'
      (by omega), happend]
    refine ih h.2 hsupported.2 hsorted honce ?_ hempty (by omega)
    rw [List.length_append, List.length_append, List.length_singleton]
    omega

theorem header_toNat {t l : ℕ} (ht : t < 4) (hl : l < 16) :
    (UInt8.ofNat (1 <<< 6 ||| t <<< 4 ||| l)).toNat = 64 + t * 16 + l := by
  have htype : 1 <<< 6 ||| t <<< 4 = (4 + t) <<< 4 := by
    have hshift : t <<< 4 < 2 ^ 6 := by
      rw [Nat.shiftLeft_eq]
      omega
    rw [← Nat.shiftLeft_add_eq_or_of_lt hshift, Nat.shiftLeft_eq, Nat.shiftLeft_eq,
      Nat.shiftLeft_eq]
    omega
  rw [htype, ← Nat.shiftLeft_add_eq_or_of_lt (show l < 2 ^ 4 by omega), Nat.shiftLeft_eq,
    UInt8.toNat_ofNat']
  omega

theorem decodeMessage_bytes (h : m.WellFormed cap) :
    decodeMessage cap (some m.bytes) = ⟨.ok, .none, m⟩ := by
  have htoken : m.token.length ≤ 8 := h.token
  have hheader := header_toNat m.type.value_lt (show m.token.length < 16 by omega)
  have hversion : (UInt8.ofNat (1 <<< 6 ||| m.type.value <<< 4 ||| m.token.length)).toNat >>> 6 =
      protocolVersion.toNat := by
    have hone : protocolVersion.toNat = 1 := rfl
    have htype := m.type.value_lt
    rw [hheader, hone, Nat.shiftRight_eq_div_pow]
    omega
  have hlength : (UInt8.ofNat (1 <<< 6 ||| m.type.value <<< 4 ||| m.token.length)).toNat &&& 0x0f =
      m.token.length := by
    rw [hheader, show 0x0f = 2 ^ 4 - 1 from rfl, Nat.and_two_pow_sub_one_eq_mod]
    omega
  have htype : MessageType.ofBits ((UInt8.ofNat (1 <<< 6 ||| m.type.value <<< 4 |||
      m.token.length)).toNat >>> 4 &&& 0x03) = m.type := by
    have hlt := m.type.value_lt
    have hbits : (64 + m.type.value * 16 + m.token.length) >>> 4 &&& 0x03 = m.type.value := by
      rw [show 0x03 = 2 ^ 2 - 1 from rfl, Nat.and_two_pow_sub_one_eq_mod,
        Nat.shiftRight_eq_div_pow]
      omega
    rw [hheader, hbits, MessageType.ofBits_value]
  have hid : UInt16.ofNat (readBe16 (UInt8.ofNat (m.messageId.toNat / 2 ^ 8))
      (UInt8.ofNat m.messageId.toNat)) = m.messageId := by
    rw [readBe16_writeBe16 m.messageId.toNat_lt, UInt16.ofNat_toNat]
  have hbytes : m.bytes = UInt8.ofNat (1 <<< 6 ||| m.type.value <<< 4 ||| m.token.length) ::
      m.codeValue :: UInt8.ofNat (m.messageId.toNat / 2 ^ 8) :: UInt8.ofNat m.messageId.toNat ::
        (m.token ++ (optionsBytes 0 m.options ++ payloadBytes m.payload)) := by
    rw [Message.bytes, List.append_assoc]
    rfl
  rw [hbytes, decodeMessage, hversion, if_neg (not_not.mpr rfl), hlength, if_neg, htype, hid,
    List.take_left, List.drop_left, decodeBody]
  · by_cases hcode : m.codeValue = emptyCode
    · obtain ⟨hnotoken, hnooptions, hnopayload, hkind⟩ := h.code.empty hcode
      have hzero : m.codeValue = 0 := hcode
      have hnot : ¬(m.type ≠ .acknowledgement ∧ m.type ≠ .reset) := by
        rintro ⟨hack, hreset⟩
        exact hkind.elim hack hreset
      rw [if_pos hzero, if_neg]
      · rw [← h.version, ← hnooptions, ← hnopayload]
      · rintro (hlong | hlong | hkind')
        · exact hlong (by rw [hnotoken]; rfl)
        · exact hlong (by rw [hnotoken, hnooptions, hnopayload]; rfl)
        · exact hnot hkind'
    · have hzero : ¬m.codeValue = 0 := hcode
      have hreset : ¬(m.type = .reset ∨ (m.type = .acknowledgement ∧ m.codeValue >>> 5 = 0)) := by
        rintro (hreset | ⟨hack, hclass⟩)
        · exact hcode (h.code.reset hreset)
        · exact hcode (h.code.acknowledgement hack hclass)
      rw [if_neg hzero, if_neg hreset, List.length_append]
      have hfuel := optionsBytes_length 0 m.options
      have hread : decodeOptions cap _ 0 (optionsBytes 0 m.options ++ payloadBytes m.payload)
          { m with version := protocolVersion, options := [], payload := [] } =
            ⟨.ok, .none, { m with version := protocolVersion, options := [] ++ m.options }⟩ :=
        decodeOptions_bytes (h.options.encodable_iff.mpr h.lengths) h.options.supported
          h.options.sorted h.options.once h.options.count h.payload rfl
          (Nat.add_le_add_right hfuel _)
      refine hread.trans ?_
      rw [← h.version, List.nil_append]
  · rw [List.length_append]
    have height : maximumTokenLength = 8 := rfl
    omega

theorem OptionsHeld.snoc (h : OptionsHeld cap options)
    (hlast : ∀ other ∈ options, other.number ≤ option.number)
    (hroom : options.length < cap.maxOptions)
    (hvalue : option.value.length ≤ cap.optionValueCapacity)
    (hsupported : isSupportedOption option.number = true)
    (honce : isRepeatableOption option.number = true ∨
      ∀ other ∈ options, other.number ≠ option.number) : OptionsHeld cap (options ++ [option]) where
  count := by
    rw [List.length_append, List.length_singleton]
    omega
  values := by
    rw [List.forall_mem_append, List.forall_mem_singleton]
    exact ⟨h.values, hvalue⟩
  sorted := by
    rw [List.pairwise_append]
    refine ⟨h.sorted, List.pairwise_singleton _ _, fun other hother last hlast' => ?_⟩
    rw [List.mem_singleton.mp hlast']
    exact hlast other hother
  supported := by
    rw [List.forall_mem_append, List.forall_mem_singleton]
    exact ⟨h.supported, hsupported⟩
  once := by
    refine List.pairwise_append.mpr ⟨h.once, List.pairwise_singleton _ _,
      fun other hother last hlast' heq => ?_⟩
    rw [List.mem_singleton.mp hlast'] at heq
    obtain hrepeatable | hne := honce
    · rw [heq]
      exact hrepeatable
    · exact absurd heq (hne other hother)

variable {m' : Message}

theorem setPayload_ok {bytes : Bytes} (h : m.setPayload cap (some bytes) = (.ok, m')) :
    bytes.length ≤ cap.payloadCapacity ∧ m' = { m with payload := bytes } := by
  rw [Message.setPayload] at h
  split at h
  · cases h
  next hroom =>
    cases h
    exact ⟨not_lt.mp hroom, rfl⟩

theorem appendOption_ok {number : UInt16} {bytes : Bytes}
    (h : m.appendOption cap number (some bytes) = (.ok, m')) :
    number ≠ 0 ∧ bytes.length ≤ cap.optionValueCapacity ∧ m.options.length < cap.maxOptions ∧
      m' = { m with options := insertOption m.options ⟨number, bytes⟩ } := by
  rw [Message.appendOption] at h
  split at h
  · cases h
  next hnumber =>
    split at h
    · cases h
    next hvalue =>
      split at h
      · cases h
      next hroom =>
        cases h
        exact ⟨hnumber, not_lt.mp hvalue, not_le.mp hroom, rfl⟩

theorem decodeOptions_ok {fuel number : ℕ} {input : Bytes} (hnumber : number < 2 ^ 16)
    (hlast : ∀ option ∈ output.options, option.number.toNat ≤ number)
    (hheld : OptionsHeld cap output.options) (hlengths : ValidLengths output.options)
    (hpayload : output.payload = []) (h : (decodeOptions cap fuel number input output).status = .ok)
    :
    ∃ options payload, (decodeOptions cap fuel number input output).message =
        { output with options := options, payload := payload } ∧
      OptionsHeld cap options ∧ ValidLengths options ∧ payload.length ≤ cap.payloadCapacity := by
  have hend (output : Message) (hheld : OptionsHeld cap output.options)
      (hlengths : ValidLengths output.options) (hpayload : output.payload = []) :
      ∃ options payload, output = { output with options := options, payload := payload } ∧
        OptionsHeld cap options ∧ ValidLengths options ∧ payload.length ≤ cap.payloadCapacity := by
    refine ⟨output.options, output.payload, rfl, hheld, hlengths, ?_⟩
    rw [hpayload]
    exact Nat.zero_le _
  induction fuel generalizing number input output with
  | zero => exact hend output hheld hlengths hpayload
  | succ fuel ih =>
    cases input with
    | nil => exact hend output hheld hlengths hpayload
    | cons header input =>
      generalize hread : decodeOptions cap (fuel + 1) number (header :: input) output = decoded
        at h ⊢
      rw [decodeOptions] at hread
      split at hread
      · split at hread
        · subst hread
          cases h
        · generalize hset : output.setPayload cap (some input) = copy at hread
          obtain ⟨copied, output'⟩ := copy
          dsimp only at hread
          split at hread
          next hne =>
            subst hread
            exact absurd h hne
          next hok =>
            subst hread
            obtain ⟨hroom, rfl⟩ := setPayload_ok (hset.trans (by rw [not_not.mp hok]))
            exact ⟨output.options, input, rfl, hheld, hlengths, hroom⟩
      · dsimp only at hread
        split at hread
        · subst hread
          cases h
        · split at hread
          · subst hread
            cases h
          next delta length rest _ =>
            split at hread
            · subst hread
              cases h
            next hbounds =>
              rw [not_or, not_lt, not_lt] at hbounds
              split at hread
              · subst hread
                cases h
              next hzero =>
                have hsum : number + delta < 2 ^ 16 := by omega
                have hcurrent : (UInt16.ofNat (number + delta)).toNat = number + delta := by
                  rw [UInt16.toNat_ofNat', Nat.mod_eq_of_lt hsum]
                have hbehind (option) (hoption : option ∈ output.options) : option.number.toNat ≤
                  number + delta := (hlast option hoption).trans (Nat.le_add_right _ _)
                split at hread
                · split at hread
                  · subst hread
                    cases h
                  · subst hread
                    exact ih hsum hbehind hheld hlengths hpayload h
                next hrecognized =>
                  rw [Bool.not_eq_true, Bool.not_eq_false', Bool.and_eq_true, Bool.and_eq_true,
                    Bool.not_eq_true', Bool.and_eq_false_iff, Bool.not_eq_false'] at hrecognized
                  obtain ⟨⟨hsupported, hvalid⟩, honce⟩ := hrecognized
                  generalize happend : output.appendOption cap (UInt16.ofNat (number + delta))
                    (some (rest.take length)) = appended at hread
                  obtain ⟨result, output'⟩ := appended
                  dsimp only at hread
                  split at hread
                  next hne =>
                    subst hread
                    exact absurd h hne
                  next hok =>
                    have hlast' : ∀ other ∈ output.options,
                        other.number ≤ UInt16.ofNat (number + delta) := by
                      intro other hother
                      rw [UInt16.le_iff_toNat_le, hcurrent]
                      exact hbehind other hother
                    obtain ⟨-, hvalue, hroom, rfl⟩ :=
                      appendOption_ok (happend.trans (by rw [not_not.mp hok]))
                    have hlength : (rest.take length).length = length :=
                      List.length_take_of_le hbounds.2
                    rw [insertOption_eq_append hlast'] at hread
                    have honce' : isRepeatableOption (UInt16.ofNat (number + delta)) = true ∨
                        ∀ other ∈ output.options, other.number ≠ UInt16.ofNat (number + delta) := by
                      refine honce.imp id fun hnone => ?_
                      rw [Option.isSome_eq_false_iff, Option.isNone_iff_eq_none] at hnone
                      exact (findOption_eq_none_iff hlast').mp hnone
                    have hheld' : OptionsHeld cap
                        (output.options ++ [⟨UInt16.ofNat (number + delta), rest.take length⟩]) :=
                      hheld.snoc hlast' hroom hvalue hsupported honce'
                    have hlengths' : ValidLengths
                        (output.options ++ [⟨UInt16.ofNat (number + delta), rest.take length⟩]) := by
                      rw [ValidLengths, List.forall_mem_append, List.forall_mem_singleton, hlength]
                      exact ⟨hlengths, hvalid⟩
                    have hbehind' : ∀ other ∈ output.options ++
                        [⟨UInt16.ofNat (number + delta), rest.take length⟩],
                        other.number.toNat ≤ number + delta := by
                      rw [List.forall_mem_append, List.forall_mem_singleton]
                      exact ⟨hbehind, hcurrent.le⟩
                    subst hread
                    exact ih hsum hbehind' hheld' hlengths' hpayload h

theorem decodeBody_ok {size : ℕ} {input : Bytes} (hversion : output.version = protocolVersion)
    (htoken : output.token.length ≤ maximumTokenLength) (hoptions : output.options = [])
    (hpayload : output.payload = []) (h : (decodeBody cap size input output).status = .ok) :
    (decodeBody cap size input output).message.WellFormed cap := by
  have hnone : OptionsHeld cap [] :=
    ⟨Nat.zero_le _, fun _ h => absurd h List.not_mem_nil, .nil, fun _ h => absurd h List.not_mem_nil,
      .nil⟩
  have hnone' : ValidLengths [] := fun _ h => absurd h List.not_mem_nil
  rw [decodeBody] at h ⊢
  split at h
  next hempty =>
    rw [if_pos hempty]
    split at h
    · cases h
    next hchecks =>
      rw [if_neg hchecks]
      simp only [not_or, not_and_or, ne_eq, not_not] at hchecks
      obtain ⟨hnotoken, -, hkind⟩ := hchecks
      have hhave : output.token = [] ∧ output.options = [] ∧ output.payload = [] ∧
          (output.type = .acknowledgement ∨ output.type = .reset) :=
        ⟨List.length_eq_zero_iff.mp hnotoken, hoptions, hpayload, hkind⟩
      refine ⟨hversion, htoken, ?_, ?_, ?_, fun _ => hhave, fun _ => hempty, fun _ _ => hempty⟩
      · rw [hpayload]
        exact Nat.zero_le _
      · rw [hoptions]
        exact hnone
      · rw [hoptions]
        exact hnone'
  next hcode =>
    rw [if_neg hcode]
    split at h
    · cases h
    next hkind =>
      rw [if_neg hkind]
      rw [not_or, not_and] at hkind
      obtain ⟨options, payload, hmessage, hheld, hlengths, hroom⟩ :=
        decodeOptions_ok (by decide) (by simp [hoptions]) (hoptions ▸ hnone) (hoptions ▸ hnone')
          hpayload h
      rw [hmessage]
      exact ⟨hversion, htoken, hroom, hheld, hlengths, fun hempty => absurd hempty hcode,
        fun hreset => absurd hreset hkind.1, fun hack hclass => absurd hclass (hkind.2 hack)⟩

theorem decodeMessage_ok {input : Option Bytes} (h : (decodeMessage cap input).status = .ok) :
    (decodeMessage cap input).message.WellFormed cap := by
  generalize hread : decodeMessage cap input = decoded at h ⊢
  rw [decodeMessage.eq_def] at hread
  split at hread
  next first code high low rest =>
    dsimp only at hread
    split at hread
    · subst hread
      cases h
    · split at hread
      · subst hread
        cases h
      next hlength =>
        rw [not_or, not_lt, not_lt] at hlength
        subst hread
        refine decodeBody_ok rfl ?_ rfl rfl h
        rw [List.length_take_of_le hlength.2]
        exact hlength.1
  · subst hread
    cases h

/-- The calls that fill a message. -/
inductive BuildCall where
  | setToken (bytes : Option Bytes)
  | appendOption (number : UInt16) (bytes : Option Bytes)
  | setPayload (bytes : Option Bytes)

def BuildCall.number : BuildCall → Option UInt16
  | .appendOption number _ => some number
  | _ => none

namespace Message

variable {cap : MessageCapacity}

def apply (cap : MessageCapacity) (m : Message) : BuildCall → Status × Message
  | .setToken bytes => m.setToken bytes
  | .appendOption number bytes => m.appendOption cap number bytes
  | .setPayload bytes => m.setPayload cap bytes

def build (cap : MessageCapacity) : List BuildCall → Message → Option Message
  | [], m => some m
  | call :: calls, m =>
    match m.apply cap call with
    | (.ok, m) => build cap calls m
    | _ => none

/-- What calls leave of a message. -/
structure Built (cap : MessageCapacity) (m : Message) : Prop where
  version : m.version = protocolVersion
  token : m.token.length ≤ maximumTokenLength
  payload : m.payload.length ≤ cap.payloadCapacity
  count : m.options.length ≤ cap.maxOptions
  values : ∀ option ∈ m.options, option.value.length ≤ cap.optionValueCapacity
  sorted : m.options.Pairwise fun option other => option.number ≤ other.number

end Message

theorem insertOption_perm (options : List MessageOption) (option : MessageOption) :
    (insertOption options option).Perm (option :: options) := by
  have hsplit := List.rdropWhile_append_rtakeWhile
    (p := fun other : MessageOption => decide (other.number > option.number)) (l := options)
  rw [insertOption]
  refine List.perm_middle.trans ?_
  rw [hsplit]

theorem insertOption_sorted (option : MessageOption)
    (h : options.Pairwise fun option other => option.number ≤ other.number) :
    (insertOption options option).Pairwise fun option other => option.number ≤ other.number := by
  rw [← List.rdropWhile_append_rtakeWhile
    (p := fun other : MessageOption => decide (other.number > option.number)) (l := options)] at h
  rw [insertOption]
  have hafter : ∀ other ∈ options.rtakeWhile fun other => other.number > option.number,
      option.number ≤ other.number := by
    intro other hother
    have hlarger := List.mem_rtakeWhile_imp hother
    rw [decide_eq_true_eq] at hlarger
    exact UInt16.le_of_lt hlarger
  have hlast := List.rdropWhile_last_not
    (fun other : MessageOption => decide (other.number > option.number)) options
  generalize options.rdropWhile (fun other => other.number > option.number) = before at h hlast
  generalize options.rtakeWhile (fun other => other.number > option.number) = after at h hafter
  rw [List.pairwise_append] at h
  obtain ⟨hbefore, hsorted, hacross⟩ := h
  -- the options before the place are not larger than the last of them
  have hbefore' : ∀ other ∈ before, other.number ≤ option.number := by
    intro other hother
    have hne := List.ne_nil_of_mem hother
    have hlast' : (before.getLast hne).number ≤ option.number := by
      have hnot := hlast hne
      rw [decide_eq_true_eq] at hnot
      exact UInt16.not_lt.mp hnot
    rw [← List.dropLast_append_getLast hne] at hother hbefore
    rw [List.mem_append, List.mem_singleton] at hother
    obtain hother | rfl := hother
    · have hle := (List.pairwise_append.mp hbefore).2.2 other hother _ (List.mem_singleton_self _)
      exact UInt16.le_trans hle hlast'
    · exact hlast'
  refine List.pairwise_append.mpr ⟨hbefore, List.pairwise_cons.mpr ⟨hafter, hsorted⟩, ?_⟩
  intro other hother last hlast'
  rw [List.mem_cons] at hlast'
  obtain rfl | hmem := hlast'
  · exact hbefore' other hother
  · exact hacross other hother last hmem

theorem Message.Built.apply {call : BuildCall} (h : m.Built cap)
    (hcall : m.apply cap call = (.ok, m')) : m'.Built cap := by
  cases call with
  | setToken bytes =>
    cases bytes with
    | none => cases hcall
    | some bytes =>
      rw [Message.apply, setToken] at hcall
      split at hcall
      · cases hcall
      next hroom =>
        cases hcall
        exact { h with token := not_lt.mp hroom }
  | appendOption number bytes =>
    cases bytes with
    | none => cases hcall
    | some bytes =>
      obtain ⟨-, hvalue, hroom, rfl⟩ := appendOption_ok hcall
      have hperm := insertOption_perm m.options ⟨number, bytes⟩
      refine { h with count := ?_, values := ?_, sorted := insertOption_sorted _ h.sorted }
      · rw [hperm.length_eq, List.length_cons]
        exact hroom
      · intro option hoption
        rw [hperm.mem_iff, List.mem_cons] at hoption
        obtain rfl | hmem := hoption
        · exact hvalue
        · exact h.values option hmem
  | setPayload bytes =>
    cases bytes with
    | none => cases hcall
    | some bytes =>
      obtain ⟨hroom, rfl⟩ := setPayload_ok hcall
      exact { h with payload := hroom }

variable {calls : List BuildCall}

theorem build_cons {call : BuildCall} (h : m.build cap (call :: calls) = some m') :
    ∃ next, m.apply cap call = (.ok, next) ∧ next.build cap calls = some m' := by
  rw [Message.build] at h
  split at h
  next next hcall => exact ⟨next, hcall, h⟩
  · cases h

theorem Message.Built.build (h : m.Built cap) (hcalls : m.build cap calls = some m') :
    m'.Built cap := by
  induction calls generalizing m with
  | nil =>
    cases hcalls
    exact h
  | cons call calls ih =>
    obtain ⟨next, hcall, hrest⟩ := build_cons hcalls
    exact ih (h.apply hcall) hrest

theorem apply_numbers {call : BuildCall} (h : m.apply cap call = (.ok, m')) :
    (m'.options.map MessageOption.number).Perm
      (m.options.map MessageOption.number ++ [call].filterMap BuildCall.number) := by
  cases call with
  | setToken bytes =>
    cases bytes with
    | none => cases h
    | some bytes =>
      rw [Message.apply, Message.setToken] at h
      split at h
      · cases h
      · cases h
        rw [List.filterMap_cons_none rfl, List.filterMap_nil, List.append_nil]
  | appendOption number bytes =>
    cases bytes with
    | none => cases h
    | some bytes =>
      obtain ⟨-, -, -, rfl⟩ := appendOption_ok h
      have hperm := (insertOption_perm m.options ⟨number, bytes⟩).map MessageOption.number
      have hnumber : [BuildCall.appendOption number (some bytes)].filterMap BuildCall.number =
          [number] := rfl
      rw [hnumber]
      exact hperm.trans (List.perm_append_singleton number _).symm
  | setPayload bytes =>
    cases bytes with
    | none => cases h
    | some bytes =>
      obtain ⟨-, rfl⟩ := setPayload_ok h
      rw [List.filterMap_cons_none rfl, List.filterMap_nil, List.append_nil]

theorem build_numbers (h : m.build cap calls = some m') : (m'.options.map MessageOption.number).Perm
    (m.options.map MessageOption.number ++ calls.filterMap BuildCall.number) := by
  induction calls generalizing m with
  | nil =>
    cases h
    rw [List.filterMap_nil, List.append_nil]
  | cons call calls ih =>
    obtain ⟨next, hcall, hrest⟩ := build_cons h
    have hcalls : (call :: calls).filterMap BuildCall.number =
        [call].filterMap BuildCall.number ++ calls.filterMap BuildCall.number := by
      rw [← List.filterMap_append, List.singleton_append]
    rw [hcalls, ← List.append_assoc]
    exact (ih hrest).trans ((apply_numbers hcall).append_right _)

def newMessage (type : MessageType) (codeValue : UInt8) (messageId : UInt16) : Message :=
  { type := type, codeValue := codeValue, messageId := messageId }

/-- Supported options, of which those that are not repeatable are appended once. -/
structure Appended (calls : List BuildCall) : Prop where
  supported : ∀ number ∈ calls.filterMap BuildCall.number, isSupportedOption number = true
  once : (calls.filterMap BuildCall.number).Pairwise fun number other =>
    number = other → isRepeatableOption number = true

theorem built_held {type : MessageType} {codeValue : UInt8} {messageId : UInt16}
    (h : (newMessage type codeValue messageId).build cap calls = some m) (hcalls : Appended calls) :
    m.Built cap ∧ OptionsHeld cap m.options := by
  have hbuilt : m.Built cap := by
    refine Message.Built.build ⟨rfl, ?_, ?_, ?_, ?_, .nil⟩ h
    · exact Nat.zero_le _
    · exact Nat.zero_le _
    · exact Nat.zero_le _
    · exact fun _ hoption => absurd hoption List.not_mem_nil
  have hnumbers : (m.options.map MessageOption.number).Perm
      (calls.filterMap BuildCall.number) := build_numbers h
  refine ⟨hbuilt, hbuilt.count, hbuilt.values, hbuilt.sorted, ?_, ?_⟩
  · intro option hoption
    have hmem := List.mem_map_of_mem (f := MessageOption.number) hoption
    exact hcalls.supported _ (hnumbers.mem_iff.mp hmem)
  · have honce := (hnumbers.pairwise_iff (R := fun number other =>
      number = other → isRepeatableOption number = true) ?_).mpr hcalls.once
    · exact List.pairwise_map.mp honce
    · intro number other hrepeats heq
      rw [heq] at hrepeats ⊢
      exact hrepeats rfl

/-- The encoder succeeds on a message with enough capacity exactly when its type and code are
allowed and the lengths of its options are valid. -/
theorem encodes_iff {capacity : ℕ} (h : m.Built cap) (hheld : OptionsHeld cap m.options) :
    (∃ bytes, encodeMessage cap m (some capacity) = .ok bytes) ↔
      m.CodeAllowed ∧ ValidLengths m.options ∧ m.bytes.length ≤ capacity := by
  constructor
  · rintro ⟨bytes, hbytes⟩
    obtain ⟨hchecks, hencodable, -, hroom⟩ := encodeMessage_ok_iff.mp hbytes
    obtain ⟨-, -, -, -, hcode⟩ := Message.refused_eq_false_iff.mp hchecks
    exact ⟨hcode, hheld.encodable_iff.mp hencodable, hroom⟩
  · rintro ⟨hcode, hlengths, hroom⟩
    refine ⟨m.bytes, encodeMessage_ok_iff.mpr ⟨?_, hheld.encodable_iff.mpr hlengths, rfl, hroom⟩⟩
    exact Message.refused_eq_false_iff.mpr ⟨h.version, h.token, h.count, h.payload, hcode⟩

/-- The encoder takes a message that is built by successful calls exactly when its type and code
are allowed, the lengths of its options are valid, and it fits; what it writes is decoded to the
message. What the decoder accepts is encoded again, and decoded to the same message. -/
theorem encode_decode (cap : MessageCapacity) :
    (∀ (type : MessageType) (codeValue : UInt8) (messageId : UInt16) (calls : List BuildCall)
      (m : Message), (newMessage type codeValue messageId).build cap calls = some m →
      Appended calls → ∀ capacity : ℕ,
        (∀ bytes, encodeMessage cap m (some capacity) = .ok bytes →
          decodeMessage cap (some bytes) = ⟨.ok, .none, m⟩) ∧
        ((∃ bytes, encodeMessage cap m (some capacity) = .ok bytes) ↔
          m.CodeAllowed ∧ ValidLengths m.options ∧ m.bytes.length ≤ capacity)) ∧
    ∀ (datagram : Bytes) (error : DecodeError) (m : Message),
      decodeMessage cap (some datagram) = ⟨.ok, error, m⟩ → ∀ capacity ≥ m.bytes.length,
        encodeMessage cap m (some capacity) = .ok m.bytes ∧
          decodeMessage cap (some m.bytes) = ⟨.ok, .none, m⟩ := by
  refine ⟨fun type codeValue messageId calls m hbuild happended capacity => ?_,
    fun datagram error m hdecode capacity hroom => ?_⟩
  · obtain ⟨hbuilt, hheld⟩ := built_held hbuild happended
    refine ⟨fun bytes hbytes => ?_, encodes_iff hbuilt hheld⟩
    obtain ⟨hcode, hlengths, -⟩ := (encodes_iff hbuilt hheld).mp ⟨bytes, hbytes⟩
    obtain ⟨-, -, rfl, -⟩ := encodeMessage_ok_iff.mp hbytes
    exact decodeMessage_bytes ⟨hbuilt.version, hbuilt.token, hbuilt.payload, hheld, hlengths, hcode⟩
  · have hok : (decodeMessage cap (some datagram)).status = .ok := by rw [hdecode]
    have hwell := decodeMessage_ok hok
    rw [hdecode] at hwell
    refine ⟨encodeMessage_ok_iff.mpr ⟨?_, hwell.options.encodable_iff.mpr hwell.lengths, rfl,
      hroom⟩, decodeMessage_bytes hwell⟩
    exact Message.refused_eq_false_iff.mpr
      ⟨hwell.version, hwell.token, hwell.options.count, hwell.payload, hwell.code⟩

def smallMessages : MessageCapacity where
  maxOptions := 4
  optionValueCapacity := 16
  payloadCapacity := 16
  maxOptions_pos := Nat.le_of_ble_eq_true rfl
  optionValueCapacity_pos := Nat.le_of_ble_eq_true rfl
  payloadCapacity_pos := Nat.le_of_ble_eq_true rfl

/-- A GET for the path `t`, with a token and a large option number in front. -/
def getCalls : List BuildCall :=
  [.setToken (some [7]), .appendOption 60 (some [1]), .appendOption 11 (some [0x74])]

def getMessage : Message :=
  { codeValue := 0x01, messageId := 258, token := [7], options := [⟨11, [0x74]⟩, ⟨60, [1]⟩] }

theorem encode_decode_get :
    decodeMessage smallMessages (some getMessage.bytes) = ⟨.ok, .none, getMessage⟩ := by
  have happended : Appended getCalls := by
    constructor
    · exact fun number hn => List.all_eq_true.mp (by decide) number hn
    · decide
  exact ((encode_decode smallMessages).1 .confirmable 0x01 258 getCalls getMessage (by decide)
    happended 64).1 _ (by decide)

/-- If-None-Match with a value is appended, but not encoded. -/
theorem encode_refuses_built : ¬∀ (cap : MessageCapacity) (type : MessageType) (codeValue : UInt8)
    (messageId : UInt16) (calls : List BuildCall) (m : Message),
    (newMessage type codeValue messageId).build cap calls = some m → Appended calls →
    m.CodeAllowed → ∃ capacity bytes, encodeMessage cap m (some capacity) = .ok bytes ∧
      decodeMessage cap (some bytes) = ⟨.ok, .none, m⟩ := by
  intro h
  have happended : Appended [.appendOption 5 (some [0])] := by
    constructor
    · exact fun number hn => List.all_eq_true.mp (by decide) number hn
    · decide
  have hbuild : (newMessage .confirmable 0x01 258).build smallMessages
      [.appendOption 5 (some [0])] = some { newMessage .confirmable 0x01 258 with
        options := [⟨5, [0]⟩] } := by decide
  obtain ⟨capacity, bytes, hbytes, -⟩ := h smallMessages .confirmable 0x01 258
    [.appendOption 5 (some [0])] _ hbuild happended ⟨by decide, by decide, by decide⟩
  obtain ⟨-, hencodable, -⟩ := encodeMessage_ok_iff.mp hbytes
  exact absurd (hencodable.1.valid (by decide)) (by decide)

end Castle.Coap
