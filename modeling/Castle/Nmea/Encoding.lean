import Castle.Lib.WordBits
import Castle.Status
import Castle.Nmea.Agreement

/-!
# `encode_sentence` (`protocols/nmea/nmea.hpp`)

The encoder passes on every byte, also those that the decoder cuts at.
-/

namespace Castle.Nmea

/-- `digits` of `write_hex_byte` -/
def hexDigits : Bytes :=
  [0x30, 0x31, 0x32, 0x33, 0x34, 0x35, 0x36, 0x37, 0x38, 0x39, 0x41, 0x42, 0x43, 0x44, 0x45, 0x46]

def writeHexByte (value : UInt8) : Bytes :=
  [hexDigits.getD (value >>> 4 &&& 0x0f).toNat 0, hexDigits.getD (value &&& 0x0f).toNat 0]

/-- What is written between the `$` and the `*`. -/
def contentOf (talker type : Bytes) (fields : List Bytes) : Bytes :=
  talker ++ type ++ fields.flatMap (fieldSep :: ·)

/-- The bytes of a sentence, or why it is refused. An `output` that is not null has a capacity. -/
def encodeSentence (talker type : Bytes) (fields : List Bytes) (output : Option ℕ) : Except Status Bytes :=
  if type.isEmpty || output.isNone then .error .invalidArgument
  else
    let contentLength := fields.foldl (fun length field => length + (1 + field.length))
      (talker.length + type.length)
    if output.getD 0 < 1 + contentLength + 1 + 2 + 2 then .error .full
    else
      let content := contentOf talker type fields
      .ok (startChar :: (content ++
        checksumChar :: (writeHexByte (computeChecksum content) ++ [carriageReturn, lineFeed])))

/-- The decoder gives back what was encoded, and the sentence is framed once. -/
structure ReadsBack (talker type : Bytes) (fields : List Bytes) (capacity : ℕ) (bytes : Bytes) : Prop where
  decoded : (decodeSentence bytes capacity).1 = true
  identifier : (decodeSentence bytes capacity).2.talker ++ (decodeSentence bytes capacity).2.type = talker ++ type
  fields : (decodeSentence bytes capacity).2.fields = fields
  start : bytes.count startChar = 1
  checksum : bytes.count checksumChar = 1
  ending : ∃ line, bytes = line ++ [carriageReturn, lineFeed] ∧ carriageReturn ∉ line ∧ lineFeed ∉ line

/-- Texts without a byte that the framing has a use for, and an identifier that has a type. -/
def Encodable (talker type : Bytes) (fields : List Bytes) : Prop :=
  (∀ text ∈ (talker ++ type) :: fields, ∀ c ∈ text, reserved c = false ∧ c ≠ fieldSep) ∧
    talker ++ type ≠ [0x50]

variable {talker type id content bytes : Bytes} {fields : List Bytes} {output : Option ℕ} {capacity : ℕ}

theorem writeHexByte_spec (value : UInt8) : fieldChecksum (writeHexByte value) = some value ∧
    ∀ c ∈ writeHexByte value, reserved c = false := by
  have hall : ∀ value, fieldChecksum (writeHexByte value) = some value ∧
      ((writeHexByte value).all fun c => !reserved c) = true := by
    refine WordBits.forall_byte ?_
    set_option maxRecDepth 1000 in
    decide
  obtain ⟨hparse, hplain⟩ := hall value
  exact ⟨hparse, by simpa using hplain⟩

theorem splitIdentifier_append (id : Bytes) : (splitIdentifier id).1 ++ (splitIdentifier id).2 = id := by
  rw [splitIdentifier]
  split_ifs with hempty
  · rw [List.isEmpty_iff.mp hempty, List.nil_append]
  · exact List.take_append_drop 1 id
  · exact List.take_append_drop 2 id
  · rfl

theorem tokenizeFields_eq (content : Bytes) (capacity : ℕ) : tokenizeFields content capacity =
    ((splitIdentifier (identifier content)).1, (splitIdentifier (identifier content)).2,
      ((cut fieldSep content).map fun parts => fieldsLoop capacity parts.2).getD []) := by
  rw [tokenizeFields, identifier]
  split_ifs with hempty
  · rw [List.isEmpty_iff.mp hempty]
    rfl
  · cases cut fieldSep content <;> rfl

theorem fieldSep_not_mem_identifier (content : Bytes) : fieldSep ∉ identifier content := by
  rw [identifier]
  cases hcut : cut fieldSep content with
  | none => exact cut_eq_none_iff.mp hcut
  | some parts => exact (cut_eq_some_iff.mp hcut).2

theorem fieldSep_not_mem_fieldsLoop (remaining : Bytes) :
    ∀ field ∈ fieldsLoop capacity remaining, fieldSep ∉ field := by
  induction capacity generalizing remaining with
  | zero => exact fun _ h => absurd h List.not_mem_nil
  | succ capacity ih =>
    rw [fieldsLoop]
    cases hcut : cut fieldSep remaining with
    | none =>
      dsimp only
      rw [List.forall_mem_singleton]
      exact cut_eq_none_iff.mp hcut
    | some parts => exact List.forall_mem_cons.mpr ⟨(cut_eq_some_iff.mp hcut).2, ih parts.2⟩

theorem fieldsLoop_joined {field : Bytes} (h : ∀ text ∈ field :: fields, fieldSep ∉ text)
    (hcapacity : (field :: fields).length ≤ capacity) :
    fieldsLoop capacity (field ++ fields.flatMap (fieldSep :: ·)) = field :: fields := by
  induction fields generalizing field capacity with
  | nil =>
    obtain _ | capacity := capacity
    · cases hcapacity
    · rw [List.flatMap_nil, List.append_nil, fieldsLoop, cut_eq_none_iff.mpr (h field List.mem_cons_self)]
  | cons next fields ih =>
    obtain _ | capacity := capacity
    · cases hcapacity
    · rw [List.flatMap_cons, List.cons_append, fieldsLoop, cut_append (h field List.mem_cons_self)]
      dsimp only
      rw [ih (fun text htext => h text (List.mem_cons_of_mem _ htext)) (Nat.le_of_succ_le_succ hcapacity)]

theorem cut_joined (h : fieldSep ∉ id) : cut fieldSep (id ++ fields.flatMap (fieldSep :: ·)) =
    fields.head?.map fun field => (id, field ++ fields.tail.flatMap (fieldSep :: ·)) := by
  cases fields with
  | nil =>
    rw [List.flatMap_nil, List.append_nil]
    exact cut_eq_none_iff.mpr h
  | cons field fields =>
    rw [List.flatMap_cons, List.cons_append, cut_append h]
    rfl

theorem decodeSentence_encoded (h : ∀ c ∈ content, reserved c = false) (capacity : ℕ) :
    decodeSentence (startChar :: (content ++ checksumChar ::
      (writeHexByte (computeChecksum content) ++ [carriageReturn, lineFeed]))) capacity =
      decodeContent content capacity (computeChecksum content) true := by
  obtain ⟨hparse, hdigits⟩ := writeHexByte_spec (computeChecksum content)
  have hplain : ∀ c, reserved c = false → c ≠ checksumChar ∧ c ≠ startChar ∧ c ≠ carriageReturn ∧ c ≠ lineFeed := by
    simp +contextual [reserved]
  have hbody : Unbroken (content ++ checksumChar :: writeHexByte (computeChecksum content)) := by
    intro c hc
    rw [List.mem_append, List.mem_cons] at hc
    obtain hc | rfl | hc := hc
    · exact (hplain c (h c hc)).2
    · decide
    · exact (hplain c (hdigits c hc)).2
  have hstar : checksumChar ∉ content := fun hc => (hplain _ (h _ hc)).1 rfl
  have hdecode := @decodeSentence_checked _ _ _ capacity hbody (cut_append hstar _)
  rw [hparse] at hdecode
  rw [← Option.getD_some (a := decodeContent content capacity (computeChecksum content) true), ← Option.map_some]
  refine Eq.trans ?_ hdecode
  have hend : (content ++ checksumChar :: (writeHexByte (computeChecksum content) ++ [carriageReturn, lineFeed])) =
      (content ++ checksumChar :: writeHexByte (computeChecksum content)) ++ [carriageReturn] ++ [lineFeed] := by
    simp
  rw [decodeSentence, decodeSentence, List.head?_cons, List.head?_cons, if_pos rfl, if_pos rfl, List.tail_cons,
    List.tail_cons, hend, List.rdropWhile_concat_pos _ _ _ (by decide), List.rdropWhile_concat_pos _ _ _ (by decide)]

/-- What the encoder writes is read back exactly when no byte of it has a use in the framing, and
when the identifier is more than the `P` that is taken for a talker. -/
theorem encoded_readsBack_iff (hencode : encodeSentence talker type fields output = .ok bytes)
    (hcapacity : fields.length ≤ capacity) :
    ReadsBack talker type fields capacity bytes ↔ Encodable talker type fields := by
  obtain ⟨htype, hbytes⟩ : type ≠ [] ∧ startChar :: (contentOf talker type fields ++ checksumChar ::
      (writeHexByte (computeChecksum (contentOf talker type fields)) ++ [carriageReturn, lineFeed])) = bytes := by
    rw [encodeSentence] at hencode
    dsimp only at hencode
    split_ifs at hencode with hargument
    · rw [Bool.or_eq_true, not_or, List.isEmpty_iff] at hargument
      exact ⟨hargument.1, Except.ok.inj hencode⟩
  obtain ⟨-, hdigits⟩ := writeHexByte_spec (computeChecksum (contentOf talker type fields))
  have hcontent : (∀ c ∈ contentOf talker type fields, reserved c = false) ↔
      ∀ text ∈ (talker ++ type) :: fields, ∀ c ∈ text, reserved c = false := by
    rw [List.forall_mem_cons, contentOf, List.forall_mem_append, List.forall_mem_flatMap]
    exact and_congr_right fun _ => forall₂_congr fun _ _ => by
      rw [List.forall_mem_cons, and_iff_right (by decide)]
  constructor
  · intro h
    have hclean : ∀ c ∈ contentOf talker type fields, reserved c = false := by
      obtain ⟨line, hline, hreturn, hfeed⟩ := h.ending
      have hstart := h.start
      have hchecksum := h.checksum
      rw [← hbytes, List.count_cons_self, Nat.add_eq_right, List.count_eq_zero] at hstart
      rw [← hbytes, List.count_cons_of_ne (by decide), List.count_append, List.count_cons_self] at hchecksum
      rw [← hbytes, show ∀ a b : Bytes, startChar :: (a ++ checksumChar :: (b ++ [carriageReturn, lineFeed])) =
        (startChar :: (a ++ checksumChar :: b)) ++ [carriageReturn, lineFeed] by simp] at hline
      rw [← List.append_cancel_right hline, List.mem_cons, List.mem_append, not_or, not_or] at hreturn hfeed
      intro c hc
      have h1 : c ≠ startChar := fun he => hstart (List.mem_append_left _ (he ▸ hc))
      have h2 : c ≠ checksumChar := fun he => List.count_pos_iff.mpr (he ▸ hc) |>.ne' (by omega)
      have h3 : c ≠ carriageReturn := fun he => hreturn.2.1 (he ▸ hc)
      have h4 : c ≠ lineFeed := fun he => hfeed.2.1 (he ▸ hc)
      simp [reserved, h1, h2, h3, h4]
    have hdecoded := h.decoded
    have hidentifier := h.identifier
    have hfields := h.fields
    rw [← hbytes, decodeSentence_encoded hclean, decodeContent, tokenizeFields_eq] at hdecoded hidentifier hfields
    dsimp only at hdecoded hidentifier hfields
    rw [splitIdentifier_append] at hidentifier
    refine ⟨fun text htext c hc => ⟨hcontent.mp hclean text htext c hc, ?_⟩, fun hp => ?_⟩
    · rintro rfl
      obtain rfl | htext := List.mem_cons.mp htext
      · exact fieldSep_not_mem_identifier _ (hidentifier ▸ hc)
      · rw [← hfields] at htext
        cases hcut : cut fieldSep (contentOf talker type fields) with
        | none =>
          rw [hcut] at htext
          exact absurd htext List.not_mem_nil
        | some parts =>
          rw [hcut] at htext
          exact fieldSep_not_mem_fieldsLoop _ text htext hc
    · rw [hidentifier, hp] at hdecoded
      cases hdecoded
  · rintro ⟨h, hp⟩
    have hclean := hcontent.mpr fun text htext c hc => (h text htext c hc).1
    have hplain : ∀ text ∈ (talker ++ type) :: fields, fieldSep ∉ text := fun text htext hc =>
      (h text htext _ hc).2 rfl
    have hcut : cut fieldSep (contentOf talker type fields) = _ := cut_joined (hplain _ List.mem_cons_self)
    have hidentifier : identifier (contentOf talker type fields) = talker ++ type := by
      rw [identifier, hcut]
      cases fields with
      | nil => exact List.append_nil _
      | cons => rfl
    have hnamed : (splitIdentifier (talker ++ type)).2 ≠ [] := by
      rw [Ne, splitIdentifier_type, not_or]
      exact ⟨fun hnil => htype (List.append_eq_nil_iff.mp hnil).2, hp⟩
    have hfields : ((cut fieldSep (contentOf talker type fields)).map fun parts =>
        fieldsLoop capacity parts.2).getD [] = fields := by
      rw [hcut]
      cases fields with
      | nil => rfl
      | cons field fields =>
        exact fieldsLoop_joined (fun text htext => hplain text (List.mem_cons_of_mem _ htext)) hcapacity
    have habsent : ∀ c, reserved c = true → c ∉ contentOf talker type fields ∧
        c ∉ writeHexByte (computeChecksum (contentOf talker type fields)) := fun c hc =>
      ⟨fun h => absurd ((hclean c h).symm.trans hc) Bool.false_ne_true,
        fun h => absurd ((hdigits c h).symm.trans hc) Bool.false_ne_true⟩
    have hview := decodeSentence_encoded hclean capacity
    rw [hbytes, decodeContent, tokenizeFields_eq, hidentifier, hfields] at hview
    obtain ⟨hstart, hstart'⟩ := habsent startChar (by decide)
    obtain ⟨hstar, hstar'⟩ := habsent checksumChar (by decide)
    obtain ⟨hreturn, hreturn'⟩ := habsent carriageReturn (by decide)
    obtain ⟨hfeed, hfeed'⟩ := habsent lineFeed (by decide)
    constructor
    · rw [hview]
      simp [hnamed]
    · rw [hview]
      exact splitIdentifier_append _
    · rw [hview]
    · rw [← hbytes, List.count_cons_self, Nat.add_eq_right, List.count_eq_zero]
      simp only [List.mem_append, List.mem_cons, List.not_mem_nil, not_or]
      exact ⟨hstart, by decide, hstart', by decide, by decide, id⟩
    · rw [← hbytes, List.count_cons_of_ne (by decide), List.count_append, List.count_cons_self,
        List.count_eq_zero.mpr hstar, Nat.zero_add, Nat.add_eq_right, List.count_eq_zero]
      simp only [List.mem_append, List.mem_cons, List.not_mem_nil, not_or]
      exact ⟨hstar', by decide, by decide, id⟩
    · refine ⟨startChar :: (contentOf talker type fields ++ checksumChar ::
        writeHexByte (computeChecksum (contentOf talker type fields))), by simp [← hbytes], ?_⟩
      simp only [List.mem_append, List.mem_cons, not_or]
      exact ⟨⟨by decide, hreturn, by decide, hreturn'⟩, by decide, hfeed, by decide, hfeed'⟩

theorem encoded_readsBack_iff_field : ReadsBack [0x47, 0x50] [0x58] [[0x41]] 1
    [0x24, 0x47, 0x50, 0x58, 0x2c, 0x41, 0x2a, 0x32, 0x32, 0x0d, 0x0a] := by
  have hencode : encodeSentence [0x47, 0x50] [0x58] [[0x41]] (some 11) =
    .ok [0x24, 0x47, 0x50, 0x58, 0x2c, 0x41, 0x2a, 0x32, 0x32, 0x0d, 0x0a] := by decide
  exact (encoded_readsBack_iff hencode (Nat.le_refl 1)).mpr ⟨by decide +kernel, by decide⟩

theorem type_lost_field_split :
    (∃ bytes, encodeSentence [] [0x50] [] (some 8) = .ok bytes ∧ ¬ReadsBack [] [0x50] [] 1 bytes) ∧
      ∃ bytes, encodeSentence [0x47] [0x50] [[0x31, 0x2c, 0x32]] (some 16) = .ok bytes ∧
        (decodeSentence bytes 2).2.fields = [[0x31], [0x32]] := by
  refine ⟨⟨_, rfl, fun h => ?_⟩, _, rfl, by decide⟩
  exact absurd h.decoded (by decide)

end Castle.Nmea
