import Castle.Nmea.Resynchronisation

/-!
# The streaming parser and `decode_sentence`

The parser delivers sentences without a type, and `received_checksum_` outlives its sentence.
-/

namespace Castle.Nmea

/-- The two digits that a checksum field begins with. -/
def fieldChecksum : Bytes → Option UInt8
  | hi :: lo :: _ => parseHexByte hi lo
  | _ => none

/-- The bytes in front of the first comma. -/
def identifier (content : Bytes) : Bytes := ((cut fieldSep content).map Prod.fst).getD content

/-- An identifier that leaves no type. -/
def Unnamed (content : Bytes) : Prop := identifier content = [] ∨ identifier content = [0x50]

/-- The bytes in front of the first `*`. -/
def lineContent (body : Bytes) : Bytes := ((cut checksumChar body).map Prod.fst).getD body

theorem splitIdentifier_type (id : Bytes) : (splitIdentifier id).2 = [] ↔ id = [] ∨ id = [0x50] := by
  rw [splitIdentifier]
  split_ifs with hempty hp hlong
  · rw [List.isEmpty_iff] at hempty
    simp [hempty]
  · obtain ⟨rest, rfl⟩ := List.head?_eq_some_iff.mp hp
    simp
  · rw [List.drop_eq_nil_iff]
    refine iff_of_false (by omega) ?_
    rintro (rfl | rfl)
    · exact absurd hlong (by decide)
    · exact absurd hlong (by decide)
  · refine (or_iff_left ?_).symm
    rintro rfl
    exact hp rfl

theorem tokenizeFields_type (content : Bytes) (capacity : ℕ) :
    (tokenizeFields content capacity).2.1 = [] ↔ Unnamed content := by
  rw [tokenizeFields, Unnamed, identifier]
  cases hcut : cut fieldSep content with
  | none =>
    split_ifs with hempty
    · exact iff_of_true rfl (Or.inl (List.isEmpty_iff.mp hempty))
    · exact splitIdentifier_type content
  | some pair =>
    rw [if_neg]
    · exact splitIdentifier_type pair.1
    · intro hempty
      rw [List.isEmpty_iff.mp hempty] at hcut
      cases hcut

theorem fieldsLoop_take (maxFields capacity : ℕ) (remaining : Bytes) :
    (fieldsLoop maxFields remaining).take capacity = (fieldsLoop capacity remaining).take maxFields := by
  induction maxFields generalizing capacity remaining with
  | zero => rw [List.take_zero, fieldsLoop, List.take_nil]
  | succ maxFields ih =>
    cases capacity with
    | zero => rw [List.take_zero, fieldsLoop, List.take_nil]
    | succ capacity =>
      rw [fieldsLoop, fieldsLoop]
      cases cut fieldSep remaining with
      | none =>
        dsimp only
        rw [List.take_succ_cons, List.take_succ_cons, List.take_nil, List.take_nil]
      | some pair => exact congrArg (pair.1 :: ·) (ih capacity pair.2)

theorem tokenizeFields_capacity (content : Bytes) (maxFields capacity : ℕ) :
    (tokenizeFields content maxFields).1 = (tokenizeFields content capacity).1 ∧
      (tokenizeFields content maxFields).2.1 = (tokenizeFields content capacity).2.1 ∧
      (tokenizeFields content maxFields).2.2.take capacity =
        (tokenizeFields content capacity).2.2.take maxFields := by
  rw [tokenizeFields, tokenizeFields]
  split_ifs
  · exact ⟨rfl, rfl, by rw [List.take_nil, List.take_nil]⟩
  · cases cut fieldSep content with
    | none => exact ⟨rfl, rfl, by rw [List.take_nil, List.take_nil]⟩
    | some pair => exact ⟨rfl, rfl, fieldsLoop_take maxFields capacity pair.2⟩

/-- A line that no byte inside ends or starts again. -/
def Unbroken (body : Bytes) : Prop := ∀ c ∈ body, c ≠ startChar ∧ c ≠ carriageReturn ∧ c ≠ lineFeed

variable {body content digits : Bytes} {capacity : ℕ}

theorem rdropWhile_line (hbody : Unbroken body) :
    body.rdropWhile (fun c => c = carriageReturn || c = lineFeed) = body := by
  rw [List.rdropWhile_eq_self_iff]
  intro hne
  have hlast := hbody _ (List.getLast_mem hne)
  simp [hlast.2.1, hlast.2.2]

theorem decodeSentence_plain (hbody : Unbroken body) (hcut : cut checksumChar body = none) :
    decodeSentence (startChar :: body) capacity = decodeContent body capacity 0 false := by
  rw [decodeSentence, List.head?_cons, if_pos rfl, List.tail_cons, rdropWhile_line hbody, hcut]

theorem decodeSentence_checked (hbody : Unbroken body)
    (hcut : cut checksumChar body = some (content, digits)) : decodeSentence (startChar :: body) capacity =
      ((fieldChecksum digits).map fun received => decodeContent content capacity received true).getD (false, {}) := by
  rw [decodeSentence, List.head?_cons, if_pos rfl, List.tail_cons, rdropWhile_line hbody, hcut]
  rcases digits with _ | ⟨hi, _ | ⟨lo, rest⟩⟩
  · rfl
  · rfl
  · rw [fieldChecksum]
    dsimp only
    cases parseHexByte hi lo <;> rfl

namespace Parser

variable {cap : ParserCapacity} {p : Parser}

/-- A sentence that ends without a checksum field shows the checksum that was received last. -/
theorem delivered_unchecked (h : p.Reads content) : p.delivered cap [carriageReturn, lineFeed] =
    [⟨(tokenizeFields content cap.maxFields).1, (tokenizeFields content cap.maxFields).2.1,
      (tokenizeFields content cap.maxFields).2.2, p.receivedChecksum, false⟩] := by
  obtain ⟨state, buffer, checksum, checksumPresent, receivedChecksum, checksumHi, decoded, discarded⟩ := p
  obtain ⟨hstate, hbuffer, -⟩ := h
  dsimp only at hstate hbuffer
  subst hstate hbuffer
  rfl

theorem delivered_checked (h : p.Reads content) (hdigits : Unbroken digits) :
    p.delivered cap (checksumChar :: (digits ++ [carriageReturn, lineFeed])) =
      if fieldChecksum digits = some (computeChecksum content) then
        [⟨(tokenizeFields content cap.maxFields).1, (tokenizeFields content cap.maxFields).2.1,
          (tokenizeFields content cap.maxFields).2.2, computeChecksum content, true⟩]
      else [] := by
  obtain ⟨state, buffer, checksum, checksumPresent, receivedChecksum, checksumHi, decoded, discarded⟩ := p
  obtain ⟨hstate, hbuffer, hchecksum⟩ := h
  dsimp only at hstate hbuffer hchecksum
  subst hstate hbuffer hchecksum
  -- a line end is no digit
  have hcr (c : UInt8) : parseHexByte c carriageReturn = none := by
    rw [parseHexByte, show isHexDigit carriageReturn = false from rfl, Bool.not_false, Bool.or_true, if_pos rfl]
  rcases digits with _ | ⟨hi, _ | ⟨lo, rest⟩⟩
  · rfl
  · simp [delivered, feed, Transducer.feed, processByte, fieldChecksum, hcr, emitError,
      show checksumChar ≠ startChar by decide, show lineFeed ≠ startChar by decide]
  · rw [fieldChecksum]
    show delivered cap _ ([checksumChar, hi, lo] ++ (rest ++ [carriageReturn, lineFeed])) = _
    rw [delivered_append]
    have hrest (c) (hc : c ∈ rest ++ [carriageReturn]) : c ≠ startChar ∧ c ≠ lineFeed := by
      rcases List.mem_append.mp hc with hc | hc
      · have hc' := hdigits c (List.mem_cons_of_mem _ (List.mem_cons_of_mem _ hc))
        exact ⟨hc'.1, hc'.2.2⟩
      · rw [List.mem_singleton.mp hc]
        decide
    have hline : rest ++ [carriageReturn, lineFeed] = rest ++ [carriageReturn] ++ [lineFeed] := by
      rw [List.append_assoc]
      rfl
    cases hparse : parseHexByte hi lo with
    | none =>
      have hfeed : feed cap ⟨.accumulate, buffer, computeChecksum buffer, checksumPresent, receivedChecksum,
          checksumHi, decoded, discarded⟩ [checksumChar, hi, lo] =
          emitError ⟨.waitChecksumLo, buffer, computeChecksum buffer, true, receivedChecksum, hi, decoded,
            discarded⟩ { code := .checksumMismatch } := by
        simp [feed, Transducer.feed, processByte, hparse, emitError, show checksumChar ≠ startChar by decide]
      rw [delivered, hfeed, if_neg (by simp), hline]
      refine delivered_noise rfl fun hmem => ?_
      rcases List.mem_append.mp hmem with hmem | hmem
      · exact (hrest _ hmem).1 rfl
      · exact absurd hmem (by decide)
    | some received =>
      have hfeed : feed cap ⟨.accumulate, buffer, computeChecksum buffer, checksumPresent, receivedChecksum,
          checksumHi, decoded, discarded⟩ [checksumChar, hi, lo] =
          (⟨.waitLf, buffer, computeChecksum buffer, true, received, hi, decoded, discarded⟩, []) := by
        simp [feed, Transducer.feed, processByte, hparse, show checksumChar ≠ startChar by decide]
      rw [delivered, hfeed, hline, delivered_append]
      have hidle : feed cap ⟨.waitLf, buffer, computeChecksum buffer, true, received, hi, decoded, discarded⟩
          (rest ++ [carriageReturn]) =
          (⟨.waitLf, buffer, computeChecksum buffer, true, received, hi, decoded, discarded⟩, []) := by
        apply Transducer.feed_idle
        intro c hc
        simp [processByte, hrest c hc]
      rw [delivered, hidle]
      by_cases hsame : computeChecksum buffer = received
      · simp [delivered, feed, Transducer.feed, processByte, onSentenceComplete, hsame,
          show lineFeed ≠ carriageReturn by decide]
      · simp [delivered, feed, Transducer.feed, processByte, onSentenceComplete, hsame, emitError,
          Ne.symm hsame, show lineFeed ≠ carriageReturn by decide]

/-- The messages are equal, the fields as far as there is room for them in both. -/
structure SameMessage (maxFields capacity : ℕ) (message decoded : MessageView) : Prop where
  talker : message.talker = decoded.talker
  type : message.type = decoded.type
  fields : message.fields.take capacity = decoded.fields.take maxFields
  checksum : message.checksum = decoded.checksum
  checksumPresent : message.checksumPresent = decoded.checksumPresent

/-- The line is delivered with the message that `decode_sentence` makes of it, or by neither. -/
def Agrees (cap : ParserCapacity) (p : Parser) (body : Bytes) (capacity : ℕ) : Prop :=
  let messages := p.delivered cap (startChar :: (body ++ [carriageReturn, lineFeed]))
  let decoded := decodeSentence (startChar :: body) capacity
  (messages ≠ [] ↔ decoded.1 = true) ∧
    ∀ message ∈ messages, SameMessage cap.maxFields capacity message decoded.2

/-- A line with a type, or with a checksum field that is refused; and without such a field no
checksum was received before. -/
def Comparable (p : Parser) (body : Bytes) : Prop :=
  match cut checksumChar body with
  | none => ¬Unnamed body ∧ p.receivedChecksum = 0
  | some (content, digits) =>
    Unnamed content → fieldChecksum digits ≠ some (computeChecksum content)

theorem same_content (content : Bytes) (maxFields capacity : ℕ) (received : UInt8) (present : Bool) :
    SameMessage maxFields capacity ⟨(tokenizeFields content maxFields).1,
      (tokenizeFields content maxFields).2.1, (tokenizeFields content maxFields).2.2, received, present⟩
      (decodeContent content capacity received present).2 := by
  obtain ⟨htalker, htype, hfields⟩ := tokenizeFields_capacity content maxFields capacity
  exact ⟨htalker, htype, hfields, rfl, rfl⟩

theorem decodeContent_ok (content : Bytes) (capacity : ℕ) (received : UInt8) (present : Bool) :
    (decodeContent content capacity received present).1 = true ↔
      ¬Unnamed content ∧ (present = true → computeChecksum content = received) := by
  rw [← tokenizeFields_type content capacity, decodeContent]
  cases present <;> simp

/-- A parser that waits for a `$` agrees with the decoder on a line exactly if the line is
comparable. -/
theorem agrees_with_decoder_iff (cap : ParserCapacity) (p : Parser) (hp : p.state = .waitDollar) (body : Bytes)
    (hbody : Unbroken body) (hfits : (lineContent body).length ≤ cap.maxSentenceLen) (capacity : ℕ) :
    p.Agrees cap body capacity ↔ p.Comparable body := by
  have hidle : p.state.inChecksum = false := by
    rw [hp]
    rfl
  rw [Agrees, Comparable]
  rw [lineContent] at hfits
  cases hcut : cut checksumChar body with
  | none =>
    rw [hcut] at hfits
    have hclean : ∀ c ∈ body, reserved c = false := by
      intro c hc
      have hne : c ≠ checksumChar := fun h => cut_eq_none_iff.mp hcut (h ▸ hc)
      simp [reserved, hbody c hc, hne]
    obtain ⟨q, hread, hreceived, hbehind⟩ := delivered_behind hidle hclean hfits [carriageReturn, lineFeed]
    rw [decodeSentence_plain hbody hcut, hbehind, delivered_unchecked hread, hreceived]
    dsimp only
    rw [decodeContent_ok, List.forall_mem_singleton]
    constructor
    · rintro ⟨hok, hsame⟩
      exact ⟨(hok.mp (List.cons_ne_nil _ _)).1, hsame.checksum⟩
    · rintro ⟨hnamed, hzero⟩
      rw [hzero]
      exact ⟨iff_of_true (List.cons_ne_nil _ _) ⟨hnamed, fun h => absurd h Bool.false_ne_true⟩, same_content body _ capacity 0 false⟩
  | some pair =>
    obtain ⟨content, digits⟩ := pair
    rw [hcut] at hfits
    have hdecode := @decodeSentence_checked body content digits capacity hbody hcut
    obtain ⟨rfl, hstar⟩ := cut_eq_some_iff.mp hcut
    have hclean : ∀ c ∈ content, reserved c = false := by
      intro c hc
      have hne : c ≠ checksumChar := fun h => hstar (h ▸ hc)
      simp [reserved, hbody c (List.mem_append_left _ hc), hne]
    have hdigits : Unbroken digits := fun c hc =>
      hbody c (List.mem_append_right _ (List.mem_cons_of_mem _ hc))
    obtain ⟨q, hread, -, hbehind⟩ := delivered_behind hidle hclean hfits
      (checksumChar :: (digits ++ [carriageReturn, lineFeed]))
    rw [hdecode, List.append_assoc, List.cons_append, hbehind, delivered_checked hread hdigits]
    dsimp only
    by_cases hchecked : fieldChecksum digits = some (computeChecksum content)
    · rw [if_pos hchecked, hchecked, Option.map_some, Option.getD_some]
      rw [decodeContent_ok, List.forall_mem_singleton]
      constructor
      · rintro ⟨hok, -⟩ hunnamed
        exact absurd hunnamed (hok.mp (List.cons_ne_nil _ _)).1
      · intro h
        exact ⟨iff_of_true (List.cons_ne_nil _ _) ⟨fun hunnamed => h hunnamed rfl, fun _ => rfl⟩,
          same_content content _ capacity _ true⟩
    · rw [if_neg hchecked]
      refine iff_of_true ⟨iff_of_false (not_not.mpr rfl) ?_, fun _ h => absurd h List.not_mem_nil⟩ fun _ => hchecked
      cases hdigits : fieldChecksum digits with
      | none => exact Bool.false_ne_true
      | some received =>
        rw [Option.map_some, Option.getD_some, decodeContent_ok]
        rintro ⟨-, hsame⟩
        exact hchecked (hdigits.trans (congrArg some (hsame rfl).symm))

/-- `$GP,A*7A` -/
theorem agrees_position :
    ({} : Parser).Agrees defaultCapacity [0x47, 0x50, 0x2c, 0x41, 0x2a, 0x37, 0x41] 32 := by
  refine (agrees_with_decoder_iff _ {} rfl _ (by unfold Unbroken; decide +kernel) (by decide) 32).mpr fun hunnamed => ?_
  exact absurd hunnamed (show ¬(_ ∨ _) by decide)

/-- Behind `$A*41` the line `$A` shows the checksum 41, and an empty line is delivered. -/
theorem stale_checksum_shown : ¬(after defaultCapacity exampleSentence.bytes).Agrees defaultCapacity
    [0x41] 32 ∧ ¬({} : Parser).Agrees defaultCapacity [] 32 := by
  refine ⟨fun h => ?_, fun h => ?_⟩
  · exact absurd (h.2 ⟨[], [0x41], [], 0x41, false⟩ (by decide)).checksum (by decide)
  · exact absurd (h.1.mp (by decide)) (by decide)

end Parser
end Castle.Nmea
