import Castle.Nmea.Parser

/-!
# A `$` starts a sentence

A parser that waits for the digits of a checksum takes a `$` for one of them.
-/

namespace Castle.Nmea

/-- A text ends inside the digits of a checksum: behind `$`, a content, `*` and at most one
digit, where this `$` stands behind a text that does not. -/
def EndsInChecksum (maxLength : ℕ) (text : Bytes) : Prop :=
  ∃ front content digits, ∃ _ : text = front ++ startChar :: (content ++ checksumChar :: digits),
    (∀ c ∈ content, reserved c = false) ∧ content.length ≤ maxLength ∧ digits.length ≤ 1 ∧
      ¬EndsInChecksum maxLength front
termination_by text.length
decreasing_by
  subst text
  simp only [List.length_append, List.length_cons]
  omega

theorem not_reserved {c : UInt8} (h : reserved c = false) :
    c ≠ startChar ∧ c ≠ checksumChar ∧ c ≠ carriageReturn ∧ c ≠ lineFeed := by
  simpa [reserved, not_or, and_assoc] using h

theorem parseHexByte_start (c : UInt8) :
    parseHexByte startChar c = none ∧ parseHexByte c startChar = none := by
  have hstart : isHexDigit startChar = false := by decide
  simp [parseHexByte, hstart]

theorem Sentence.start_not_mem {maxLength : ℕ} (s : Sentence maxLength) :
    startChar ∉ s.content ++ [checksumChar, s.hi, s.lo, carriageReturn, lineFeed] := by
  intro hmem
  rw [List.mem_append] at hmem
  rcases hmem with hmem | hmem
  · exact (not_reserved (s.clean _ hmem)).1 rfl
  · have hchecksum := s.checksum
    simp only [List.mem_cons, List.not_mem_nil, or_false] at hmem
    rcases hmem with h | h | h | h | h
    · cases h
    · rw [← h, (parseHexByte_start _).1] at hchecksum
      cases hchecksum
    · rw [← h, (parseHexByte_start _).2] at hchecksum
      cases hchecksum
    · cases h
    · cases h

/-- The parser waits for a digit of a checksum. -/
def ParseState.inChecksum : ParseState → Bool
  | .waitChecksumHi | .waitChecksumLo => true
  | _ => false

namespace Parser

variable (cap : ParserCapacity)

def after (text : Bytes) : Parser := (({} : Parser).feed cap text).1

/-- A parser that has read a `$` and a content. -/
structure Reads (p : Parser) (content : Bytes) : Prop where
  state : p.state = .accumulate
  buffer : p.buffer = content
  checksum : p.checksum = computeChecksum content

variable {cap} {p : Parser} {content : Bytes}

theorem reads_startSentence (p : Parser) : p.startSentence.Reads [] := ⟨rfl, rfl, rfl⟩

def nextState (cap : ParserCapacity) (p : Parser) (byte : UInt8) : ParseState :=
  match p.state with
  | .waitDollar => if byte = startChar then .accumulate else .waitDollar
  | .accumulate =>
    if byte = startChar then .accumulate
    else if byte = checksumChar then .waitChecksumHi
    else if byte = carriageReturn then .waitLf
    else if byte = lineFeed ∨ p.buffer.length ≥ cap.maxSentenceLen then .waitDollar
    else .accumulate
  | .waitChecksumHi => .waitChecksumLo
  | .waitChecksumLo => if (parseHexByte p.checksumHi byte).isSome then .waitLf else .waitDollar
  | .waitLf =>
    if byte = carriageReturn then .waitLf
    else if byte = lineFeed then .waitDollar
    else if byte = startChar then .accumulate
    else .waitLf

theorem onSentenceComplete_state (p : Parser) : (p.onSentenceComplete cap).1.state = .waitDollar := by
  unfold onSentenceComplete
  dsimp only
  split <;> rfl

theorem processByte_state (p : Parser) (byte : UInt8) :
    (p.processByte cap byte).1.state = p.nextState cap byte := by
  unfold processByte nextState
  cases hs : p.state with
  | waitDollar =>
    dsimp only
    split
    · rfl
    · exact hs
  | accumulate =>
    dsimp only
    split
    · rfl
    · split
      · rfl
      · split
        · rfl
        · split
          next hlf => rw [onSentenceComplete_state, if_pos (Or.inl hlf)]
          next hlf =>
            split
            next hfull => rw [if_pos (Or.inr hfull)]; rfl
            next hfull => rw [if_neg (not_or.mpr ⟨hlf, hfull⟩)]
  | waitChecksumHi => rfl
  | waitChecksumLo =>
    dsimp only
    split
    next hnone => rw [hnone]; rfl
    next parsed hsome => rw [hsome]; rfl
  | waitLf =>
    dsimp only
    split
    · exact hs
    · split
      · exact onSentenceComplete_state p
      · split
        · rfl
        · exact hs

theorem accumulate_of_next {c : UInt8} (h : (p.processByte cap c).1.state = .accumulate) :
    (c = startChar ∧ p.state.inChecksum = false) ∨
      (p.state = .accumulate ∧ reserved c = false ∧ p.buffer.length < cap.maxSentenceLen) := by
  rw [processByte_state, nextState] at h
  cases hs : p.state with
  | waitDollar =>
    rw [hs] at h
    simp only [ite_eq_left_iff, reduceCtorEq, imp_false, not_not] at h
    exact .inl ⟨h, rfl⟩
  | accumulate =>
    rw [hs] at h
    simp only at h
    split at h
    next hc => exact .inl ⟨hc, rfl⟩
    next hdollar =>
      split at h
      · cases h
      next hstar =>
        split at h
        · cases h
        next hcr =>
          split at h
          · cases h
          next hlf =>
            rw [not_or, Nat.not_le] at hlf
            refine .inr ⟨rfl, ?_, hlf.2⟩
            simp [reserved, hdollar, hstar, hcr, hlf.1]
  | waitChecksumHi =>
    rw [hs] at h
    cases h
  | waitChecksumLo =>
    rw [hs] at h
    simp only at h
    split at h <;> cases h
  | waitLf =>
    rw [hs] at h
    simp only at h
    split at h
    · cases h
    · split at h
      · cases h
      · split at h
        next hc => exact .inl ⟨hc, rfl⟩
        · cases h

theorem waitChecksumHi_of_next {c : UInt8} (h : (p.processByte cap c).1.state = .waitChecksumHi) :
    p.state = .accumulate ∧ c = checksumChar := by
  rw [processByte_state, nextState] at h
  cases hs : p.state <;> rw [hs] at h <;> simp only at h
  all_goals first | split_ifs at h | cases h
  exact ⟨rfl, by assumption⟩

theorem waitChecksumLo_of_next {c : UInt8} (h : (p.processByte cap c).1.state = .waitChecksumLo) :
    p.state = .waitChecksumHi := by
  rw [processByte_state, nextState] at h
  cases hs : p.state with
  | waitChecksumHi => rfl
  | waitDollar | accumulate | waitChecksumLo | waitLf =>
    rw [hs] at h
    simp only at h
    split_ifs at h

theorem processByte_start (h : p.state.inChecksum = false) :
    (p.processByte cap startChar).1.Reads [] := by
  unfold processByte
  cases hs : p.state with
  | waitDollar | accumulate | waitLf => exact reads_startSentence _
  | waitChecksumHi | waitChecksumLo =>
    rw [hs] at h
    cases h

theorem processByte_content {c : UInt8} (h : p.Reads content) (hc : reserved c = false)
    (hroom : content.length < cap.maxSentenceLen) :
    (p.processByte cap c).1.Reads (content ++ [c]) ∧ (p.processByte cap c).2 = [] ∧
      (p.processByte cap c).1.receivedChecksum = p.receivedChecksum := by
  obtain ⟨hdollar, hstar, hcr, hlf⟩ := not_reserved hc
  have hlen : ¬p.buffer.length ≥ cap.maxSentenceLen := by
    rw [h.buffer]
    omega
  rw [processByte, h.state]
  simp only [hdollar, hstar, hcr, hlf, hlen, if_false, and_true]
  refine ⟨rfl, ?_, ?_⟩
  · rw [h.buffer]
  · simp [h.checksum, computeChecksum, List.foldl_append, List.foldl_cons, List.foldl_nil]

theorem feed_content (h : p.Reads content) {more : Bytes} (hmore : ∀ c ∈ more, reserved c = false)
    (hroom : (content ++ more).length ≤ cap.maxSentenceLen) :
    (p.feed cap more).1.Reads (content ++ more) ∧ (p.feed cap more).2 = [] ∧
      (p.feed cap more).1.receivedChecksum = p.receivedChecksum := by
  induction more generalizing p content with
  | nil =>
    rw [List.append_nil]
    exact ⟨h, rfl, rfl⟩
  | cons c more ih =>
    rw [List.length_append, List.length_cons] at hroom
    obtain ⟨hread, hquiet, hreceived⟩ := @processByte_content cap _ _ _ h (hmore c List.mem_cons_self) (by omega)
    have hrest := ih hread (fun d hd => hmore d (List.mem_cons_of_mem _ hd)) (by
      rw [List.length_append, List.length_append, List.length_singleton]
      omega)
    rw [List.append_assoc, List.singleton_append] at hrest
    refine ⟨hrest.1, ?_, hrest.2.2.trans hreceived⟩
    show (p.processByte cap c).2 ++ ((p.processByte cap c).1.feed cap more).2 = []
    rw [hquiet, hrest.2.1]
    rfl

theorem feed_append (p : Parser) (text more : Bytes) : p.feed cap (text ++ more) =
    (((p.feed cap text).1.feed cap more).1,
      (p.feed cap text).2 ++ ((p.feed cap text).1.feed cap more).2) :=
  Transducer.feed_append _ p text more

theorem after_append (text more : Bytes) :
    after cap (text ++ more) = ((after cap text).feed cap more).1 := by
  rw [after, feed_append]
  rfl

theorem after_snoc (text : Bytes) (c : UInt8) :
    after cap (text ++ [c]) = ((after cap text).processByte cap c).1 := after_append text [c]

theorem front_of_accumulate (text : Bytes) (h : (after cap text).state = .accumulate) :
    ∃ front content, text = front ++ startChar :: content ∧ (after cap front).state.inChecksum = false ∧
      (∀ c ∈ content, reserved c = false) ∧ content.length ≤ cap.maxSentenceLen ∧
        (after cap text).Reads content := by
  induction text using List.reverseRecOn with
  | nil => cases h
  | append_singleton text c ih =>
    rw [after_snoc] at h ⊢
    rcases accumulate_of_next h with ⟨rfl, hstate⟩ | ⟨hstate, hc, hroom⟩
    · exact ⟨text, [], rfl, hstate, fun _ hd => absurd hd List.not_mem_nil, Nat.zero_le _,
        processByte_start hstate⟩
    · obtain ⟨front, content, htext, hfront, hclean, hlen, hread⟩ := ih hstate
      rw [hread.buffer] at hroom
      refine ⟨front, content ++ [c], ?_, hfront, ?_, ?_, (processByte_content hread hc hroom).1⟩
      · rw [htext, List.append_assoc, List.cons_append]
      · rw [List.forall_mem_append]
        exact ⟨hclean, List.forall_mem_singleton.mpr hc⟩
      · rw [List.length_append, List.length_singleton]
        omega

theorem front_of_inChecksum (text : Bytes) (h : (after cap text).state.inChecksum = true) :
    ∃ front content digits, text = front ++ startChar :: (content ++ checksumChar :: digits) ∧
      (after cap front).state.inChecksum = false ∧ (∀ c ∈ content, reserved c = false) ∧
        content.length ≤ cap.maxSentenceLen ∧ digits.length ≤ 1 := by
  have hhi : ∀ text, (after cap text).state = .waitChecksumHi → ∃ front content, text =
      front ++ startChar :: (content ++ [checksumChar]) ∧ (after cap front).state.inChecksum =
      false ∧ (∀ c ∈ content, reserved c = false) ∧ content.length ≤ cap.maxSentenceLen := by
    intro text
    induction text using List.reverseRecOn with
    | nil => exact nofun
    | append_singleton text c =>
      intro hs
      rw [after_snoc] at hs
      obtain ⟨hstate, rfl⟩ := waitChecksumHi_of_next hs
      obtain ⟨front, content, rfl, hfront, hclean, hlen, -⟩ := front_of_accumulate text hstate
      exact ⟨front, content, by rw [List.append_assoc, List.cons_append], hfront, hclean, hlen⟩
  induction text using List.reverseRecOn with
  | nil => cases h
  | append_singleton text c =>
    cases hs : (after cap (text ++ [c])).state with
    | waitDollar | accumulate | waitLf =>
      rw [hs] at h
      cases h
    | waitChecksumHi =>
      obtain ⟨front, content, htext, hfront, hclean, hlen⟩ := hhi _ hs
      exact ⟨front, content, [], htext, hfront, hclean, hlen, Nat.zero_le _⟩
    | waitChecksumLo =>
      rw [after_snoc] at hs
      obtain ⟨front, content, rfl, hfront, hclean, hlen⟩ := hhi text (waitChecksumLo_of_next hs)
      refine ⟨front, content, [c], ?_, hfront, hclean, hlen, Nat.le_refl _⟩
      rw [List.append_assoc, List.cons_append, List.append_assoc, List.singleton_append]

theorem inChecksum_of_front {front content digits : Bytes}
    (hfront : (after cap front).state.inChecksum = false) (hclean : ∀ c ∈ content, reserved c = false)
    (hlen : content.length ≤ cap.maxSentenceLen) (hdigits : digits.length ≤ 1) :
    (after cap (front ++ startChar :: (content ++ checksumChar :: digits))).state.inChecksum = true := by
  rw [List.append_cons, after_append, after_snoc, feed_append]
  have hread := (feed_content (@processByte_start cap _ hfront) hclean hlen).1
  rw [List.nil_append] at hread
  generalize (((after cap front).processByte cap startChar).1.feed cap content).1 = p at hread
  show ((p.processByte cap checksumChar).1.feed cap digits).1.state.inChecksum = true
  have hstar : (p.processByte cap checksumChar).1.state = .waitChecksumHi := by
    rw [processByte_state, nextState, hread.state]
    rfl
  match digits, hdigits with
  | [], _ =>
    show (p.processByte cap checksumChar).1.state.inChecksum = true
    rw [hstar]
    rfl
  | [c], _ =>
    show ((p.processByte cap checksumChar).1.processByte cap c).1.state.inChecksum = true
    rw [processByte_state, nextState, hstar]
    rfl

theorem inChecksum_iff (cap : ParserCapacity) (text : Bytes) :
    (after cap text).state.inChecksum = true ↔ EndsInChecksum cap.maxSentenceLen text := by
  induction hn : text.length using Nat.strongRecOn generalizing text with
  | ind n ih =>
    have hshort : ∀ {front content digits : Bytes},
        text = front ++ startChar :: (content ++ checksumChar :: digits) →
          ((after cap front).state.inChecksum = false ↔ ¬EndsInChecksum cap.maxSentenceLen front) := by
      intro front content digits htext
      rw [← ih front.length _ front rfl, Bool.not_eq_true]
      rw [← hn, htext, List.length_append, List.length_cons]
      omega
    rw [EndsInChecksum]
    simp only [exists_prop]
    constructor
    · intro h
      obtain ⟨front, content, digits, htext, hfront, hclean, hlen, hdigits⟩ := front_of_inChecksum text h
      exact ⟨front, content, digits, htext, hclean, hlen, hdigits, (hshort htext).mp hfront⟩
    · rintro ⟨front, content, digits, htext, hclean, hlen, hdigits, hfront⟩
      have hstate := (hshort htext).mpr hfront
      rw [htext]
      exact inChecksum_of_front hstate hclean hlen hdigits

variable {text : Bytes}

theorem delivered_append (p : Parser) (text more : Bytes) : p.delivered cap (text ++ more) =
    p.delivered cap text ++ (p.feed cap text).1.delivered cap more := by
  rw [delivered, feed_append, List.filterMap_append]
  rfl

theorem delivered_behind (h : p.state.inChecksum = false) (hclean : ∀ c ∈ content, reserved c = false)
    (hlen : content.length ≤ cap.maxSentenceLen) (rest : Bytes) : ∃ q : Parser, q.Reads content ∧
      q.receivedChecksum = p.receivedChecksum ∧
      p.delivered cap (startChar :: (content ++ rest)) = q.delivered cap rest := by
  have hstart : (p.processByte cap startChar).1.receivedChecksum = p.receivedChecksum ∧
      p.delivered cap [startChar] = [] := by
    unfold delivered feed
    rw [Transducer.feed, Transducer.feed, List.append_nil, processByte]
    cases hs : p.state with
    | waitDollar | accumulate | waitLf => exact ⟨rfl, rfl⟩
    | waitChecksumHi | waitChecksumLo =>
      rw [hs] at h
      cases h
  obtain ⟨hread, hquiet, hreceived⟩ := feed_content (@processByte_start cap _ h) hclean hlen
  refine ⟨_, hread, hreceived.trans hstart.1, ?_⟩
  rw [← List.singleton_append, delivered_append, hstart.2, List.nil_append]
  show (p.processByte cap startChar).1.delivered cap _ = _
  rw [delivered_append]
  show List.filterMap _ ((p.processByte cap startChar).1.feed cap content).2 ++ _ = _
  rw [hquiet]
  rfl

theorem delivered_end (s : Sentence cap.maxSentenceLen) (h : p.Reads s.content) :
    p.delivered cap [checksumChar, s.hi, s.lo, carriageReturn, lineFeed] = [s.view cap.maxFields] := by
  obtain ⟨state, buffer, checksum, checksumPresent, receivedChecksum, checksumHi, decoded, discarded⟩ := p
  obtain ⟨hstate, hbuffer, hchecksum⟩ := h
  dsimp only at hstate hbuffer hchecksum
  subst hstate hbuffer hchecksum
  have hstar : checksumChar ≠ startChar := by decide
  simp [delivered, feed, Transducer.feed, processByte, hstar, s.checksum, onSentenceComplete,
    show lineFeed ≠ carriageReturn by decide, Sentence.view]

theorem delivered_noise (h : p.state = .waitDollar) {noise : Bytes} (hnoise : startChar ∉ noise) :
    p.delivered cap noise = [] := by
  have hidle : p.feed cap noise = (p, []) := by
    apply Transducer.feed_idle
    intro c hc
    rw [processByte, h]
    refine if_neg ?_
    rintro rfl
    exact hnoise hc
  rw [delivered, hidle]
  rfl

theorem delivered_in_checksum (h : p.state.inChecksum = true) (s : Sentence cap.maxSentenceLen) :
    p.delivered cap s.bytes = [] := by
  have hnoise := s.start_not_mem
  rw [Sentence.bytes]
  generalize s.content ++ [checksumChar, s.hi, s.lo, carriageReturn, lineFeed] = rest at hnoise
  cases hs : p.state with
  | waitDollar | accumulate | waitLf =>
    rw [hs] at h
    cases h
  | waitChecksumHi =>
    cases rest with
    | nil => simp [delivered, feed, Transducer.feed, processByte, hs]
    | cons c rest =>
      rw [List.mem_cons, not_or] at hnoise
      rw [show startChar :: c :: rest = [startChar, c] ++ rest from rfl, delivered_append]
      have herror : p.feed cap [startChar, c] =
          (({ p with checksumHi := startChar, state := .waitChecksumLo } : Parser).emitError
            { code := .checksumMismatch }) := by
        simp only [feed, Transducer.feed, processByte, hs, (parseHexByte_start c).1]
        rfl
      rw [delivered, herror]
      exact delivered_noise rfl hnoise.2
  | waitChecksumLo =>
    rw [← List.singleton_append, delivered_append]
    have herror : p.feed cap [startChar] = p.emitError { code := .checksumMismatch } := by
      simp only [feed, Transducer.feed, processByte, hs, (parseHexByte_start p.checksumHi).2]
      rfl
    rw [delivered, herror]
    exact delivered_noise rfl hnoise

/-- Behind any bytes a valid sentence is delivered, and as the only one, exactly if these bytes
do not end inside the digits of a checksum. -/
theorem resynchronises_iff (cap : ParserCapacity) (noise : Bytes) (s : Sentence cap.maxSentenceLen)
    : ({} : Parser).delivered cap (noise ++ s.bytes) = ({} : Parser).delivered cap noise ++
    [s.view cap.maxFields] ↔ ¬EndsInChecksum cap.maxSentenceLen noise := by
  rw [delivered_append, List.append_right_inj, ← inChecksum_iff cap noise, Bool.not_eq_true]
  show (after cap noise).delivered cap s.bytes = _ ↔ _
  constructor
  · intro h
    by_contra hin
    rw [Bool.not_eq_false] at hin
    rw [delivered_in_checksum hin] at h
    cases h
  · intro h
    obtain ⟨q, hread, -, hbehind⟩ := delivered_behind h s.clean s.fits
      [checksumChar, s.hi, s.lo, carriageReturn, lineFeed]
    rw [Sentence.bytes, hbehind, delivered_end s hread]

/-- The default template arguments. -/
def defaultCapacity : ParserCapacity := ⟨256, 32, by decide, by decide⟩

/-- `$A*41` -/
def exampleSentence : Sentence 256 := ⟨[0x41], 0x34, 0x31, List.forall_mem_singleton.mpr rfl, by decide, by decide⟩

/-- Behind `$*` the `$` of a valid sentence is taken for the first digit of a checksum. -/
theorem sentence_lost : ({} : Parser).delivered defaultCapacity
    ([startChar, checksumChar] ++ exampleSentence.bytes) = [] := by decide

end Parser
end Castle.Nmea
