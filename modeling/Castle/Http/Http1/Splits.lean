import Castle.Http.Http1.Response

/-!
# A response in any pieces

Bytes that are fed in parts leave the parser that they leave when they are fed at once.
-/

namespace Castle.Http.Http1.Parser

variable {cap : ParserCapacity} {p q : Parser}

/-- The loop of `feed_bytes` over all bytes. -/
def run (cap : ParserCapacity) (p : Parser) (bytes : Bytes) : Status × ℕ × Parser :=
  feedLoop cap bytes.length p bytes 0

theorem feedLoop_offset (fuel offset : ℕ) (bytes : Bytes) :
    feedLoop cap fuel p bytes offset =
      ((feedLoop cap fuel p bytes 0).1, offset + (feedLoop cap fuel p bytes 0).2.1,
        (feedLoop cap fuel p bytes 0).2.2) := by
  induction fuel generalizing p bytes offset with
  | zero => rfl
  | succ fuel ih =>
    cases bytes with
    | nil => rfl
    | cons c rest =>
      rw [feedLoop, feedLoop]
      split
      · rfl
      · generalize p.round cap c rest = result
        obtain ⟨status, taken, p'⟩ := result
        cases status
        case ok =>
          simp only
          rw [ih, ih (p := p') (0 + taken), Nat.zero_add, Nat.add_assoc]
        all_goals
          simp only
          rw [Nat.zero_add]

def bodyState : State → Bool
  | .fixedBody | .closeBody | .chunkData => true
  | _ => false

/-- The states in which a feed goes on. -/
def Open (p : Parser) : Prop := p.state ≠ .complete ∧ p.state ≠ .failed

theorem fail_ne_ok (p : Parser) {error : ErrorCode} (h : error ≠ .ok) : (p.fail error).1 ≠ .ok :=
  fun he => h (toStatus_eq_ok_iff.mp he)

theorem round_byte (hopen : Open p) (h : bodyState p.state = false) (c : UInt8) (rest rest' : Bytes) :
    p.round cap c rest = p.round cap c rest' ∧ (p.round cap c rest).2.1 = 1 := by
  obtain ⟨hcomplete, hfailed⟩ := hopen
  rw [round, round]
  cases hs : p.state <;> rw [hs] at h hcomplete hfailed
  case complete => exact absurd rfl hcomplete
  case failed => exact absurd rfl hfailed
  case fixedBody => cases h
  case closeBody => cases h
  case chunkData => cases h
  all_goals exact ⟨rfl, rfl⟩

theorem round_body (h : bodyState p.state = true) (c : UInt8) (rest : Bytes) :
    p.round cap c rest = p.bodyPiece cap (c :: rest) := by
  rw [round]
  cases hs : p.state <;> rw [hs] at h
  case fixedBody => rfl
  case closeBody => rfl
  case chunkData => rfl
  all_goals cases h

theorem bodyTake_le (p : Parser) (size : ℕ) : p.bodyTake size ≤ size := by
  rw [bodyTake]
  split
  · exact Nat.min_le_left _ _
  · exact Nat.min_le_left _ _
  · exact Nat.le_refl _

/-- A status other than `ok` comes with the failed state, and no other. -/
def Settled (outcome : Status × Parser) : Prop := outcome.1 = .ok ↔ outcome.2.state ≠ .failed

theorem fail_settled (p : Parser) {error : ErrorCode} (h : error ≠ .ok) : Settled (p.fail error) :=
  ⟨fun he => absurd he (fail_ne_ok p h), fun he => absurd rfl he⟩

theorem ok_settled {p : Parser} (h : p.state ≠ .failed) : Settled (.ok, p) := ⟨fun _ => h, fun _ => rfl⟩

theorem parseStatus_settled (p : Parser) (line : Bytes) : Settled (p.parseStatus line) := by
  rw [parseStatus]
  simp only
  split
  · split
    · exact fail_settled _ (by decide)
    · split
      · exact fail_settled _ (by decide)
      · exact ok_settled (fun h => State.noConfusion h)
  · exact fail_settled _ (by decide)

theorem headersDone_settled (cap : ParserCapacity) (p : Parser) : Settled (p.headersDone cap) := by
  rw [headersDone]
  simp only
  repeat' split
  all_goals first
    | exact fail_settled _ (by decide)
    | exact ok_settled (fun h => State.noConfusion h)

theorem addFailure_ne_ok (result : Status) {invalid : ErrorCode} (h : invalid ≠ .ok) :
    addFailure result invalid ≠ .ok := by
  rw [addFailure]
  split
  · decide
  · exact h

theorem headerLine_settled (cap : ParserCapacity) (p : Parser) (h : p.state ≠ .failed) (line : Bytes) :
    Settled (p.headerLine cap line) := by
  rw [headerLine]
  split
  · exact headersDone_settled cap p
  · split
    · exact fail_settled _ (by decide)
    · split
      · rw [noteField]
        repeat' split
        all_goals first
          | exact fail_settled _ (by decide)
          | exact ok_settled h
      · exact fail_settled _ (addFailure_ne_ok _ (by decide))

theorem chunkSizeLine_settled (p : Parser) (line : Bytes) : Settled (p.chunkSizeLine line) := by
  rw [chunkSizeLine]
  split
  · exact fail_settled _ (by decide)
  · exact ok_settled (fun h => State.noConfusion h)
  · exact ok_settled (fun h => State.noConfusion h)

theorem trailerLine_settled (cap : ParserCapacity) (p : Parser) (h : p.state ≠ .failed) (line : Bytes) :
    Settled (p.trailerLine cap line) := by
  rw [trailerLine]
  split
  · exact ok_settled (fun h => State.noConfusion h)
  · split
    · exact fail_settled _ (by decide)
    · split
      · exact fail_settled _ (by decide)
      · split
        · exact ok_settled h
        · exact fail_settled _ (addFailure_ne_ok _ (by decide))

theorem consumeLine_settled (cap : ParserCapacity) (p : Parser) (h : p.state ≠ .failed) (line : Bytes) :
    Settled (p.consumeLine cap line) := by
  rw [consumeLine]
  split
  · exact parseStatus_settled p line
  · exact headerLine_settled cap p h line
  · exact chunkSizeLine_settled p line
  · exact trailerLine_settled cap p h line
  · exact fail_settled _ (by decide)

theorem lineByte_settled (cap : ParserCapacity) (p : Parser) (h : p.state ≠ .failed) (c : UInt8) :
    Settled (p.lineByte cap c) := by
  rw [lineByte]
  split
  · exact fail_settled _ (by decide)
  · simp only
    split
    · split
      · exact fail_settled _ (by decide)
      · exact consumeLine_settled cap { p with line := [] } h _
    · exact ok_settled h

/-- What `append_body` does to the parser: the callback is called, and the body is retained as
far as there is room. -/
theorem appendBody_eq (cap : ParserCapacity) (p : Parser) (data : Bytes) :
    p.appendBody cap data =
      if data.length ≤ cap.maxBodySize - p.body.length ∨ cap.bodyCallback = true then
        (.ok, { p with
          delivered := if cap.bodyCallback then p.delivered ++ data else p.delivered
          body := p.body ++ data.take (cap.maxBodySize - p.body.length)
          streamed := p.streamed || !decide (data.length ≤ cap.maxBodySize - p.body.length)
          bodyReceived := p.bodyReceived + data.length
          chunkRemaining :=
            if p.state = .chunkData then p.chunkRemaining - data.length else p.chunkRemaining })
      else { p with body := p.body ++ data.take (cap.maxBodySize - p.body.length) }.fail .bodyLimit := by
  have htake : ∀ room : ℕ, data.take (min room data.length) = data.take room := by
    intro room
    rw [← List.take_take, List.take_length]
  have hkeep : ∀ room : ℕ, decide (min room data.length ≠ data.length) = !decide (data.length ≤ room) := by
    intro room
    rw [← decide_not, decide_eq_decide]
    omega
  rw [appendBody]
  cases cap.bodyCallback with
  | true =>
    simp only [if_true, Bool.not_true, Bool.and_false, Bool.false_eq_true, if_false, or_true, htake, hkeep]
  | false =>
    simp only [Bool.false_eq_true, if_false, Bool.not_false, Bool.and_true, or_false, htake, hkeep]
    by_cases hroom : data.length ≤ cap.maxBodySize - p.body.length
    · simp [hroom]
    · simp [hroom]

theorem appendBody_settled (cap : ParserCapacity) (p : Parser) (h : p.state ≠ .failed) (data : Bytes) :
    Settled (p.appendBody cap data) := by
  rw [appendBody_eq]
  split
  · exact ok_settled h
  · exact fail_settled _ (by decide)

theorem behindBody_open (hopen : p.state ≠ .failed) : p.behindBody.state ≠ .failed := by
  rw [behindBody]
  split
  · exact fun h => State.noConfusion h
  · split
    · exact fun h => State.noConfusion h
    · exact hopen

theorem round_cases (cap : ParserCapacity) (hopen : Open p) (c : UInt8) (rest : Bytes) :
    ((p.round cap c rest).1 = .ok ∧ (p.round cap c rest).2.2.state ≠ .failed ∧
      1 ≤ (p.round cap c rest).2.1 ∧ (p.round cap c rest).2.1 ≤ rest.length + 1) ∨
    ((p.round cap c rest).1 ≠ .ok ∧ (p.round cap c rest).2.2.state = .failed) := by
  have hsettled : ∀ outcome : Status × Parser, Settled outcome →
      (outcome.1 = .ok ∧ outcome.2.state ≠ .failed ∧ 1 ≤ 1 ∧ 1 ≤ rest.length + 1) ∨
        (outcome.1 ≠ .ok ∧ outcome.2.state = .failed) := by
    intro outcome h
    by_cases hok : outcome.1 = .ok
    · exact Or.inl ⟨hok, h.mp hok, Nat.le_refl 1, by omega⟩
    · exact Or.inr ⟨hok, not_not.mp (mt h.mpr hok)⟩
  cases hbody : bodyState p.state with
  | true =>
    rw [round_body hbody, bodyPiece, List.length_cons]
    split
    · exact Or.inr ⟨fail_ne_ok p (show ErrorCode.malformedMessage ≠ .ok by decide), rfl⟩
    next htake =>
      have happend := appendBody_settled cap p hopen.2 ((c :: rest).take (p.bodyTake (rest.length + 1)))
      split
      next p' hp =>
        rw [hp] at happend
        have hle := bodyTake_le p (rest.length + 1)
        exact Or.inl ⟨rfl, behindBody_open (happend.mp rfl), Nat.one_le_iff_ne_zero.mpr htake, hle⟩
      next failure hfailure =>
        have hne : (p.appendBody cap ((c :: rest).take (p.bodyTake (rest.length + 1)))).1 ≠ .ok := by
          intro he
          exact hfailure _ (Prod.ext he rfl)
        exact Or.inr ⟨hne, not_not.mp (mt happend.mpr hne)⟩
  | false =>
    rw [round]
    cases hs : p.state <;> rw [hs] at hbody
    case complete => exact absurd hs hopen.1
    case failed => exact absurd hs hopen.2
    case fixedBody => cases hbody
    case closeBody => cases hbody
    case chunkData => cases hbody
    case chunkDataCr =>
      apply hsettled
      split
      · exact fail_settled _ (by decide)
      · exact ok_settled (fun h => State.noConfusion h)
    case chunkDataLf =>
      apply hsettled
      split
      · exact fail_settled _ (by decide)
      · exact ok_settled (fun h => State.noConfusion h)
    all_goals exact hsettled _ (lineByte_settled cap p hopen.2 c)

theorem run_nil (cap : ParserCapacity) (p : Parser) : run cap p [] = (.ok, 0, p) := rfl

theorem run_complete (h : p.state = .complete) (bytes : Bytes) : run cap p bytes = (.ok, 0, p) := by
  cases bytes with
  | nil => rfl
  | cons c rest => rw [run, List.length_cons, feedLoop, if_pos h]

/-- The run behind a piece of `taken` bytes. -/
def behind (taken : ℕ) (result : Status × ℕ × Parser) : Status × ℕ × Parser :=
  (result.1, taken + result.2.1, result.2.2)

theorem behind_behind (a b : ℕ) (result : Status × ℕ × Parser) :
    behind a (behind b result) = behind (a + b) result := by
  rw [behind, behind, behind, Nat.add_assoc]

theorem feedLoop_run {fuel : ℕ} {bytes : Bytes} (hp : p.state ≠ .failed) (hf : bytes.length ≤ fuel) :
    feedLoop cap fuel p bytes 0 = run cap p bytes := by
  induction hn : bytes.length using Nat.strong_induction_on generalizing p bytes fuel with
  | _ n ih =>
    cases bytes with
    | nil => cases fuel <;> rfl
    | cons c rest =>
      obtain ⟨k, rfl⟩ : ∃ k, fuel = k + 1 := ⟨fuel - 1, by rw [List.length_cons] at hf; omega⟩
      rw [List.length_cons] at hf hn
      rw [run, List.length_cons, feedLoop, feedLoop]
      split
      · rfl
      next hcomplete =>
        have hcases := round_cases cap ⟨hcomplete, hp⟩ c rest
        generalize p.round cap c rest = result at hcases
        obtain ⟨status, taken, p'⟩ := result
        simp only at hcases
        rcases hcases with ⟨hok, hopen, hone, hle⟩ | ⟨hne, _⟩
        · subst hok
          have hlen : ((c :: rest).drop taken).length < n := by
            rw [List.length_drop, List.length_cons]
            omega
          simp only
          rw [feedLoop_offset k, feedLoop_offset rest.length, ih _ hlen hopen (by omega) rfl,
            ih _ hlen hopen (by omega) rfl]
        · cases status
          case ok => exact absurd rfl hne
          all_goals rfl

theorem run_cons (hopen : Open p) (c : UInt8) (rest : Bytes) :
    run cap p (c :: rest) = if (p.round cap c rest).1 = .ok then behind (p.round cap c rest).2.1
    (run cap (p.round cap c rest).2.2 ((c :: rest).drop (p.round cap c rest).2.1))
    else p.round cap c rest := by
  have hcases := round_cases cap hopen c rest
  rw [run, List.length_cons, feedLoop, if_neg hopen.1]
  generalize p.round cap c rest = result at hcases
  obtain ⟨status, taken, p'⟩ := result
  simp only at hcases
  rcases hcases with ⟨hok, hnext, hone, hle⟩ | ⟨hne, _⟩
  · subst hok
    have hlen : ((c :: rest).drop taken).length ≤ rest.length := by
      rw [List.length_drop, List.length_cons]
      omega
    simp only [if_true]
    rw [feedLoop_offset, feedLoop_run hnext hlen, Nat.zero_add]
    rfl
  · rw [if_neg hne]
    cases status
    case ok => exact absurd rfl hne
    all_goals
      simp only
      rw [Nat.zero_add]

theorem run_ok (hopen : Open p) {c : UInt8} {rest : Bytes} {taken : ℕ} {q : Parser}
    (h : p.round cap c rest = (.ok, taken, q)) :
    run cap p (c :: rest) = behind taken (run cap q ((c :: rest).drop taken)) := by
  rw [run_cons hopen, h, if_pos rfl]

theorem run_failed (hopen : Open p) {c : UInt8} {rest : Bytes} (h : (p.round cap c rest).1 ≠ .ok) :
    run cap p (c :: rest) = p.round cap c rest := by
  rw [run_cons hopen, if_neg h]

theorem run_cases (cap : ParserCapacity) (hopen : Open p) (bytes : Bytes) :
    ((run cap p bytes).1 = .ok ∧ Open (run cap p bytes).2.2 ∧ (run cap p bytes).2.1 = bytes.length) ∨
    ((run cap p bytes).1 = .ok ∧ (run cap p bytes).2.2.state = .complete ∧ (run cap p bytes).2.1 ≤ bytes.length) ∨
    ((run cap p bytes).1 ≠ .ok ∧ (run cap p bytes).2.2.state = .failed) := by
  induction hn : bytes.length using Nat.strong_induction_on generalizing p bytes with
  | _ n ih =>
    cases bytes with
    | nil => exact Or.inl ⟨rfl, hopen, hn⟩
    | cons c rest =>
      rw [run_cons hopen]
      have hcases := round_cases cap hopen c rest
      generalize p.round cap c rest = result at hcases
      obtain ⟨status, taken, p'⟩ := result
      simp only at hcases
      rcases hcases with ⟨hok, hnext, hone, hle⟩ | ⟨hne, hfailed⟩
      · rw [List.length_cons] at hn
        have hlen : ((c :: rest).drop taken).length = n - taken := by
          rw [List.length_drop, List.length_cons, hn]
        simp only [hok, if_true, behind]
        by_cases hcomplete : p'.state = .complete
        · rw [run_complete hcomplete]
          exact Or.inr (Or.inl ⟨rfl, hcomplete, (by rw [Nat.add_zero]; omega)⟩)
        · rcases ih (n - taken) (by omega) ⟨hcomplete, hnext⟩ _ hlen with h | h | h
          · exact Or.inl ⟨h.1, h.2.1, by omega⟩
          · exact Or.inr (Or.inl ⟨h.1, h.2.1, by omega⟩)
          · exact Or.inr (Or.inr h)
      · simp only [if_neg hne]
        exact Or.inr (Or.inr ⟨hne, hfailed⟩)

/-- Failed parsers that differ in the two counters of a body that was refused at most. -/
def Alike (p q : Parser) : Prop :=
  p.state = .failed ∧ q = { p with bodyReceived := q.bodyReceived, chunkRemaining := q.chunkRemaining }

/-- Outcomes that are equal, or failures with parsers that are alike. -/
def SameOutcome (a b : Status × ℕ × Parser) : Prop := a = b ∨ (a.1 ≠ .ok ∧ b.1 = a.1 ∧ Alike a.2.2 b.2.2)

theorem SameOutcome.behind {a b : Status × ℕ × Parser} (h : SameOutcome a b) (taken : ℕ) :
    SameOutcome (behind taken a) (behind taken b) := by
  rcases h with h | h
  · exact Or.inl (by rw [h])
  · exact Or.inr h

theorem appendBody_append {x y : Bytes} {p' : Parser} (h : p.appendBody cap x = (.ok, p')) :
    p.appendBody cap (x ++ y) = p'.appendBody cap y ∨
      ((p.appendBody cap (x ++ y)).1 ≠ .ok ∧ (p'.appendBody cap y).1 = (p.appendBody cap (x ++ y)).1 ∧
        Alike (p.appendBody cap (x ++ y)).2 (p'.appendBody cap y).2) := by
  rw [appendBody_eq] at h
  rw [appendBody_eq, appendBody_eq]
  split at h
  next hx =>
    have hp' := (Prod.mk.inj h).2
    subst hp'
    simp only [List.length_append, List.length_take]
    have hroom : ∀ size : ℕ, size ≤ cap.maxBodySize - (p.body.length + min (cap.maxBodySize - p.body.length) x.length) ∨
        cap.bodyCallback = true ↔ x.length + size ≤ cap.maxBodySize - p.body.length ∨ cap.bodyCallback = true := by
      intro size
      cases hcb : cap.bodyCallback with
      | true => simp
      | false =>
        rw [hcb] at hx
        have hle := hx.resolve_right Bool.false_ne_true
        simp only [Bool.false_eq_true, or_false]
        omega
    have htake : (x ++ y).take (cap.maxBodySize - p.body.length) =
        x.take (cap.maxBodySize - p.body.length) ++
          y.take (cap.maxBodySize - (p.body.length + min (cap.maxBodySize - p.body.length) x.length)) := by
      rw [List.take_append]
      congr 2
      omega
    simp only [hroom, htake]
    split
    next hfits =>
      apply Or.inl
      have hstreamed : (p.streamed || !decide (x.length + y.length ≤ cap.maxBodySize - p.body.length)) =
          (p.streamed || !decide (x.length ≤ cap.maxBodySize - p.body.length) ||
            !decide (y.length ≤ cap.maxBodySize -
              (p.body.length + min (cap.maxBodySize - p.body.length) x.length))) := by
        rw [Bool.or_assoc, ← Bool.not_and]
        congr 2
        rw [← Bool.decide_and, decide_eq_decide]
        omega
      rw [hstreamed, ← Nat.add_assoc]
      have hdelivered : (if cap.bodyCallback = true then p.delivered ++ (x ++ y) else p.delivered) =
          if cap.bodyCallback = true then
            (if cap.bodyCallback = true then p.delivered ++ x else p.delivered) ++ y
          else if cap.bodyCallback = true then p.delivered ++ x else p.delivered := by
        cases cap.bodyCallback
        · rfl
        · simp only [if_true, List.append_assoc]
      have hremaining : (if p.state = .chunkData then p.chunkRemaining - (x.length + y.length) else p.chunkRemaining) =
          if p.state = .chunkData then
            (if p.state = .chunkData then p.chunkRemaining - x.length else p.chunkRemaining) - y.length
          else if p.state = .chunkData then p.chunkRemaining - x.length else p.chunkRemaining := by
        split
        · rw [Nat.sub_sub]
        · rfl
      rw [hdelivered, hremaining, List.append_assoc]
    next hfull =>
      apply Or.inr
      have hcb : cap.bodyCallback = false := by
        cases hcb : cap.bodyCallback with
        | false => rfl
        | true => exact absurd (Or.inr hcb) hfull
      have hle : x.length ≤ cap.maxBodySize - p.body.length := by
        rw [hcb] at hx
        exact hx.resolve_right Bool.false_ne_true
      refine ⟨fail_ne_ok _ (show ErrorCode.bodyLimit ≠ .ok by decide), rfl, rfl, ?_⟩
      simp [fail, hcb, hle]
  next hx =>
    exact absurd (congrArg Prod.fst h) (fail_ne_ok _ (by decide))

theorem appendBody_refused {x y : Bytes} (h : (p.appendBody cap x).1 ≠ .ok) :
    p.appendBody cap (x ++ y) = p.appendBody cap x := by
  rw [appendBody_eq] at h
  rw [appendBody_eq, appendBody_eq]
  split at h
  · exact absurd rfl h
  next hx =>
    rw [not_or] at hx
    rw [if_neg, if_neg (not_or.mpr hx), List.take_append_of_le_length (by omega)]
    rw [not_or, List.length_append]
    exact ⟨by omega, hx.2⟩

/-- The body is not at its end: more bytes belong to it. -/
def MoreBody (p : Parser) (size : ℕ) : Prop :=
  (p.state = .fixedBody → p.bodyReceived + size < p.contentLength) ∧
    (p.state = .chunkData → size < p.chunkRemaining)

theorem bodyTake_append (h : bodyState p.state = true) (size more : ℕ) :
    p.bodyTake (size + more) = p.bodyTake size ∨ (p.bodyTake size = size ∧ MoreBody p size) := by
  rw [bodyTake, bodyTake, MoreBody]
  cases hs : p.state <;> rw [hs] at h
  case fixedBody =>
    simp only [forall_const, reduceCtorEq, false_implies, and_true]
    omega
  case chunkData =>
    simp only [forall_const, reduceCtorEq, false_implies, true_and]
    omega
  case closeBody =>
    simp [reduceCtorEq, or_true]
  all_goals cases h

theorem le_bodyTake_append {size : ℕ} (h : p.bodyTake size = size) (more : ℕ) :
    size ≤ p.bodyTake (size + more) := by
  rw [bodyTake] at h ⊢
  split
  next hs =>
    simp only [hs] at h
    omega
  next hs =>
    simp only [hs] at h
    omega
  · omega

theorem appendBody_middle {x : Bytes} {p' : Parser} (h : p.appendBody cap x = (.ok, p'))
    (hm : MoreBody p x.length) : p'.behindBody = p' ∧ p'.state = p.state ∧
    ∀ k, p.bodyTake (x.length + k) = x.length + p'.bodyTake k ∧ (k ≠ 0 → p'.bodyTake k ≠ 0) := by
  rw [appendBody_eq] at h
  split at h
  · have hp' := (Prod.mk.inj h).2
    subst hp'
    refine ⟨?_, rfl, ?_⟩
    · rw [behindBody]
      simp only
      rw [if_neg, if_neg]
      · rw [Bool.and_eq_true, decide_eq_true_eq, decide_eq_true_eq]
        rintro ⟨hs, hzero⟩
        have hmore := hm.2 hs
        rw [if_pos hs] at hzero
        omega
      · rw [Bool.and_eq_true, decide_eq_true_eq, decide_eq_true_eq]
        rintro ⟨hs, hend⟩
        have hmore := hm.1 hs
        omega
    · intro k
      rw [bodyTake, bodyTake]
      cases hs : p.state <;> simp only [if_true]
      case fixedBody =>
        have hmore := hm.1 hs
        omega
      case chunkData =>
        have hmore := hm.2 hs
        omega
      all_goals exact ⟨trivial, fun h => h⟩
  · exact absurd (congrArg Prod.fst h) (fail_ne_ok _ (by decide))

theorem failure_alike {outcome : Status × Parser} (h : Settled outcome) (hne : outcome.1 ≠ .ok) :
    Alike outcome.2 outcome.2 := ⟨not_not.mp (mt h.mpr hne), rfl⟩

theorem bodyPiece_ok {bytes : Bytes} {p' : Parser} (h0 : p.bodyTake bytes.length ≠ 0)
    (h : p.appendBody cap (bytes.take (p.bodyTake bytes.length)) = (.ok, p')) :
    p.bodyPiece cap bytes = (.ok, p.bodyTake bytes.length, p'.behindBody) := by
  rw [bodyPiece, if_neg h0, h]

theorem bodyPiece_refused {bytes : Bytes} (h0 : p.bodyTake bytes.length ≠ 0)
    (h : (p.appendBody cap (bytes.take (p.bodyTake bytes.length))).1 ≠ .ok) :
    p.bodyPiece cap bytes = taking 0 (p.appendBody cap (bytes.take (p.bodyTake bytes.length))) := by
  rw [bodyPiece, if_neg h0]
  split
  next p' hp => exact absurd (by rw [hp]) h
  · rfl

theorem run_append_body (cap : ParserCapacity) (hopen : Open p) {x : Bytes} (hx : x ≠ [])
    (hbody : bodyState p.state = true)
    (htake : p.bodyTake x.length = x.length) (hm : MoreBody p x.length) (b : Bytes) :
    ((run cap p x).1 = .ok ∧ Open (run cap p x).2.2 ∧
      SameOutcome (run cap p (x ++ b)) (behind x.length (run cap (run cap p x).2.2 b))) ∨
    ((run cap p x).1 ≠ .ok ∧ SameOutcome (run cap p (x ++ b)) (run cap p x)) := by
  obtain ⟨c, rest, rfl⟩ := List.exists_cons_of_ne_nil hx
  have hlen : (c :: rest).length ≠ 0 := by
    rw [List.length_cons]
    omega
  have h0 : p.bodyTake (c :: rest).length ≠ 0 := by rwa [htake]
  have hsettled := appendBody_settled cap p hopen.2 (c :: rest)
  have hround : p.round cap c rest = p.bodyPiece cap (c :: rest) := round_body hbody c rest
  have hround' : p.round cap c (rest ++ b) = p.bodyPiece cap (c :: rest ++ b) :=
    round_body hbody c (rest ++ b)
  have htaken : (c :: rest).take (p.bodyTake (c :: rest).length) = c :: rest :=
    by rw [htake, List.take_length]
  by_cases hok : (p.appendBody cap (c :: rest)).1 = .ok
  · obtain ⟨p', hp'⟩ : ∃ p', p.appendBody cap (c :: rest) = (.ok, p') := ⟨_, Prod.ext hok rfl⟩
    obtain ⟨hbehind, hstate, hmore⟩ := appendBody_middle hp' hm
    have hopen' : Open p' := by
      rw [Open, hstate]
      exact hopen
    have hrun : run cap p (c :: rest) = (.ok, (c :: rest).length, p') := by
      rw [run_ok hopen (hround.trans (bodyPiece_ok h0 (by rw [htaken]; exact hp'))), hbehind, htake,
        List.drop_length, run_nil]
      rfl
    rw [hrun]
    refine Or.inl ⟨rfl, hopen', ?_⟩
    cases b with
    | nil =>
      rw [List.append_nil, hrun, run_nil]
      exact Or.inl rfl
    | cons d bs =>
      obtain ⟨htake', hne'⟩ := hmore (d :: bs).length
      have hne := hne' (by rw [List.length_cons]; omega)
      rw [← List.length_append] at htake'
      have h0' : p.bodyTake (c :: rest ++ d :: bs).length ≠ 0 := by omega
      have hpiece : (c :: rest ++ d :: bs).take (p.bodyTake (c :: rest ++ d :: bs).length) =
          c :: rest ++ (d :: bs).take (p'.bodyTake (d :: bs).length) := by
        rw [htake', List.take_length_add_append]
      have hround'' : p'.round cap d bs = p'.bodyPiece cap (d :: bs) := round_body (by rwa [hstate]) d bs
      have hsame := appendBody_append (y := (d :: bs).take (p'.bodyTake (d :: bs).length)) hp'
      have hsettled' := appendBody_settled cap p' hopen'.2 ((d :: bs).take (p'.bodyTake (d :: bs).length))
      by_cases hok' : (p'.appendBody cap ((d :: bs).take (p'.bodyTake (d :: bs).length))).1 = .ok
      · obtain ⟨q, hq⟩ : ∃ q, p'.appendBody cap ((d :: bs).take (p'.bodyTake (d :: bs).length)) = (.ok, q) :=
          ⟨_, Prod.ext hok' rfl⟩
        have hwhole := hsame.resolve_right (by
          rintro ⟨hne, hsame, _⟩
          exact hne (hsame.symm.trans hok'))
        rw [List.cons_append, run_ok hopen (hround'.trans (bodyPiece_ok h0' (by rw [hpiece, hwhole, hq]))),
          run_ok hopen' (hround''.trans (bodyPiece_ok hne hq)), ← List.cons_append, htake',
          List.drop_length_add_append]
        apply Or.inl
        simp only [behind, Nat.add_assoc]
      · have hwhole : (p.appendBody cap (c :: rest ++ (d :: bs).take (p'.bodyTake (d :: bs).length))).1 ≠ .ok := by
          rcases hsame with h | h
          · rw [h]
            exact hok'
          · exact h.1
        have hlong := hround'.trans (bodyPiece_refused h0' (by rw [hpiece]; exact hwhole))
        have hshort := hround''.trans (bodyPiece_refused hne hok')
        rw [hpiece] at hlong
        rw [List.cons_append, run_failed hopen (by rw [hlong]; exact hwhole), hlong,
          run_failed hopen' (by rw [hshort]; exact hok'), hshort]
        apply Or.inr
        rcases hsame with h | h
        · rw [h]
          exact ⟨hok', rfl, failure_alike hsettled' hok'⟩
        · exact h
  · have hshort := hround.trans (bodyPiece_refused h0 (by rw [htaken]; exact hok))
    rw [htaken] at hshort
    have hlonger : ∃ more, (c :: rest ++ b).take (p.bodyTake (c :: rest ++ b).length) = c :: rest ++ more ∧
        p.bodyTake (c :: rest ++ b).length ≠ 0 := by
      have hle := le_bodyTake_append htake b.length
      rw [← List.length_append] at hle
      refine ⟨b.take (p.bodyTake (c :: rest ++ b).length - (c :: rest).length), ?_, by omega⟩
      rw [List.take_append, List.take_of_length_le hle]
    obtain ⟨more, hpiece, h0'⟩ := hlonger
    have hwhole := appendBody_refused (y := more) hok
    have hlong := hround'.trans (bodyPiece_refused h0' (by rw [hpiece, hwhole]; exact hok))
    rw [hpiece, hwhole] at hlong
    rw [run_failed hopen (by rw [hshort]; exact hok), List.cons_append,
      run_failed hopen (by rw [hlong]; exact hok), hshort, hlong]
    exact Or.inr ⟨hok, Or.inl rfl⟩

theorem run_append (cap : ParserCapacity) (hopen : Open p) (a b : Bytes) :
    ((run cap p a).1 = .ok ∧ Open (run cap p a).2.2 ∧
      SameOutcome (run cap p (a ++ b)) (behind a.length (run cap (run cap p a).2.2 b))) ∨
    ((run cap p a).1 = .ok ∧ (run cap p a).2.2.state = .complete ∧ run cap p (a ++ b) = run cap p a) ∨
    ((run cap p a).1 ≠ .ok ∧ SameOutcome (run cap p (a ++ b)) (run cap p a)) := by
  induction hn : a.length using Nat.strong_induction_on generalizing p a with
  | _ n ih =>
    cases a with
    | nil =>
      refine Or.inl ⟨rfl, hopen, Or.inl ?_⟩
      rw [List.nil_append, run_nil, behind, ← hn, List.length_nil, Nat.zero_add]
    | cons c rest =>
      rw [List.length_cons] at hn
      by_cases hmiddle : bodyState p.state = true ∧ p.bodyTake (c :: rest).length = (c :: rest).length ∧
          MoreBody p (c :: rest).length
      · obtain ⟨hbody, htake, hm⟩ := hmiddle
        have hbodies := run_append_body cap hopen (List.cons_ne_nil c rest) hbody htake hm b
        rw [List.length_cons, hn] at hbodies
        exact hbodies.imp_right Or.inr
      -- otherwise the first round is the same with and without the bytes behind it
      have hsame : p.round cap c (rest ++ b) = p.round cap c rest := by
        cases hbody : bodyState p.state with
        | false => exact (round_byte hopen hbody c _ _).1
        | true =>
          have htake : p.bodyTake (c :: rest ++ b).length = p.bodyTake (c :: rest).length := by
            rw [List.length_append]
            apply (bodyTake_append hbody _ _).resolve_right
            exact fun h => hmiddle ⟨hbody, h⟩
          have hle := bodyTake_le p (c :: rest).length
          rw [round_body hbody, round_body hbody, ← List.cons_append, bodyPiece, bodyPiece, htake,
            List.take_append_of_le_length hle]
      have hcases := round_cases cap hopen c rest
      rcases hcases with ⟨hok, hnext, hone, hle⟩ | ⟨hne, _⟩
      · generalize hround : p.round cap c rest = result at hok hnext hone hle hsame
        obtain ⟨status, taken, q⟩ := result
        simp only at hok hnext hone hle
        subst hok
        have hdrop : (c :: rest ++ b).drop taken = (c :: rest).drop taken ++ b := by
          rw [List.drop_append_of_le_length (by rw [List.length_cons]; exact hle)]
        rw [run_ok hopen hround, List.cons_append, run_ok hopen hsame, ← List.cons_append, hdrop]
        by_cases hcomplete : q.state = .complete
        · rw [run_complete hcomplete, run_complete hcomplete]
          exact Or.inr (Or.inl ⟨rfl, hcomplete, rfl⟩)
        · have hlen : ((c :: rest).drop taken).length = n - taken := by
            rw [List.length_drop, List.length_cons, hn]
          rcases ih (n - taken) (by omega) ⟨hcomplete, hnext⟩ _ hlen with h | h | h
          · refine Or.inl ⟨h.1, h.2.1, ?_⟩
            have hbehind := h.2.2.behind taken
            rw [behind_behind, show taken + (n - taken) = n by omega] at hbehind
            exact hbehind
          · refine Or.inr (Or.inl ⟨h.1, h.2.1, ?_⟩)
            rw [h.2.2]
          · exact Or.inr (Or.inr ⟨h.1, h.2.behind taken⟩)
      · rw [run_failed hopen hne, List.cons_append, run_failed hopen (by rw [hsame]; exact hne), hsame]
        exact Or.inr (Or.inr ⟨hne, Or.inl rfl⟩)

/-- The end of a feed: what the end of the stream does to a parser that is still open. -/
def finish (peerClosed : Bool) (result : Status × ℕ × Parser) : Status × ℕ × Parser :=
  if result.1 = .ok ∧ peerClosed = true ∧ result.2.2.state ≠ .complete then
    if result.2.2.state = .closeBody then (.ok, result.2.1, result.2.2.markComplete)
    else ((result.2.2.fail .connectionClosed).1, result.2.1, (result.2.2.fail .connectionClosed).2)
  else result

theorem feed_open (hopen : Open p) (data : Bytes) (peerClosed : Bool) :
    p.feed cap data peerClosed = finish peerClosed (run cap p data) := by
  rw [feed, finish, run]
  generalize feedLoop cap data.length p data 0 = result
  obtain ⟨status, consumed, q⟩ := result
  cases hs : p.state
  case complete => exact absurd hs hopen.1
  case failed => exact absurd hs hopen.2
  all_goals
    cases status
    case ok => simp [Bool.and_eq_true]
    all_goals rfl

/-- What is left of a feed: the consumed bytes and the parser, up to the counters of a failure. -/
def SameFeed (a b : ℕ × Parser) : Prop := a = b ∨ Alike a.2 b.2

theorem Alike.symm {p q : Parser} (h : Alike p q) : Alike q p := by
  obtain ⟨hfailed, heq⟩ := h
  rw [heq]
  exact ⟨hfailed, rfl⟩

theorem Alike.trans {p q r : Parser} (h : Alike p q) (h' : Alike q r) : Alike p r := by
  refine ⟨h.1, ?_⟩
  have hr := h'.2
  rw [h.2] at hr
  exact hr

theorem SameFeed.symm {a b : ℕ × Parser} (h : SameFeed a b) : SameFeed b a :=
  h.imp Eq.symm Alike.symm

theorem SameFeed.trans {a b c : ℕ × Parser} (h : SameFeed a b) (h' : SameFeed b c) : SameFeed a c := by
  rcases h with rfl | h
  · exact h'
  · rcases h' with rfl | h'
    · exact Or.inr h
    · exact Or.inr (h.trans h')

theorem finish_behind (taken : ℕ) (result : Status × ℕ × Parser) (peerClosed : Bool) :
    finish peerClosed (behind taken result) = behind taken (finish peerClosed result) := by
  rw [finish, finish, behind]
  simp only
  split
  · split <;> rfl
  · rfl

end Castle.Http.Http1.Parser
