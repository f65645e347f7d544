import Castle.Http.Server.RequestFraming

/-!
# Pipelined requests in any cuts

A round that goes on, or waits, does the same when more bytes stand behind those of the buffer.
-/

namespace Castle.Http.Server

variable {cap : Capacity} {input : Bytes}

theorem findCrlf_append {cursor lineEnd : ℕ} (h : findCrlf input cursor = some lineEnd) (data : Bytes) :
    findCrlf (input ++ data) cursor = some lineEnd := by
  obtain ⟨i, hi, he⟩ := Option.map_eq_some_iff.mp h
  have hle := firstIndex_le hi
  rw [List.length_drop] at hle
  have hcursor : cursor ≤ input.length := by
    have hcrlf : crlf.length = 2 := rfl
    omega
  rw [findCrlf, List.drop_append_of_le_length hcursor, firstIndex_append crlf_ne_nil hi,
    Option.map_some, he]

theorem findCrlf_late {cursor lineEnd : ℕ} {data : Bytes} (h : findCrlf input cursor = none)
    (hl : findCrlf (input ++ data) cursor = some lineEnd) : input.length < lineEnd + 2 := by
  by_contra hle
  rw [Nat.not_lt] at hle
  have hfound := findCrlf_some hl
  have hslice := hfound.2.2.2.1
  have hnone := firstIndex_eq_none (Option.map_eq_none_iff.mp h) crlf_ne_nil (lineEnd - cursor)
  apply hnone
  rw [List.drop_drop, show cursor + (lineEnd - cursor) = lineEnd by omega]
  have hwhole : (input ++ data).drop lineEnd = crlf ++ (input ++ data).drop (lineEnd + 2) := by
    have hdrop := congrArg (List.drop (lineEnd - cursor)) hslice
    rw [List.drop_drop, show cursor + (lineEnd - cursor) = lineEnd by omega, List.append_assoc] at hdrop
    rw [hdrop, ← hfound.2.2.1, List.drop_left]
  rw [List.drop_append_of_le_length (by omega)] at hwhole
  have hprefix : crlf <+: input.drop lineEnd ++ data := ⟨_, hwhole.symm⟩
  apply List.prefix_of_prefix_length_le hprefix (List.prefix_append _ _)
  rw [List.length_drop]
  have hcrlf : crlf.length = 2 := rfl
  omega

theorem slice_append {start stop : ℕ} (h : stop ≤ input.length) (data : Bytes) :
    slice (input ++ data) start stop = slice input start stop := by
  rw [slice, slice]
  by_cases hs : start ≤ input.length
  · rw [List.drop_append_of_le_length hs, List.take_append_of_le_length (by rw [List.length_drop]; omega)]
  · rw [show stop - start = 0 by omega, List.take_zero, List.take_zero]

theorem decodeTrailers_append {start cursor count fuel fuel' : ℕ} {body : Bytes} {decoded : Decoded}
    (hstart : start ≤ cursor) (hf : fuel ≤ fuel')
    (h : decodeTrailers cap input start body fuel cursor count = some decoded) (hne : decoded ≠ .incomplete)
    (data : Bytes) : decodeTrailers cap (input ++ data) start body fuel' cursor count = some decoded := by
  induction fuel generalizing cursor count fuel' with
  | zero => cases h
  | succ fuel ih =>
    obtain ⟨k, hk⟩ : ∃ k, fuel' = k + 1 := ⟨fuel' - 1, by omega⟩
    subst hk
    rw [decodeTrailers] at h ⊢
    cases hline : findCrlf input cursor with
    | none =>
      rw [hline] at h
      simp only at h
      split at h
      next hlarge =>
        cases hlate : findCrlf (input ++ data) cursor with
        | none =>
          simp only
          rw [if_pos (by rw [List.length_append]; omega)]
          exact h
        | some lineEnd =>
          have hlt := findCrlf_late hline hlate
          simp only
          rw [if_pos (by omega)]
          exact h
      · exact absurd (Option.some.inj h).symm hne
    | some lineEnd =>
      have hfound := findCrlf_some hline
      rw [hline] at h
      rw [findCrlf_append hline data]
      simp only [slice_append (show lineEnd ≤ input.length by omega)] at h ⊢
      split at h
      next hlarge =>
        rw [if_pos hlarge]
        exact h
      next hlarge =>
        rw [if_neg hlarge]
        split at h
        next hempty =>
          rw [if_pos hempty]
          exact h
        next hempty =>
          rw [if_neg hempty]
          split at h
          · exact h
          · split at h
            next hname =>
              rw [if_pos hname]
              exact h
            next hname =>
              rw [if_neg hname]
              split at h
              next hlimit =>
                rw [if_pos hlimit]
                exact h
              next hlimit =>
                rw [if_neg hlimit]
                split at h
                next hframing =>
                  rw [if_pos hframing]
                  exact h
                next hframing =>
                  rw [if_neg hframing]
                  exact ih (by omega) (by omega) h

theorem decodeChunks_append {cursor fuel fuel' : ℕ} {body : Bytes} {decoded : Decoded} (hf : fuel ≤ fuel')
    (h : decodeChunks cap input fuel cursor body = some decoded) (hne : decoded ≠ .incomplete)
    (data : Bytes) : decodeChunks cap (input ++ data) fuel' cursor body = some decoded := by
  induction fuel generalizing cursor body fuel' with
  | zero => cases h
  | succ fuel ih =>
    obtain ⟨k, hk⟩ : ∃ k, fuel' = k + 1 := ⟨fuel' - 1, by omega⟩
    subst hk
    rw [decodeChunks] at h ⊢
    cases hline : findCrlf input cursor with
    | none =>
      rw [hline] at h
      exact absurd (Option.some.inj h).symm hne
    | some lineEnd =>
      have hfound := findCrlf_some hline
      rw [hline] at h
      rw [findCrlf_append hline data]
      simp only [slice_append (show lineEnd ≤ input.length by omega)] at h ⊢
      split at h
      · exact h
      · exact decodeTrailers_append (Nat.le_refl _) (by omega) h hne data
      next size hsize =>
        split at h
        next hroom =>
          rw [if_pos hroom]
          exact h
        next hroom =>
          rw [if_neg hroom]
          split at h
          · exact absurd (Option.some.inj h).symm hne
          next hthere =>
            rw [if_neg (by rw [List.length_append]; omega)]
            obtain ⟨copied, hcopied, h⟩ := Option.bind_eq_some_iff.mp h
            obtain ⟨cr, hcr, h⟩ := Option.bind_eq_some_iff.mp h
            obtain ⟨lf, hlf, h⟩ := Option.bind_eq_some_iff.mp h
            have hcopied' : copyToBody cap body (input ++ data) (lineEnd + 2) (size + 1) = some copied := by
              rw [copyToBody] at hcopied ⊢
              split at hcopied
              · cases hcopied
              next hinside =>
                simp only [Bool.or_eq_true, decide_eq_true_eq, not_or] at hinside
                rw [if_neg, slice_append (by omega)]
                · exact hcopied
                · simp only [Bool.or_eq_true, decide_eq_true_eq, List.length_append]
                  omega
            have hin : ∀ i < input.length, (input ++ data)[i]? = input[i]? :=
              fun i hi => List.getElem?_append_left hi
            rw [hcopied', hin _ (by omega), hin _ (by omega), hcr, hlf]
            simp only [Option.bind_eq_bind, Option.bind_some]
            split at h
            next hend =>
              rw [if_pos hend]
              exact h
            next hend =>
              rw [if_neg hend]
              exact ih (by omega) h

namespace Session

theorem readBody_append {item : Connection} (hoffset : item.bodyOffset ≤ item.input.length)
    (h : readBody cap item ≠ .incomplete) (hb : readBody cap item ≠ .outOfBounds) (data : Bytes) :
    readBody cap { item with input := item.input ++ data } = readBody cap item := by
  rw [readBody] at h hb ⊢
  rw [readBody]
  simp only at h hb ⊢
  split at h
  next hchunked =>
    rw [if_pos hchunked, if_pos hchunked]
    rw [if_pos hchunked] at hb
    cases hd : decodeChunked cap item.input item.bodyOffset with
    | none =>
      rw [hd] at hb
      exact absurd rfl hb
    | some decoded =>
      rw [hd] at h
      have hne : decoded ≠ .incomplete := by
        intro he
        rw [he] at h
        exact h rfl
      have hagain : decodeChunked cap (item.input ++ data) item.bodyOffset = some decoded :=
        decodeChunks_append (by rw [List.length_append]; omega) hd hne data
      rw [hagain]
  next hchunked =>
    rw [if_neg hchunked, if_neg hchunked]
    split at h
    next hlarge => rw [if_pos hlarge, if_pos hlarge]
    next hlarge =>
      rw [if_neg hlarge, if_neg hlarge]
      split at h
      · exact absurd rfl h
      next hthere =>
        rw [if_neg (by rw [List.length_append]; omega), if_neg hthere]
        have hcopy : copyToBody cap [] (item.input ++ data) item.bodyOffset item.contentLength =
            copyToBody cap [] item.input item.bodyOffset item.contentLength := by
          rw [copyToBody, copyToBody, slice_append (by omega)]
          simp only [List.length_append, List.length_nil]
          congr 1
          simp only [Bool.or_eq_true, decide_eq_true_eq, eq_iff_iff]
          omega
        rw [hcopy]

variable {σ : Type} {host : Host σ} {s : Session σ}

/-- The limits that are applied to a header section before its end has arrived. -/
def OverLimit (cap : Capacity) (item : Connection) : Prop :=
  item.headersParsed = false ∧ findHeaderEnd item.input = none ∧
    ((findCrlf item.input 0 = none ∧ item.input.length > cap.maxUriSize + 32) ∨
      item.input.length > cap.maxHeaderBytes)

theorem sendResponse_append (request : Request) (response : Response) (keepAlive : Bool) (data : Bytes) :
    (s.append data).sendResponse host request response keepAlive =
      ((s.sendResponse host request response keepAlive).1,
        (s.sendResponse host request response keepAlive).2.append data) := by
  rw [sendResponse, sendResponse]
  split <;> rfl

theorem sendError_append (code : ℕ) (message data : Bytes) :
    (s.append data).sendError host code message = (s.sendError host code message).append data := by
  rw [sendError, sendError, sendResponse_append]
  rfl

theorem send_append (text data : Bytes) :
    (s.append data).send host text = ((s.send host text).1, (s.send host text).2.append data) := rfl

theorem readHeaders_read (h : s.item.headersParsed = true) : s.readHeaders host = (true, s) := by
  rw [readHeaders, if_pos h]

theorem readHeaders_append (hlimit : ¬OverLimit host.cap s.item)
    (hwait : s.readHeaders host ≠ (false, s)) (data : Bytes) : (s.append data).readHeaders host =
    ((s.readHeaders host).1, (s.readHeaders host).2.append data) := by
  rw [readHeaders] at hwait ⊢
  rw [readHeaders]
  change (if s.item.headersParsed = true then _ else _) = _
  split
  next hparsed => rfl
  next hparsed =>
    rw [if_neg hparsed] at hwait
    have hinput : (s.append data).item.input = s.item.input ++ data := rfl
    rw [hinput]
    cases hm : findHeaderEnd s.item.input with
    | none =>
      rw [hm] at hwait
      simp only at hwait
      split at hwait
      next hover =>
        rw [Bool.not_eq_true] at hparsed
        exfalso
        apply hlimit
        refine ⟨hparsed, hm, ?_⟩
        simpa [Bool.or_eq_true, Bool.and_eq_true] using hover
      · exact absurd rfl hwait
    | some marker =>
      rw [findHeaderEnd_append hm]
      simp only
      split
      next hlarge => rw [sendError_append]
      next hlarge =>
        rw [parseHeaders_append hm]
        cases hp : parseHeaders host.cap s.item.input marker with
        | error failure =>
          simp only
          rw [sendError_append]
        | ok parsed =>
          have hwith : (s.append data).withHeaders parsed marker = (s.withHeaders parsed marker).append data := rfl
          simp only
          rw [hwith]
          split
          · rw [send_append]
            generalize (s.withHeaders parsed marker).send host _ = sent
            obtain ⟨ok, s'⟩ := sent
            cases ok <;> rfl
          · rfl

/-- The session in which the response is sent. -/
def answered (host : Host σ) (s : Session σ) (request : Request) : Session σ :=
  { s with
    item := { s.item with request := request, requestCount := s.item.requestCount + 1 }
    app := (dispatchRequest host.cap host.routes s.app request).1
    dispatched := s.dispatched ++ [request] }

/-- What follows the sending of a response. -/
def finish (host : Host σ) (keepAlive : Bool) (consumed : ℕ) (sent : Bool × Session σ) :
    Bool × Session σ :=
  if !sent.1 then (false, sent.2.close)
  else if !keepAlive then (false, sent.2.close)
  else if consumed > sent.2.item.input.length then
    (false, sent.2.sendError host 400 (octets "Invalid request framing"))
  else if (sent.2.item.input.drop consumed).isEmpty then (false, sent.2.nextRequest consumed)
  else (true, sent.2.nextRequest consumed)

theorem respond_eq (host : Host σ) (s : Session σ) (request : Request) (consumed : ℕ) :
    ∃ (keepAlive : Bool) (response : Response),
    ∀ data, (s.append data).respond host request consumed = finish host keepAlive consumed
    (((answered host s request).append data).sendResponse host request response keepAlive) := by
  refine ⟨s.item.keepAlive && s.item.requestCount + 1 < host.cap.maxRequestsPerConnection,
    { (dispatchRequest host.cap host.routes s.app request).2 with
      headers := setConnection host.cap (dispatchRequest host.cap host.routes s.app request).2.headers
        (s.item.keepAlive && s.item.requestCount + 1 < host.cap.maxRequestsPerConnection) }, ?_⟩
  intro data
  rw [respond]
  dsimp only
  split <;> rename_i hsent <;> exact (congrArg (finish host _ consumed) hsent).symm

theorem append_nil (s : Session σ) : s.append [] = s := by
  rw [append, modify, List.append_nil]

theorem respond_append (host : Host σ) (request : Request) {consumed : ℕ} (hu : s.item.used = true)
    (h : consumed ≤ s.item.input.length) (data : Bytes) :
    ((s.append data).respond host request consumed).2 = (s.respond host request consumed).2.append data ∧
    ((s.respond host request consumed).1 = true → ((s.append data).respond host request consumed).1 = true) ∧
    ((s.respond host request consumed).1 = false → (s.respond host request consumed).2.item.used = false →
      ((s.append data).respond host request consumed).1 = false) ∧
    ((s.respond host request consumed).1 = false → (s.respond host request consumed).2.item.used = true →
      (((s.append data).respond host request consumed).1 = true ↔ data ≠ [])) := by
  obtain ⟨keepAlive, response, heq⟩ := respond_eq host s request consumed
  have hself := heq []
  rw [append_nil, append_nil] at hself
  rw [heq data, hself, sendResponse_append]
  have hinput := (sendResponse_same host (answered host s request) request response keepAlive).2
  generalize (answered host s request).sendResponse host request response keepAlive = sent at hinput ⊢
  obtain ⟨ok, s'⟩ := sent
  simp only at hinput
  have hle : consumed ≤ s'.item.input.length := by
    rw [hinput]
    exact h
  have hdrop : (s'.append data).item.input.drop consumed = s'.item.input.drop consumed ++ data :=
    List.drop_append_of_le_length hle
  have hlonger : ¬consumed > (s'.append data).item.input.length := by
    change ¬consumed > (s'.item.input ++ data).length
    rw [List.length_append]
    omega
  have hnext : (s'.append data).nextRequest consumed = (s'.nextRequest consumed).append data := by
    simp [nextRequest, append, modify, List.drop_append_of_le_length hle]
  rw [finish, finish]
  simp only
  cases ok with
  | false => exact ⟨rfl, fun h => h, fun _ _ => rfl, fun _ hu => absurd hu Bool.false_ne_true⟩
  | true =>
    cases keepAlive with
    | false => exact ⟨rfl, fun h => h, fun _ _ => rfl, fun _ hu => absurd hu Bool.false_ne_true⟩
    | true =>
      simp only [Bool.not_true, Bool.false_eq_true, if_false]
      rw [if_neg hlonger, if_neg (Nat.not_lt.mpr hle), hdrop, hnext]
      cases hrest : s'.item.input.drop consumed with
      | cons c rest => exact ⟨rfl, fun _ => rfl, fun h => (by cases h), fun h => (by cases h)⟩
      | nil =>
        rw [List.nil_append]
        refine ⟨?_, ?_, ?_, ?_⟩
        · cases data <;> rfl
        · intro h
          cases h
        · intro _ hclosed
          change s'.item.used = false at hclosed
          rw [hinput] at hclosed
          exact absurd (hu.symm.trans hclosed) Bool.noConfusion
        · intro _ _
          cases data with
          | nil => simp
          | cons c data => simp

/-- How a round on a longer buffer compares: the connection is closed in both, another round
follows in both, the buffer was used up, or the round waits and is repeated. -/
inductive SameRound (host : Host σ) (s : Session σ) : Prop where
  | closed (hend : (s.processRequest host).1 = false) (hclosed : (s.processRequest host).2.item.used = false)
      (hsame : ∀ data, (s.append data).processRequest host =
        (false, (s.processRequest host).2.append data))
  | again (hgo : (s.processRequest host).1 = true)
      (hsame : ∀ data, (s.append data).processRequest host =
        (true, (s.processRequest host).2.append data))
  | usedUp (hend : (s.processRequest host).1 = false)
      (hempty : (s.processRequest host).2.item.input = [] ∧
        (s.processRequest host).2.item.headersParsed = false)
      (hopen : (s.processRequest host).2.item.used = true)
      (hsame : ∀ data, (s.append data).processRequest host =
        (!data.isEmpty, (s.processRequest host).2.append data))
  | waits (hend : (s.processRequest host).1 = false) (hopen : (s.processRequest host).2.item.used = true)
      (hsame : ∀ data, ((s.processRequest host).2.append data).processRequest host =
        (s.append data).processRequest host)

/-- The second half of a round. -/
def takeBody (host : Host σ) (s : Session σ) : Bool × Session σ :=
  match readBody host.cap s.item with
  | .incomplete => (false, s)
  | .failed code message => (false, s.sendError host code message)
  | .outOfBounds => (false, { s.close with outOfBounds := true })
  | .complete consumed body => s.respond host { s.item.request with body := body } consumed

theorem processRequest_read {s' : Session σ} (h : s.readHeaders host = (true, s')) :
    s.processRequest host = takeBody host s' := by
  rw [processRequest, h]
  rfl

theorem processRequest_append (hc : Coherent host.cap s.item) (hu : s.item.used = true)
    (hl : ¬OverLimit host.cap s.item) : SameRound host s := by
  have hcases := readHeaders_cases hc
  obtain ⟨hsame, hcases⟩ := hcases
  by_cases hwait : s.readHeaders host = (false, s)
  · -- the end of the header section has not arrived
    have hround : s.processRequest host = (false, s) := by
      rw [processRequest, hwait]
    apply SameRound.waits
    · rw [hround]
    · rw [hround]
      exact hu
    · intro data
      rw [hround]
  · have happend := readHeaders_append hl hwait
    rcases hcases with hcases | hcases | hcases
    · exact absurd hcases.1 hwait
    · have hround : s.processRequest host = (false, (s.readHeaders host).2) := by
        rw [processRequest]
        generalize s.readHeaders host = read at hcases
        obtain ⟨again, s'⟩ := read
        rw [show again = false from hcases.1]
      apply SameRound.closed
      · rw [hround]
      · rw [hround]
        exact hcases.2
      · intro data
        rw [hround, processRequest, happend data, hcases.1]
    · obtain ⟨hgo, hused, hparsed, marker, parsed, hread⟩ := hcases
      generalize hr : s.readHeaders host = read at *
      obtain ⟨again, s'⟩ := read
      simp only at hgo hused hparsed hread happend
      subst hgo
      have hround := processRequest_read hr
      rw [takeBody] at hround
      have hrepeat : ∀ data, (s'.append data).processRequest host = (s.append data).processRequest host := by
        intro data
        rw [processRequest, processRequest, happend data, readHeaders_read (show
          (s'.append data).item.headersParsed = true from hparsed)]
      have hlonger : ∀ data, readBody host.cap s'.item ≠ .incomplete →
          readBody host.cap (s'.append data).item = readBody host.cap s'.item := fun data hne =>
        readBody_append hread.bodyOffset_le hne (readBody_inBounds hread) data
      cases hb : readBody host.cap s'.item with
      | incomplete =>
        rw [hb] at hround
        apply SameRound.waits
        · rw [hround]
        · rw [hround, ← hu]
          exact hused
        · intro data
          rw [hround]
          exact hrepeat data
      | failed code message =>
        rw [hb] at hround
        apply SameRound.closed
        · rw [hround]
        · rw [hround]
          exact (sendError_same host s' code message).2
        · intro data
          rw [hround, processRequest, happend data]
          simp only
          rw [hlonger data (by rw [hb]; exact fun h => by cases h), hb]
          simp only
          rw [sendError_append]
      | outOfBounds => exact absurd hb (readBody_inBounds hread)
      | complete consumed body =>
        rw [hb] at hround
        obtain ⟨_, _, _, hle, _⟩ := readBody_complete hread hb
        have hafter : ∀ data, (s.append data).processRequest host =
            (s'.append data).respond host { s'.item.request with body := body } consumed := by
          intro data
          rw [processRequest, happend data]
          simp only
          rw [hlonger data (by rw [hb]; exact fun h => by cases h), hb]
          rfl
        have hanswer := respond_append host { s'.item.request with body := body } (hused.trans hu) hle
        have hleft := (respond_cases host { s'.item.request with body := body } hle).2.2
        simp only at hround
        rw [← hround] at hleft hanswer
        rcases hleft with hleft | hleft
        · apply SameRound.closed hleft.1 hleft.2
          intro data
          rw [hafter data]
          obtain ⟨hsecond, _, hclosed, _⟩ := hanswer data
          exact Prod.ext (hclosed hleft.1 hleft.2) hsecond
        · obtain ⟨hkept, _, hitem, hgo⟩ := hleft
          cases hend : (s.processRequest host).1 with
          | true =>
            apply SameRound.again hend
            intro data
            rw [hafter data]
            exact Prod.ext ((hanswer data).2.1 hend) (hanswer data).1
          | false =>
            have hdrop : s'.item.input.drop consumed = [] := by
              by_contra hne
              rw [hgo.mpr hne] at hend
              cases hend
            apply SameRound.usedUp hend
            · rw [hitem]
              exact ⟨hdrop, rfl⟩
            · rw [hkept, hused, hu]
            · intro data
              rw [hafter data]
              refine Prod.ext ?_ (hanswer data).1
              rw [Bool.eq_iff_iff, (hanswer data).2.2.2 hend (by rw [hkept, hused, hu])]
              simp

theorem processRequest_again (host : Host σ)
    (hc : Coherent host.cap s.item) (hgo : (s.processRequest host).1 = true) : s.item.requestCount +
    1 < host.cap.maxRequestsPerConnection ∧ (s.processRequest host).2.item.requestCount =
    s.item.requestCount + 1 ∧ (s.processRequest host).2.item.used =
    s.item.used ∧ (s.processRequest host).2.item.input.length ≤ s.item.input.length := by
  obtain ⟨hsame, hcases⟩ := readHeaders_cases hc
  rw [processRequest] at hgo ⊢
  generalize s.readHeaders host = read at hsame hcases hgo ⊢
  obtain ⟨again, s'⟩ := read
  cases again with
  | false => cases hgo
  | true =>
    simp only at hsame hcases hgo ⊢
    rcases hcases with h | h | ⟨_, hused, _, marker, parsed, hread⟩
    · cases congrArg Prod.fst h.1
    · cases h.1
    · cases hb : readBody host.cap s'.item with
      | incomplete =>
        rw [hb] at hgo
        cases hgo
      | failed code message =>
        rw [hb] at hgo
        cases hgo
      | outOfBounds =>
        rw [hb] at hgo
        cases hgo
      | complete consumed body =>
        rw [hb] at hgo
        obtain ⟨_, _, _, hle, _⟩ := readBody_complete hread hb
        have hleft := (respond_cases host { s'.item.request with body := body } hle).2.2
        rcases hleft with h | ⟨hkept, hcount, hitem, _⟩
        · exact absurd (hgo.symm.trans h.1) Bool.noConfusion
        · refine ⟨by rw [← hsame.requestCount]; exact hcount, ?_, hkept.trans hused, ?_⟩
          · simp only
            rw [hitem, hsame.requestCount]
          · simp only
            rw [hitem, ← hsame.input, List.length_drop]
            omega

theorem processRounds_stable {n m : ℕ} (hc : Coherent host.cap s.item)
    (hn : host.cap.maxRequestsPerConnection < n + s.item.requestCount)
    (hm : host.cap.maxRequestsPerConnection < m + s.item.requestCount) (hn0 : 0 < n) (hm0 : 0 < m) :
    s.processRounds host n = s.processRounds host m := by
  induction n generalizing s m with
  | zero => omega
  | succ n ih =>
    obtain ⟨k, hk⟩ : ∃ k, m = k + 1 := ⟨m - 1, by omega⟩
    subst hk
    rw [processRounds, processRounds]
    split
    next hused =>
      have hagain := processRequest_again host hc
      have hleft := processRequest_coherent host hc
      generalize s.processRequest host = round at hagain hleft
      obtain ⟨again, s'⟩ := round
      cases again with
      | false => rfl
      | true =>
        obtain ⟨hlt, hcount, hkept, _⟩ := hagain rfl
        simp only at hcount hkept hleft ⊢
        apply ih (hleft (hkept.trans hused))
        all_goals omega
    · rfl

theorem processBuffer_eq (hc : Coherent host.cap s.item) (hu : s.item.used = true) :
    s.processBuffer host = if (s.processRequest host).1
    then (s.processRequest host).2.processBuffer host else (s.processRequest host).2 := by
  have hagain := processRequest_again host hc
  have hleft := processRequest_coherent host hc
  rw [processBuffer, processRounds, if_pos hu]
  generalize s.processRequest host = round at hagain hleft
  obtain ⟨again, s'⟩ := round
  cases again with
  | false => rfl
  | true =>
    obtain ⟨hlt, hcount, hkept, _⟩ := hagain rfl
    simp only at hcount hkept hleft
    simp only [if_true]
    rw [processBuffer]
    apply processRounds_stable (hleft (hkept.trans hu))
    all_goals omega

theorem processBuffer_unused (hu : s.item.used = false) : s.processBuffer host = s := by
  rw [processBuffer, processRounds, if_neg (by rw [hu]; exact Bool.false_ne_true)]

/-- The states in which the loop begins a round. -/
inductive Begins (host : Host σ) (s : Session σ) : Session σ → Prop where
  | first : Begins host s s
  | next (s' : Session σ) (hgo : (s'.processRequest host).1 = true) :
      Begins host s s' → Begins host s (s'.processRequest host).2

/-- No limit is applied to a header section whose end has not arrived. -/
def RoundsWithin (host : Host σ) (s : Session σ) : Prop :=
  ∀ s', Begins host s s' → ¬OverLimit host.cap s'.item

theorem RoundsWithin.next (h : RoundsWithin host s) (hgo : (s.processRequest host).1 = true) :
    RoundsWithin host (s.processRequest host).2 := by
  intro s' hbegins
  apply h
  induction hbegins with
  | first => exact Begins.next s hgo Begins.first
  | next s'' hgo' _ ih => exact Begins.next s'' hgo' ih

theorem roundsWithin_of_short (h : Reachable host s) (hu : s.item.used = true)
    (huri : s.item.input.length ≤ host.cap.maxUriSize + 32)
    (hbytes : s.item.input.length ≤ host.cap.maxHeaderBytes) : RoundsWithin host s := by
  have hshort : ∀ s', Begins host s s' → Reachable host s' ∧ s'.item.used = true ∧
      s'.item.input.length ≤ s.item.input.length := by
    intro s' hbegins
    induction hbegins with
    | first => exact ⟨h, hu, Nat.le_refl _⟩
    | next s'' hgo _ ih =>
      obtain ⟨hreached, hused, hlength⟩ := ih
      obtain ⟨_, _, hkept, hshorter⟩ := processRequest_again host (hreached.coherent hused) hgo
      exact ⟨Reachable.round s'' hused hreached, hkept.trans hused, by omega⟩
  intro s' hbegins hover
  have hlength := (hshort s' hbegins).2.2
  have hlimits := hover.2.2
  omega

theorem processBuffer_usedUp (hc : Coherent host.cap s.item) (hu : s.item.used = true)
    (he : s.item.input = [] ∧ s.item.headersParsed = false) : s.processBuffer host = s := by
  have hread : s.readHeaders host = (false, s) := by
    rw [readHeaders, he.2, he.1]
    rfl
  rw [processBuffer_eq hc hu, processRequest, hread]
  rfl

theorem processBuffer_append (hc : Coherent host.cap s.item) (hu : s.item.used = true)
    (hw : RoundsWithin host s) (data : Bytes) :
    ((s.processBuffer host).append data).processBuffer host = (s.append data).processBuffer host := by
  generalize hleft : host.cap.maxRequestsPerConnection - s.item.requestCount = left
  induction left using Nat.strong_induction_on generalizing s with
  | _ left ih =>
    have hca : Coherent host.cap (s.append data).item := hc.append data
    have hclose := processRequest_coherent host hc
    rw [processBuffer_eq hc hu, processBuffer_eq hca hu]
    cases processRequest_append hc hu (hw s Begins.first) with
    | closed hend hclosed hsame =>
      rw [hsame data, hend]
      exact processBuffer_unused hclosed
    | again hgo hsame =>
      rw [hsame data, hgo]
      obtain ⟨hlt, hcount, hkept, _⟩ := processRequest_again host hc hgo
      simp only [if_true]
      have hused := hkept.trans hu
      exact ih _ (by omega) (hclose hused) hused (hw.next hgo) rfl
    | usedUp hend hempty hopen hsame =>
      rw [hsame data, hend]
      simp only [Bool.false_eq_true, if_false]
      cases data with
      | nil =>
        rw [append_nil]
        exact processBuffer_usedUp (hclose hopen) hopen hempty
      | cons c data => rfl
    | waits hend hopen hsame =>
      have hcoherent := hclose hopen
      rw [hend]
      simp only [Bool.false_eq_true, if_false]
      rw [← hsame data]
      exact processBuffer_eq (hcoherent.append data) hopen

/-- A receive fits in what is left of the buffer, and no header section is over its limits
before its end is there. -/
def ReceiveWithin (host : Host σ) (s : Session σ) (data : Bytes) : Prop :=
  s.item.used = true → data ≠ [] →
    data.length ≤ host.cap.maxRequestSize - s.item.input.length ∧ RoundsWithin host (s.append data)

def RunWithin (host : Host σ) : Session σ → List Bytes → Prop
  | _, [] => True
  | s, data :: chunks => ReceiveWithin host s data ∧ RunWithin host (s.onReceive host data) chunks

/-- What a client and the handlers see of a session, and what an open connection goes on with. -/
structure SameOutcome (s s' : Session σ) : Prop where
  sent : s'.sent = s.sent
  dispatched : s'.dispatched = s.dispatched
  app : s'.app = s.app
  used : s'.item.used = s.item.used
  item : s.item.used = true → s'.item = s.item

theorem SameOutcome.common {s s' whole : Session σ} (h : SameOutcome s whole)
    (h' : SameOutcome s' whole) :
    SameOutcome s s' where
  sent := h'.sent.symm.trans h.sent
  dispatched := h'.dispatched.symm.trans h.dispatched
  app := h'.app.symm.trans h.app
  used := h'.used.symm.trans h.used
  item := by
    intro hu
    have hwhole := h.item hu
    rw [← h.used, h'.used] at hu
    exact (h'.item hu).symm.trans hwhole

theorem receiveAll_unused (hu : s.item.used = false) (chunks : List Bytes) :
    s.receiveAll host chunks = s := by
  induction chunks with
  | nil => rfl
  | cons data chunks ih =>
    have hreceive : s.onReceive host data = s := by
      rw [onReceive, hu]
      rfl
    rw [receiveAll, List.foldl_cons, hreceive]
    exact ih

theorem onReceive_within {data : Bytes} (hu : s.item.used = true) (hne : data ≠ [])
    (hr : ReceiveWithin host s data) : s.onReceive host data = (s.append data).processBuffer host := by
  have hempty : data.isEmpty = false := by simpa using hne
  rw [onReceive, hu, hempty, if_neg (by decide), if_neg (Nat.not_lt.mpr (hr hu hne).1)]
  rfl

theorem processBuffer_closed (hu : s.item.used = false) (data : Bytes) :
    SameOutcome s ((s.append data).processBuffer host) := by
  rw [processBuffer_unused (show (s.append data).item.used = false from hu)]
  refine ⟨rfl, rfl, rfl, rfl, fun h => ?_⟩
  rw [hu] at h
  cases h

theorem append_append (s : Session σ) (first rest : Bytes) :
    (s.append first).append rest = s.append (first ++ rest) := by
  simp only [append, modify, List.append_assoc]

theorem processBuffer_reachable (h : Reachable host s) :
    Reachable host (s.processBuffer host) := h.rounds _

theorem receiveAll_whole {chunks : List Bytes} (h : Reachable host s)
    (hsettled : s.processBuffer host = s) (hr : RunWithin host s chunks) :
    SameOutcome (s.receiveAll host chunks) ((s.append chunks.flatten).processBuffer host) := by
  induction chunks generalizing s with
  | nil =>
    rw [List.flatten_nil, append_nil, hsettled]
    exact ⟨rfl, rfl, rfl, rfl, fun _ => rfl⟩
  | cons data chunks ih =>
    rw [List.flatten_cons, ← append_append]
    cases hu : s.item.used with
    | false =>
      rw [receiveAll_unused hu, append_append]
      exact processBuffer_closed hu _
    | true =>
      rw [receiveAll, List.foldl_cons]
      by_cases hne : data = []
      · have hsame : s.onReceive host data = s := by
          rw [onReceive, hne, List.isEmpty_nil, Bool.or_true]
          rfl
        have hrest := hr.2
        rw [hsame] at hrest ⊢
        rw [hne, append_nil]
        exact ih h hsettled hrest
      · have hone := onReceive_within hu hne hr.1
        obtain ⟨hfits, hwithin⟩ := hr.1 hu hne
        have hreached : Reachable host (s.append data) := Reachable.received s data hu hfits h
        have hmore := processBuffer_append (hreached.coherent hu) hu hwithin
        have hrest := hr.2
        rw [hone] at hrest ⊢
        rw [← hmore]
        apply ih (processBuffer_reachable hreached) _ hrest
        -- a loop that has ended has nothing more to do
        have hnil := hmore []
        rw [append_nil, append_nil] at hnil
        exact hnil

/-- Every cut of a stream gives the same requests and the same responses, when in both runs each
receive fits in what is left of the buffer and no limit is applied to a header section whose end
has not arrived. -/
theorem pipelining_cuts (host : Host σ) (app : σ) {chunks chunks' : List Bytes}
    (hsame : chunks.flatten = chunks'.flatten)
    (h : RunWithin host ({ app := app } : Session σ) chunks)
    (h' : RunWithin host ({ app := app } : Session σ) chunks') :
    SameOutcome (({ app := app } : Session σ).receiveAll host chunks)
      (({ app := app } : Session σ).receiveAll host chunks') := by
  have hfresh : Reachable host ({ app := app } : Session σ) := Reachable.fresh app
  have hsettled : ({ app := app } : Session σ).processBuffer host = { app := app } :=
    processBuffer_usedUp (hfresh.coherent rfl) rfl ⟨rfl, rfl⟩
  have hwhole := receiveAll_whole hfresh hsettled h
  have hwhole' := receiveAll_whole hfresh hsettled h'
  rw [← hsame] at hwhole'
  exact hwhole.common hwhole'

/-- Two requests, in one receive or in two. -/
theorem two_requests_cuts :
    SameOutcome (({ app := () } : Session Unit).receiveAll bareHost [getRequest ++ getRequest])
      (({ app := () } : Session Unit).receiveAll bareHost [getRequest, getRequest]) := by
  apply pipelining_cuts bareHost () (by decide)
  · refine ⟨fun _ _ => ⟨by decide, ?_⟩, trivial⟩
    exact roundsWithin_of_short (arrived_reachable (by decide)) rfl (by decide) (by decide)
  · refine ⟨fun _ _ => ⟨by decide, ?_⟩, fun _ _ => ⟨by decide, ?_⟩, trivial⟩
    · exact roundsWithin_of_short (arrived_reachable (by decide)) rfl (by decide)
        (by decide)
    · have hfresh : Reachable bareHost ({ app := () } : Session Unit) := Reachable.fresh ()
      have hfirst := hfresh.onReceive getRequest
      apply roundsWithin_of_short (Reachable.received _ getRequest (by decide) (by decide) hfirst)
      all_goals decide

/-- A server whose buffer holds one request, and nothing more behind it. -/
def narrowHost : Host Unit where
  cap := { Capacity.standard with
    receiveBufferSize := 32
    maxRequestSize := 32
    maxHeaderBytes := 32
    requestSize_pos := Nat.succ_pos (nat_lit 31) }
  routes := ⟨[], none⟩
  sends := fun _ => true

/-- Two requests that fit in the buffer are both dispatched, or the second one is answered with
413, as the receives happen to cut them. -/
theorem narrow_cuts_differ :
    let even := [getRequest, getRequest]
    let uneven := [getRequest.take 20, getRequest.drop 20 ++ getRequest.take 13, getRequest.drop 13]
    getRequest.length ≤ narrowHost.cap.maxRequestSize ∧
    even.flatten = getRequest ++ getRequest ∧ uneven.flatten = getRequest ++ getRequest ∧
    (∀ chunk ∈ even ++ uneven, chunk.length ≤ narrowHost.cap.receiveBufferSize) ∧
    (({ app := () } : Session Unit).receiveAll narrowHost even).dispatched ≠
      (({ app := () } : Session Unit).receiveAll narrowHost uneven).dispatched ∧
    (({ app := () } : Session Unit).receiveAll narrowHost even).sent ≠
      (({ app := () } : Session Unit).receiveAll narrowHost uneven).sent := by
  decide +kernel

end Session

end Castle.Http.Server
