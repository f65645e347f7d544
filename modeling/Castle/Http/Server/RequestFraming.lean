import Castle.Http.Server.Parsing

/-!
# The rounds of a connection

Between two receives a connection waits for the rest of a header section, or has read one and waits
for the rest of the body.
-/

namespace Castle.Http.Server

/-- The connection has read the header section at the front of its buffer. -/
structure HeadersRead (cap : Capacity) (item : Connection) (marker : ℕ) (parsed : ParsedHeaders) :
    Prop where
  found : findHeaderEnd item.input = some marker
  fits : marker + 4 ≤ cap.maxHeaderBytes
  accepted : parseHeaders cap item.input marker = .ok parsed
  request : item.request = parsed.request
  contentLength : item.contentLength = parsed.contentLength.getD 0
  chunked : item.chunked = parsed.chunked
  keepAlive : item.keepAlive = parsed.keepAlive
  bodyOffset : item.bodyOffset = marker + 4

/-- The fields of a connection belong to the front of its buffer. -/
def Coherent (cap : Capacity) (item : Connection) : Prop :=
  if item.headersParsed then ∃ marker parsed, HeadersRead cap item marker parsed
  else item.contentLength = 0 ∧ item.chunked = false

theorem HeadersRead.bodyOffset_le {cap : Capacity} {item : Connection} {marker : ℕ}
    {parsed : ParsedHeaders}
    (h : HeadersRead cap item marker parsed) : item.bodyOffset ≤ item.input.length := by
  rw [h.bodyOffset]
  exact firstIndex_le h.found

/-- How the bytes behind a header section give the body of its request. -/
def BodyTaken (parsed : ParsedHeaders) (bodyText body : Bytes) : Prop :=
  if parsed.chunked then
    ∃ layout : ChunkedLayout, layout.Fits ∧ bodyText = layout.text ∧ body = layout.body
  else bodyText = body ∧ body.length = parsed.contentLength.getD 0

namespace Session

section

variable {cap : Capacity} {item : Connection} {marker : ℕ} {parsed : ParsedHeaders}

theorem readBody_inBounds (h : HeadersRead cap item marker parsed) :
    readBody cap item ≠ .outOfBounds := by
  have hoffset := h.bodyOffset_le
  rw [readBody]
  split
  · have hdecode : decodeChunked cap item.input item.bodyOffset ≠ none :=
      decodeChunks_inBounds (by omega) hoffset (Nat.zero_le _)
    split
    next hnone => exact absurd hnone hdecode
    all_goals exact fun h => by cases h
  · split
    · exact fun h => by cases h
    next hbody =>
      split
      · exact fun h => by cases h
      next hlength =>
        have hcopy : copyToBody cap [] item.input item.bodyOffset item.contentLength =
            some ([] ++ slice item.input item.bodyOffset (item.bodyOffset + item.contentLength)) := by
          rw [copyToBody, if_neg]
          simp only [Bool.or_eq_true, decide_eq_true_eq, List.length_nil]
          omega
        rw [hcopy]
        exact fun h => by cases h

theorem readBody_complete {consumed : ℕ} {body : Bytes} (h : HeadersRead cap item marker parsed)
    (hr : readBody cap item = .complete consumed body) : ∃ bodyText, item.input.drop (marker + 4) =
    bodyText ++ item.input.drop consumed ∧ consumed = marker +
    4 + bodyText.length ∧ consumed ≤ item.input.length ∧ BodyTaken parsed bodyText body := by
  have hoffset := h.bodyOffset_le
  rw [readBody] at hr
  split at hr
  next hchunked =>
    split at hr
    all_goals cases hr
    next hdecode =>
      obtain ⟨layout, hfits, hconsumed, hdrop, hbody⟩ := decodeChunks_complete hdecode
      rw [h.bodyOffset] at hconsumed hdrop hoffset
      refine ⟨layout.text, hdrop, hconsumed, ?_, ?_⟩
      · have hlen := congrArg List.length hdrop
        rw [List.length_append, List.length_drop, List.length_drop] at hlen
        omega
      · rw [BodyTaken, ← h.chunked, if_pos hchunked]
        exact ⟨layout, hfits, rfl, hbody⟩
  next hchunked =>
    split at hr
    · cases hr
    · split at hr
      · cases hr
      next hlength =>
        split at hr
        · cases hr
        next copied hcopy =>
          have hcopied : copied = slice item.input item.bodyOffset (item.bodyOffset + item.contentLength) := by
            rw [copyToBody] at hcopy
            split at hcopy
            · cases hcopy
            · exact (Option.some.inj hcopy).symm
          simp only [BodyRead.complete.injEq] at hr
          have hslice : (slice item.input item.bodyOffset (item.bodyOffset + item.contentLength)).length =
              item.contentLength := by
            rw [slice, List.length_take, List.length_drop]
            omega
          rw [hcopied] at hr
          have hjoin := List.take_append_drop item.contentLength (item.input.drop item.bodyOffset)
          rw [List.drop_drop] at hjoin
          have hlen : body.length = item.contentLength := by
            rw [← hr.2, hslice]
          refine ⟨body, ?_, ?_, ?_, ?_⟩
          · rw [← h.bodyOffset, ← hr.1, ← hr.2, slice, Nat.add_sub_cancel_left, hjoin]
          · rw [← hr.1, hlen, h.bodyOffset]
          · rw [← hr.1]
            omega
          · rw [BodyTaken, ← h.chunked, if_neg hchunked, hlen]
            exact ⟨rfl, h.contentLength⟩

end

variable {σ : Type} {host : Host σ} {s : Session σ}

/-- What reading headers and sending an error leave alone. -/
structure SameRequests (s s' : Session σ) : Prop where
  input : s'.item.input = s.item.input
  requestCount : s'.item.requestCount = s.item.requestCount
  app : s'.app = s.app
  dispatched : s'.dispatched = s.dispatched
  outOfBounds : s'.outOfBounds = s.outOfBounds

theorem SameRequests.refl (s : Session σ) : SameRequests s s := ⟨rfl, rfl, rfl, rfl, rfl⟩

theorem sendResponse_same (host : Host σ) (s : Session σ) (request : Request) (response : Response)
    (keepAlive : Bool) : SameRequests s (s.sendResponse host request response keepAlive).2 ∧
    (s.sendResponse host request response keepAlive).2.item = s.item := by
  rw [sendResponse]
  split
  · exact ⟨SameRequests.refl s, rfl⟩
  · exact ⟨⟨rfl, rfl, rfl, rfl, rfl⟩, rfl⟩

theorem sendError_same (host : Host σ) (s : Session σ) (code : ℕ) (message : Bytes) :
    SameRequests s (s.sendError host code message) ∧ (s.sendError host code message).item.used = false := by
  have hsame := (sendResponse_same host s {} (errorResponse host.cap code message) false).1
  exact ⟨⟨hsame.input, hsame.requestCount, hsame.app, hsame.dispatched, hsame.outOfBounds⟩, rfl⟩

theorem withHeaders_read {marker : ℕ} {parsed : ParsedHeaders}
    (hc : s.item.contentLength = 0 ∧ s.item.chunked = false)
    (hm : findHeaderEnd s.item.input = some marker) (hfits : marker + 4 ≤ host.cap.maxHeaderBytes)
    (hp : parseHeaders host.cap s.item.input marker = .ok parsed) :
    HeadersRead host.cap (s.withHeaders parsed marker).item marker parsed where
  found := hm
  fits := hfits
  accepted := hp
  request := rfl
  contentLength := by
    change parsed.contentLength.getD s.item.contentLength = _
    rw [hc.1]
  chunked := by
    change (s.item.chunked || parsed.chunked) = _
    rw [hc.2, Bool.false_or]
  keepAlive := rfl
  bodyOffset := rfl

/-- What the first half of a round can do: nothing, close the connection, or read the headers. -/
theorem readHeaders_cases (hc : Coherent host.cap s.item) :
    SameRequests s (s.readHeaders host).2 ∧
      ((s.readHeaders host = (false, s) ∧ s.item.headersParsed = false) ∨
        ((s.readHeaders host).1 = false ∧ (s.readHeaders host).2.item.used = false) ∨
        ((s.readHeaders host).1 = true ∧ (s.readHeaders host).2.item.used = s.item.used ∧
          (s.readHeaders host).2.item.headersParsed = true ∧
          ∃ marker parsed, HeadersRead host.cap (s.readHeaders host).2.item marker parsed)) := by
  rw [Coherent] at hc
  rw [readHeaders]
  split
  next hparsed =>
    rw [if_pos hparsed] at hc
    exact ⟨SameRequests.refl s, Or.inr (Or.inr ⟨rfl, rfl, hparsed, hc⟩)⟩
  next hparsed =>
    rw [if_neg hparsed] at hc
    rw [Bool.not_eq_true] at hparsed
    split
    · simp only
      split
      · exact ⟨(sendError_same host s _ _).1, Or.inr (Or.inl ⟨rfl, (sendError_same host s _ _).2⟩)⟩
      · exact ⟨SameRequests.refl s, Or.inl ⟨rfl, hparsed⟩⟩
    next marker hm =>
      split
      · exact ⟨(sendError_same host s _ _).1, Or.inr (Or.inl ⟨rfl, (sendError_same host s _ _).2⟩)⟩
      next hfits =>
        split
        · exact ⟨(sendError_same host s _ _).1, Or.inr (Or.inl ⟨rfl, (sendError_same host s _ _).2⟩)⟩
        next parsed hp =>
          have hread := withHeaders_read hc hm (Nat.le_of_not_lt hfits) hp
          split
          · rw [send]
            split
            next hsend =>
              have hs := congrArg Prod.snd hsend
              simp only at hs
              subst hs
              exact ⟨⟨rfl, rfl, rfl, rfl, rfl⟩, Or.inr (Or.inr ⟨rfl, rfl, rfl, marker, parsed, hread⟩)⟩
            next hsend =>
              have hs := congrArg Prod.snd hsend
              simp only at hs
              subst hs
              exact ⟨⟨rfl, rfl, rfl, rfl, rfl⟩, Or.inr (Or.inl ⟨rfl, rfl⟩)⟩
          · exact ⟨⟨rfl, rfl, rfl, rfl, rfl⟩, Or.inr (Or.inr ⟨rfl, rfl, rfl, marker, parsed, hread⟩)⟩

/-- What answering a request leaves: its bytes are off the buffer, or the connection is closed. -/
theorem respond_cases (host : Host σ) (request : Request) {consumed : ℕ}
    (h : consumed ≤ s.item.input.length) :
    (s.respond host request consumed).2.dispatched = s.dispatched ++ [request] ∧
    (s.respond host request consumed).2.outOfBounds = s.outOfBounds ∧
    (((s.respond host request consumed).1 = false ∧ (s.respond host request consumed).2.item.used = false) ∨
      ((s.respond host request consumed).2.item.used = s.item.used ∧
        s.item.requestCount + 1 < host.cap.maxRequestsPerConnection ∧
        (s.respond host request consumed).2.item =
          { input := s.item.input.drop consumed, requestCount := s.item.requestCount + 1,
            used := s.item.used } ∧
        ((s.respond host request consumed).1 = true ↔ s.item.input.drop consumed ≠ []))) := by
  rw [respond]
  generalize dispatchRequest host.cap host.routes s.app request = dispatched
  obtain ⟨app, response⟩ := dispatched
  simp only
  rw [sendResponse]
  generalize renderResponse host.cap request _ _ = rendered
  cases rendered with
  | none => exact ⟨rfl, rfl, Or.inl ⟨rfl, rfl⟩⟩
  | some text =>
    simp only [send]
    split
    next hsend =>
      have hs := congrArg Prod.snd hsend
      simp only at hs
      subst hs
      exact ⟨rfl, rfl, Or.inl ⟨rfl, rfl⟩⟩
    next hsend =>
      have hs := congrArg Prod.snd hsend
      simp only at hs
      subst hs
      split
      · exact ⟨rfl, rfl, Or.inl ⟨rfl, rfl⟩⟩
      next hopen =>
        simp only [Bool.not_eq_true', Bool.and_eq_false_iff, decide_eq_false_iff_not, not_or,
          Bool.not_eq_false, not_not] at hopen
        rw [if_neg (Nat.not_lt.mpr h)]
        split
        next hempty =>
          refine ⟨rfl, rfl, Or.inr ⟨rfl, hopen.2, rfl, ?_⟩⟩
          simpa [List.isEmpty_iff] using hempty
        next hempty =>
          refine ⟨rfl, rfl, Or.inr ⟨rfl, hopen.2, rfl, ?_⟩⟩
          simpa [List.isEmpty_iff] using hempty

/-- The bytes of a receive behind those of the buffer. -/
def append (s : Session σ) (data : Bytes) : Session σ :=
  s.modify fun item => { item with input := item.input ++ data }

end Session

section

variable {cap : Capacity} {input : Bytes} {marker : ℕ}

theorem findHeaderEnd_append (h : findHeaderEnd input = some marker) (data : Bytes) :
    findHeaderEnd (input ++ data) = some marker :=
  firstIndex_append (List.cons_ne_nil _ _) h data

theorem parseHeaders_append (h : findHeaderEnd input = some marker) (data : Bytes) :
    parseHeaders cap (input ++ data) marker = parseHeaders cap input marker := by
  have hle := firstIndex_le h
  rw [parseHeaders, parseHeaders, List.take_append_of_le_length (by omega)]

theorem HeadersRead.append {item : Connection} {parsed : ParsedHeaders}
    (h : HeadersRead cap item marker parsed) (data : Bytes) :
    HeadersRead cap { item with input := item.input ++ data } marker parsed where
  found := findHeaderEnd_append h.found data
  fits := h.fits
  accepted := (parseHeaders_append h.found data).trans h.accepted
  request := h.request
  contentLength := h.contentLength
  chunked := h.chunked
  keepAlive := h.keepAlive
  bodyOffset := h.bodyOffset

theorem Coherent.append {item : Connection} (h : Coherent cap item) (data : Bytes) :
    Coherent cap { item with input := item.input ++ data } := by
  rw [Coherent] at h ⊢
  split
  next hparsed =>
    rw [if_pos hparsed] at h
    obtain ⟨marker, parsed, hread⟩ := h
    exact ⟨marker, parsed, hread.append data⟩
  next hparsed =>
    rw [if_neg hparsed] at h
    exact h

end

namespace Session

variable {σ : Type} {host : Host σ} {s : Session σ}

theorem processRequest_coherent (host : Host σ) (hc : Coherent host.cap s.item)
    (hu : (s.processRequest host).2.item.used = true) :
    Coherent host.cap (s.processRequest host).2.item := by
  have hcases := readHeaders_cases hc
  rw [processRequest] at hu ⊢
  generalize s.readHeaders host = read at hcases hu ⊢
  obtain ⟨again, s'⟩ := read
  obtain ⟨hsame, hcases⟩ := hcases
  simp only at hsame hcases
  cases again with
  | false =>
    simp only at hu ⊢
    apply hcases.elim
    · intro h
      have hs : s' = s := congrArg Prod.snd h.1
      rw [hs]
      exact hc
    · intro h
      apply h.elim
      · intro h
        rw [h.2] at hu
        cases hu
      · intro h
        cases h.1
  | true =>
    have hread : s'.item.headersParsed = true ∧
        ∃ marker parsed, HeadersRead host.cap s'.item marker parsed := by
      apply hcases.elim
      · intro h
        cases congrArg Prod.fst h.1
      · intro h
        apply h.elim
        · intro h
          cases h.1
        · exact fun h => h.2.2
    obtain ⟨hparsed, marker, parsed, hread⟩ := hread
    simp only at hu ⊢
    split at hu
    · rw [Coherent, if_pos hparsed]
      exact ⟨marker, parsed, hread⟩
    · rw [(sendError_same host s' _ _).2] at hu
      cases hu
    next hout => exact absurd hout (readBody_inBounds hread)
    next consumed body hbody =>
      obtain ⟨bodyText, _, _, hle, _⟩ := readBody_complete hread hbody
      have hrespond := respond_cases host { s'.item.request with body := body } hle
      apply hrespond.2.2.elim
      · intro hclosed
        rw [hclosed.2] at hu
        cases hu
      · intro hopen
        rw [hopen.2.2.1]
        exact ⟨rfl, rfl⟩

/-- The states in which the loop of `process_buffer` begins a round, and those between receives. -/
inductive Reachable (host : Host σ) : Session σ → Prop where
  | fresh (app : σ) : Reachable host { app := app }
  | received (s : Session σ) (data : Bytes) (hu : s.item.used = true)
      (hfits : data.length ≤ host.cap.maxRequestSize - s.item.input.length) :
      Reachable host s → Reachable host (s.append data)
  | refused (s : Session σ) (code : ℕ) (message : Bytes) :
      Reachable host s → Reachable host (s.sendError host code message)
  | round (s : Session σ) (hu : s.item.used = true) :
      Reachable host s → Reachable host (s.processRequest host).2

theorem Reachable.coherent (h : Reachable host s) : s.item.used = true → Coherent host.cap s.item := by
  induction h with
  | fresh app => exact fun _ => ⟨rfl, rfl⟩
  | received s data hu hfits _ ih => exact fun _ => (ih hu).append data
  | refused s code message _ ih =>
    intro hu
    rw [(sendError_same host s code message).2] at hu
    cases hu
  | round s hu _ ih => exact processRequest_coherent host (ih hu)

theorem Reachable.rounds (h : Reachable host s) (fuel : ℕ) :
    Reachable host (s.processRounds host fuel) := by
  induction fuel generalizing s with
  | zero => exact h
  | succ fuel ih =>
    rw [processRounds]
    split
    next hu =>
      have hround := Reachable.round s hu h
      generalize s.processRequest host = round at hround ⊢
      obtain ⟨again, s'⟩ := round
      cases again with
      | false => exact hround
      | true => exact ih hround
    · exact h

theorem Reachable.onReceive (h : Reachable host s) (data : Bytes) :
    Reachable host (s.onReceive host data) := by
  rw [Session.onReceive]
  split
  · exact h
  next hused =>
    simp only [Bool.or_eq_true, Bool.not_eq_true', not_or, Bool.not_eq_false] at hused
    split
    · exact Reachable.refused s _ _ h
    next hfits => exact (Reachable.received s data hused.1 (Nat.le_of_not_lt hfits) h).rounds _

end Session

/-!
## The framing of requests

A request that is dispatched is laid out at the front of the buffer, and the bytes that are
taken off are those of the layout. The parser looks at neither the extension of a chunk nor
the value of a trailer, so that the request is well-formed exactly when these are.
-/

variable {cap : Capacity} {input : Bytes} {marker : ℕ} {parsed : ParsedHeaders}

def Request.texts (request : Request) : RequestTexts where
  method := request.methodText
  target := request.target
  version := request.version
  fields := request.headers
  body := request.body

/-- The extensions and the trailer values of a chunked body behind the header section are those
of HTTP. -/
def ChunksAllowed (cap : Capacity) (input : Bytes) : Prop :=
  ∀ marker parsed (layout : ChunkedLayout) (rest : Bytes), findHeaderEnd input = some marker →
    parseHeaders cap input marker = .ok parsed → parsed.chunked = true → layout.Fits →
    input.drop (marker + 4) = layout.text ++ rest → layout.Strict

theorem accepted_wellFormed {bodyText body : Bytes} (h : HeadersAccepted cap input marker parsed)
    (hb : BodyTaken parsed bodyText body) (hstrict : parsed.chunked = true →
      ∃ layout : ChunkedLayout, layout.Fits ∧ layout.Strict ∧ bodyText = layout.text ∧ body = layout.body) :
    WellFormed ({ parsed.request with body := body } : Request).texts
      (input.take (marker + 4) ++ bodyText) := by
  obtain ⟨fieldLines, hlines, htext⟩ := h.fields
  refine ⟨h.method, h.target, h.host, fieldLines, bodyText, hlines, ?_, ?_⟩
  · change BodyFraming parsed.request.headers bodyText body
    rw [BodyTaken] at hb
    cases hc : parsed.chunked with
    | true =>
      have hnone : parsed.contentLength = none := by
        cases hl : parsed.contentLength with
        | none => rfl
        | some n =>
          have := h.single (by rw [hl]; rfl)
          rw [hc] at this
          cases this
      refine Or.inr (Or.inr ⟨?_, ?_, h.chunked, hstrict hc⟩)
      · rw [h.contentLength, hnone]
        rfl
      · rw [h.transferEncoding, hc]
        rfl
    | false =>
      rw [hc] at hb
      have hte : parsed.request.headers.count (octets "Transfer-Encoding") = 0 := by
        rw [h.transferEncoding, hc]
        rfl
      cases hl : parsed.contentLength with
      | none =>
        rw [hl] at hb
        have hbody : body = [] := List.length_eq_zero_iff.mp hb.2
        refine Or.inl ⟨?_, hte, hb.1.trans hbody, hbody⟩
        rw [h.contentLength, hl]
        rfl
      | some n =>
        rw [hl] at hb
        refine Or.inr (Or.inl ⟨?_, hte, ?_, hb.1⟩)
        · rw [h.contentLength, hl]
          rfl
        · intro field hf hn
          rw [(h.length n (by rw [hl]; rfl)).2 field hf hn, show body.length = n from hb.2]
  · rw [htext]
    rfl

theorem wellFormed_chunksAllowed {request : RequestTexts} {text rest : Bytes}
    (hm : findHeaderEnd (text ++ rest) = some marker)
    (h : HeadersAccepted cap (text ++ rest) marker parsed)
    (hp : parseHeaders cap (text ++ rest) marker = .ok parsed)
    (hfields : request.fields = parsed.request.headers) (hw : WellFormed request text) :
    ChunksAllowed cap (text ++ rest) := by
  intro marker' parsed' layout tail hm' hp' hchunked hfits hdrop
  rw [hm] at hm'
  obtain rfl := Option.some.inj hm'
  rw [hp] at hp'
  obtain rfl := Except.ok.inj hp'
  obtain ⟨bodyText, hbody, _, hframing⟩ := hw.headerEnd hm
  have hte := h.transferEncoding
  rw [hchunked, ← hfields] at hte
  rw [hdrop] at hbody
  apply hframing.elim
  · intro hnone
    rw [hnone.2.1] at hte
    cases hte
  · intro hframing
    apply hframing.elim
    · intro hlength
      rw [hlength.2.1] at hte
      cases hte
    · intro hchunks
      obtain ⟨_, _, _, layout', hfits', hstrict, htext, _⟩ := hchunks
      rw [htext] at hbody
      rw [(ChunkedLayout.unique hfits hfits' hbody).1]
      exact hstrict

namespace Session

variable {σ : Type} {host : Host σ} {s : Session σ}

/-- The header section and the body of a request stand at the front of the buffer, and what is
behind them is left by the round. -/
def Takes (host : Host σ) (s : Session σ) (request : Request) : Prop :=
  ∃ marker parsed bodyText body, findHeaderEnd s.item.input = some marker ∧
    parseHeaders host.cap s.item.input marker = .ok parsed ∧ BodyTaken parsed bodyText body ∧
    request = { parsed.request with body := body } ∧
    s.item.input.drop (marker + 4) = bodyText ++ s.item.input.drop (marker + 4 + bodyText.length) ∧
    ((s.processRequest host).2.item.used = true → (s.processRequest host).2.item.input =
      s.item.input.drop (marker + 4 + bodyText.length))

theorem processRequest_dispatched (hc : Coherent host.cap s.item) :
    (s.processRequest host).2.outOfBounds = s.outOfBounds ∧
    ((s.processRequest host).2.dispatched = s.dispatched ∨
      ∃ request, (s.processRequest host).2.dispatched = s.dispatched ++ [request] ∧ Takes host s request) := by
  have hcases := readHeaders_cases hc
  simp only [Takes, processRequest]
  generalize s.readHeaders host = read at hcases ⊢
  obtain ⟨again, s'⟩ := read
  obtain ⟨hsame, hcases⟩ := hcases
  simp only at hsame hcases
  cases again with
  | false => exact ⟨hsame.outOfBounds, Or.inl hsame.dispatched⟩
  | true =>
    have hread : ∃ marker parsed, HeadersRead host.cap s'.item marker parsed := by
      apply hcases.elim
      · intro h
        cases congrArg Prod.fst h.1
      · intro h
        apply h.elim
        · intro h
          cases h.1
        · exact fun h => h.2.2.2
    obtain ⟨marker, parsed, hread⟩ := hread
    simp only
    split
    · exact ⟨hsame.outOfBounds, Or.inl hsame.dispatched⟩
    · have herror := fun code message => (sendError_same host s' code message).1
      exact ⟨(herror _ _).outOfBounds.trans hsame.outOfBounds,
        Or.inl ((herror _ _).dispatched.trans hsame.dispatched)⟩
    next hout => exact absurd hout (readBody_inBounds hread)
    next consumed body hbody =>
      obtain ⟨bodyText, hdrop, hconsumed, hle, htaken⟩ := readBody_complete hread hbody
      have hrespond := respond_cases host { s'.item.request with body := body } hle
      refine ⟨hrespond.2.1.trans hsame.outOfBounds, Or.inr ⟨_, ?_, marker, parsed, bodyText, body, ?_, ?_, htaken,
        rfl, ?_, ?_⟩⟩
      · rw [hrespond.1, hsame.dispatched, hread.request]
      · rw [← hsame.input]
        exact hread.found
      · rw [← hsame.input]
        exact hread.accepted
      · rw [← hsame.input, ← hconsumed]
        exact hdrop
      · intro hused
        apply hrespond.2.2.elim
        · intro hclosed
          rw [hclosed.2] at hused
          cases hused
        · intro hopen
          rw [hopen.2.2.1, ← hsame.input, ← hconsumed]

/-- A request that is dispatched in a round is well-formed and takes its own bytes off the buffer
exactly when the extensions and trailers of its chunks are allowed; and every access of the
round is in bounds. -/
theorem dispatched_wellFormed_iff (hr : Reachable host s) (hu : s.item.used = true) :
    (s.processRequest host).2.outOfBounds = s.outOfBounds ∧
    ((s.processRequest host).2.dispatched = s.dispatched ∨
      ∃ request, (s.processRequest host).2.dispatched = s.dispatched ++ [request]) ∧
    ∀ request : Request, (s.processRequest host).2.dispatched = s.dispatched ++ [request] →
      ((∃ text rest, s.item.input = text ++ rest ∧ WellFormed request.texts text ∧
        ((s.processRequest host).2.item.used = true → (s.processRequest host).2.item.input = rest)) ↔
      ChunksAllowed host.cap s.item.input) := by
  obtain ⟨hbounds, hdispatched⟩ := processRequest_dispatched (hr.coherent hu)
  refine ⟨hbounds, hdispatched.imp_right fun h => h.imp fun _ => And.left, ?_⟩
  intro request hrequest
  have hround : Takes host s request := by
    obtain hsame | ⟨request', hlog, htaken⟩ := hdispatched
    · rw [hsame] at hrequest
      have hlen := congrArg List.length hrequest
      simp at hlen
    · rw [hlog] at hrequest
      rwa [← List.singleton_inj.mp (List.append_cancel_left hrequest)]
  obtain ⟨marker, parsed, bodyText, body, hm, hp, htaken, hrequest, hdrop, hnext⟩ := hround
  have haccepted := parseHeaders_accepted hm hp
  have hsplit : s.item.input = s.item.input.take (marker + 4) ++ bodyText ++
      s.item.input.drop (marker + 4 + bodyText.length) := by
    rw [List.append_assoc, ← hdrop, List.take_append_drop]
  constructor
  · intro h
    obtain ⟨text, rest, hinput, hwell, _⟩ := h
    rw [hinput] at hm hp haccepted ⊢
    exact wellFormed_chunksAllowed hm haccepted hp (by rw [hrequest]; rfl) hwell
  · intro hallowed
    refine ⟨_, _, hsplit, ?_, hnext⟩
    rw [hrequest]
    apply accepted_wellFormed haccepted htaken
    intro hchunked
    rw [BodyTaken, if_pos hchunked] at htaken
    obtain ⟨layout, hfits, htext, hbody⟩ := htaken
    refine ⟨layout, hfits, ?_, htext, hbody⟩
    rw [htext] at hdrop
    exact hallowed marker parsed layout _ hm hp hchunked hfits hdrop

/-- A server without routes, with the default capacities. -/
def bareHost : Host Unit where
  cap := Capacity.standard
  routes := ⟨[], none⟩
  sends := fun _ => true

def arrived (data : Bytes) : Session Unit := ({ app := () } : Session Unit).append data

theorem arrived_reachable {data : Bytes} (h : data.length ≤ 4096) : Reachable bareHost (arrived data) :=
  Reachable.received _ data rfl h (Reachable.fresh ())

def getRequest : Bytes := octets "GET / HTTP/1.1\r\nHost: a\r\n\r\n"

theorem get_wellFormed : ∃ request : Request,
    ((arrived getRequest).processRequest bareHost).2.dispatched = [request] ∧
    ∃ text rest, getRequest = text ++ rest ∧ WellFormed request.texts text := by
  have hlength : ((arrived getRequest).processRequest bareHost).2.dispatched.length = 1 :=
    by decide
  obtain ⟨request, hrequest⟩ := List.length_eq_one_iff.mp hlength
  have hframed := (dispatched_wellFormed_iff (arrived_reachable (by decide)) rfl).2.2 request hrequest
  have hallowed : ChunksAllowed Capacity.standard (arrived getRequest).item.input := by
    intro marker parsed layout rest hm hp hchunked
    have hmarker : findHeaderEnd (arrived getRequest).item.input = some 23 := by decide
    rw [hmarker] at hm
    obtain rfl := Option.some.inj hm
    have hnot : ((parseHeaders Capacity.standard (arrived getRequest).item.input 23).toOption.map
        ParsedHeaders.chunked) = some false := by decide
    rw [hp] at hnot
    rw [show parsed.chunked = false from Option.some.inj hnot] at hchunked
    cases hchunked
  obtain ⟨text, rest, hinput, hwell, _⟩ := hframed.mpr hallowed
  exact ⟨request, hrequest, text, rest, hinput, hwell⟩

/-- A trailer whose value holds a line feed, and behind it what looks like another field. -/
def splitTrailer : Bytes :=
  octets ("POST / HTTP/1.1\r\nHost: a\r\nTransfer-Encoding: chunked\r\n\r\n" ++
    "0\r\nX: a\nContent-Length: 9\r\n\r\n")

theorem split_trailer_dispatched : ∃ request : Request,
    ((arrived splitTrailer).processRequest bareHost).2.dispatched = [request] ∧
    ¬∃ text rest, splitTrailer = text ++ rest ∧ WellFormed request.texts text := by
  have hlength : ((arrived splitTrailer).processRequest bareHost).2.dispatched.length = 1 :=
    by decide
  obtain ⟨request, hrequest⟩ := List.length_eq_one_iff.mp hlength
  refine ⟨request, hrequest, ?_⟩
  intro h
  obtain ⟨text, rest, hinput, hwell⟩ := h
  have hreachable : Reachable bareHost (arrived splitTrailer) := arrived_reachable (by decide)
  have hround := (processRequest_dispatched (hreachable.coherent rfl)).2
  rw [hrequest] at hround
  have hround := hround.resolve_left (List.cons_ne_nil _ _)
  obtain ⟨_, hlog, marker, parsed, bodyText, body, hm, hp, _, rfl, _⟩ := hround
  have hfields : request.texts.fields = parsed.request.headers := by
    rw [List.singleton_inj.mp hlog]
    rfl
  have hinput' : (arrived splitTrailer).item.input = text ++ rest := hinput
  rw [hinput'] at hm hp
  have hallowed := wellFormed_chunksAllowed hm (parseHeaders_accepted hm hp) hp hfields hwell
  rw [← hinput'] at hm hp hallowed
  have hmarker : findHeaderEnd (arrived splitTrailer).item.input = some 52 := by decide
  rw [hmarker] at hm
  obtain rfl := Option.some.inj hm
  have hchunked : ((parseHeaders Capacity.standard (arrived splitTrailer).item.input 52).toOption.map
      ParsedHeaders.chunked) = some true := by decide
  have hparsed : parseHeaders Capacity.standard (arrived splitTrailer).item.input 52 = .ok parsed := hp
  rw [hparsed] at hchunked
  -- the only layout has the value that is not allowed
  have hstrict := hallowed 52 parsed
    ⟨[], ⟨octets "0", []⟩, [⟨octets "X", octets " a\nContent-Length: 9"⟩]⟩ [] hmarker hp
    (Option.some.inj hchunked)
    ⟨fun _ hm => absurd hm List.not_mem_nil,
      ⟨⟨by decide, by decide⟩, fun _ hc => absurd hc (by simp), by decide⟩, by
        intro trailer ht
        rw [List.mem_singleton.mp ht]
        exact ⟨by decide, by decide, by decide⟩⟩
    (by decide)
  have hvalue := hstrict.trailerValues _ (List.mem_singleton_self _)
  exact absurd hvalue (by decide)

end Session

end Castle.Http.Server
