import Castle.Http.Http1.Client
import Castle.Lib.Steps

/-!
# How the operations of the client end

An operation that has ended leaves a client that can connect again, and a request that was not
abandoned is answered once.
-/

namespace Castle.Http.Http1.Client

variable {cap : ClientCapacity} {c c' : Client} {a : PollAnswers}

/-- The statuses of a `poll` with which an operation goes on, or has succeeded -/
def Passing (status : Status) : Prop :=
  status = .ok ∨ status = .timeOut ∨ status = .empty ∨ status = .full

instance (status : Status) : Decidable (Passing status) := by
  unfold Passing
  infer_instance

/-- How often the response callback has run for a request -/
def runs (c : Client) (request : ℕ) : ℕ := c.reports.countP fun r => r.request = request

/-- What holds of the requests and the reports. -/
structure Counted (cap : ClientCapacity) (c : Client) : Prop where
  report : ∀ r ∈ c.reports, r.request ≤ c.accepted
  abandoned : ∀ k ∈ c.abandoned, k ≤ c.accepted
  requesting : c.requesting = true → c.accepted ∉ c.abandoned ∧ c.runs c.accepted = 0
  atMost : ∀ k, c.runs k ≤ 1
  once : cap.responseCallback = true → ∀ k, 1 ≤ k → k ≤ c.accepted → k ∉ c.abandoned →
    c.requesting = true ∧ k = c.accepted ∨ c.runs k = 1

/-- The requests and the reports are as before. -/
structure Same (c c' : Client) : Prop where
  accepted : c'.accepted = c.accepted
  abandoned : c'.abandoned = c.abandoned
  reports : c'.reports = c.reports
  requesting : c'.requesting = c.requesting

/-- The latest request was answered, and it may have been abandoned before. -/
structure Answered (cap : ClientCapacity) (c c' : Client) : Prop where
  accepted : c'.accepted = c.accepted
  abandoned : c'.abandoned = c.abandoned ∨ c'.abandoned = c.accepted :: c.abandoned
  reports : ∃ r, r.request = c.accepted ∧
    c'.reports = if cap.responseCallback = true then r :: c.reports else c.reports
  requesting : c'.requesting = false

theorem Counted.new (cap : ClientCapacity) : Counted cap {} where
  report _ h := absurd h List.not_mem_nil
  abandoned _ h := absurd h List.not_mem_nil
  requesting h := absurd h (by decide)
  atMost _ := Nat.zero_le 1
  once _ k hk hle := absurd (hk.trans hle) (by decide)

theorem Counted.same (hc : Counted cap c) (h : Same c c') : Counted cap c' where
  report := by
    rw [h.reports, h.accepted]
    exact hc.report
  abandoned := by
    rw [h.abandoned, h.accepted]
    exact hc.abandoned
  requesting := by
    rw [h.requesting, h.abandoned, h.accepted, runs, h.reports]
    exact hc.requesting
  atMost k := by
    rw [runs, h.reports]
    exact hc.atMost k
  once := by
    rw [h.requesting, h.abandoned, h.accepted]
    intro hcallback k hk hle hnot
    rw [runs, h.reports]
    exact hc.once hcallback k hk hle hnot

theorem Counted.answered (hc : Counted cap c) (hrequesting : c.requesting = true)
    (h : Answered cap c c') : Counted cap c' := by
  obtain ⟨r, hr, hreports⟩ := h.reports
  obtain ⟨_, hnone⟩ := hc.requesting hrequesting
  have hruns : ∀ k, c'.runs k = c.runs k + if cap.responseCallback = true ∧ k = c.accepted then 1 else 0 := by
    intro k
    rw [runs, hreports]
    by_cases hcallback : cap.responseCallback = true
    · rw [if_pos hcallback, List.countP_cons, hr]
      simp [hcallback, eq_comm (a := c.accepted), runs]
    · rw [if_neg hcallback, if_neg fun h => hcallback h.1]
      rfl
  constructor
  · rw [h.accepted, hreports]
    intro r' hr'
    by_cases hcallback : cap.responseCallback = true
    · rw [if_pos hcallback] at hr'
      rcases List.mem_cons.mp hr' with rfl | hr'
      · exact hr.le
      · exact hc.report r' hr'
    · rw [if_neg hcallback] at hr'
      exact hc.report r' hr'
  · rw [h.accepted]
    intro k hk
    rcases h.abandoned with heq | heq
    · exact hc.abandoned k (heq ▸ hk)
    · rw [heq] at hk
      rcases List.mem_cons.mp hk with rfl | hk
      · exact le_rfl
      · exact hc.abandoned k hk
  · intro hbusy
    exact absurd (h.requesting.symm.trans hbusy) Bool.false_ne_true
  · intro k
    rw [hruns]
    by_cases hk : cap.responseCallback = true ∧ k = c.accepted
    · rw [if_pos hk, hk.2, hnone]
    · rw [if_neg hk]
      exact hc.atMost k
  · intro hcallback k hk hle hnot
    right
    rw [hruns]
    by_cases hlast : k = c.accepted
    · rw [if_pos ⟨hcallback, hlast⟩, hlast, hnone]
    · rw [if_neg fun h => hlast h.2]
      have hnot' : k ∉ c.abandoned := by
        rcases h.abandoned with heq | heq
        · exact heq ▸ hnot
        · exact fun hk => hnot (heq ▸ List.mem_cons_of_mem _ hk)
      rcases hc.once hcallback k hk (h.accepted ▸ hle) hnot' with ⟨_, heq⟩ | hone
      · exact absurd heq hlast
      · exact hone

theorem Counted.close (hc : Counted cap c) : Counted cap c.close := by
  by_cases hrequesting : c.requesting = true
  · have habandoned : c.close.abandoned = c.accepted :: c.abandoned := if_pos hrequesting
    constructor
    · exact hc.report
    · rw [habandoned]
      intro k hk
      rcases List.mem_cons.mp hk with rfl | hk
      · exact le_rfl
      · exact hc.abandoned k hk
    · exact fun h => absurd h Bool.false_ne_true
    · exact hc.atMost
    · rw [habandoned]
      intro hcallback k hk hle hnot
      rcases hc.once hcallback k hk hle fun h => hnot (List.mem_cons_of_mem _ h) with ⟨_, rfl⟩ | hone
      · exact absurd List.mem_cons_self hnot
      · exact Or.inr hone
  · refine hc.same ⟨rfl, if_neg hrequesting, rfl, ?_⟩
    exact (Bool.not_eq_true _ ▸ hrequesting).symm

theorem Counted.accept (hc : Counted cap c) (hidle : c.requesting = false)
    (haccepted : c'.accepted = c.accepted + 1) (habandoned : c'.abandoned = c.abandoned)
    (hreports : c'.reports = c.reports) (hrequesting : c'.requesting = true) : Counted cap c' where
  report := by
    rw [hreports, haccepted]
    exact fun r hr => (hc.report r hr).trans (Nat.le_succ _)
  abandoned := by
    rw [habandoned, haccepted]
    exact fun k hk => (hc.abandoned k hk).trans (Nat.le_succ _)
  requesting := by
    rw [habandoned, haccepted, runs, hreports]
    refine fun _ => ⟨fun h => ?_, ?_⟩
    · exact absurd (hc.abandoned _ h) (Nat.not_succ_le_self _)
    · rw [List.countP_eq_zero]
      intro r hr heq
      have hle := hc.report r hr
      rw [of_decide_eq_true heq] at hle
      exact Nat.not_succ_le_self _ hle
  atMost k := by
    rw [runs, hreports]
    exact hc.atMost k
  once hcallback k hk hle hnot := by
    rw [haccepted] at hle ⊢
    rw [habandoned] at hnot
    by_cases hlast : k = c.accepted + 1
    · exact Or.inl ⟨hrequesting, hlast⟩
    · rw [runs, hreports]
      rcases hc.once hcallback k hk (by omega) hnot with ⟨h, _⟩ | hone
      · exact absurd (hidle.symm.trans h) Bool.false_ne_true
      · exact Or.inr hone

/-- The bytes that `receive_some` reads -/
def chunk (cap : ClientCapacity) (c : Client) (a : PollAnswers) : List Arrived :=
  c.unread.take (min a.received cap.receiveBufferSize)

/-- The bytes are read in this call of `poll`, if the transport is readable. -/
def Waits (c : Client) (a : PollAnswers) : Prop :=
  c.state = .receiving ∨
    c.state = .sending ∧ a.sendSome = .ok ∧ (c.advance a).bytesSent = c.request.length

/-- The body callback closes the client, and the same chunk ends a response that leaves the
connection open. -/
def ClosesReusable (cap : ClientCapacity) (c : Client) (a : PollAnswers) : Prop :=
  (a.waitReadable = .ok ∧ (a.receiveSome = .ok ∨ a.receiveSome = .empty)) ∧
    a.bodyCloses = true ∧ a.peerClosed = false ∧ c.chunk cap a ≠ [] ∧ c.requestKeepAlive = true ∧
    ∃ parser, c.parser.feed cap.parser ((c.chunk cap a).map Arrived.byte) false =
        (.ok, (c.chunk cap a).length, parser) ∧
      parser.delivered ≠ c.parser.delivered ∧ parser.state = .complete ∧ parser.keepAlive = true

/-- The end of an operation, as `fail` leaves it -/
structure Over (c : Client) : Prop where
  busy : c.busy = false
  connected : c.connected = false
  isOpen : c.isOpen = false
  canConnect : c.canConnect = true

/-- What a `poll` leaves of a request that is in flight -/
inductive Received (cap : ClientCapacity) (c : Client) (a : PollAnswers) : Client × Status → Prop
  | waits {c' : Client} {status : Status} (h : Same c c') (hconnected : c'.connected = c.connected)
    (hstatus : Passing status ∨ ¬Passing a.waitReadable ∧ status = a.waitReadable) :
    Received cap c a (c', status)
  | closed {c' : Client} (habandoned : c'.abandoned = c.accepted :: c.abandoned) (hreports : c'.reports = c.reports)
    (haccepted : c'.accepted = c.accepted) (hover : Over c') : Received cap c a (c', .ok)
  | failed {c' : Client} {status : Status} (h : Answered cap c c') (hover : Over c') : Received cap c a (c', status)
  | kept {c' : Client} (h : Answered cap c c') (hstate : c'.state = .ready)
    (hconnected : c'.connected = c.connected) : Received cap c a (c', .ok)
  | lost {c' : Client} (h : Answered cap c c') (hstate : c'.state = .ready) (hconnected : c'.connected = false)
    (hcloses : ClosesReusable cap c a) : Received cap c a (c', .ok)

theorem report_eq (cap : ClientCapacity) (c : Client) (result : Status) : c.report cap result = { c with
    reports := if cap.responseCallback = true then
      ⟨c.accepted, result, c.parser.response, c.fed, c.waiting⟩ :: c.reports else c.reports } := by
  rw [report]
  by_cases h : cap.responseCallback = true
  · rw [if_pos h, if_pos h]
  · rw [if_neg h, if_neg h]

theorem over_fail (cap : ClientCapacity) (c : Client) (result : Status) : Over (c.fail cap result).1 := by
  rw [fail, report_eq]
  exact ⟨rfl, rfl, rfl, rfl⟩

theorem answered_report {result : Status} (haccepted : c'.accepted = c.accepted)
    (habandoned : c'.abandoned = c.abandoned ∨ c'.abandoned = c.accepted :: c.abandoned)
    (hreports : c'.reports = c.reports) (hrequesting : c'.requesting = false) :
    Answered cap c (c'.report cap result) := by
  rw [report_eq]
  refine ⟨haccepted, habandoned, ?_, hrequesting⟩
  refine ⟨⟨c'.accepted, result, c'.parser.response, c'.fed, c'.waiting⟩, haccepted, ?_⟩
  dsimp only
  rw [hreports]

theorem answered_fail {result : Status} (haccepted : c'.accepted = c.accepted)
    (habandoned : c'.abandoned = c.abandoned ∨ c'.abandoned = c.accepted :: c.abandoned)
    (hreports : c'.reports = c.reports) : Answered cap c (c'.fail cap result).1 :=
  answered_report haccepted habandoned hreports rfl

theorem answered_completeResponse {reusable : Bool} (haccepted : c'.accepted = c.accepted)
    (habandoned : c'.abandoned = c.abandoned ∨ c'.abandoned = c.accepted :: c.abandoned)
    (hreports : c'.reports = c.reports) : Answered cap c (c'.completeResponse cap reusable).1 := by
  rw [completeResponse]
  by_cases hclose : (!reusable || !c'.parser.keepAlive || !c'.requestKeepAlive) = true
  · rw [if_pos hclose]
    exact answered_report haccepted habandoned hreports rfl
  · rw [if_neg hclose]
    exact answered_report haccepted habandoned hreports rfl

theorem completeResponse_state (cap : ClientCapacity) (c : Client) (reusable : Bool) :
    Over (c.completeResponse cap reusable).1 ∨
    (reusable = true ∧ c.parser.keepAlive = true ∧ c.requestKeepAlive = true) ∧
      (c.completeResponse cap reusable).1.state = .ready ∧
        (c.completeResponse cap reusable).1.connected = c.connected := by
  rw [completeResponse]
  by_cases hclose : (!reusable || !c.parser.keepAlive || !c.requestKeepAlive) = true
  · rw [if_pos hclose, report_eq]
    exact Or.inl ⟨rfl, rfl, rfl, rfl⟩
  · rw [if_neg hclose, report_eq]
    simp only [Bool.or_eq_true, Bool.not_eq_true', not_or, Bool.not_eq_false] at hclose
    exact Or.inr ⟨⟨hclose.1.1, hclose.1.2, hclose.2⟩, rfl, rfl⟩

theorem received_feed (hrequesting : c.requesting = true) {c₁ : Client} (hunread : c₁ = { c with
      state := .receiving, bytesSent := c₁.bytesSent, unread := c₁.unread })
    (hready : a.waitReadable = .ok ∧ (a.receiveSome = .ok ∨ a.receiveSome = .empty))
    (hdata : c.chunk cap a ≠ [] ∨ a.peerClosed = true) :
    Received cap c a (c₁.feed cap (c.chunk cap a) a) := by
  have haccepted : c₁.accepted = c.accepted := (congrArg Client.accepted hunread).trans rfl
  have habandoned : c₁.abandoned = c.abandoned := (congrArg Client.abandoned hunread).trans rfl
  have hreports : c₁.reports = c.reports := (congrArg Client.reports hunread).trans rfl
  have hstate : c₁.state = .receiving := (congrArg Client.state hunread).trans rfl
  have hconnected : c₁.connected = c.connected := (congrArg Client.connected hunread).trans rfl
  have hkeep : c₁.requestKeepAlive = c.requestKeepAlive :=
    (congrArg Client.requestKeepAlive hunread).trans rfl
  have hparser : c₁.parser = c.parser := (congrArg Client.parser hunread).trans rfl
  have hrequesting₁ : c₁.requesting = true := by
    rw [Client.requesting, hstate]
    rfl
  rw [feed]
  generalize hfed : c₁.parser.feed cap.parser ((c.chunk cap a).map Arrived.byte) a.peerClosed = p
  obtain ⟨result, consumed, parser⟩ := p
  dsimp only
  by_cases hcloses : a.bodyCloses = true ∧ parser.delivered ≠ c₁.parser.delivered
  · rw [if_pos hcloses]
    have hclose : ({ c₁ with parser := parser, fed := c₁.fed ++ (c.chunk cap a).take consumed } :
        Client).close.abandoned = c.accepted :: c.abandoned := by
      rw [← haccepted, ← habandoned]
      exact if_pos hrequesting₁
    by_cases hok : result = .ok
    · rw [if_neg fun h => h hok]
      by_cases hcomplete : parser.state = .complete
      · rw [if_pos hcomplete]
        have hanswered : Answered cap c ((({ c₁ with
            parser := parser, fed := c₁.fed ++ (c.chunk cap a).take consumed } : Client).close.completeResponse
            cap (!a.peerClosed && decide (consumed = (c.chunk cap a).length))).1) :=
          answered_completeResponse haccepted (Or.inr hclose) hreports
        rcases completeResponse_state cap ({ c₁ with
            parser := parser, fed := c₁.fed ++ (c.chunk cap a).take consumed } : Client).close
            (!a.peerClosed && decide (consumed = (c.chunk cap a).length)) with
          hover | ⟨⟨hreusable, hparserKeep, hrequestKeep⟩, hready', hconnected'⟩
        · exact .failed hanswered hover
        · refine .lost hanswered hready' hconnected' ⟨hready, hcloses.1, ?_⟩
          rw [Bool.and_eq_true, Bool.not_eq_true', decide_eq_true_eq] at hreusable
          have hchunk : c.chunk cap a ≠ [] :=
            hdata.resolve_right fun h => absurd (hreusable.1.symm.trans h) Bool.false_ne_true
          refine ⟨hreusable.1, hchunk, hkeep.symm.trans hrequestKeep, parser, ?_, ?_, hcomplete, hparserKeep⟩
          · rw [hreusable.1, hparser, hok, hreusable.2] at hfed
            exact hfed
          · exact hparser ▸ hcloses.2
      · rw [if_neg hcomplete, hok]
        exact .closed hclose hreports haccepted ⟨rfl, rfl, rfl, rfl⟩
    · rw [if_pos hok]
      exact .failed (answered_fail haccepted (Or.inr hclose) hreports) (over_fail cap _ result)
  · rw [if_neg hcloses]
    by_cases hok : result = .ok
    · rw [if_neg fun h => h hok]
      by_cases hcomplete : parser.state = .complete
      · rw [if_pos hcomplete]
        have hanswered : Answered cap c ((({ c₁ with
            parser := parser, fed := c₁.fed ++ (c.chunk cap a).take consumed } : Client).completeResponse
            cap (!a.peerClosed && decide (consumed = (c.chunk cap a).length))).1) :=
          answered_completeResponse haccepted (Or.inl habandoned) hreports
        rcases completeResponse_state cap ({ c₁ with
            parser := parser, fed := c₁.fed ++ (c.chunk cap a).take consumed } : Client)
            (!a.peerClosed && decide (consumed = (c.chunk cap a).length)) with
          hover | ⟨_, hready', hconnected'⟩
        · exact .failed hanswered hover
        · exact .kept hanswered hready' (hconnected'.trans hconnected)
      · rw [if_neg hcomplete]
        refine .waits ⟨haccepted, habandoned, hreports, ?_⟩ hconnected (Or.inl (Or.inl hok))
        exact hrequesting₁.trans hrequesting.symm
    · rw [if_pos hok]
      exact .failed (answered_fail haccepted (Or.inl habandoned) hreports) (over_fail cap _ result)

theorem received_receive (hrequesting : c.requesting = true) {c₁ : Client} (hsame : c₁ = { c with
      state := .receiving, bytesSent := c₁.bytesSent }) : Received cap c a (c₁.receive cap a) := by
  have hstate : c₁.requesting = true := by
    rw [hsame]
    rfl
  have hunread : c₁.unread = c.unread := (congrArg Client.unread hsame).trans rfl
  have hwaits : ∀ unread, Same c { c₁ with unread := unread } := by
    intro unread
    refine ⟨?_, ?_, ?_, hstate.trans hrequesting.symm⟩
    · exact (congrArg Client.accepted hsame).trans rfl
    · exact (congrArg Client.abandoned hsame).trans rfl
    · exact (congrArg Client.reports hsame).trans rfl
  have hconnected : c₁.connected = c.connected := (congrArg Client.connected hsame).trans rfl
  rw [receive]
  by_cases hwait : a.waitReadable = .ok
  · rw [if_neg fun h => h hwait]
    dsimp only
    by_cases hfailed : a.receiveSome ≠ .ok ∧ a.receiveSome ≠ .empty
    · rw [if_pos hfailed]
      refine .failed (answered_fail ?_ (Or.inl ?_) ?_) (over_fail cap _ _)
      · exact (hwaits _).accepted
      · exact (hwaits _).abandoned
      · exact (hwaits _).reports
    · rw [if_neg hfailed]
      have hreceived : a.receiveSome = .ok ∨ a.receiveSome = .empty := by
        by_cases hok : a.receiveSome = .ok
        · exact Or.inl hok
        · exact Or.inr (not_not.mp fun hempty => hfailed ⟨hok, hempty⟩)
      rw [hunread]
      by_cases hdata : c.unread.take (min a.received cap.receiveBufferSize) ≠ [] ∨ a.peerClosed = true
      · rw [if_pos hdata]
        refine received_feed hrequesting ?_ ⟨hwait, hreceived⟩ hdata
        rw [hsame]
      · rw [if_neg hdata]
        refine .waits (hwaits _) hconnected (Or.inl ?_)
        rcases hreceived with h | h
        · exact Or.inl h
        · exact Or.inr (Or.inr (Or.inl h))
  · rw [if_pos hwait]
    refine .waits (hwaits c₁.unread) hconnected ?_
    by_cases hpass : Passing a.waitReadable
    · exact Or.inl hpass
    · exact Or.inr ⟨hpass, rfl⟩

/-- What a `poll` does -/
inductive Polled (cap : ClientCapacity) (c : Client) (a : PollAnswers) : Client × Status → Prop
  | quiet (status : Status) (hidle : c.busy = false) : Polled cap c a (c, status)
  | waits (hstate : c.state = .connecting) (h : a.finishConnect ≠ .ok) : Polled cap c a (c, a.finishConnect)
  | connected (hstate : c.state = .connecting) (h : a.finishConnect = .ok) :
    Polled cap c a ({ c with connected := true, state := .ready }, .ok)
  | sent {c' : Client} {status : Status} (hrequesting : c.requesting = true) (h : Same c c')
    (hconnected : c'.connected = c.connected) (hstatus : Passing status) : Polled cap c a (c', status)
  | failed {c' : Client} {status : Status} (hrequesting : c.requesting = true) (h : Answered cap c c')
    (hover : Over c') : Polled cap c a (c', status)
  | received {p : Client × Status} (hrequesting : c.requesting = true) (hwaits : c.Waits a)
    (h : Received cap c a p) : Polled cap c a p

theorem requesting_of_sending (h : c.state = .sending) : c.requesting = true := by
  rw [requesting, h]
  rfl

theorem polled (cap : ClientCapacity) (c : Client) (a : PollAnswers) : Polled cap c a (c.poll cap a) := by
  rw [poll]
  cases hstate : c.state with
  | disconnected => exact .quiet _ (by rw [busy, hstate]; rfl)
  | ready => exact .quiet _ (by rw [busy, hstate]; rfl)
  | failed => exact .quiet _ (by rw [busy, hstate]; rfl)
  | connecting =>
    dsimp only
    by_cases hok : a.finishConnect = .ok
    · rw [if_neg fun h => h hok]
      exact .connected hstate hok
    · rw [if_pos hok]
      exact .waits hstate hok
  | receiving =>
    have hrequesting : c.requesting = true := by
      rw [requesting, hstate]
      rfl
    refine .received hrequesting (Or.inl hstate) (received_receive hrequesting ?_)
    rw [← hstate]
  | sending =>
    have hrequesting := requesting_of_sending hstate
    have hsame : Same c (c.advance a) := ⟨rfl, rfl, rfl, rfl⟩
    dsimp only
    by_cases hblocked : a.sendSome = .full ∨ a.sendSome = .empty
    · rw [if_pos hblocked]
      exact .sent hrequesting hsame rfl (Or.inr (Or.inr hblocked.symm))
    · rw [if_neg hblocked]
      by_cases hok : a.sendSome = .ok
      · rw [if_neg fun h => h hok]
        by_cases hall : (c.advance a).bytesSent = (c.advance a).request.length
        · rw [if_pos hall]
          exact .received hrequesting (Or.inr ⟨hstate, hok, hall⟩) (received_receive hrequesting rfl)
        · rw [if_neg hall]
          exact .sent hrequesting hsame rfl (Or.inl rfl)
      · rw [if_pos hok]
        exact .failed hrequesting (answered_fail rfl (Or.inl rfl) rfl) (over_fail cap _ _)

/-- A client that is ready, or has a request in flight, is connected. -/
structure Sound (cap : ClientCapacity) (c : Client) : Prop where
  counted : Counted cap c
  ready : c.state = .ready → c.connected = true
  requesting : c.requesting = true → c.connected = true

/-- What a call leaves, and what it returns -/
structure StepHolds (cap : ClientCapacity) (c : Client) (call : ClientCall) : Prop where
  /-- A `poll` that reports a failure has ended the operation. -/
  ended : ∀ a, call = .poll a → c.busy = true → ¬Passing (c.poll cap a).2 → Over (c.poll cap a).1
  /-- The response callback runs once for a request that is not abandoned. -/
  answered : cap.responseCallback = true → ∀ k, 1 ≤ k → k ≤ (c.perform cap call).accepted →
    k ∉ (c.perform cap call).abandoned → (c.perform cap call).runs k =
      if (c.perform cap call).requesting = true ∧ k = (c.perform cap call).accepted then 0 else 1
  usable : (c.perform cap call).busy = true ∨ (c.perform cap call).canConnect = true ∨
    (c.perform cap call).canRequest = true

/-- What the defects need: a failure of `finish_connect` or of `wait_readable` in the operation
that it belongs to, or a body callback that closes the client of a reusable connection. -/
def Benign (cap : ClientCapacity) (c : Client) : ClientCall → Prop
  | .poll a => (c.state = .connecting → Passing a.finishConnect) ∧
    (c.Waits a → Passing a.waitReadable ∧ ¬c.ClosesReusable cap a)
  | _ => True

theorem Counted.exact (hc : Counted cap c) (hcallback : cap.responseCallback = true) {k : ℕ} (hk : 1 ≤ k)
    (hle : k ≤ c.accepted) (hnot : k ∉ c.abandoned) :
    c.runs k = if c.requesting = true ∧ k = c.accepted then 0 else 1 := by
  by_cases hflight : c.requesting = true ∧ k = c.accepted
  · rw [if_pos hflight, hflight.2]
    exact (hc.requesting hflight.1).2
  · rw [if_neg hflight]
    exact (hc.once hcallback k hk hle hnot).resolve_left hflight

theorem requesting_of_ready (h : c.state = .ready) : c.requesting = false := by
  rw [requesting, h]
  rfl

theorem Over.requesting (h : Over c) : c.requesting = false := by
  have hbusy := h.busy
  rw [Client.busy, Bool.or_eq_false_iff] at hbusy
  exact hbusy.1

theorem Over.notReady (h : Over c) : c.state ≠ .ready := by
  intro hready
  have hconnect := h.canConnect
  rw [Client.canConnect, hready] at hconnect
  exact absurd hconnect (by decide)

theorem sound_over (hc : Counted cap c) (h : Over c) : Sound cap c :=
  ⟨hc, fun hready => absurd hready h.notReady, fun hbusy =>
    absurd (h.requesting.symm.trans hbusy) Bool.false_ne_true⟩

theorem Sound.same (hc : Sound cap c) (hrequesting : c.requesting = true) (h : Same c c')
    (hconnected : c'.connected = c.connected) : Sound cap c' where
  counted := hc.counted.same h
  ready _ := hconnected.trans (hc.requesting hrequesting)
  requesting _ := hconnected.trans (hc.requesting hrequesting)

theorem Sound.polled (hc : Sound cap c) (hbenign : Benign cap c (.poll a)) {p : Client × Status}
    (h : Polled cap c a p) : Sound cap p.1 := by
  cases h with
  | quiet => exact hc
  | waits => exact hc
  | connected hstate =>
    have hidle : c.requesting = false := by
      rw [Client.requesting, hstate]
      rfl
    exact ⟨hc.counted.same ⟨rfl, rfl, rfl, hidle.symm⟩, fun _ => rfl, fun _ => rfl⟩
  | sent hrequesting h hconnected _ => exact hc.same hrequesting h hconnected
  | failed hrequesting h hover => exact sound_over (hc.counted.answered hrequesting h) hover
  | received hrequesting hwaits h =>
    cases h with
    | waits h hconnected _ => exact hc.same hrequesting h hconnected
    | closed habandoned hreports haccepted hover =>
      refine sound_over (hc.counted.close.same ⟨haccepted, ?_, hreports, hover.requesting⟩) hover
      rw [habandoned]
      exact (if_pos hrequesting).symm
    | failed h hover => exact sound_over (hc.counted.answered hrequesting h) hover
    | kept h hstate hconnected =>
      refine ⟨hc.counted.answered hrequesting h, fun _ => hconnected.trans (hc.requesting hrequesting), ?_⟩
      exact fun hbusy => absurd ((requesting_of_ready hstate).symm.trans hbusy) Bool.false_ne_true
    | lost _ _ _ hcloses => exact absurd hcloses (hbenign.2 hwaits).2

theorem Sound.connectTransport (hc : Sound cap c) (hidle : c.requesting = false) (authority : Bytes)
    (answer : Status) : Sound cap ({ c with authority := authority }.connectTransport answer).1 := by
  have hrequesting : ({ c with authority := authority }.connectTransport answer).1.requesting = false := by
    rw [Client.connectTransport]
    by_cases hok : answer = .ok
    · simp only [if_pos hok, Client.requesting]
      rfl
    · by_cases hpending : answer = .timeOut
      · simp only [if_neg hok, if_pos hpending, Client.requesting]
        rfl
      · simp only [if_neg hok, if_neg hpending, Client.requesting]
        rfl
  refine ⟨hc.counted.same ⟨rfl, rfl, rfl, hrequesting.trans hidle.symm⟩, fun hready => ?_, fun hbusy => ?_⟩
  · rw [Client.connectTransport] at hready ⊢
    by_cases hok : answer = .ok
    · exact decide_eq_true hok
    · dsimp only at hready
      rw [if_neg hok] at hready
      split at hready <;> cases hready
  · exact absurd (hrequesting.symm.trans hbusy) Bool.false_ne_true

theorem Sound.perform (hc : Sound cap c) {call : ClientCall} (hbenign : Benign cap c call) :
    Sound cap (c.perform cap call) := by
  cases call with
  | connect remote authority answer =>
    rw [Client.perform, Client.connect.eq_def]
    by_cases hrefused : c.canConnect = true
    · rw [if_neg (by simp [hrefused])]
      have hidle : c.requesting = false := by
        rw [canConnect, Bool.or_eq_true, decide_eq_true_eq, decide_eq_true_eq] at hrefused
        rcases hrefused with h | h <;> (rw [Client.requesting, h]; rfl)
      cases authority with
      | none => exact hc.connectTransport hidle _ answer
      | some authority =>
        dsimp only
        obtain ⟨named, authority⟩ := assignAuthority authority
        cases named
        case ok => exact hc.connectTransport hidle authority answer
        all_goals exact ⟨hc.counted.same ⟨rfl, rfl, rfl, rfl⟩, hc.ready, hc.requesting⟩
    · rw [if_pos (by simp [hrefused])]
      exact hc
  | request call =>
    rw [Client.perform, send]
    by_cases hready : c.canRequest = true
    · rw [if_neg (by simp [hready])]
      rw [canRequest, Bool.and_eq_true, decide_eq_true_eq] at hready
      generalize ({ call with authority := c.authority } : RequestCall).build cap.request = built
      obtain ⟨result, request⟩ := built
      cases result
      case ok =>
        refine ⟨hc.counted.accept (requesting_of_ready hready.2) rfl rfl rfl rfl, fun h => ?_, fun _ => ?_⟩
        · cases h
        · exact hready.1
      all_goals exact ⟨hc.counted.same ⟨rfl, rfl, rfl, rfl⟩, hc.ready, hc.requesting⟩
    · rw [if_pos (by simp [hready])]
      exact hc
  | poll a => exact hc.polled hbenign (Client.polled cap c a)
  | close => exact sound_over hc.counted.close ⟨rfl, rfl, rfl, rfl⟩
  | arrive bytes =>
    rw [Client.perform]
    split
    · exact ⟨hc.counted.same ⟨rfl, rfl, rfl, rfl⟩, hc.ready, hc.requesting⟩
    · exact hc

theorem Sound.usable (hc : Sound cap c) : c.busy = true ∨ c.canConnect = true ∨ c.canRequest = true := by
  cases hstate : c.state with
  | ready =>
    refine Or.inr (Or.inr ?_)
    rw [canRequest, hc.ready hstate, hstate]
    rfl
  | disconnected => exact Or.inr (Or.inl (by rw [canConnect, hstate]; rfl))
  | failed => exact Or.inr (Or.inl (by rw [canConnect, hstate]; rfl))
  | _ => exact Or.inl (by rw [busy, hstate]; rfl)

theorem Sound.stepHolds (hc : Sound cap c) {call : ClientCall} (hbenign : Benign cap c call) :
    StepHolds cap c call where
  ended := by
    rintro a rfl hbusy hhard
    have h := Client.polled cap c a
    generalize c.poll cap a = p at h hhard ⊢
    cases h with
    | quiet _ hidle => exact absurd (hidle.symm.trans hbusy) Bool.false_ne_true
    | waits hstate => exact absurd (hbenign.1 hstate) hhard
    | connected => exact absurd (Or.inl rfl) hhard
    | sent _ _ _ hstatus => exact absurd hstatus hhard
    | failed _ _ hover => exact hover
    | received _ hwaits h =>
      cases h with
      | waits _ _ hstatus =>
        rcases hstatus with hpass | ⟨hnot, _⟩
        · exact absurd hpass hhard
        · exact absurd (hbenign.2 hwaits).1 hnot
      | closed => exact absurd (Or.inl rfl) hhard
      | failed _ hover => exact hover
      | kept => exact absurd (Or.inl rfl) hhard
      | lost => exact absurd (Or.inl rfl) hhard
  answered hcallback k hk hle hnot := (hc.perform hbenign).counted.exact hcallback hk hle hnot
  usable := (hc.perform hbenign).usable

theorem receive_unreadable (h : ¬Passing a.waitReadable) : c.receive cap a = (c, a.waitReadable) := by
  rw [receive, if_pos fun hok => h (Or.inl hok)]

theorem poll_waits (h : c.Waits a) : ∃ c₁ : Client, c₁ = { c with
    state := .receiving, bytesSent := c₁.bytesSent } ∧ c.poll cap a = c₁.receive cap a := by
  rcases h with hstate | ⟨hstate, hok, hall⟩
  · refine ⟨c, ?_, ?_⟩
    · rw [← hstate]
    · rw [poll, hstate]
  · refine ⟨{ c.advance a with state := .receiving }, rfl, ?_⟩
    rw [poll, hstate]
    dsimp only
    rw [if_neg (by rw [hok]; decide), if_neg fun h => h hok]
    exact if_pos hall

theorem lost_of_closesReusable {c₁ : Client} (hsame : c₁ = { c with
      state := .receiving, bytesSent := c₁.bytesSent }) (h : c.ClosesReusable cap a) :
    (c₁.receive cap a).1.state = .ready ∧ (c₁.receive cap a).1.connected = false := by
  obtain ⟨⟨hwait, hreceived⟩, hcloses, hpeer, hchunk, hrequestKeep, parser, hfed, hran, hcomplete, hkeep⟩ := h
  have hunread : c₁.unread = c.unread := (congrArg Client.unread hsame).trans rfl
  have hparser : c₁.parser = c.parser := (congrArg Client.parser hsame).trans rfl
  have hrequestKeep₁ : c₁.requestKeepAlive = true :=
    (congrArg Client.requestKeepAlive hsame).trans hrequestKeep
  rw [receive, if_neg fun h => h hwait]
  dsimp only
  rw [if_neg fun h => hreceived.elim h.1 h.2, hunread]
  change (if c.chunk cap a ≠ [] ∨ a.peerClosed = true then _ else _ : Client × Status).1.state = _ ∧
    (if c.chunk cap a ≠ [] ∨ a.peerClosed = true then _ else _ : Client × Status).1.connected = _
  rw [if_pos (Or.inl hchunk)]
  have hfed' : c₁.parser.feed cap.parser ((c.chunk cap a).map Arrived.byte) a.peerClosed =
      (.ok, (c.chunk cap a).length, parser) := by
    rw [hparser, hpeer, hfed]
  have hran' : a.bodyCloses = true ∧ parser.delivered ≠ c₁.parser.delivered := by
    rw [hparser]
    exact ⟨hcloses, hran⟩
  change ((feed cap { c₁ with unread := _ } (c.chunk cap a) a).1.state = _ ∧
    (feed cap { c₁ with unread := _ } (c.chunk cap a) a).1.connected = _)
  rw [feed]
  dsimp only
  rw [hfed']
  dsimp only
  rw [if_pos hran', if_neg (by simp), if_pos hcomplete, completeResponse, report_eq]
  simp only [close, closeTransport, hpeer, hkeep, hrequestKeep₁]
  exact ⟨rfl, rfl⟩

theorem benign_of_stepHolds {call : ClientCall} (h : StepHolds cap c call) : Benign cap c call := by
  cases call with
  | poll a =>
    refine ⟨fun hstate => ?_, fun hwaits => ⟨?_, fun hcloses => ?_⟩⟩
    · by_contra hhard
      have hbusy : c.busy = true := by
        rw [busy, hstate]
        rfl
      have hpoll : c.poll cap a = (c, a.finishConnect) := by
        rw [poll, hstate]
        exact if_pos fun hok => hhard (Or.inl hok)
      have hover := h.ended a rfl hbusy
      rw [hpoll] at hover
      exact absurd ((hover hhard).busy.symm.trans hbusy) Bool.false_ne_true
    · by_contra hhard
      obtain ⟨c₁, hsame, hpoll⟩ := @poll_waits cap c a hwaits
      rw [receive_unreadable hhard] at hpoll
      have hbusy : c.busy = true := by
        rcases hwaits with hstate | ⟨hstate, _⟩ <;> (rw [busy, hstate]; rfl)
      have hbusy₁ : c₁.busy = true := by
        rw [busy, hsame]
        rfl
      have hover := h.ended a rfl hbusy
      rw [hpoll] at hover
      exact absurd ((hover hhard).busy.symm.trans hbusy₁) Bool.false_ne_true
    · obtain ⟨c₁, hsame, hpoll⟩ := @poll_waits cap c a hwaits
      obtain ⟨hready, hconnected⟩ := lost_of_closesReusable hsame hcloses
      have husable := h.usable
      rw [Client.perform, hpoll, busy, canConnect, canRequest, hready, hconnected] at husable
      exact absurd husable (by decide)
  | _ => exact True.intro

/-- A run in which an operation that has failed is over, every request is answered once, and the
client can always be used, is one in which the defects do not show. -/
theorem outcomes_iff (cap : ClientCapacity) (calls : List ClientCall) :
    AtEach calls (fun before call => StepHolds cap (after cap before) call) ↔
      AtEach calls fun before call => Benign cap (after cap before) call := by
  apply @AtEach.iff_of_invariant _ _ _ _ fun before => Sound cap (after cap before)
  · exact ⟨.new cap, fun h => ClientState.noConfusion h, fun h => absurd h Bool.false_ne_true⟩
  · intro before call _ hsound hbenign
    rw [after_snoc]
    exact hsound.perform hbenign
  · intro before call _ hsound
    exact ⟨benign_of_stepHolds, hsound.stepHolds⟩

/-- Small buffers, with both callbacks -/
def smallCapacity : ClientCapacity where
  request := ⟨64, ⟨4, 16, 16⟩, Nat.le_refl (nat_lit 64), RequestCapacity.smallest_fits⟩
  parser := { ParserCapacity.standard with bodyCallback := true }
  receiveBufferSize := 64
  responseCallback := true
  receiveBuffer_pos := Nat.succ_pos (nat_lit 63)

/-- A connect that fails behind a `time_out` -/
def failedConnect : List ClientCall :=
  [.connect {} (some (octets "a")) .timeOut, .poll { finishConnect := .systemCallError }]

/-- A request whose response cannot be waited for -/
def unreadable : List ClientCall :=
  [.connect {} (some (octets "a")) .ok, .request ⟨.get, octets "/", [], [], [], [], true⟩,
    .poll { sent := 64, waitReadable := .systemCallError }]

def closedByBody : List ClientCall :=
  [.connect {} (some (octets "a")) .ok, .request ⟨.get, octets "/", [], [], [], [], true⟩,
    .arrive (octets "HTTP/1.1 200 OK\r\nContent-Length: 1\r\n\r\nx"),
    .poll { sent := 64, received := 64, bodyCloses := true }]

/-- The operation that has failed stays in flight, and the client that was closed stays refused. -/
theorem outcomes_differ :
    ¬AtEach failedConnect (fun before call => StepHolds smallCapacity (after smallCapacity before) call) ∧
    ¬AtEach unreadable (fun before call => StepHolds smallCapacity (after smallCapacity before) call) ∧
    ¬AtEach closedByBody (fun before call => StepHolds smallCapacity (after smallCapacity before) call) := by
  refine ⟨fun h => ?_, fun h => ?_, fun h => ?_⟩
  · have hlast := (h (failedConnect.take 1) _ (List.prefix_refl failedConnect)).ended _ rfl
      (by decide) (by decide)
    exact absurd hlast.busy (by decide)
  · have hlast := (h (unreadable.take 2) _ (List.prefix_refl unreadable)).ended _ rfl
      (by decide) (by decide)
    exact absurd hlast.busy (by decide)
  · have hlast := (h (closedByBody.take 3) _ (List.prefix_refl closedByBody)).usable
    exact absurd hlast (by decide)

end Castle.Http.Http1.Client
