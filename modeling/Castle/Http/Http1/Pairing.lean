import Castle.Http.Http1.Client
import Castle.Http.Http1.CompleteResponses
import Castle.Lib.Steps

/-!
# Requests and their responses

The bytes that wait in the transport when a request is accepted are read as the response to it.
-/

namespace Castle.Http.Http1

namespace Parser

variable {cap : ParserCapacity} {p q : Parser}

theorem run_pos (hopen : Open p) {bytes : Bytes} (hcomplete : (run cap p bytes).2.2.state = .complete) :
    0 < (run cap p bytes).2.1 := by
  cases bytes with
  | nil => exact absurd hcomplete hopen.1
  | cons c rest =>
    have hcases := round_cases cap hopen c rest
    rw [run_cons hopen] at hcomplete ⊢
    generalize p.round cap c rest = result at hcases hcomplete ⊢
    obtain ⟨status, taken, p'⟩ := result
    simp only at hcases hcomplete ⊢
    rcases hcases with ⟨hok, _, hone, _⟩ | ⟨hne, hfailed⟩
    · rw [if_pos hok, behind]
      dsimp only
      omega
    · rw [if_neg hne, hfailed] at hcomplete
      cases hcomplete

variable {peerClosed : Bool}

theorem run_ok_of_feed (hopen : Open p) {data : Bytes} {consumed : ℕ}
    (h : p.feed cap data peerClosed = (.ok, consumed, q)) : (run cap p data).1 = .ok := by
  rw [feed_open hopen] at h
  by_contra hne
  rw [finish, if_neg fun h => hne h.1] at h
  exact hne (congrArg Prod.fst h)

theorem feed_take (hopen : Open p) {data : Bytes} {consumed : ℕ}
    (h : p.feed cap data peerClosed = (.ok, consumed, q)) (hcomplete : q.state = .complete) :
    consumed ≤ data.length ∧ p.feed cap (data.take consumed) peerClosed = (.ok, consumed, q) := by
  have hok := run_ok_of_feed hopen h
  rw [feed_open hopen] at h
  rcases run_cases cap hopen data with ⟨_, _, hall⟩ | ⟨_, hdone, hle⟩ | ⟨hne, _⟩
  · have hconsumed : consumed = data.length := by
      rw [← hall]
      have hsnd := congrArg (fun result => result.2.1) h
      rw [finish] at hsnd
      split at hsnd
      · split at hsnd <;> exact hsnd.symm
      · exact hsnd.symm
    rw [hconsumed, List.take_length, feed_open hopen, h, hconsumed]
    exact ⟨le_rfl, rfl⟩
  · rw [finish, if_neg fun h => h.2.2 hdone] at h
    have hconsumed : (run cap p data).2.1 = consumed := congrArg (fun result => result.2.1) h
    rw [hconsumed] at hle
    refine ⟨hle, ?_⟩
    have hsplit := run_append cap hopen (data.take consumed) (data.drop consumed)
    rw [List.take_append_drop, List.length_take, Nat.min_eq_left hle, h] at hsplit
    rcases hsplit with ⟨_, hopen', hsame | ⟨hne, _⟩⟩ | ⟨_, hdone', hsame⟩ | ⟨hne, hsame | ⟨hne', _⟩⟩
    · -- the rest would end the response without a byte
      have hlast : (run cap (run cap p (data.take consumed)).2.2 (data.drop consumed)).2.2.state = .complete :=
        (congrArg (fun result => result.2.2.state) hsame).symm.trans hcomplete
      have hrest := run_pos hopen' hlast
      have hzero : consumed = consumed + _ := congrArg (fun result => result.2.1) hsame
      omega
    · exact absurd rfl hne
    · rw [feed_open hopen, ← hsame, finish, if_neg fun h => h.2.2 hcomplete]
    · exact absurd (congrArg Prod.fst hsame).symm hne
    · exact absurd rfl hne'
  · exact absurd hok hne

theorem run_behind (hopen : Open p) {first data : Bytes} (h : run cap p first = (.ok, first.length, q))
    (hopen' : Open q) (hok : (run cap q data).1 = .ok) :
    run cap p (first ++ data) = behind first.length (run cap q data) := by
  rcases run_append cap hopen first data with ⟨_, _, hsame⟩ | ⟨_, hdone, _⟩ | ⟨hne, _⟩
  · rw [h] at hsame
    rcases hsame with hsame | ⟨hne, heq, _⟩
    · exact hsame
    · exact absurd (heq.symm.trans hok) hne
  · rw [h] at hdone
    exact absurd hdone hopen'.1
  · rw [h] at hne
    exact absurd rfl hne

theorem run_of_feed (hopen : Open p) {data : Bytes} {consumed : ℕ}
    (h : p.feed cap data peerClosed = (.ok, consumed, q)) (hgoes : q.state ≠ .complete) :
    run cap p data = (.ok, data.length, q) ∧ consumed = data.length ∧ Open q := by
  have hok := run_ok_of_feed hopen h
  rw [feed_open hopen] at h
  by_cases hends : (run cap p data).1 = .ok ∧ peerClosed = true ∧ (run cap p data).2.2.state ≠ .complete
  · rw [finish, if_pos hends] at h
    split at h
    · exact absurd (congrArg (fun result => result.2.2.state) h).symm hgoes
    · exact absurd (congrArg Prod.fst h) (@fail_ne_ok (run cap p data).2.2 .connectionClosed (by decide))
  · rw [finish, if_neg hends] at h
    rcases run_cases cap hopen data with ⟨_, hopen', hall⟩ | ⟨_, hdone, _⟩ | ⟨hne, _⟩
    · rw [h] at hopen' hall
      dsimp only at hall
      rw [h, hall]
      exact ⟨rfl, rfl, hopen'⟩
    · rw [h] at hdone
      exact absurd hdone hgoes
    · exact absurd hok hne

end Parser

open Castle.Http.Http1.Parser

namespace Report

/-- The response is what the parser makes of the bytes of the report. -/
def Made (cap : ParserCapacity) (r : Report) : Prop :=
  ∃ headResponse peerClosed parser, (reset headResponse).feed cap (r.bytes.map Arrived.byte) peerClosed =
    (.ok, r.bytes.length, parser) ∧ parser.state = .complete ∧ r.view = parser.response

/-- Its bytes have arrived after the request was accepted. -/
def Paired (r : Report) : Prop := ∀ b ∈ r.bytes, r.request ≤ b.stamp

instance (r : Report) : Decidable r.Paired := by
  unfold Paired
  infer_instance

theorem Made.ne_nil {cap : ParserCapacity} {r : Report} (h : r.Made cap) : r.bytes ≠ [] := by
  obtain ⟨headResponse, peerClosed, parser, hfeed, hcomplete, _⟩ := h
  intro hnil
  rw [hnil, List.map_nil, feed_open (open_reset headResponse), run_nil, finish] at hfeed
  split at hfeed
  · cases congrArg Prod.fst hfeed
  · rw [← congrArg (fun result => result.2.2.state) hfeed] at hcomplete
    cases hcomplete

end Report

namespace Client

variable {cap : ClientCapacity} {c c' : Client}

/-- The bytes that a request has to do with: first those that waited when it was accepted. -/
def Split (c : Client) (bytes : List Arrived) : Prop :=
  ∃ later, bytes = c.waiting ++ later ∧ (∀ b ∈ c.waiting, b.stamp < c.accepted) ∧
    ∀ b ∈ later, c.accepted ≤ b.stamp

/-- The parser has taken all bytes that were read so far, and needs more. -/
def Parsed (cap : ClientCapacity) (c : Client) : Prop :=
  Open c.parser ∧ ∃ headResponse, run cap.parser (reset headResponse) (c.fed.map Arrived.byte) =
    (.ok, c.fed.length, c.parser)

/-- A report with status `ok` is of a response, paired if nothing waited. -/
def Good (cap : ClientCapacity) (r : Report) : Prop :=
  r.result = .ok → r.Made cap.parser ∧ (r.Paired ↔ r.waiting = [])

/-- What holds of the bytes between any two calls. -/
structure Linked (cap : ClientCapacity) (c : Client) : Prop where
  stamps : ∀ b ∈ c.unread, b.stamp ≤ c.accepted
  reports : ∀ r ∈ c.reports, Good cap r
  parsed : c.requesting = true → Parsed cap c
  split : c.requesting = true → c.Split (c.fed ++ c.unread)

theorem Linked.idle (hstamps : ∀ b ∈ c.unread, b.stamp ≤ c.accepted)
    (hreports : ∀ r ∈ c.reports, Good cap r) (hidle : c.requesting = false) : Linked cap c :=
  ⟨hstamps, hreports, fun h => absurd (hidle.symm.trans h) Bool.false_ne_true,
    fun h => absurd (hidle.symm.trans h) Bool.false_ne_true⟩

theorem good_of_complete (hparsed : Parsed cap c) {chunk rest : List Arrived}
    (hsplit : c.Split (c.fed ++ (chunk ++ rest))) {peerClosed : Bool} {consumed : ℕ} {parser : Parser}
    (hfeed : c.parser.feed cap.parser (chunk.map Arrived.byte) peerClosed = (.ok, consumed, parser))
    (hcomplete : parser.state = .complete) :
    Good cap ⟨c.accepted, .ok, parser.response, c.fed ++ chunk.take consumed, c.waiting⟩ := by
  obtain ⟨hopen, headResponse, hrun⟩ := hparsed
  obtain ⟨hle, htake⟩ := feed_take hopen hfeed hcomplete
  rw [List.length_map] at hle
  rw [← List.map_take] at htake
  intro _
  have hmade : Report.Made cap.parser
      ⟨c.accepted, .ok, parser.response, c.fed ++ chunk.take consumed, c.waiting⟩ := by
    refine ⟨headResponse, peerClosed, parser, ?_, hcomplete, rfl⟩
    have hrun' : run cap.parser (reset headResponse) (c.fed.map Arrived.byte) =
        (.ok, (c.fed.map Arrived.byte).length, c.parser) := by
      rw [List.length_map]
      exact hrun
    have hbehind := run_behind (open_reset headResponse) hrun' hopen (run_ok_of_feed hopen htake)
    rw [feed_open hopen] at htake
    rw [feed_open (open_reset headResponse), List.map_append, hbehind, finish_behind, htake, behind,
      List.length_map, List.length_append, List.length_take, Nat.min_eq_left hle]
  refine ⟨hmade, ?_⟩
  obtain ⟨later, hbytes, hold, hnew⟩ := hsplit
  have hinitial : c.fed ++ chunk.take consumed <+: c.waiting ++ later := by
    rw [← hbytes, List.prefix_append_right_inj]
    exact (List.take_prefix _ _).trans (List.prefix_append _ _)
  constructor
  · intro hpaired
    by_contra hwaiting
    obtain ⟨first, rest, hcons⟩ := List.exists_cons_of_ne_nil hwaiting
    obtain ⟨b, bytes, hb⟩ := List.exists_cons_of_ne_nil hmade.ne_nil
    dsimp only at hcons hb
    rw [hb, hcons, List.cons_append] at hinitial
    have heq : b = first := (List.cons_prefix_cons.mp hinitial).1
    have hlate := hpaired b (by dsimp only; rw [hb]; exact List.mem_cons_self)
    have hearly := hold first (hcons ▸ List.mem_cons_self)
    rw [heq] at hlate
    exact absurd hlate (Nat.not_le.mpr hearly)
  · intro hwaiting b hb
    dsimp only at hwaiting hb ⊢
    rw [hwaiting, List.nil_append] at hinitial
    exact hnew b (hinitial.subset hb)

variable {result : Status}

theorem report_linked (hstamps : ∀ b ∈ c.unread, b.stamp ≤ c.accepted)
    (hreports : ∀ r ∈ c.reports, Good cap r) (hidle : c.requesting = false)
    (hgood : Good cap ⟨c.accepted, result, c.parser.response, c.fed, c.waiting⟩) :
    Linked cap (c.report cap result) := by
  rw [report]
  by_cases hcallback : cap.responseCallback = true
  · rw [if_pos hcallback]
    refine .idle hstamps (fun r hr => ?_) hidle
    rcases List.mem_cons.mp hr with rfl | hr
    · exact hgood
    · exact hreports r hr
  · rw [if_neg hcallback]
    exact .idle hstamps hreports hidle

theorem fail_linked (hreports : ∀ r ∈ c.reports, Good cap r) (hresult : result ≠ .ok) :
    Linked cap (c.fail cap result).1 :=
  report_linked (fun _ hb => absurd hb List.not_mem_nil) hreports rfl fun hok => absurd hok hresult

theorem completeResponse_linked {reusable : Bool} (hstamps : ∀ b ∈ c.unread, b.stamp ≤ c.accepted)
    (hreports : ∀ r ∈ c.reports, Good cap r)
    (hgood : Good cap ⟨c.accepted, .ok, c.parser.response, c.fed, c.waiting⟩) :
    Linked cap (c.completeResponse cap reusable).1 := by
  rw [completeResponse]
  split
  · exact report_linked (fun _ hb => absurd hb List.not_mem_nil) hreports rfl hgood
  · exact report_linked hstamps hreports rfl hgood

theorem feed_linked (hstamps : ∀ b ∈ c.unread, b.stamp ≤ c.accepted)
    (hreports : ∀ r ∈ c.reports, Good cap r) (hparsed : Parsed cap c) {chunk : List Arrived}
    (hsplit : c.Split (c.fed ++ (chunk ++ c.unread))) (a : PollAnswers) :
    Linked cap (c.feed cap chunk a).1 := by
  rw [feed]
  generalize hfed : c.parser.feed cap.parser (chunk.map Arrived.byte) a.peerClosed = p
  obtain ⟨result, consumed, parser⟩ := p
  dsimp only
  by_cases hok : result = .ok
  swap
  · rw [if_pos hok]
    split <;> exact fail_linked hreports hok
  rw [if_neg fun h => h hok]
  subst hok
  by_cases hcomplete : parser.state = .complete
  · have hgood := good_of_complete hparsed hsplit hfed hcomplete
    rw [if_pos hcomplete]
    split
    · exact completeResponse_linked (fun _ hb => absurd hb List.not_mem_nil) hreports hgood
    · exact completeResponse_linked hstamps hreports hgood
  · rw [if_neg hcomplete]
    split
    · exact .idle (fun _ hb => absurd hb List.not_mem_nil) hreports rfl
    · obtain ⟨hopen, headResponse, hrun⟩ := hparsed
      obtain ⟨hrun', hconsumed, hopen'⟩ := run_of_feed hopen hfed hcomplete
      have hall : chunk.take consumed = chunk := by
        rw [hconsumed, List.length_map, List.take_length]
      refine ⟨hstamps, hreports, fun _ => ⟨hopen', headResponse, ?_⟩, fun _ => ?_⟩
      · dsimp only
        have hlength : (c.fed.map Arrived.byte).length = c.fed.length := List.length_map _
        rw [← hlength] at hrun
        have hbehind := run_behind (open_reset headResponse) hrun hopen (run_ok_of_feed hopen hfed)
        rw [hall, List.map_append, hbehind, hrun', behind, List.length_map, List.length_map,
          List.length_append]
      · dsimp only
        rw [hall, List.append_assoc]
        exact hsplit

theorem receive_linked (hc : Linked cap c) (hparsed : Parsed cap c) (hsplit : c.Split (c.fed ++ c.unread))
    (a : PollAnswers) : Linked cap (c.receive cap a).1 := by
  rw [receive]
  split
  · exact hc
  · dsimp only
    have hdrop : ∀ b ∈ c.unread.drop (c.unread.take (min a.received cap.receiveBufferSize)).length,
        b.stamp ≤ c.accepted := fun b hb => hc.stamps b (List.mem_of_mem_drop hb)
    have hcut : c.unread.take (min a.received cap.receiveBufferSize) ++
        c.unread.drop (c.unread.take (min a.received cap.receiveBufferSize)).length = c.unread := by
      rw [List.length_take]
      by_cases hle : min a.received cap.receiveBufferSize ≤ c.unread.length
      · rw [Nat.min_eq_left hle, List.take_append_drop]
      · have hlt := Nat.le_of_not_le hle
        rw [Nat.min_eq_right hlt, List.take_of_length_le hlt, List.drop_length, List.append_nil]
    by_cases hfailed : a.receiveSome ≠ .ok ∧ a.receiveSome ≠ .empty
    · rw [if_pos hfailed]
      exact fail_linked hc.reports hfailed.1
    · rw [if_neg hfailed]
      split
      · refine @feed_linked cap { c with unread := _ } hdrop hc.reports hparsed _ ?_ a
        dsimp only
        rw [hcut]
        exact hsplit
      next hnone =>
        rw [not_or, not_not] at hnone
        rw [hnone.1]
        exact hc

theorem poll_linked (hc : Linked cap c) (a : PollAnswers) : Linked cap (c.poll cap a).1 := by
  rw [poll]
  cases hstate : c.state with
  | disconnected => exact hc
  | ready => exact hc
  | failed => exact hc
  | connecting =>
    dsimp only
    split
    · exact hc
    · exact .idle hc.stamps hc.reports rfl
  | receiving =>
    have hrequesting : c.requesting = true := by
      rw [requesting, hstate]
      rfl
    exact receive_linked hc (hc.parsed hrequesting) (hc.split hrequesting) a
  | sending =>
    have hrequesting : c.requesting = true := by
      rw [requesting, hstate]
      rfl
    have hadvance : Linked cap (c.advance a) := ⟨hc.stamps, hc.reports, hc.parsed, hc.split⟩
    dsimp only
    split
    · exact hadvance
    · by_cases hok : a.sendSome = .ok
      · rw [if_neg fun h => h hok]
        split
        · have hparsed := hc.parsed hrequesting
          have hsplit := hc.split hrequesting
          exact @receive_linked cap { c.advance a with state := .receiving }
            ⟨hc.stamps, hc.reports, fun _ => hparsed, fun _ => hsplit⟩ hparsed hsplit a
        · exact hadvance
      · rw [if_pos hok]
        exact fail_linked hc.reports hok

theorem connectTransport_linked (hc : Linked cap c) (answer : Status) :
    Linked cap (c.connectTransport answer).1 := by
  refine .idle hc.stamps hc.reports ?_
  rw [connectTransport, requesting]
  by_cases hok : answer = .ok
  · simp only [if_pos hok]
    rfl
  · by_cases hpending : answer = .timeOut
    · simp only [if_neg hok, if_pos hpending]
      rfl
    · simp only [if_neg hok, if_neg hpending]
      rfl

theorem perform_linked (hc : Linked cap c) (call : ClientCall) : Linked cap (c.perform cap call) := by
  cases call with
  | connect remote authority answer =>
    rw [perform, connect.eq_def]
    have hrenamed : ∀ authority, Linked cap { c with authority := authority } := fun _ =>
      ⟨hc.stamps, hc.reports, hc.parsed, hc.split⟩
    split
    · exact hc
    · cases authority with
      | none => exact connectTransport_linked (hrenamed _) answer
      | some authority =>
        dsimp only
        obtain ⟨named, authority⟩ := assignAuthority authority
        cases named
        case ok => exact connectTransport_linked (hrenamed authority) answer
        all_goals exact hrenamed authority
  | request call =>
    rw [perform, send]
    split
    · exact hc
    · generalize ({ call with authority := c.authority } : RequestCall).build cap.request = built
      obtain ⟨result, request⟩ := built
      cases result
      case ok =>
        refine ⟨fun b hb => (hc.stamps b hb).trans (Nat.le_succ _), hc.reports, fun _ => ?_, fun _ => ?_⟩
        · exact ⟨open_reset _, decide (call.verb = .head), rfl⟩
        · refine ⟨[], (List.append_nil _).symm, fun b hb => ?_, fun b hb => absurd hb List.not_mem_nil⟩
          exact Nat.lt_succ_of_le (hc.stamps b hb)
      all_goals exact ⟨hc.stamps, hc.reports, hc.parsed, hc.split⟩
  | poll a => exact poll_linked hc a
  | close => exact .idle (fun _ hb => absurd hb List.not_mem_nil) hc.reports rfl
  | arrive bytes =>
    rw [perform]
    split
    · refine ⟨fun b hb => ?_, hc.reports, hc.parsed, fun hrequesting => ?_⟩
      · rcases List.mem_append.mp hb with hb | hb
        · exact hc.stamps b hb
        · obtain ⟨byte, _, rfl⟩ := List.mem_map.mp hb
          exact le_rfl
      · obtain ⟨later, hbytes, hold, hnew⟩ := hc.split hrequesting
        refine ⟨later ++ bytes.map fun byte => ⟨byte, c.accepted⟩, ?_, hold, fun b hb => ?_⟩
        · dsimp only
          rw [← List.append_assoc, hbytes, List.append_assoc]
        · rcases List.mem_append.mp hb with hb | hb
          · exact hnew b hb
          · obtain ⟨byte, _, rfl⟩ := List.mem_map.mp hb
            exact le_rfl
    · exact hc

theorem linked_after (cap : ClientCapacity) (calls : List ClientCall) : Linked cap (after cap calls) := by
  induction calls using List.reverseRecOn with
  | nil =>
    exact .idle (fun _ hb => absurd hb List.not_mem_nil) (fun _ hr => absurd hr List.not_mem_nil) rfl
  | append_singleton calls call ih =>
    rw [after_snoc]
    exact perform_linked ih call

/-- New reports are of the latest request that was accepted. -/
structure Carries (c c' : Client) : Prop where
  waiting : c'.waiting = c.waiting
  reports : ∀ r ∈ c'.reports, r ∈ c.reports ∨ r.waiting = c.waiting

theorem carries_of_eq (hwaiting : c'.waiting = c.waiting) (hreports : c'.reports = c.reports) :
    Carries c c' :=
  ⟨hwaiting, fun _ hr => Or.inl (hreports ▸ hr)⟩

section

variable (h : Carries c c')
include h

theorem carries_report : Carries c (c'.report cap result) := by
  rw [report]
  split
  · refine ⟨h.waiting, fun r hr => ?_⟩
    rcases List.mem_cons.mp hr with rfl | hr
    · exact Or.inr h.waiting
    · exact h.reports r hr
  · exact h

theorem carries_fail : Carries c (c'.fail cap result).1 :=
  carries_report ⟨h.waiting, h.reports⟩

theorem carries_completeResponse {reusable : Bool} :
    Carries c (c'.completeResponse cap reusable).1 := by
  rw [completeResponse]
  split <;> exact carries_report ⟨h.waiting, h.reports⟩

theorem carries_feed (chunk : List Arrived) (a : PollAnswers) :
    Carries c (c'.feed cap chunk a).1 := by
  rw [feed]
  generalize c'.parser.feed cap.parser (chunk.map Arrived.byte) a.peerClosed = p
  obtain ⟨result, consumed, parser⟩ := p
  dsimp only
  have hclosed : Carries c (if a.bodyCloses = true ∧ parser.delivered ≠ c'.parser.delivered then
      ({ c' with parser := parser, fed := c'.fed ++ chunk.take consumed } : Client).close
      else { c' with parser := parser, fed := c'.fed ++ chunk.take consumed }) := by
    split <;> exact ⟨h.waiting, h.reports⟩
  split
  · exact carries_fail hclosed
  · split
    · exact carries_completeResponse hclosed
    · exact hclosed

theorem carries_receive (a : PollAnswers) : Carries c (c'.receive cap a).1 := by
  have hread : ∀ unread, Carries c { c' with unread := unread } := fun _ => ⟨h.waiting, h.reports⟩
  rw [receive]
  split
  · exact h
  · dsimp only
    split
    · exact carries_fail (hread _)
    · split
      · exact carries_feed (hread _) _ a
      · exact hread _

end

theorem carries_poll (c : Client) (a : PollAnswers) : Carries c (c.poll cap a).1 := by
  have hrefl : Carries c c := carries_of_eq rfl rfl
  rw [poll]
  cases c.state with
  | disconnected => exact hrefl
  | ready => exact hrefl
  | failed => exact hrefl
  | connecting =>
    dsimp only
    split
    · exact hrefl
    · exact carries_of_eq rfl rfl
  | receiving => exact carries_receive hrefl a
  | sending =>
    have hadvance : Carries c (c.advance a) := carries_of_eq rfl rfl
    dsimp only
    split
    · exact hadvance
    · split
      · exact carries_fail hadvance
      · split
        · exact @carries_receive cap c { c.advance a with state := .receiving }
            ⟨hadvance.waiting, hadvance.reports⟩ a
        · exact hadvance

def Accepts (cap : ClientCapacity) (c : Client) (call : RequestCall) : Prop :=
  c.canRequest = true ∧ (RequestCall.build { call with authority := c.authority } cap.request).1 = .ok

/-- If the call is a request that is accepted, then no byte waits in the transport. -/
def NothingWaits (cap : ClientCapacity) (c : Client) : ClientCall → Prop
  | .request call => c.Accepts cap call → c.unread = []
  | _ => True

/-- The client has found nothing that waited. -/
def Clean (c : Client) : Prop := c.waiting = [] ∧ ∀ r ∈ c.reports, r.waiting = []

theorem Clean.carries (hc : Clean c) (h : Carries c c') : Clean c' := by
  refine ⟨h.waiting.trans hc.1, fun r hr => ?_⟩
  rcases h.reports r hr with hr | hwaiting
  · exact hc.2 r hr
  · exact hwaiting.trans hc.1

theorem Clean.perform (hc : Clean c) {call : ClientCall} (h : NothingWaits cap c call) :
    Clean (c.perform cap call) := by
  cases call with
  | connect remote authority answer =>
    rw [Client.perform, Client.connect.eq_def]
    split
    · exact hc
    · cases authority with
      | none => exact hc
      | some authority =>
        dsimp only
        obtain ⟨named, authority⟩ := assignAuthority authority
        cases named <;> exact hc
  | request call =>
    rw [Client.perform, send]
    by_cases hready : c.canRequest = true
    · rw [if_neg (by simp [hready])]
      have hnone : (RequestCall.build { call with authority := c.authority } cap.request).1 = .ok →
          c.unread = [] := fun hok => h ⟨hready, hok⟩
      generalize RequestCall.build { call with authority := c.authority } cap.request = built at hnone
      obtain ⟨result, request⟩ := built
      cases result
      case ok => exact ⟨hnone rfl, hc.2⟩
      all_goals exact hc
    · rw [if_pos (by simp [hready])]
      exact hc
  | poll a => exact hc.carries (carries_poll c a)
  | close => exact hc
  | arrive bytes =>
    rw [Client.perform]
    split <;> exact hc

theorem clean_after {calls : List ClientCall}
    (h : AtEach calls fun before call => NothingWaits cap (after cap before) call) :
    Clean (after cap calls) := by
  refine @AtEach.invariant _ _ _ (fun before => Clean (after cap before)) h ?_ ?_ _ (List.prefix_refl calls)
  · exact ⟨rfl, fun _ hr => absurd hr List.not_mem_nil⟩
  · intro before call _ hclean hcall
    rw [after_snoc]
    exact hclean.perform hcall

/-- A response that is reported with status `ok` is made of bytes, and these have arrived after the
request was accepted exactly when none waited in the transport then. So the responses are paired
with their requests in the runs in which no byte waits whenever a request is accepted. -/
theorem responses_paired (cap : ClientCapacity) (calls : List ClientCall) :
    (∀ r ∈ (after cap calls).reports, r.result = .ok → r.Made cap.parser ∧ (r.Paired ↔ r.waiting = [])) ∧
    ((AtEach calls fun before call => NothingWaits cap (after cap before) call) →
      ∀ r ∈ (after cap calls).reports, r.result = .ok → r.Paired) := by
  have hlinked := linked_after cap calls
  refine ⟨hlinked.reports, fun hnothing r hr hok => ?_⟩
  exact (hlinked.reports r hr hok).2.mpr ((clean_after hnothing).2 r hr)

/-- A receive buffer that is as long as the response -/
def exactCapacity : ClientCapacity where
  request := ⟨64, ⟨4, 16, 16⟩, Nat.le_refl (nat_lit 64), RequestCapacity.smallest_fits⟩
  parser := ParserCapacity.standard
  receiveBufferSize := 38
  responseCallback := true
  receiveBuffer_pos := Nat.succ_pos (nat_lit 37)

/-- A response without a body -/
def emptyResponse : Bytes := octets "HTTP/1.1 200 OK\r\nContent-Length: 0\r\n\r\n"

def getRequest : RequestCall := ⟨.get, octets "/", [], [], [], [], true⟩

/-- A server that answers twice, and a client that asks twice -/
def answeredTwice : List ClientCall :=
  [.connect {} (some (octets "a")) .ok, .request getRequest, .arrive (emptyResponse ++ emptyResponse),
    .poll { sent := 64, received := 64 }, .request getRequest, .poll { sent := 64, received := 64 }]

/-- The second answer is reported for the second request, that it came before. -/
theorem second_answer_taken : ∃ r ∈ (after exactCapacity answeredTwice).reports,
    r.result = .ok ∧ r.request = 2 ∧ ¬r.Paired := by
  decide

end Client

end Castle.Http.Http1
