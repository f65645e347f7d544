import Castle.Dns.Client
import Castle.Lib.Steps

/-!
# Stray datagrams

A datagram that does not carry the id and the question of a lookup, or does not come from its
server, should be as if it had not arrived: the lookup waits on, and its deadlines stay.
-/

namespace Castle.Dns

open Net

/-- What a lookup has asked, and whom. -/
structure Question where
  server : Endpoint
  id : UInt16
  name : Bytes
  type : RecordType
  deriving DecidableEq

/-- The message has that id and that one question. -/
def carries (q : Question) (data : Bytes) : Bool :=
  headerSize ≤ data.length && readBe16 data 0 = q.id && readBe16 data 4 = 1 &&
    match decodeName data headerSize textCapacity with
    | .ok (name, consumed) =>
      headerSize + consumed + 4 ≤ data.length && sameName q.name name &&
        readBe16 data (headerSize + consumed) = q.type && readBe16 data (headerSize + consumed + 2) = internet
    | .error _ => false

def stray (q : Question) : Received → Bool
  | .failed _ => false
  | .datagram source bytes => !(source = q.server && carries q bytes)

variable {received : Received}

theorem stray_of_server {q : Question} {bytes : Bytes} (h : readDatagram q.server received =
    .truncated bytes ∨ readDatagram q.server received = .message bytes) :
    stray q received = !carries q bytes := by
  cases received with
  | failed status => cases status <;> simp [readDatagram] at h
  | datagram source data =>
    simp only [readDatagram] at h
    by_cases hsource : source = q.server
    · rw [if_neg (not_not.mpr hsource)] at h
      have hbytes : data = bytes := by
        split at h
        · simpa using h
        · simpa using h
      rw [stray, hbytes, decide_eq_true hsource, Bool.true_and]
    · rw [if_pos hsource] at h
      simp at h

theorem stray_of_elsewhere {q : Question} (h : readDatagram q.server received = .elsewhere) :
    stray q received = true := by
  cases received with
  | failed status => cases status <;> simp [readDatagram] at h
  | datagram source data =>
    simp only [readDatagram] at h
    by_cases hsource : source = q.server
    · rw [if_neg (not_not.mpr hsource)] at h
      split at h <;> simp at h
    · simp [stray, hsource]

theorem not_stray_of_failed {q : Question} (status : Status) (h : readDatagram q.server received =
    .nothing ∨ readDatagram q.server received = .failed status) : stray q received = false := by
  cases received with
  | failed _ => rfl
  | datagram source data =>
    simp only [readDatagram] at h
    split at h
    · simp at h
    · split at h <;> simp at h

theorem nothing_iff {server : Endpoint} :
    readDatagram server received = .nothing ↔ received = .failed .empty := by
  cases received with
  | failed status => cases status <;> simp [readDatagram]
  | datagram source bytes =>
    simp only [readDatagram, reduceCtorEq, iff_false]
    split
    · exact Reading.noConfusion
    · split <;> exact Reading.noConfusion

namespace Client

variable (cap : ClientCapacity)

def question (c : Client) : Question := ⟨c.server, c.queryId, c.asyncName, c.asyncType⟩

/-- The poll on which a stray datagram arrives is the one on which nothing arrives: the lookup
neither ends nor is switched to TCP, and it retries or times out at its deadline. -/
def Undisturbed (c : Client) (now : UInt32) (answers : PollAnswers) : Prop :=
  c.state = .udpWait → stray c.question answers.received = true →
    c.poll cap now answers = c.poll cap now { answers with received := .failed .empty }

/-- A stray datagram comes from elsewhere, and before the deadline. -/
def Harmless (c : Client) (now : UInt32) (answers : PollAnswers) : Prop :=
  c.state = .udpWait → stray c.question answers.received = true →
    readDatagram c.server answers.received = .elsewhere ∧ c.attemptOver now = false

variable (c : Client)

theorem log_complete (result : Status) :
    c.log ++ [.completed result] <+: (c.complete result).2.log := by
  rw [complete]
  split
  · exact List.prefix_append (c.log ++ [.completed result]) _
  · exact List.prefix_refl _

theorem pollNothing_early {now : UInt32} (sent : SendResult) (h : c.attemptOver now = false) :
    c.pollNothing now sent = (.empty, c) := by
  rw [pollNothing, h]
  rfl

theorem log_pollNothing {now : UInt32} (sent : SendResult) (h : c.attemptOver now = true) :
    c.log ++ [.query] <+: (c.pollNothing now sent).2.log ∨
      c.log ++ [.completed .timeOut] <+: (c.pollNothing now sent).2.log := by
  rw [pollNothing, h, if_neg (by decide)]
  split
  · apply Or.inl
    split
    next c' hsent =>
      have hlog : c'.log = c.log ++ [.query] := by
        rw [← (Prod.mk.inj hsent).2]
        rfl
      change _ <+: c'.log
      rw [hlog]
    next result c' _ hsent =>
      have hlog : c'.log = c.log ++ [.query] := by
        rw [← (Prod.mk.inj hsent).2]
        rfl
      rw [← hlog]
      exact (List.prefix_append _ _).trans (log_complete c' result)
  · exact Or.inr (log_complete c .timeOut)

theorem pollNothing_no_datagram (now : UInt32) (sent : SendResult) {event : Event}
    (hevent : ∀ status, event ≠ .query ∧ event ≠ .completed status) :
    ¬c.log ++ [event] <+: (c.pollNothing now sent).2.log := by
  intro hprefix
  cases hover : c.attemptOver now with
  | false =>
    rw [pollNothing_early c sent hover] at hprefix
    change c.log ++ [event] <+: c.log at hprefix
    have hlen := hprefix.length_le
    rw [List.length_append, List.length_singleton] at hlen
    omega
  | true =>
    have hsame : ∀ other : Event, c.log ++ [other] <+: (c.pollNothing now sent).2.log → event = other := by
      intro other hother
      have heq := (List.prefix_of_prefix_length_le hprefix hother (by
        rw [List.length_append, List.length_append]
        exact Nat.le_refl _)).eq_of_length (by rw [List.length_append, List.length_append]; rfl)
      exact List.singleton_inj.mp (List.append_cancel_left heq)
    rcases log_pollNothing c sent hover with h | h
    · exact (hevent .ok).1 (hsame .query h)
    · exact (hevent .timeOut).2 (hsame (.completed .timeOut) h)

theorem log_beginTcpAsync (now : UInt32) (connected : Status) :
    c.log <+: (c.beginTcpAsync now connected).2.log := by
  rw [beginTcpAsync]
  simp only
  split
  · exact List.prefix_refl _
  · split
    · exact (List.prefix_append _ _).trans
        (log_complete { c with tcpStartedMs := now, tcpQueryOffset := 0 } connected)
    · exact List.prefix_refl _

theorem undisturbed_iff (now : UInt32) (answers : PollAnswers) :
    c.Undisturbed cap now answers ↔ c.Harmless now answers := by
  rw [Undisturbed, Harmless]
  refine forall_congr' fun hstate => forall_congr' fun hstray => ?_
  have hpoll : ∀ answers : PollAnswers, c.poll cap now answers = c.pollUdp cap now answers := by
    intro answers
    rw [poll, hstate]
  have hnothing : c.pollUdp cap now { answers with received := .failed .empty } = c.pollNothing now answers.sent := rfl
  rw [hpoll, hpoll, hnothing, pollUdp]
  cases hread : readDatagram c.server answers.received with
  | nothing =>
    rw [not_stray_of_failed (q := c.question) .ok (Or.inl hread)] at hstray
    exact absurd hstray Bool.false_ne_true
  | failed status =>
    rw [not_stray_of_failed (q := c.question) status (Or.inr hread)] at hstray
    exact absurd hstray Bool.false_ne_true
  | elsewhere =>
    simp only [true_and]
    constructor
    · intro hsame
      by_contra hover
      rw [Bool.not_eq_false] at hover
      have hlog := log_pollNothing c answers.sent hover
      rw [← hsame] at hlog
      have hlen : ∀ event : Event, ¬c.log ++ [event] <+: c.log := by
        intro event h
        have := h.length_le
        rw [List.length_append, List.length_singleton] at this
        omega
      exact hlog.elim (hlen _) (hlen _)
    · intro hover
      exact (pollNothing_early c answers.sent hover).symm
  | truncated bytes =>
    simp only [reduceCtorEq, false_and, iff_false]
    intro hsame
    have hlog := log_beginTcpAsync (c.record (.switched bytes)) now answers.connected
    rw [hsame] at hlog
    exact pollNothing_no_datagram c now answers.sent (fun _ => ⟨Event.noConfusion, Event.noConfusion⟩) hlog
  | message bytes =>
    simp only [reduceCtorEq, false_and, iff_false]
    intro hsame
    generalize parseAndValidate cap.maxRecords bytes c.queryId c.asyncName c.asyncType c.response = parsed at hsame
    have hlog := log_complete ({ c with response := parsed.2 }.record (.parsed bytes)) parsed.1
    rw [hsame] at hlog
    exact pollNothing_no_datagram c now answers.sent (fun _ => ⟨Event.noConfusion, Event.noConfusion⟩)
      ((List.prefix_append _ _).trans hlog)

def polls (c : Client) (steps : List (UInt32 × PollAnswers)) : Client :=
  steps.foldl (fun c step => (c.poll cap step.1 step.2).2) c

theorem polls_undisturbed_iff (steps : List (UInt32 × PollAnswers)) :
    AtEach steps (fun before step => (c.polls cap before).Undisturbed cap step.1 step.2) ↔
      AtEach steps (fun before step => (c.polls cap before).Harmless step.1 step.2) :=
  forall_congr' fun before => forall_congr' fun step => forall_congr' fun _ =>
    undisturbed_iff cap (c.polls cap before) step.1 step.2

def strayWait (q : Question) (wait : Wait) : Bool := wait.ready = .ok && stray q wait.received

/-- Nothing has arrived, and there is another attempt. -/
def goesOn (wait : Wait) : Bool := wait.ready = .timeOut || (wait.ready = .ok && wait.received = .failed .empty)

/-- The attempts that are left read a stray datagram before the lookup ends. -/
def readsStray (q : Question) : ℕ → List SendResult → List Wait → Bool
  | 0, _, _ => false
  | left + 1, sends, waits =>
    let wait := waits.headD { ready := .timeOut }
    (sends.headD {}).succeeded &&
      (strayWait q wait ||
        (goesOn wait && readsStray q left sends.tail waits.tail))

/-- What the loop records of a wait. -/
def waitEvent (peer : Endpoint) (wait : Wait) : Option Event :=
  if wait.ready = .timeOut then some (.unanswered .timeOut)
  else if wait.ready ≠ .ok then some (.failed wait.ready)
  else
    match readDatagram peer wait.received with
    | .nothing => some (.unanswered .empty)
    | .failed status => some (.failed status)
    | .elsewhere => none
    | .truncated bytes => some (.switched bytes)
    | .message bytes => some (.parsed bytes)

section

variable (q : Question) (tcp : TcpAnswers)

/-- The loop of `resolve` for a question. -/
abbrev loop (left : ℕ) (sends : List SendResult) (waits : List Wait) (output : Response) (c : Client) :
    Status × Response × Client :=
  resolveLoop cap q.server q.id q.name q.type tcp left sends waits output c

variable {sends : List SendResult}

theorem loop_unsent {left : ℕ} (h : (sends.headD {}).succeeded = false) (waits : List Wait)
    (output : Response) (c : Client) :
    ∃ status, loop cap q tcp (left + 1) sends waits output c = (status, output, c.record .query) ∧
      ∀ waits' : List Wait, loop cap q tcp (left + 1) sends waits' output c = (status, output, c.record .query) := by
  rw [SendResult.succeeded, Bool.and_eq_false_iff, decide_eq_false_iff_not] at h
  simp only [loop, resolveLoop]
  by_cases hstatus : (sends.headD {}).status = .ok
  · have hcomplete := h.resolve_left (not_not.mpr hstatus)
    refine ⟨.dataLoss, ?_, ?_⟩
    · rw [if_neg (not_not.mpr hstatus), hcomplete]
      rfl
    · intro waits'
      rw [if_neg (not_not.mpr hstatus), hcomplete]
      rfl
  · refine ⟨(sends.headD {}).status, if_pos hstatus, ?_⟩
    intro waits'
    exact if_pos hstatus

theorem log_record (c : Client) (event : Event) :
    c.log <+: (c.record event).log := List.prefix_append c.log [event]

theorem log_loop_prefix (left : ℕ) (sends : List SendResult) (waits : List Wait) (output : Response)
    (c : Client) : c.log <+: (loop cap q tcp left sends waits output c).2.2.log := by
  induction left generalizing sends waits output c with
  | zero => exact List.prefix_refl _
  | succ left ih =>
    have hquery := log_record c .query
    simp only [loop, resolveLoop]
    split
    · exact hquery
    split
    · exact hquery
    split
    · exact hquery.trans ((log_record _ _).trans (ih _ _ _ _))
    split
    · exact hquery.trans (log_record _ _)
    split
    · exact hquery.trans ((log_record _ _).trans (ih _ _ _ _))
    · exact hquery.trans (log_record _ _)
    · exact hquery.trans (ih _ _ _ _)
    · exact hquery.trans (log_record _ _)
    · exact hquery.trans (log_record _ _)

theorem loop_sent {left : ℕ} (h : (sends.headD {}).succeeded = true) (wait : Wait)
    (waits : List Wait) (output : Response) (c : Client) :
    (waitEvent q.server wait = none ∧
      loop cap q tcp (left + 1) sends (wait :: waits) output c =
        loop cap q tcp left sends.tail waits output (c.record .query)) ∨
    (∃ event, waitEvent q.server wait = some event ∧
      ((c.record .query).record event).log <+: (loop cap q tcp (left + 1) sends (wait :: waits) output c).2.2.log ∧
      (goesOn wait = true →
        loop cap q tcp (left + 1) sends (wait :: waits) output c =
          loop cap q tcp left sends.tail waits output ((c.record .query).record event))) := by
  rw [SendResult.succeeded, Bool.and_eq_true, decide_eq_true_eq] at h
  obtain ⟨hstatus, hcomplete⟩ := h
  simp only [loop, resolveLoop, waitEvent]
  rw [if_neg (not_not.mpr hstatus), hcomplete, if_neg (show ¬(!true) = true from Bool.false_ne_true),
    List.headD_cons, List.tail_cons]
  by_cases htime : wait.ready = .timeOut
  · rw [if_pos htime, if_pos htime]
    exact Or.inr ⟨_, rfl, log_loop_prefix cap q tcp left _ _ _ _, fun _ => rfl⟩
  · have hgoes : goesOn wait = true → wait.ready = .ok ∧ wait.received = .failed .empty := by
      simp [goesOn, htime]
    have hempty : goesOn wait = true → readDatagram q.server wait.received = .nothing :=
      fun h => nothing_iff.mpr (hgoes h).2
    rw [if_neg htime, if_neg htime]
    by_cases hready : wait.ready = .ok
    · rw [if_neg (not_not.mpr hready), if_neg (not_not.mpr hready)]
      cases hread : readDatagram q.server wait.received with
      | nothing => exact Or.inr ⟨_, rfl, log_loop_prefix cap q tcp left _ _ _ _, fun _ => rfl⟩
      | elsewhere => exact Or.inl ⟨rfl, rfl⟩
      | failed status =>
        refine Or.inr ⟨_, rfl, List.prefix_refl _, ?_⟩
        intro hagain
        exact absurd (hempty hagain) (by rw [hread]; exact Reading.noConfusion)
      | truncated bytes =>
        refine Or.inr ⟨_, rfl, List.prefix_refl _, ?_⟩
        intro hagain
        exact absurd (hempty hagain) (by rw [hread]; exact Reading.noConfusion)
      | message bytes =>
        refine Or.inr ⟨_, rfl, List.prefix_refl _, ?_⟩
        intro hagain
        exact absurd (hempty hagain) (by rw [hread]; exact Reading.noConfusion)
    · rw [if_pos hready, if_pos hready]
      refine Or.inr ⟨_, rfl, List.prefix_refl _, ?_⟩
      intro hagain
      exact absurd (hgoes hagain).1 hready

theorem log_loop (left : ℕ) (sends : List SendResult) (waits : List Wait)
    (output : Response) (c : Client) : (loop cap q tcp left sends waits output c).2.2.log =
    c.log ∨ (c.record .query).log <+: (loop cap q tcp left sends waits output c).2.2.log := by
  cases left with
  | zero => exact Or.inl rfl
  | succ left =>
    apply Or.inr
    cases hsent : (sends.headD {}).succeeded with
    | false =>
      obtain ⟨status, hloop, _⟩ := loop_unsent cap q tcp hsent waits output c
      rw [hloop]
    | true =>
      have hcons : ∀ wait waits', (c.record .query).log <+:
          (loop cap q tcp (left + 1) sends (wait :: waits') output c).2.2.log := by
        intro wait waits'
        rcases loop_sent cap q tcp hsent wait waits' output c with ⟨_, hloop⟩ | ⟨event, _, hprefix, _⟩
        · rw [hloop]
          exact log_loop_prefix cap q tcp left _ _ _ _
        · exact (log_record _ event).trans hprefix
      cases waits with
      | nil => exact hcons { ready := .timeOut } []
      | cons wait waits => exact hcons wait waits

theorem waitEvent_stray {wait : Wait} (h : strayWait q wait = true) :
    waitEvent q.server wait = none ∨ ∃ bytes, carries q bytes = false ∧
      (waitEvent q.server wait = some (.switched bytes) ∨ waitEvent q.server wait = some (.parsed bytes)) := by
  rw [strayWait, Bool.and_eq_true, decide_eq_true_eq] at h
  obtain ⟨hready, hstray⟩ := h
  have htime : ¬wait.ready = .timeOut := by
    rw [hready]
    exact Status.noConfusion
  have hcarries : ∀ bytes, (readDatagram q.server wait.received = .truncated bytes ∨
      readDatagram q.server wait.received = .message bytes) → carries q bytes = false := by
    intro bytes hread
    rw [stray_of_server hread, Bool.not_eq_true'] at hstray
    exact hstray
  rw [waitEvent, if_neg htime, if_neg (not_not.mpr hready)]
  cases hread : readDatagram q.server wait.received with
  | nothing =>
    rw [not_stray_of_failed (q := q) .ok (Or.inl hread)] at hstray
    exact absurd hstray Bool.false_ne_true
  | failed status =>
    rw [not_stray_of_failed (q := q) status (Or.inr hread)] at hstray
    exact absurd hstray Bool.false_ne_true
  | elsewhere => exact Or.inl rfl
  | truncated bytes => exact Or.inr ⟨bytes, hcarries bytes (Or.inl hread), Or.inl rfl⟩
  | message bytes => exact Or.inr ⟨bytes, hcarries bytes (Or.inr hread), Or.inr rfl⟩

theorem waitEvent_other {wait : Wait} (h : strayWait q wait = false) :
    ∃ event, waitEvent q.server wait = some event ∧ event ≠ .query ∧
      ∀ bytes, carries q bytes = false → event ≠ .switched bytes ∧ event ≠ .parsed bytes := by
  rw [waitEvent]
  by_cases htime : wait.ready = .timeOut
  · rw [if_pos htime]
    exact ⟨_, rfl, Event.noConfusion, fun _ _ => ⟨Event.noConfusion, Event.noConfusion⟩⟩
  · rw [if_neg htime]
    by_cases hready : wait.ready = .ok
    · rw [strayWait, hready, decide_eq_true rfl, Bool.true_and] at h
      have hcarries : ∀ bytes, (readDatagram q.server wait.received = .truncated bytes ∨
          readDatagram q.server wait.received = .message bytes) → carries q bytes = true := by
        intro bytes hread
        rw [stray_of_server hread, Bool.not_eq_false'] at h
        exact h
      rw [if_neg (not_not.mpr hready)]
      cases hread : readDatagram q.server wait.received with
      | nothing => exact ⟨_, rfl, Event.noConfusion, fun _ _ => ⟨Event.noConfusion, Event.noConfusion⟩⟩
      | failed status => exact ⟨_, rfl, Event.noConfusion, fun _ _ => ⟨Event.noConfusion, Event.noConfusion⟩⟩
      | elsewhere =>
        rw [stray_of_elsewhere hread] at h
        exact Bool.noConfusion h
      | truncated bytes =>
        refine ⟨_, rfl, Event.noConfusion, ?_⟩
        intro other hother
        refine ⟨?_, Event.noConfusion⟩
        intro he
        rw [← Event.switched.inj he, hcarries bytes (Or.inl hread)] at hother
        exact Bool.noConfusion hother
      | message bytes =>
        refine ⟨_, rfl, Event.noConfusion, ?_⟩
        intro other hother
        refine ⟨Event.noConfusion, ?_⟩
        intro he
        rw [← Event.parsed.inj he, hcarries bytes (Or.inr hread)] at hother
        exact Bool.noConfusion hother
    · rw [if_pos hready]
      exact ⟨_, rfl, Event.noConfusion, fun _ _ => ⟨Event.noConfusion, Event.noConfusion⟩⟩

theorem loop_ends {left : ℕ} (h : (sends.headD {}).succeeded = true) {wait : Wait}
    (hends : goesOn wait = false) (hstray : strayWait q wait = false) (waits waits' : List Wait)
    (output : Response) (c : Client) : loop cap q tcp (left + 1) sends (wait :: waits) output c =
    loop cap q tcp (left + 1) sends (wait :: waits') output c := by
  rw [SendResult.succeeded, Bool.and_eq_true, decide_eq_true_eq] at h
  obtain ⟨hstatus, hcomplete⟩ := h
  have htime : ¬wait.ready = .timeOut := by
    intro htime
    rw [goesOn, htime] at hends
    exact Bool.noConfusion hends
  simp only [loop, resolveLoop]
  rw [if_neg (not_not.mpr hstatus), if_neg (not_not.mpr hstatus), hcomplete,
    if_neg (show ¬(!true) = true from Bool.false_ne_true), if_neg (show ¬(!true) = true from Bool.false_ne_true),
    List.headD_cons, List.headD_cons, List.tail_cons, List.tail_cons, if_neg htime, if_neg htime]
  by_cases hready : wait.ready = .ok
  · rw [if_neg (not_not.mpr hready), if_neg (not_not.mpr hready)]
    cases hread : readDatagram q.server wait.received with
    | nothing =>
      rw [goesOn, hready, nothing_iff.mp hread] at hends
      exact Bool.noConfusion hends
    | elsewhere =>
      rw [strayWait, hready, stray_of_elsewhere hread] at hstray
      exact Bool.noConfusion hstray
    | failed status => rfl
    | truncated bytes => rfl
    | message bytes => rfl
  · rw [if_pos hready, if_pos hready]

/-- The waits without those that end with a stray datagram. -/
def withoutStray (waits : List Wait) : List Wait := waits.filter fun wait => !strayWait q wait

theorem loop_undisturbed {left : ℕ} {waits : List Wait} (h : readsStray q left sends waits = false)
    (output : Response) (c : Client) :
    loop cap q tcp left sends waits output c = loop cap q tcp left sends (withoutStray q waits) output c := by
  induction left generalizing sends waits c with
  | zero => rfl
  | succ left ih =>
    cases hsent : (sends.headD {}).succeeded with
    | false =>
      obtain ⟨status, hloop, hany⟩ := loop_unsent cap q tcp hsent waits output c
      rw [hloop, hany]
    | true =>
      cases waits with
      | nil => rfl
      | cons wait waits =>
        simp only [readsStray, hsent, Bool.true_and, List.headD_cons, List.tail_cons,
          Bool.or_eq_false_iff] at h
        obtain ⟨hstray, hrest⟩ := h
        have hkeep : withoutStray q (wait :: waits) = wait :: withoutStray q waits := by
          rw [withoutStray, List.filter_cons_of_pos (by rw [hstray]; rfl)]
          rfl
        rw [hkeep]
        cases hgoes : goesOn wait with
        | false => exact loop_ends cap q tcp hsent hgoes hstray _ _ output c
        | true =>
          rw [hgoes, Bool.true_and] at hrest
          obtain ⟨event, hevent, _, _⟩ := waitEvent_other q hstray
          rcases loop_sent cap q tcp hsent wait waits output c with ⟨hnone, _⟩ | ⟨first, hfirst, _, hagain⟩
          · rw [hnone] at hevent
            cases hevent
          · rcases loop_sent cap q tcp hsent wait (withoutStray q waits) output c with
              ⟨hnone, _⟩ | ⟨second, hsecond, _, hagain'⟩
            · rw [hnone] at hevent
              cases hevent
            · have hsame : first = second := Option.some.inj (hfirst.symm.trans hsecond)
              rw [hagain hgoes, hagain' hgoes, ih hrest, hsame]

theorem readsStray_nil (left : ℕ) (sends : List SendResult) : readsStray q left sends [] = false := by
  induction left generalizing sends with
  | zero => rfl
  | succ left ih =>
    rw [readsStray, List.headD_nil, List.tail_nil, ih]
    simp [strayWait]

theorem next_event {c : Client} {a b : Event} {log : List Event} (ha : (c.record a).log <+: log)
    (hb : (c.record b).log <+: log) : a = b := by
  have hle : (c.record a).log.length = (c.record b).log.length := by
    rw [record, record, List.length_append, List.length_append]
    rfl
  have heq := (List.prefix_of_prefix_length_le ha hb (Nat.le_of_eq hle)).eq_of_length hle
  exact List.singleton_inj.mp (List.append_cancel_left heq)

theorem loop_withoutStray (left : ℕ) (sends : List SendResult)
    (waits : List Wait) (output : Response) (c : Client) : ∃ other rest, strayWait q other =
    false ∧ loop cap q tcp (left + 1) sends (withoutStray q waits) output c =
    loop cap q tcp (left + 1) sends (other :: rest) output c := by
  cases hkept : withoutStray q waits with
  | nil => exact ⟨{ ready := .timeOut }, [], rfl, rfl⟩
  | cons other rest =>
    have hmem : other ∈ withoutStray q waits := by
      rw [hkept]
      exact List.mem_cons_self
    rw [withoutStray, List.mem_filter, Bool.not_eq_true'] at hmem
    exact ⟨other, rest, hmem.2, rfl⟩

theorem loop_disturbed {left : ℕ} {waits : List Wait} (h : readsStray q left sends waits = true)
    (output : Response) (c : Client) :
    loop cap q tcp left sends waits output c ≠ loop cap q tcp left sends (withoutStray q waits) output c := by
  induction left generalizing sends waits c with
  | zero => exact absurd h Bool.false_ne_true
  | succ left ih =>
    cases waits with
    | nil => exact absurd h (by rw [readsStray_nil]; exact Bool.false_ne_true)
    | cons wait waits =>
      rw [readsStray, Bool.and_eq_true] at h
      obtain ⟨hsent, hread⟩ := h
      rw [List.headD_cons, List.tail_cons, Bool.or_eq_true, Bool.and_eq_true] at hread
      cases hstray : strayWait q wait with
      | true =>
        intro hsame
        have hdrop : withoutStray q (wait :: waits) = withoutStray q waits := by
          rw [withoutStray, List.filter_cons_of_neg (by rw [hstray]; exact Bool.false_ne_true)]
          rfl
        obtain ⟨other, rest, hother, hloop⟩ := loop_withoutStray cap q tcp left sends waits output c
        rw [hdrop, hloop] at hsame
        obtain ⟨event, hevent, hquery, hbytes⟩ := waitEvent_other q hother
        -- the other run records the event of the next wait behind the query
        have hnext : ((c.record .query).record event).log <+:
            (loop cap q tcp (left + 1) sends (other :: rest) output c).2.2.log := by
          rcases loop_sent cap q tcp hsent other rest output c with ⟨hnone, _⟩ | ⟨same, hsome, hprefix, _⟩
          · rw [hnone] at hevent
            cases hevent
          · rw [Option.some.inj (hevent.symm.trans hsome)]
            exact hprefix
        rcases loop_sent cap q tcp hsent wait waits output c with ⟨_, hpassed⟩ | ⟨first, hfirst, hprefix, _⟩
        · rw [← hsame, hpassed] at hnext
          rcases log_loop cap q tcp left sends.tail waits output (c.record .query) with hstop | hmore
          · rw [hstop] at hnext
            have hlen := hnext.length_le
            rw [record, List.length_append, List.length_singleton] at hlen
            omega
          · exact hquery (next_event hnext hmore)
        · rw [← hsame] at hnext
          have hevents : event = first := next_event hnext hprefix
          rcases waitEvent_stray q hstray with hnone | ⟨bytes, hcarries, hcase⟩
          · rw [hnone] at hfirst
            cases hfirst
          · rw [hfirst, ← hevents, Option.some.injEq, Option.some.injEq] at hcase
            exact hcase.elim (hbytes bytes hcarries).1 (hbytes bytes hcarries).2
      | false =>
        rw [hstray] at hread
        obtain ⟨hgoes, hrest⟩ := hread.resolve_left Bool.false_ne_true
        have hkeep : withoutStray q (wait :: waits) = wait :: withoutStray q waits := by
          rw [withoutStray, List.filter_cons_of_pos (by rw [hstray]; rfl)]
          rfl
        obtain ⟨event, hevent, _, _⟩ := waitEvent_other q hstray
        have hagain : ∀ waits', loop cap q tcp (left + 1) sends (wait :: waits') output c =
            loop cap q tcp left sends.tail waits' output ((c.record .query).record event) := by
          intro waits'
          rcases loop_sent cap q tcp hsent wait waits' output c with ⟨hnone, _⟩ | ⟨same, hsome, _, hloop⟩
          · rw [hnone] at hevent
            cases hevent
          · rw [Option.some.inj (hevent.symm.trans hsome)]
            exact hloop hgoes
        rw [hkeep, hagain, hagain]
        exact ih hrest _

end

/-- What a blocking lookup asks, and whom. -/
def resolveQuestion (c : Client) (nameserver : Endpoint) (name : Bytes) (type : RecordType) : Question :=
  ⟨dnsPeer nameserver, c.nextId, name, type⟩

/-- A blocking lookup has the outcome that it has without the stray datagrams: none of them ends it,
switches it to TCP or takes the place of an attempt. -/
def ResolveUndisturbed (c : Client) (nameserver : Endpoint) (name : Bytes) (type : RecordType)
    (answers : ResolveAnswers) (output : Response) : Prop :=
  c.resolve cap nameserver name type answers output =
    c.resolve cap nameserver name type
      { answers with waits := withoutStray (c.resolveQuestion nameserver name type) answers.waits } output

/-- The lookup gets to send its query, and reads a stray datagram before it ends. -/
def resolveReadsStray (c : Client) (nameserver : Endpoint) (name : Bytes) (type : RecordType)
    (answers : ResolveAnswers) : Bool :=
  !c.busy && (encodeQuery name type c.nextId 512).isOk && prepareUdp answers.socket (dnsPeer nameserver).family = .ok &&
    readsStray (c.resolveQuestion nameserver name type) (c.config.retries.toNat + 1) answers.sends answers.waits

theorem resolve_undisturbed_iff (nameserver : Endpoint) (name : Bytes) (type : RecordType)
    (answers : ResolveAnswers) (output : Response) : c.ResolveUndisturbed cap nameserver
    name type answers output ↔ c.resolveReadsStray nameserver name type answers = false := by
  rw [ResolveUndisturbed, resolveReadsStray, resolve, resolve]
  cases c.busy with
  | true => simp
  | false =>
    simp only [Bool.false_eq_true, if_false, Bool.not_false, Bool.true_and]
    cases hquery : encodeQuery name type c.nextId 512 with
    | error status => simp [Except.isOk, Except.toBool]
    | ok query =>
      simp only [Except.isOk, Except.toBool, Bool.true_and]
      by_cases hprepared : prepareUdp answers.socket (dnsPeer nameserver).family = .ok
      · rw [decide_eq_true hprepared, Bool.true_and, if_neg (not_not.mpr hprepared),
          if_neg (not_not.mpr hprepared)]
        constructor
        · intro hsame
          apply Bool.eq_false_iff.mpr
          intro hreads
          exact loop_disturbed cap (c.resolveQuestion nameserver name type) answers.tcp hreads output.clear _ hsame
        · intro hreads
          exact loop_undisturbed cap (c.resolveQuestion nameserver name type) answers.tcp hreads output.clear _
      · rw [if_pos hprepared, if_pos hprepared, decide_eq_false hprepared]
        simp

/-- Stray datagrams are without effect on a blocking lookup exactly when it reads none, and on a
polled one exactly when each of them comes from elsewhere and before the deadline. Without them a
polled lookup waits until the deadline, and then queries again or times out. -/
theorem strays_ignored_iff (c : Client) :
    (∀ nameserver name type answers output, c.ResolveUndisturbed cap nameserver name type answers output ↔
      c.resolveReadsStray nameserver name type answers = false) ∧
    (∀ steps : List (UInt32 × PollAnswers),
      AtEach steps (fun before step => (c.polls cap before).Undisturbed cap step.1 step.2) ↔
        AtEach steps (fun before step => (c.polls cap before).Harmless step.1 step.2)) ∧
    (c.state = .udpWait → ∀ (now : UInt32) (answers : PollAnswers),
      (c.attemptOver now = false →
        c.poll cap now { answers with received := .failed .empty } = (.empty, c)) ∧
      (c.attemptOver now = true →
        (c.record .query).log <+: (c.poll cap now { answers with received := .failed .empty }).2.log ∨
          (c.record (.completed .timeOut)).log <+:
            (c.poll cap now { answers with received := .failed .empty }).2.log)) := by
  refine ⟨resolve_undisturbed_iff cap c, polls_undisturbed_iff cap c, fun hstate now answers => ?_⟩
  have hpoll : c.poll cap now { answers with received := .failed .empty } = c.pollNothing now answers.sent := by
    rw [poll, hstate]
    rfl
  rw [hpoll]
  exact ⟨pollNothing_early c answers.sent, log_pollNothing c answers.sent⟩

/-- The default template arguments. -/
def defaultCapacity : ClientCapacity where
  maxRecords := 8
  tcpMessageCapacity := 2048
  records_pos := Nat.succ_pos (nat_lit 7)
  tcpMessage_min := Nat.le_add_right (nat_lit 12) (nat_lit 2036)
  tcpMessage_max := Nat.le_add_right (nat_lit 2048) (nat_lit 63487)

def exampleServer : Endpoint := { address := [8, 8, 8, 8], port := 53 }

def exampleElsewhere : Received := .datagram { address := [9, 9, 9, 9], port := 53 } []

/-- An answer from the server, to a query with another id. -/
def exampleStale : Received :=
  .datagram exampleServer [0, 1, 0x81, 0x80, 0, 1, 0, 0, 0, 0, 0, 0, 1, 0x61, 0, 0, 1, 0, 1]

def exampleClient : Client := .init defaultCapacity {} false

/-- A polled lookup of an address, started at time 0. -/
def exampleLookup : Client := (exampleClient.startResolve exampleServer [0x61] RecordType.a 0 {} {}).2

/-- Three datagrams from elsewhere end a blocking lookup at once, a stale answer ends a polled one,
and a datagram from elsewhere takes the place of a retry at its deadline. -/
theorem strays_disturb :
    ¬exampleClient.ResolveUndisturbed defaultCapacity exampleServer [0x61] RecordType.a
      { waits := List.replicate 3 { received := exampleElsewhere } } (.init 8) ∧
    ¬exampleLookup.Undisturbed defaultCapacity 5 { received := exampleStale } ∧
    ¬exampleLookup.Undisturbed defaultCapacity 1000 { received := exampleElsewhere } := by
  refine ⟨?_, ?_, ?_⟩
  · rw [resolve_undisturbed_iff]
    decide
  · intro h
    have hstep := h (by decide) (by decide)
    exact absurd hstep (by decide)
  · intro h
    have hstep := h (by decide) (by decide)
    exact absurd hstep (by decide)

end Client
end Castle.Dns
