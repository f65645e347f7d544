import Castle.Timing.Ptp.Slave
import Castle.Lib.Steps

/-!
# The exchange behind a sample

An exchange is a Sync and what was accepted with `ok` since: the latest Follow_Up, the latest
transmit time and the latest Delay_Resp.
-/

namespace Castle.Timing.Ptp

structure Exchange where
  sync : MessageView
  received : Timestamp
  delaySequence : UInt16
  followUp : Option MessageView := none
  transmitted : Option Timestamp := none
  response : Option MessageView := none
  deriving DecidableEq

namespace Exchange

/-- The exchange under way after an accepted packet -/
def takeIn (x : Option Exchange) (message : MessageView) (received : Timestamp)
    (delaySequence : UInt16) : Option Exchange :=
  match message.header.type with
  | .sync => some { sync := message, received := received, delaySequence := delaySequence }
  | .followUp => x.map fun x => { x with followUp := some message }
  | .delayResponse => x.map fun x => { x with response := some message }
  | _ => x

/-- The exchange under way after a call, its status and the number of its Delay_Req -/
def follow (x : Option Exchange) (call : Call) (status : Status) (delaySequence : UInt16) :
    Option Exchange :=
  if status ≠ .ok then x
  else
    match call with
    | .receive packet received =>
      match decodeMessage packet with
      | none => x
      | some message => takeIn x message received delaySequence
    | .delayRequestTransmitted time => x.map fun x => { x with transmitted := some time }
    | .reset => none

theorem follow_refused {status : Status} (h : status ≠ .ok) (x : Option Exchange) (call : Call)
    (delaySequence : UInt16) : follow x call status delaySequence = x := if_pos h

theorem follow_receive {packet : Bytes} {message : MessageView} (h : decodeMessage packet = some message)
    (x : Option Exchange) (received : Timestamp) (delaySequence : UInt16) :
    follow x (.receive packet received) .ok delaySequence = takeIn x message received delaySequence := by
  rw [follow, if_neg (not_not_intro rfl)]
  simp only [h]

end Exchange

namespace Slave

/-- The exchange under way after some calls of a slave -/
def exchange (s : Slave) (calls : List Call) : Option Exchange :=
  (calls.foldl (fun (p : Slave × Option Exchange) call =>
    let outcome := (p.1.step call).value
    (outcome.slave,
      Exchange.follow p.2 call outcome.status outcome.action.delayRequestSequence)) (s, none)).2

variable (s : Slave)

theorem exchange_snoc (calls : List Call) (call : Call) : s.exchange (calls ++ [call]) =
    Exchange.follow (s.exchange calls) call ((s.after calls).step call).value.status
    ((s.after calls).step call).value.action.delayRequestSequence := by
  have hfst : ∀ (calls : List Call) (p : Slave × Option Exchange),
      (calls.foldl (fun (p : Slave × Option Exchange) call =>
        let outcome := (p.1.step call).value
        (outcome.slave,
          Exchange.follow p.2 call outcome.status outcome.action.delayRequestSequence)) p).1 =
        p.1.after calls := by
    intro calls
    induction calls with
    | nil => intro p; rfl
    | cons call calls ih => intro p; exact ih _
  rw [exchange, List.foldl_append, List.foldl_cons, List.foldl_nil, hfst]
  rfl

/-- The message is a Delay_Resp for the slave's own Delay_Req of this exchange. -/
def answers (s : Slave) (message : MessageView) : Bool :=
  s.pending && samePort message.header.sourcePort s.master &&
    message.header.sequenceId == s.delaySequenceId &&
    decide (ptpTimestampSize + ptpTimestampSize ≤ message.payload.length) &&
    samePort message.requestingPort s.localPort

/-- The message that gets past the checks of `receive` -/
def admitted (s : Slave) : Call → Option MessageView
  | .receive packet receiveTimestamp =>
    if validTimestamp receiveTimestamp then (decodeMessage packet).filter fun message => s.accepts message.header
    else none
  | _ => none

/-- The call brings a Delay_Resp with an invalid timestamp while a valid one is held. -/
def spoils (s : Slave) (call : Call) : Bool :=
  s.t4Valid && (s.admitted call).any fun message =>
    message.is .delayResponse && s.answers message && !(readTimestamp message.payload).1

variable {message : MessageView} {received : Timestamp}

theorem admitted_eq {s : Slave} {packet : Bytes} (hreceived : validTimestamp received = true)
    (hdecode : decodeMessage packet = some message) (haccepts : s.accepts message.header = true) :
    s.admitted (.receive packet received) = some message := by
  rw [admitted, if_pos hreceived, hdecode, Option.filter_some, if_pos haccepts]

/-- The slave that a Sync hands to `try_complete` -/
def started (s : Slave) (message : MessageView) (received t1 : Timestamp) : Slave :=
  { s.start message received with
    t1 := t1
    t1Valid := !message.header.isTwoStep
    nextDelaySequence := s.nextDelaySequence + 1
    delaySequenceId := s.nextDelaySequence }

/-- Everything that a call can do before `try_complete`. -/
inductive Handled (s : Slave) : Call → Except Outcome (SlaveAction × Slave) → Prop
  | refused {call : Call} {status : Status} (hstatus : status ≠ .ok) :
      Handled s call (.error ⟨status, {}, s⟩)
  | reset : Handled s .reset (.error ⟨.ok, {}, s.reset⟩)
  /-- A one-step Sync without a valid timestamp -/
  | dropped {call : Call} {s' : Slave} (hport : s'.localPort = s.localPort) (hpending : s'.pending = false) :
      Handled s call (.error ⟨.invalidArgument, {}, s'⟩)
  | badFollowUp {call : Call} (t1 : Timestamp) (hawait : s.awaitingFollowUp = true) :
      Handled s call (.error ⟨.invalidArgument, {}, { s with t1 := t1 }⟩)
  | badResponse {call : Call} (t4 : Timestamp) (hspoils : s.t4Valid = true → s.spoils call = true) :
      Handled s call (.error ⟨.invalidArgument, {}, { s with t4 := t4 }⟩)
  | sync {packet : Bytes} {received : Timestamp} {message : MessageView} {action : SlaveAction}
      (t1 : Timestamp) (hdecode : decodeMessage packet = some message)
      (htype : message.header.type = .sync) (hreceived : validTimestamp received = true)
      (ht1 : message.header.isTwoStep = true ∨ readMessageTimestamp message s.t1 = (true, t1))
      (haction : action.delayRequestSequence = s.nextDelaySequence ∧ action.measurementReady = false) :
      Handled s (.receive packet received) (.ok (action, s.started message received t1))
  | followUp {packet : Bytes} {received : Timestamp} {message : MessageView} (t1 : Timestamp)
      (hdecode : decodeMessage packet = some message)
      (hadmitted : s.admitted (.receive packet received) = some message)
      (htype : message.header.type = .followUp)
      (hpending : s.pending = true) (hawait : s.awaitingFollowUp = true)
      (hport : message.header.sourcePort = s.master) (hsequence : message.header.sequenceId = s.sequenceId)
      (ht1 : readMessageTimestamp message s.t1 = (true, t1)) :
      Handled s (.receive packet received)
        (.ok ({}, { s with t1 := t1, t1Valid := true, awaitingFollowUp := false }))
  | response {packet : Bytes} {received : Timestamp} {message : MessageView} (t4 : Timestamp)
      (hdecode : decodeMessage packet = some message) (htype : message.header.type = .delayResponse)
      (hanswers : s.answers message = true) (ht4 : readTimestamp message.payload = (true, t4)) :
      Handled s (.receive packet received)
        (.ok ({}, { s with
          t4 := t4
          t4Valid := true
          delayCorrection := correctionToNanoseconds message.header.correctionField }))
  | transmitted {time : Timestamp} (hpending : s.pending = true) (htime : validTimestamp time = true) :
      Handled s (.delayRequestTransmitted time) (.ok ({}, { s with t3 := time, t3Valid := true }))

theorem encodeDelayRequest_fits (domainNumber : UInt8) (source : PortIdentity) (sequenceId : UInt16)
    (transportSpecific : UInt8) : ∃ bytes,
    encodeDelayRequest domainNumber source sequenceId ptpDelayRequestSize transportSpecific = .ok bytes :=
  ⟨_, rfl⟩

theorem requestDelay_eq (action : SlaveAction) : ∃ action',
    s.requestDelay action = .ok (action', { s with
      nextDelaySequence := s.nextDelaySequence + 1, delaySequenceId := s.nextDelaySequence }) ∧
    action'.delayRequestSequence = s.nextDelaySequence ∧
    action'.measurementReady = action.measurementReady := by
  obtain ⟨bytes, hbytes⟩ := encodeDelayRequest_fits s.config.domainNumber s.localPort
    s.nextDelaySequence s.config.transportSpecific
  refine ⟨{ action with
    sendDelayRequest := true, delayRequestSequence := s.nextDelaySequence
    delayRequest := bytes, delayRequestSize := ptpDelayRequestSize }, ?_, rfl, rfl⟩
  simp only [requestDelay, hbytes]

theorem handled_sync {s : Slave} {packet : Bytes} (hdecode : decodeMessage packet = some message)
    (htype : message.header.type = .sync) (hreceived : validTimestamp received = true) :
    Handled s (.receive packet received) (s.consumeSync message received {}) := by
  rw [consumeSync]
  by_cases htwo : message.header.isTwoStep = true
  · rw [if_pos htwo]
    obtain ⟨action, heq, haction⟩ := requestDelay_eq (s.start message received) {}
    rw [heq]
    have h := @Handled.sync s packet received message action s.t1 hdecode htype hreceived
      (Or.inl htwo) haction
    rw [started, htwo] at h
    exact h
  · rw [if_neg htwo]
    rcases hread : readMessageTimestamp message (s.start message received).t1 with ⟨_ | _, t1⟩
    · exact .dropped rfl rfl
    · obtain ⟨action, heq, haction⟩ :=
        requestDelay_eq { s.start message received with t1 := t1, t1Valid := true } {}
      simp only [heq]
      have h := @Handled.sync s packet received message action t1 hdecode htype hreceived
        (Or.inr hread) haction
      rw [started, eq_false_of_ne_true htwo] at h
      rw [Slave.start, eq_false_of_ne_true htwo]
      rw [Slave.start, eq_false_of_ne_true htwo] at h
      exact h

theorem handled_followUp {s : Slave} {packet : Bytes}
    (hdecode : decodeMessage packet = some message)
    (hadmitted : s.admitted (.receive packet received) = some message)
    (htype : message.header.type = .followUp) :
    Handled s (.receive packet received) (s.consumeFollowUp message {}) := by
  rw [consumeFollowUp]
  split_ifs with hmatch
  · exact .refused (by decide)
  · simp only [Bool.or_eq_true, Bool.not_eq_true', bne_iff_ne, not_or, Bool.not_eq_false,
      not_not] at hmatch
    obtain ⟨⟨⟨hpending, hawait⟩, hport⟩, hsequence⟩ := hmatch
    rcases hread : readMessageTimestamp message s.t1 with ⟨_ | _, t1⟩
    · exact .badFollowUp t1 hawait
    · exact .followUp t1 hdecode hadmitted htype hpending hawait (samePort_iff.mp hport) hsequence hread

theorem handled_response {s : Slave} {packet : Bytes}
    (hdecode : decodeMessage packet = some message)
    (hadmitted : s.admitted (.receive packet received) = some message)
    (htype : message.header.type = .delayResponse) :
    Handled s (.receive packet received) (s.consumeDelayResponse message {}) := by
  rw [consumeDelayResponse]
  split_ifs with hmatch hshort hrequesting
  · exact .refused (by decide)
  · exact .refused (by decide)
  · exact .refused (by decide)
  · have hanswers : s.answers message = true := by
      simp only [Bool.or_eq_true, Bool.not_eq_true', bne_iff_ne, not_or, Bool.not_eq_false,
        not_not] at hmatch hrequesting
      obtain ⟨⟨hpending, hport⟩, hsequence⟩ := hmatch
      simp only [answers, Bool.and_eq_true, beq_iff_eq, decide_eq_true_eq]
      exact ⟨⟨⟨⟨hpending, hport⟩, hsequence⟩, not_lt.mp hshort⟩, hrequesting⟩
    rcases hread : readTimestamp message.payload with ⟨_ | _, t4⟩
    · refine .badResponse t4 fun hvalid => ?_
      simp only [spoils, hvalid, hadmitted, Option.any_some, MessageView.is, htype, hanswers, hread]
      rfl
    · exact .response t4 hdecode htype hanswers hread

theorem handled_receive (packet : Bytes) (received : Timestamp) :
    Handled s (.receive packet received) (s.receive packet received) := by
  rw [receive]
  split_ifs with hreceived
  · exact .refused (by decide)
  · rw [Bool.not_eq_true', Bool.not_eq_false] at hreceived
    cases hdecode : decodeMessage packet with
    | none => exact .refused (by decide)
    | some message =>
      simp only
      split_ifs with haccepts
      · exact .refused (by decide)
      · rw [Bool.not_eq_true', Bool.not_eq_false] at haccepts
        cases htype : message.header.type with
        | sync => exact handled_sync hdecode htype hreceived
        | followUp => exact handled_followUp hdecode (admitted_eq hreceived hdecode haccepts) htype
        | delayResponse => exact handled_response hdecode (admitted_eq hreceived hdecode haccepts) htype
        | _ => exact .refused (by decide)

theorem handled (call : Call) : Handled s call (s.handle call) := by
  cases call with
  | receive packet received => exact handled_receive s packet received
  | reset => exact .reset
  | delayRequestTransmitted time =>
    rw [handle, delayRequestTransmitted]
    split_ifs with hpending htime
    · exact .refused (by decide)
    · exact .refused (by decide)
    · rw [Bool.not_eq_true', Bool.not_eq_false] at hpending htime
      exact .transmitted hpending htime

end Slave

/-!
## Where the timestamps of a sample come from

While an exchange is pending, each timestamp that the slave holds as valid is the one of an
accepted message of that exchange. A Delay_Resp that is refused for its timestamp breaks this
when it comes after an accepted one: its timestamp replaces the valid one and stays marked valid.
-/

def MessageView.Carries (message : MessageView) (time : Timestamp) : Prop :=
  readMessageTimestamp message {} = (true, time)

theorem MessageView.carries_of_read {message : MessageView} {before time : Timestamp}
    (h : readMessageTimestamp message before = (true, time)) : message.Carries time := by
  rw [MessageView.Carries, readMessageTimestamp]
  rw [readMessageTimestamp] at h
  split_ifs at h ⊢
  · exact h
  · simp at h

theorem valid_of_readTimestamp {data : Bytes} {time : Timestamp} (h : readTimestamp data = (true, time)) :
    validTimestamp time = true := by
  rw [readTimestamp, Prod.mk.injEq] at h
  obtain ⟨hvalid, rfl⟩ := h
  exact hvalid

theorem MessageView.Carries.valid {message : MessageView} {time : Timestamp} (h : message.Carries time) :
    validTimestamp time = true := by
  rw [MessageView.Carries, readMessageTimestamp] at h
  split_ifs at h
  · exact valid_of_readTimestamp h
  · simp at h

namespace Exchange

variable (x : Exchange)

/-- `time` is the master's time of the Sync: the Sync's own, or that of its Follow_Up. -/
def SyncTime (time : Timestamp) : Prop :=
  if x.sync.header.isTwoStep then
    ∃ message, x.followUp = some message ∧
      message.header.sourcePort = x.sync.header.sourcePort ∧
      message.header.sequenceId = x.sync.header.sequenceId ∧ message.Carries time
  else x.sync.Carries time

/-- `time` is the master's time of the Delay_Req that the slave at `localPort` sent. -/
def RequestTime (localPort : PortIdentity) (time : Timestamp) : Prop :=
  ∃ message, x.response = some message ∧
    message.header.sourcePort = x.sync.header.sourcePort ∧
    message.header.sequenceId = x.delaySequence ∧
    message.requestingPort = localPort ∧ message.Carries time

def syncCorrection : ℤ := correctionToNanoseconds x.sync.header.correctionField

def responseCorrection : ℤ :=
  match x.response with
  | none => 0
  | some message => correctionToNanoseconds message.header.correctionField

/-- The sample is made of the four timestamps of the exchange. -/
structure Provides (localPort : PortIdentity) (sample : Measurement) : Prop where
  masterPort : x.sync.header.sourcePort = sample.masterPort
  syncSequenceId : x.sync.header.sequenceId = sample.syncSequenceId
  delayRequestSequenceId : x.delaySequence = sample.delayRequestSequenceId
  twoStep : x.sync.header.isTwoStep = sample.twoStep
  slaveSync : x.received = sample.slaveSync
  masterSync : x.SyncTime sample.masterSync
  slaveDelayRequest : x.transmitted = some sample.slaveDelayRequest
  masterDelayRequest : x.RequestTime localPort sample.masterDelayRequest
  valid : validTimestamp sample.slaveSync = true ∧ validTimestamp sample.masterSync = true ∧
    validTimestamp sample.slaveDelayRequest = true ∧ validTimestamp sample.masterDelayRequest = true

theorem SyncTime.valid {x : Exchange} {time : Timestamp} (h : x.SyncTime time) :
    validTimestamp time = true := by
  rw [SyncTime] at h
  split_ifs at h
  · obtain ⟨message, _, _, _, hcarries⟩ := h
    exact hcarries.valid
  · exact h.valid

theorem RequestTime.valid {x : Exchange} {localPort : PortIdentity} {time : Timestamp}
    (h : x.RequestTime localPort time) : validTimestamp time = true := by
  obtain ⟨message, _, _, _, _, hcarries⟩ := h
  exact hcarries.valid

end Exchange

namespace Slave

/-- What a slave holds of the exchange under way. -/
structure Holds (s : Slave) (x : Exchange) : Prop where
  master : s.master = x.sync.header.sourcePort
  sequenceId : s.sequenceId = x.sync.header.sequenceId
  delaySequenceId : s.delaySequenceId = x.delaySequence
  twoStep : s.twoStep = x.sync.header.isTwoStep
  t2 : s.t2 = x.received
  t2_valid : validTimestamp s.t2 = true
  syncCorrection : s.syncCorrection = x.syncCorrection
  awaiting : s.awaitingFollowUp = true → s.twoStep = true ∧ s.t1Valid = false
  t1 : s.t1Valid = true → x.SyncTime s.t1
  t3 : s.t3Valid = true → x.transmitted = some s.t3 ∧ validTimestamp s.t3 = true
  t4 : s.t4Valid = true → x.RequestTime s.localPort s.t4 ∧ s.delayCorrection = x.responseCorrection

/-- A pending slave holds what was accepted in the exchange under way. -/
structure Follows (localPort : PortIdentity) (s : Slave) (x : Option Exchange) : Prop where
  localPort : s.localPort = localPort
  holds : s.pending = true → ∃ y, x = some y ∧ s.Holds y

variable {localPort : PortIdentity} {s : Slave} {x : Option Exchange} {call : Call}

theorem Follows.of_idle {s' : Slave} (hport : s'.localPort = localPort) (h : s'.pending = false)
    (x : Option Exchange) : Follows localPort s' x :=
  ⟨hport, fun hp => absurd (h.symm.trans hp) (by decide)⟩

theorem Follows.early_return {outcome : Outcome} (hs : Follows localPort s x)
    (hspoils : s.spoils call = false) (h : Handled s call (.error outcome)) : Follows localPort
    outcome.slave (Exchange.follow x call outcome.status outcome.action.delayRequestSequence) ∧
    outcome.action.measurementReady = false := by
  cases h with
  | refused hstatus =>
    rw [Exchange.follow_refused hstatus]
    exact ⟨hs, rfl⟩
  | reset => exact ⟨@Follows.of_idle localPort s.reset hs.localPort rfl _, rfl⟩
  | dropped hport hpending => exact ⟨.of_idle (hport.trans hs.localPort) hpending _, rfl⟩
  | badFollowUp t1 hawait =>
    rw [@Exchange.follow_refused .invalidArgument (by decide)]
    refine ⟨⟨hs.localPort, fun hp => ?_⟩, rfl⟩
    obtain ⟨y, hy, hh⟩ := hs.holds hp
    -- a Follow_Up is awaited, so that the timestamp it overwrites is not marked valid
    exact ⟨y, hy, { hh with
      t1 := fun h1 => absurd ((hh.awaiting hawait).2.symm.trans h1) (by decide) }⟩
  | badResponse t4 hspoil =>
    rw [@Exchange.follow_refused .invalidArgument (by decide)]
    refine ⟨⟨hs.localPort, fun hp => ?_⟩, rfl⟩
    obtain ⟨y, hy, hh⟩ := hs.holds hp
    exact ⟨y, hy, { hh with t4 := fun h4 => absurd (hspoils.symm.trans (hspoil h4)) (by decide) }⟩

variable {message : MessageView}

theorem holds_started {received t1 before : Timestamp} (hreceived : validTimestamp received = true)
    (ht1 : message.header.isTwoStep = true ∨ readMessageTimestamp message before = (true, t1)) :
    (s.started message received t1).Holds
      { sync := message, received := received, delaySequence := s.nextDelaySequence } where
  master := rfl
  sequenceId := rfl
  delaySequenceId := rfl
  twoStep := rfl
  t2 := rfl
  t2_valid := hreceived
  syncCorrection := rfl
  awaiting := by
    intro hawait
    change message.header.isTwoStep = true at hawait
    exact ⟨hawait, congrArg not hawait⟩
  t1 := by
    intro h1
    change (!message.header.isTwoStep) = true at h1
    rw [Bool.not_eq_true'] at h1
    rw [Exchange.SyncTime, h1, if_neg (by decide)]
    rcases ht1 with htwo | hread
    · exact absurd (h1.symm.trans htwo) (by decide)
    · exact MessageView.carries_of_read hread
  t3 := fun h3 => absurd h3 (by change ¬false = true; decide)
  t4 := fun h4 => absurd h4 (by change ¬false = true; decide)

theorem Holds.followUp {y : Exchange} {t1 before : Timestamp} (h : s.Holds y)
    (hawait : s.awaitingFollowUp = true) (hport : message.header.sourcePort = s.master)
    (hsequence : message.header.sequenceId = s.sequenceId)
    (ht1 : readMessageTimestamp message before = (true, t1)) :
    { s with t1 := t1, t1Valid := true, awaitingFollowUp := false }.Holds
      { y with followUp := some message } :=
  { h with
    awaiting := fun hfalse => absurd hfalse (by change ¬false = true; decide)
    t1 := by
      intro _
      have htwo : y.sync.header.isTwoStep = true := h.twoStep ▸ (h.awaiting hawait).1
      rw [Exchange.SyncTime, if_pos htwo]
      exact ⟨message, rfl, hport.trans h.master, hsequence.trans h.sequenceId,
        MessageView.carries_of_read ht1⟩ }

theorem Holds.response {y : Exchange} {t4 : Timestamp} (h : s.Holds y)
    (htype : message.header.type = .delayResponse) (hanswers : s.answers message = true)
    (ht4 : readTimestamp message.payload = (true, t4)) :
    { s with
      t4 := t4
      t4Valid := true
      delayCorrection := correctionToNanoseconds message.header.correctionField }.Holds
      { y with response := some message } := by
  simp only [answers, Bool.and_eq_true, beq_iff_eq, decide_eq_true_eq, samePort_iff] at hanswers
  obtain ⟨⟨⟨⟨_, hport⟩, hsequence⟩, hlength⟩, hrequesting⟩ := hanswers
  refine { h with t4 := fun _ => ⟨⟨message, rfl, hport.trans h.master,
    hsequence.trans h.delaySequenceId, hrequesting, ?_⟩, rfl⟩ }
  have hlong : decide (message.payload.length ≥ ptpTimestampSize) = true := by
    rw [decide_eq_true_eq]
    exact (Nat.le_add_left _ _).trans hlength
  rw [MessageView.Carries, readMessageTimestamp, hlong, MessageView.is, MessageView.is, MessageView.is,
    htype]
  exact ht4

/-- What goes on to `try_complete` holds of the exchange that the call has been taken into. -/
theorem Follows.go_on {action : SlaveAction} {held : Slave} (hs : Follows localPort s x)
    (h : Handled s call (.ok (action, held))) :
    held.localPort = localPort ∧ action.measurementReady = false ∧
      ∃ y, Exchange.follow x call .ok action.delayRequestSequence = some y ∧ held.Holds y := by
  cases h with
  | sync t1 hdecode htype hreceived ht1 haction =>
    refine ⟨hs.localPort, haction.2, _, ?_, holds_started hreceived ht1⟩
    rw [Exchange.follow_receive hdecode, Exchange.takeIn, htype, haction.1]
  | followUp t1 hdecode _ htype hpending hawait hport hsequence ht1 =>
    obtain ⟨y, rfl, hh⟩ := hs.holds hpending
    refine ⟨hs.localPort, rfl, _, ?_, hh.followUp hawait hport hsequence ht1⟩
    rw [Exchange.follow_receive hdecode, Exchange.takeIn, htype]
    rfl
  | response t4 hdecode htype hanswers ht4 =>
    have hpending : s.pending = true := by
      simp only [answers, Bool.and_eq_true] at hanswers
      exact hanswers.1.1.1.1
    obtain ⟨y, rfl, hh⟩ := hs.holds hpending
    refine ⟨hs.localPort, rfl, _, ?_, hh.response htype hanswers ht4⟩
    rw [Exchange.follow_receive hdecode, Exchange.takeIn, htype]
    rfl
  | transmitted hpending htime =>
    obtain ⟨y, rfl, hh⟩ := hs.holds hpending
    exact ⟨hs.localPort, rfl, _, rfl, { hh with t3 := fun _ => ⟨rfl, htime⟩ }⟩

/-- `try_complete` keeps what it is handed, or gives the exchange up, or reports a sample of the
slave's timestamps. -/
theorem tryComplete_cases (held : Slave) (action : SlaveAction) :
    held.complete = false ∧ held.tryComplete action = pure ⟨.ok, action, held⟩ ∨
    held.complete = true ∧ (∃ status, held.calculate.value = .error status ∧
      (held.tryComplete action).value = ⟨status, action, held.abandon⟩) ∨
    held.complete = true ∧ ∃ sample, held.calculate.value = .ok sample ∧
      (held.tryComplete action).value.status = .ok ∧
      (held.tryComplete action).value.action =
        { action with measurementReady := true, sample := sample } ∧
      (held.tryComplete action).value.slave.pending = false ∧
      (held.tryComplete action).value.slave.localPort = held.localPort := by
  rw [tryComplete]
  cases hcomplete : held.complete with
  | false => exact Or.inl ⟨rfl, rfl⟩
  | true =>
    right
    rw [Bool.not_true, if_neg (by decide), Tracked.bind_value]
    cases hvalue : held.calculate.value with
    | error status => exact Or.inl ⟨rfl, status, rfl, rfl⟩
    | ok sample => exact Or.inr ⟨rfl, sample, rfl, rfl, rfl, rfl, rfl⟩

theorem calculate_sample {held : Slave} {sample : Measurement} (h : held.calculate.value = .ok sample) :
    ∃ offset pathDelay correction, sample = held.sampleOf offset pathDelay correction := by
  simp only [calculate, Tracked.bind_value] at h
  split at h
  · cases h
  · simp only [Tracked.bind_value] at h
    split at h
    · cases h
    · simp only [calculateFrom, Tracked.bind_value] at h
      split at h
      · cases h
      · simp only [Tracked.bind_value] at h
        split at h
        · cases h
        · exact ⟨_, _, _, (Except.ok.inj h).symm⟩

theorem Holds.provides {held : Slave} {y : Exchange} (h : held.Holds y) (hcomplete : held.complete = true)
    (offset pathDelay correction : ℤ) :
    y.Provides held.localPort (held.sampleOf offset pathDelay correction) := by
  simp only [complete, Bool.and_eq_true] at hcomplete
  obtain ⟨⟨⟨⟨_, h1⟩, _⟩, h3⟩, h4⟩ := hcomplete
  exact {
    masterPort := h.master.symm
    syncSequenceId := h.sequenceId.symm
    delayRequestSequenceId := h.delaySequenceId.symm
    twoStep := h.twoStep.symm
    slaveSync := h.t2.symm
    masterSync := h.t1 h1
    slaveDelayRequest := (h.t3 h3).1
    masterDelayRequest := (h.t4 h4).1
    valid := ⟨h.t2_valid, (h.t1 h1).valid, (h.t3 h3).2, (h.t4 h4).1.valid⟩ }

theorem follows_init (localPort : PortIdentity) (config : SlaveConfig) :
    Follows localPort (init localPort config) none :=
  @Follows.of_idle localPort (init localPort config) rfl rfl _

theorem Follows.step (hs : Follows localPort s x) (hspoils : s.spoils call = false) :
    Follows localPort (s.step call).value.slave
      (Exchange.follow x call (s.step call).value.status
        (s.step call).value.action.delayRequestSequence) := by
  have hhandled := handled s call
  rcases hhandle : s.handle call with outcome | ⟨action, held⟩
  · rw [step_error hhandle]
    exact (hs.early_return hspoils (hhandle ▸ hhandled)).1
  · obtain ⟨hport, _, y, hy, hh⟩ := hs.go_on (hhandle ▸ hhandled)
    rw [step_ok hhandle]
    rcases tryComplete_cases held action with ⟨_, heq⟩ | ⟨_, status, _, heq⟩ |
        ⟨_, sample, _, _, _, hpending, hlocal⟩
    · rw [heq]
      exact ⟨hport, fun _ => ⟨y, hy, hh⟩⟩
    · rw [heq]
      exact @Follows.of_idle localPort held.abandon hport rfl _
    · exact .of_idle (hlocal.trans hport) hpending _

theorem reported_of_ready {outcome : Outcome} (hs : Follows localPort s x)
    (hspoils : s.spoils call = false)
    (houtcome : (s.step call).value = outcome) (hready : outcome.action.measurementReady = true) :
    ∃ action held y, s.handle call = .ok (action, held) ∧ held.localPort = localPort ∧
      held.complete = true ∧ held.calculate.value = .ok outcome.action.sample ∧ held.Holds y ∧
      Exchange.follow x call outcome.status outcome.action.delayRequestSequence = some y := by
  subst houtcome
  have hhandled := handled s call
  rcases hhandle : s.handle call with outcome | ⟨action, held⟩
  · rw [step_error hhandle] at hready
    have hnot := (hs.early_return hspoils (hhandle ▸ hhandled)).2
    exact absurd (hnot.symm.trans hready) (by decide)
  · obtain ⟨hport, hnot, y, hy, hh⟩ := hs.go_on (hhandle ▸ hhandled)
    rw [step_ok hhandle] at hready ⊢
    rcases tryComplete_cases held action with ⟨_, heq⟩ | ⟨_, status, _, heq⟩ |
        ⟨hcomplete, sample, hvalue, hstatus, haction, _, _⟩
    · rw [heq] at hready
      exact absurd (hnot.symm.trans hready) (by decide)
    · rw [heq] at hready
      exact absurd (hnot.symm.trans hready) (by decide)
    · rw [hstatus, haction]
      exact ⟨action, held, y, rfl, hport, hcomplete, hvalue, hh, hy⟩

theorem follows_after {config : SlaveConfig} {calls before : List Call}
    (h : AtEach calls fun before call => ((init localPort config).after before).spoils call = false)
    (hb : before <+: calls) :
    Follows localPort ((init localPort config).after before) ((init localPort config).exchange before) := by
  refine @AtEach.invariant _ _ _ (fun before => Follows localPort ((init localPort config).after before)
    ((init localPort config).exchange before)) h (follows_init localPort config) ?_ before hb
  intro before call _ hinv hspoils
  rw [after_snoc, exchange_snoc]
  exact hinv.step hspoils

/-- If the call reports a sample, the sample is made of the exchange under way. -/
def ReportsExchange (localPort : PortIdentity) (config : SlaveConfig) (before : List Call) (call : Call) :
    Prop :=
  (((init localPort config).after before).step call).value.action.measurementReady = true →
    ∃ x, (init localPort config).exchange (before ++ [call]) = some x ∧
      x.Provides localPort (((init localPort config).after before).step call).value.action.sample

/-- Every sample of a run is made of the valid timestamps of one exchange, as long as no refused
Delay_Resp replaces a timestamp that the slave holds. -/
theorem samples_provided (localPort : PortIdentity) (config : SlaveConfig) (calls : List Call)
    (h : AtEach calls fun before call => ((init localPort config).after before).spoils call = false) :
    AtEach calls (ReportsExchange localPort config) := by
  intro before call hb hready
  have hfollows := follows_after h ((List.prefix_append before [call]).trans hb)
  obtain ⟨action, held, y, _, hport, hcomplete, hvalue, hh, hy⟩ :=
    reported_of_ready hfollows (h before call hb) rfl hready
  obtain ⟨offset, pathDelay, correction, hsample⟩ := calculate_sample hvalue
  refine ⟨y, ?_, ?_⟩
  · rw [exchange_snoc]
    exact hy
  · rw [hsample, ← hport]
    exact hh.provides hcomplete offset pathDelay correction

/-- A packet of domain 0 from port 1 of clock 0 -/
def packet (type flags sequence : UInt8) (correction payload : Bytes) : Bytes :=
  [type, 2, 0, UInt8.ofNat (ptpHeaderSize + payload.length), 0, 0, flags, 0] ++ correction ++
    List.replicate 13 0 ++ [1, 0, sequence, 0, 0] ++ payload

def noCorrection : Bytes := List.replicate 8 0

/-- The timestamp with these low bytes, and the requesting port after it -/
def responsePayload (seconds nanoseconds : UInt8) : Bytes :=
  [0, 0, 0, 0, 0, seconds, nanoseconds, 0, 0, 0] ++ List.replicate 10 0

/-- A two-step exchange whose Follow_Up comes last -/
def twoStepRun : List Call :=
  [.receive (packet 0x0 0x02 7 noCorrection []) ⟨1, 500⟩,
    .delayRequestTransmitted ⟨1, 900⟩,
    .receive (packet 0x9 0 0 noCorrection (responsePayload 2 0)) ⟨2, 100⟩,
    .receive (packet 0x8 0 7 noCorrection [0, 0, 0, 0, 0, 1, 0, 0, 0, 0]) ⟨2, 200⟩]

theorem samples_provided_twoStepRun : AtEach twoStepRun (ReportsExchange {} {}) :=
  samples_provided {} {} twoStepRun (by decide)

/-- The same exchange, with a second Delay_Resp of more nanoseconds than a second has -/
def spoiledRun : List Call :=
  [.receive (packet 0x0 0x02 7 noCorrection []) ⟨1, 500⟩,
    .delayRequestTransmitted ⟨1, 900⟩,
    .receive (packet 0x9 0 0 noCorrection (responsePayload 2 0)) ⟨2, 100⟩,
    .receive (packet 0x9 0 0 noCorrection (responsePayload 2 0xff)) ⟨2, 150⟩,
    .receive (packet 0x8 0 7 noCorrection [0, 0, 0, 0, 0, 1, 0, 0, 0, 0]) ⟨2, 200⟩]

theorem sample_spoiled : ¬AtEach spoiledRun (ReportsExchange {} {}) := by
  intro h
  obtain ⟨x, _, hx⟩ := h (spoiledRun.take 4) _ (List.prefix_refl spoiledRun) (by decide)
  exact absurd hx.valid.2.2.2 (by decide)

end Slave
end Castle.Timing.Ptp
