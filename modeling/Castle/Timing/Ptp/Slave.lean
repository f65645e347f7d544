import Mathlib.Algebra.Ring.Nat
import Castle.Status
import Castle.Lib.SignedArithmetic

/-!
# PTP messages (`protocols/timing/ptp_v2.hpp`)

A view is the bytes it shows. The output buffer of an encoder is not null.
-/

namespace Castle.Timing.Ptp

abbrev Bytes := List UInt8

def ptpVersion : UInt8 := 2
def ptpHeaderSize : ℕ := 34
def ptpTimestampSize : ℕ := 10
def ptpDelayRequestSize : ℕ := 44
def ptpFlagTwoStep : UInt16 := 0x0200
def ptpMaxSeconds : UInt64 := 0x0000ffffffffffff
def ptpNanosecondsPerSecond : UInt32 := 1000000000
def ptpCorrectionScale : ℤ := 65536
def ptpAnyTransportSpecific : UInt8 := 0xff

inductive MessageType where
  | sync | delayRequest | pdelayRequest | pdelayResponse | followUp | delayResponse
  | pdelayResponseFollowUp | announce | signaling | management
  deriving DecidableEq

def MessageType.code : MessageType → UInt8
  | .sync => 0x0
  | .delayRequest => 0x1
  | .pdelayRequest => 0x2
  | .pdelayResponse => 0x3
  | .followUp => 0x8
  | .delayResponse => 0x9
  | .pdelayResponseFollowUp => 0xa
  | .announce => 0xb
  | .signaling => 0xc
  | .management => 0xd

/-- The cast to `message_type` with `valid_message_type` -/
def MessageType.ofCode? (code : UInt8) : Option MessageType :=
  match code with
  | 0x0 => some .sync
  | 0x1 => some .delayRequest
  | 0x2 => some .pdelayRequest
  | 0x3 => some .pdelayResponse
  | 0x8 => some .followUp
  | 0x9 => some .delayResponse
  | 0xa => some .pdelayResponseFollowUp
  | 0xb => some .announce
  | 0xc => some .signaling
  | 0xd => some .management
  | _ => none

structure Timestamp where
  seconds : UInt64 := 0
  nanoseconds : UInt32 := 0
  deriving DecidableEq

structure PortIdentity where
  clockIdentity : Vector UInt8 8 := Vector.replicate 8 0
  portNumber : UInt16 := 0
  deriving DecidableEq

structure MessageHeader where
  transportSpecific : UInt8 := 0
  type : MessageType := .sync
  version : UInt8 := ptpVersion
  messageLength : UInt16 := 0
  domainNumber : UInt8 := 0
  flags : UInt16 := 0
  correctionField : Int64 := 0
  sourcePort : PortIdentity := {}
  sequenceId : UInt16 := 0
  controlField : UInt8 := 0
  logMessageInterval : Int8 := 0
  deriving DecidableEq

def MessageHeader.isTwoStep (header : MessageHeader) : Bool := header.flags &&& ptpFlagTwoStep != 0

structure MessageView where
  header : MessageHeader := {}
  payload : Bytes := []
  deriving DecidableEq

def MessageView.is (message : MessageView) (value : MessageType) : Bool := message.header.type == value

def validTimestamp (value : Timestamp) : Bool :=
  decide (value.seconds ≤ ptpMaxSeconds) && decide (value.nanoseconds < ptpNanosecondsPerSecond)

def samePort (left right : PortIdentity) : Bool :=
  left.portNumber == right.portNumber &&
    (List.finRange 8).all fun index => left.clockIdentity[index] == right.clockIdentity[index]

theorem samePort_iff {left right : PortIdentity} : samePort left right = true ↔ left = right := by
  constructor
  · intro h
    simp only [samePort, Bool.and_eq_true, beq_iff_eq, List.all_eq_true, List.mem_finRange,
      true_implies] at h
    obtain ⟨hport, hclock⟩ := h
    have hvector : left.clockIdentity = right.clockIdentity :=
      Vector.ext fun index hindex => hclock ⟨index, hindex⟩
    cases left
    cases right
    simp only at hport hvector
    rw [hport, hvector]
  · rintro rfl
    simp [samePort]

def readBe16 (data : Bytes) (offset : ℕ) : UInt16 :=
  ((data.getD offset 0).toUInt16 <<< 8) ||| (data.getD (offset + 1) 0).toUInt16

def readBe32 (data : Bytes) (offset : ℕ) : UInt32 :=
  ((data.getD offset 0).toUInt32 <<< 24) ||| ((data.getD (offset + 1) 0).toUInt32 <<< 16) |||
    ((data.getD (offset + 2) 0).toUInt32 <<< 8) ||| (data.getD (offset + 3) 0).toUInt32

def readBe64 (data : Bytes) (offset : ℕ) : UInt64 :=
  (List.range 8).foldl
    (fun value index => (value <<< 8) ||| (data.getD (offset + index) 0).toUInt64) 0

/-- `read_be64_signed`: the magnitude of a negative number is negated, and `INT64_MIN` is apart. -/
def readBe64Signed (data : Bytes) (offset : ℕ) : Int64 :=
  let value := readBe64 data offset
  if value &&& 0x8000000000000000 = 0 then value.toInt64
  else
    let magnitude := ~~~value + 1
    if magnitude = 0x8000000000000000 then Int64.minValue else -magnitude.toInt64

def writeBe16 (value : UInt16) : Bytes := [(value >>> 8).toUInt8, value.toUInt8]

def writeBe32 (value : UInt32) : Bytes :=
  [(value >>> 24).toUInt8, (value >>> 16).toUInt8, (value >>> 8).toUInt8, value.toUInt8]

def writeBe64 (value : UInt64) : Bytes :=
  (List.range 8).map fun index => (value >>> (8 * (7 - UInt64.ofNat index))).toUInt8

def writeBe64Signed (value : Int64) : Bytes := writeBe64 value.toUInt64

/-- `read_timestamp`: whether the timestamp is valid, and the timestamp, which is written in
any case. -/
def readTimestamp (data : Bytes) : Bool × Timestamp :=
  let seconds : UInt64 := (List.range 6).foldl
    (fun seconds index => (seconds <<< 8) ||| (data.getD index 0).toUInt64) 0
  let output : Timestamp := ⟨seconds, readBe32 data 6⟩
  (validTimestamp output, output)

def copyPort (source : PortIdentity) : Bytes := source.clockIdentity.toList ++ writeBe16 source.portNumber

/-- `encode_common_header`: the bytes of the header, or the status of the refusal. -/
def encodeCommonHeader (outputCapacity : ℕ) (type : MessageType)
    (transportSpecific domainNumber : UInt8) (messageLength flags : UInt16)
    (correctionField : Int64) (source : PortIdentity) (sequenceId : UInt16) (controlField : UInt8)
    (logMessageInterval : Int8) : Except Status Bytes :=
  if outputCapacity < messageLength.toNat then .error .full
  else
    .ok ([((transportSpecific &&& 0x0f) <<< 4) ||| (type.code &&& 0x0f), ptpVersion] ++
      writeBe16 messageLength ++ [domainNumber, 0] ++ writeBe16 flags ++
      writeBe64Signed correctionField ++ writeBe32 0 ++ copyPort source ++ writeBe16 sequenceId ++
      [controlField, logMessageInterval.toUInt8])

def encodeDelayRequest (domainNumber : UInt8) (source : PortIdentity) (sequenceId : UInt16)
    (outputCapacity : ℕ) (transportSpecific : UInt8) : Except Status Bytes := do
  let header ← encodeCommonHeader outputCapacity .delayRequest transportSpecific domainNumber
    (UInt16.ofNat ptpDelayRequestSize) 0 0 source sequenceId 1 0x7f
  pure (header ++ List.replicate ptpTimestampSize 0)

def decodeMessage (frame : Bytes) : Option MessageView :=
  if frame.length < ptpHeaderSize then none
  else
    let version := frame.getD 1 0 &&& 0x0f
    let messageLength := readBe16 frame 2
    if version ≠ ptpVersion ∨ messageLength.toNat < ptpHeaderSize ∨
        messageLength.toNat > frame.length then none
    else
      match MessageType.ofCode? (frame.getD 0 0 &&& 0x0f) with
      | none => none
      | some type => some {
          header := {
            transportSpecific := frame.getD 0 0 >>> 4
            type := type
            version := version
            messageLength := messageLength
            domainNumber := frame.getD 4 0
            flags := readBe16 frame 6
            correctionField := readBe64Signed frame 8
            sourcePort := ⟨Vector.ofFn fun index => frame.getD (20 + index) 0, readBe16 frame 28⟩
            sequenceId := readBe16 frame 30
            controlField := frame.getD 32 0
            logMessageInterval := (frame.getD 33 0).toInt8 }
          payload := (frame.drop ptpHeaderSize).take (messageLength.toNat - ptpHeaderSize) }

/-- `read_message_timestamp`, with `output` as it is before: a short payload leaves it alone. -/
def readMessageTimestamp (message : MessageView) (output : Timestamp) : Bool × Timestamp :=
  if (message.is .sync || message.is .followUp || message.is .delayResponse) &&
      decide (message.payload.length ≥ ptpTimestampSize) then readTimestamp message.payload
  else (false, output)

/-!
## The end-to-end slave (`slave` of `protocols/timing/ptp_v2.hpp`)

The functions that end in a call of `try_complete` return what they hand to it, or the outcome
of an early return; `step` makes the call. Signed operations are tracked, so that it shows
whether one of them overflowed.
-/

structure Measurement where
  masterPort : PortIdentity := {}
  syncSequenceId : UInt16 := 0
  delayRequestSequenceId : UInt16 := 0
  twoStep : Bool := false
  masterSync : Timestamp := {}
  slaveSync : Timestamp := {}
  slaveDelayRequest : Timestamp := {}
  masterDelayRequest : Timestamp := {}
  offsetNanoseconds : ℤ := 0
  pathDelayNanoseconds : ℤ := 0
  correctionNanoseconds : ℤ := 0
  deriving DecidableEq

structure SlaveAction where
  sendDelayRequest : Bool := false
  delayRequest : Bytes := List.replicate ptpDelayRequestSize 0
  delayRequestSize : ℕ := 0
  delayRequestSequence : UInt16 := 0
  measurementReady : Bool := false
  sample : Measurement := {}
  deriving DecidableEq

structure SlaveConfig where
  domainNumber : UInt8 := 0
  transportSpecific : UInt8 := 0
  initialDelayRequestSequence : UInt16 := 0
  deriving DecidableEq

/-- `scale` of `timestamp_difference_checked` -/
def scale : ℤ := ptpNanosecondsPerSecond.toNat

/-- `timestamp_difference_checked`: the difference when the function returns `true`. -/
def timestampDifferenceChecked (left right : Timestamp) : Tracked (Option ℤ) := do
  let seconds ← signed 64 (left.seconds.toInt64.toInt - right.seconds.toInt64.toInt)
  let nanoseconds ← signed 64 ((left.nanoseconds.toNat : ℤ) - right.nanoseconds.toNat)
  if seconds > Int64.maxValue.toInt.tdiv scale ∨ seconds < Int64.minValue.toInt.tdiv scale then
    pure none
  else do
    let wholeSeconds ← signed 64 (seconds * scale)
    if ← sumOverflows 64 wholeSeconds nanoseconds then
      pure none
    else do
      let result ← signed 64 (wholeSeconds + nanoseconds)
      pure (some result)

def correctionToNanoseconds (correctionField : Int64) : ℤ :=
  correctionField.toInt.tdiv ptpCorrectionScale

structure Slave where
  localPort : PortIdentity := {}
  master : PortIdentity := {}
  config : SlaveConfig := {}
  sequenceId : UInt16 := 0
  delaySequenceId : UInt16 := 0
  nextDelaySequence : UInt16 := 0
  pending : Bool := false
  awaitingFollowUp : Bool := false
  twoStep : Bool := false
  t1Valid : Bool := false
  t2Valid : Bool := false
  t3Valid : Bool := false
  t4Valid : Bool := false
  t1 : Timestamp := {}
  t2 : Timestamp := {}
  t3 : Timestamp := {}
  t4 : Timestamp := {}
  syncCorrection : ℤ := 0
  delayCorrection : ℤ := 0
  lastMeasurement : Measurement := {}
  deriving DecidableEq

/-- What a call returns, the action it fills in, and the slave after it. -/
structure Outcome where
  status : Status
  action : SlaveAction
  slave : Slave
  deriving DecidableEq

namespace Slave

def init (localPort : PortIdentity) (config : SlaveConfig) : Slave :=
  { localPort := localPort
    config := config
    nextDelaySequence := config.initialDelayRequestSequence }

variable (s : Slave)

def reset : Slave :=
  { s with
    pending := false, awaitingFollowUp := false, twoStep := false
    t1Valid := false, t2Valid := false, t3Valid := false, t4Valid := false
    syncCorrection := 0, delayCorrection := 0, lastMeasurement := {} }

/-- The exchange is given up. -/
def abandon : Slave := { s with pending := false, awaitingFollowUp := false }

/-- The four timestamps of an exchange are there. -/
def complete : Bool := s.pending && s.t1Valid && s.t2Valid && s.t3Valid && s.t4Valid

/-- The sample of `try_complete`, from the two results of the calculation. -/
def sampleOf (offset pathDelay correction : ℤ) : Measurement :=
  { masterPort := s.master
    syncSequenceId := s.sequenceId
    delayRequestSequenceId := s.delaySequenceId
    twoStep := s.twoStep
    masterSync := s.t1
    slaveSync := s.t2
    slaveDelayRequest := s.t3
    masterDelayRequest := s.t4
    offsetNanoseconds := offset
    pathDelayNanoseconds := pathDelay
    correctionNanoseconds := correction }

/-- The calculation of `try_complete` from the two differences on. -/
def calculateFrom (syncInterval delayInterval : ℤ) : Tracked (Except Status Measurement) := do
  let syncInterval ← signed 64 (syncInterval - s.syncCorrection)
  let delayInterval ← signed 64 (delayInterval - s.delayCorrection)
  if ← sumOverflows 64 syncInterval delayInterval then
    pure (.error .outOfRange)
  else do
    let totalPath ← signed 64 (syncInterval + delayInterval)
    if totalPath < 0 then
      pure (.error .invalidArgument)
    else do
      let pathDelay ← signed 64 (totalPath.tdiv 2)
      let offset ← signed 64 (syncInterval - pathDelay)
      let correction ← signed 64 (s.syncCorrection + s.delayCorrection)
      pure (.ok (s.sampleOf offset pathDelay correction))

def calculate : Tracked (Except Status Measurement) := do
  match ← timestampDifferenceChecked s.t2 s.t1 with
  | none => pure (.error .outOfRange)
  | some syncInterval =>
    match ← timestampDifferenceChecked s.t4 s.t3 with
    | none => pure (.error .outOfRange)
    | some delayInterval => s.calculateFrom syncInterval delayInterval

def tryComplete (action : SlaveAction) : Tracked Outcome :=
  if !s.complete then pure ⟨.ok, action, s⟩
  else do
    match ← s.calculate with
    | .error status => pure ⟨status, action, s.abandon⟩
    | .ok sample => pure {
        status := .ok
        action := { action with measurementReady := true, sample := sample }
        slave := { s.abandon with
          lastMeasurement := sample
          t1Valid := false, t2Valid := false, t3Valid := false, t4Valid := false } }

/-- The assignments at the head of `consume_sync` -/
def start (message : MessageView) (receiveTimestamp : Timestamp) : Slave :=
  { s with
    pending := true
    twoStep := message.header.isTwoStep
    awaitingFollowUp := message.header.isTwoStep
    t1Valid := false, t2Valid := true, t3Valid := false, t4Valid := false
    master := message.header.sourcePort
    sequenceId := message.header.sequenceId
    t2 := receiveTimestamp
    syncCorrection := correctionToNanoseconds message.header.correctionField
    delayCorrection := 0 }

/-- The Delay_Req of `consume_sync` -/
def requestDelay (action : SlaveAction) : Except Outcome (SlaveAction × Slave) :=
  let sequence := s.nextDelaySequence
  let s := { s with nextDelaySequence := sequence + 1, delaySequenceId := sequence }
  let action := { action with sendDelayRequest := true, delayRequestSequence := sequence }
  match encodeDelayRequest s.config.domainNumber s.localPort sequence ptpDelayRequestSize
    s.config.transportSpecific with
  | .error status => .error ⟨status, action, s.abandon⟩
  | .ok bytes => .ok ({ action with delayRequest := bytes, delayRequestSize := ptpDelayRequestSize }, s)

def consumeSync (message : MessageView) (receiveTimestamp : Timestamp) (action : SlaveAction) :
    Except Outcome (SlaveAction × Slave) :=
  let s := s.start message receiveTimestamp
  if message.header.isTwoStep then s.requestDelay action
  else
    match readMessageTimestamp message s.t1 with
    | (false, t1) => .error ⟨.invalidArgument, action, { s with t1 := t1 }.abandon⟩
    | (true, t1) => { s with t1 := t1, t1Valid := true }.requestDelay action

def consumeFollowUp (message : MessageView) (action : SlaveAction) :
    Except Outcome (SlaveAction × Slave) :=
  if !s.pending || !s.awaitingFollowUp || !samePort message.header.sourcePort s.master ||
      message.header.sequenceId != s.sequenceId then
    .error ⟨.notFound, action, s⟩
  else
    match readMessageTimestamp message s.t1 with
    | (false, t1) => .error ⟨.invalidArgument, action, { s with t1 := t1 }⟩
    | (true, t1) => .ok (action, { s with t1 := t1, t1Valid := true, awaitingFollowUp := false })

end Slave

/-- `requesting_port` of `consume_delay_response` -/
def MessageView.requestingPort (message : MessageView) : PortIdentity :=
  ⟨Vector.ofFn fun index => message.payload.getD (10 + index) 0, readBe16 message.payload 18⟩

namespace Slave

variable (s : Slave)

def consumeDelayResponse (message : MessageView) (action : SlaveAction) :
    Except Outcome (SlaveAction × Slave) :=
  if !s.pending || !samePort message.header.sourcePort s.master ||
      message.header.sequenceId != s.delaySequenceId then
    .error ⟨.notFound, action, s⟩
  else if message.payload.length < ptpTimestampSize + ptpTimestampSize then
    .error ⟨.invalidArgument, action, s⟩
  else if !samePort message.requestingPort s.localPort then
    .error ⟨.notFound, action, s⟩
  else
    -- `t4_` is written before the timestamp is found invalid
    match readTimestamp message.payload with
    | (false, t4) => .error ⟨.invalidArgument, action, { s with t4 := t4 }⟩
    | (true, t4) => .ok (action, { s with
        t4 := t4
        t4Valid := true
        delayCorrection := correctionToNanoseconds message.header.correctionField })

/-- The packet is of the domain and the transport that the slave is configured for. -/
def accepts (header : MessageHeader) : Bool :=
  header.domainNumber == s.config.domainNumber &&
    (s.config.transportSpecific == ptpAnyTransportSpecific ||
      header.transportSpecific == s.config.transportSpecific)

def receive (packet : Bytes) (receiveTimestamp : Timestamp) : Except Outcome (SlaveAction × Slave) :=
  if !validTimestamp receiveTimestamp then .error ⟨.invalidArgument, {}, s⟩
  else
    match decodeMessage packet with
    | none => .error ⟨.invalidArgument, {}, s⟩
    | some message =>
      if !s.accepts message.header then .error ⟨.notFound, {}, s⟩
      else
        match message.header.type with
        | .sync => s.consumeSync message receiveTimestamp {}
        | .followUp => s.consumeFollowUp message {}
        | .delayResponse => s.consumeDelayResponse message {}
        | _ => .error ⟨.notFound, {}, s⟩

/-- Both overloads: the shorter one drops the action. -/
def delayRequestTransmitted (transmitTimestamp : Timestamp) : Except Outcome (SlaveAction × Slave) :=
  if !s.pending then .error ⟨.notConfigured, {}, s⟩
  else if !validTimestamp transmitTimestamp then .error ⟨.invalidArgument, {}, s⟩
  else .ok ({}, { s with t3 := transmitTimestamp, t3Valid := true })

end Slave

inductive Call where
  | receive (packet : Bytes) (receiveTimestamp : Timestamp)
  | delayRequestTransmitted (transmitTimestamp : Timestamp)
  | reset
  deriving DecidableEq

namespace Slave

/-- What a call does before `try_complete` -/
def handle (s : Slave) : Call → Except Outcome (SlaveAction × Slave)
  | .receive packet receiveTimestamp => s.receive packet receiveTimestamp
  | .delayRequestTransmitted transmitTimestamp => s.delayRequestTransmitted transmitTimestamp
  | .reset => .error ⟨.ok, {}, s.reset⟩

def step (s : Slave) (call : Call) : Tracked Outcome :=
  match s.handle call with
  | .error outcome => pure outcome
  | .ok (action, held) => held.tryComplete action

theorem step_error {s : Slave} {call : Call} {outcome : Outcome} (h : s.handle call = .error outcome) :
    s.step call = pure outcome := by
  rw [step, h]

theorem step_ok {s held : Slave} {call : Call} {action : SlaveAction}
    (h : s.handle call = .ok (action, held)) : s.step call = held.tryComplete action := by
  rw [step, h]

def after (s : Slave) (calls : List Call) : Slave :=
  calls.foldl (fun s call => (s.step call).value.slave) s

theorem after_snoc (s : Slave) (calls : List Call) (call : Call) :
    s.after (calls ++ [call]) = ((s.after calls).step call).value.slave := by
  rw [after, List.foldl_append]
  rfl

end Slave
end Castle.Timing.Ptp
