import Mathlib.Algebra.Ring.Nat
import Castle.Status
import Castle.Lib.Transducer

/-!
# UBX frames (`protocols/ubx/ubx.hpp`)

A view is the bytes it shows. No pointer is null.
-/

namespace Castle.Ubx

abbrev Bytes := List UInt8

def syncChar1 : UInt8 := 0xb5
def syncChar2 : UInt8 := 0x62
def maxPayloadLen : ℕ := 0xffff
def frameOverhead : ℕ := 8

structure MessageHeader where
  msgClass : UInt8 := 0
  msgId : UInt8 := 0
  payloadLength : UInt16 := 0
  deriving DecidableEq

structure Checksum where
  ckA : UInt8 := 0
  ckB : UInt8 := 0
  deriving DecidableEq

structure MessageView where
  header : MessageHeader := {}
  payload : Bytes := []
  check : Checksum := {}
  deriving DecidableEq

/-- `update` of the `checksum_accumulator` -/
def Checksum.update (sum : Checksum) (value : UInt8) : Checksum :=
  ⟨sum.ckA + value, sum.ckB + (sum.ckA + value)⟩

def lowByte (value : UInt16) : UInt8 := (value &&& 0xff).toUInt8

def highByte (value : UInt16) : UInt8 := ((value >>> 8) &&& 0xff).toUInt8

def computeFrameChecksum (msgClass msgId : UInt8) (payloadLength : UInt16) (payload : Bytes) : Checksum :=
  payload.foldl Checksum.update
    (((({} : Checksum).update msgClass).update msgId).update (lowByte payloadLength) |>.update
      (highByte payloadLength))

def frameSize (payloadLength : ℕ) : ℕ := payloadLength + frameOverhead

/-- `encode_frame`: the status, and the bytes that are written. -/
def encodeFrame (msgClass msgId : UInt8) (payload : Bytes) (outputCapacity : ℕ) : Status × Bytes :=
  if payload.length > maxPayloadLen then (.outOfRange, [])
  else if outputCapacity < frameSize payload.length then (.full, [])
  else
    let length := UInt16.ofNat payload.length
    let check := computeFrameChecksum msgClass msgId length payload
    (.ok, [syncChar1, syncChar2, msgClass, msgId, lowByte length, highByte length] ++ payload ++
      [check.ckA, check.ckB])

def readLe16 (low high : UInt8) : UInt16 := low.toUInt16 ||| (high.toUInt16 <<< 8)

/-- `decode_frame` of a frame; a view, if it is one. -/
def decodeFrame (frame : Bytes) : Option MessageView :=
  if frame.length < frameOverhead then none
  else if frame.getD 0 0 ≠ syncChar1 || frame.getD 1 0 ≠ syncChar2 then none
  else
    let payloadLength := readLe16 (frame.getD 4 0) (frame.getD 5 0)
    if frame.length ≠ frameSize payloadLength.toNat then none
    else
      let payload := (frame.drop 6).take payloadLength.toNat
      let expected := computeFrameChecksum (frame.getD 2 0) (frame.getD 3 0) payloadLength payload
      let ckA := frame.getD (6 + payloadLength.toNat) 0
      let ckB := frame.getD (6 + payloadLength.toNat + 1) 0
      if ckA ≠ expected.ckA || ckB ≠ expected.ckB then none
      else some ⟨⟨frame.getD 2 0, frame.getD 3 0, payloadLength⟩, payload, ⟨ckA, ckB⟩⟩

/-!
## The streaming parser (`parsers/ubx_parser/ubx_parser.hpp`)

A byte gives the next state and the callbacks that are made. The payload is the bytes of
`payload_` up to `payload_size_`. One member is none of the class: it tells whether `payload_`
was ever indexed at its capacity or beyond.
-/

/-- The template parameter, with the assertions about it. -/
structure ParserCapacity where
  maxPayload : ℕ
  maxPayload_pos : 0 < maxPayload
  maxPayload_le : maxPayload ≤ maxPayloadLen

inductive ParseState where
  | waitSync1 | waitSync2 | waitClass | waitId | waitLengthLow | waitLengthHigh | readPayload
  | waitChecksumA | waitChecksumB
  deriving DecidableEq

inductive ParserErrorCode where
  | none | invalidSync | payloadTooLarge | checksumMismatch | invalidArgument
  deriving DecidableEq

structure ParseError where
  code : ParserErrorCode := .none
  header : MessageHeader := {}
  deriving DecidableEq

/-- A call of the message callback or of the error callback. -/
inductive Event where
  | message (message : MessageView)
  | error (error : ParseError)
  deriving DecidableEq

structure Parser where
  state : ParseState := .waitSync1
  header : MessageHeader := {}
  checksum : Checksum := {}
  payload : Bytes := []
  receivedCkA : UInt8 := 0
  receivedCkB : UInt8 := 0
  framesDecoded : ℕ := 0
  framesDiscarded : ℕ := 0
  overrun : Bool := false
  deriving DecidableEq

namespace Parser

variable (cap : ParserCapacity) (p : Parser)

def resetFrame : Parser :=
  { p with state := .waitSync1, header := {}, checksum := {}, payload := [] }

def emitError (code : ParserErrorCode) : Parser × List Event :=
  ({ p with framesDiscarded := p.framesDiscarded + 1 }.resetFrame, [.error ⟨code, p.header⟩])

def onFrameComplete : Parser × List Event :=
  ({ p with framesDecoded := p.framesDecoded + 1 }.resetFrame,
    [.message ⟨p.header, p.payload, ⟨p.receivedCkA, p.receivedCkB⟩⟩])

def summed (byte : UInt8) : Parser := { p with checksum := p.checksum.update byte }

def processByte (byte : UInt8) : Parser × List Event :=
  match p.state with
  | .waitSync1 => (if byte = syncChar1 then { p with state := .waitSync2 } else p, [])
  | .waitSync2 =>
    (if byte = syncChar2 then { p with state := .waitClass, checksum := {} }
      else if byte = syncChar1 then { p with state := .waitSync2 }
      else { p with state := .waitSync1 }, [])
  | .waitClass => ({ p.summed byte with header.msgClass := byte, state := .waitId }, [])
  | .waitId => ({ p.summed byte with header.msgId := byte, state := .waitLengthLow }, [])
  | .waitLengthLow =>
    ({ p.summed byte with header.payloadLength := byte.toUInt16, state := .waitLengthHigh }, [])
  | .waitLengthHigh =>
    let p := { p.summed byte with
      header.payloadLength := p.header.payloadLength ||| (byte.toUInt16 <<< 8) }
    if p.header.payloadLength > UInt16.ofNat cap.maxPayload then p.emitError .payloadTooLarge
    else
      ({ p with
          payload := []
          state := if p.header.payloadLength = 0 then .waitChecksumA else .readPayload }, [])
  | .readPayload =>
    let p := { p.summed byte with
      overrun := p.overrun || decide (cap.maxPayload ≤ p.payload.length)
      payload := p.payload ++ [byte] }
    (if p.payload.length = p.header.payloadLength.toNat then { p with state := .waitChecksumA } else p, [])
  | .waitChecksumA => ({ p with receivedCkA := byte, state := .waitChecksumB }, [])
  | .waitChecksumB =>
    let p := { p with receivedCkB := byte }
    if p.checksum.ckA ≠ p.receivedCkA || p.checksum.ckB ≠ p.receivedCkB then
      p.emitError .checksumMismatch
    else p.onFrameComplete

/-- `feed` of a range of bytes. -/
def feed (data : Bytes) : Parser × List Event := Transducer.feed (processByte cap) p data

/-- One call of `feed` after the other. -/
def feedChunks (chunks : List Bytes) : Parser × List Event :=
  Transducer.feedChunks (processByte cap) p chunks

end Parser

def Event.message? : Event → Option MessageView
  | .message view => some view
  | .error _ => none

/-- What the message callback sees. -/
def messages (events : List Event) : List MessageView := events.filterMap Event.message?

end Castle.Ubx
