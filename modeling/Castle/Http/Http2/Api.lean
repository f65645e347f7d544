import Castle.Http.Http2.State
import Castle.Http.Hpack.Coding

/-!
# Frames that the session receives (`http2.hpp`)

One function for each handler of `handle_frame`.
-/

namespace Castle.Http.Http2

namespace Session

variable {cap : Capacity} (s : Session cap)

/-- The loop over the streams of SETTINGS_INITIAL_WINDOW_SIZE. -/
def adjustWindows (delta : ℤ) : List (Fin cap.maxConcurrentStreams) → Session cap → Status × Session cap
  | [], s => (.ok, s)
  | i :: rest, s =>
    if (s.streams.get i).unfinished then
      let s := s.modifyStream i fun stream => { stream with sendWindow := stream.sendWindow + delta }
      if (s.streams.get i).sendWindow > 0x7fffffff then s.failConnection .flowControlError
      else if (s.streams.get i).sendWindow < -0x7fffffff then s.failConnection .flowControlError
      else adjustWindows delta rest s
    else adjustWindows delta rest s

def applySetting (id value : ℕ) : Status × Session cap :=
  if id = 2 ∧ value ≠ 0 then s.failConnection .protocolError
  else if id = 3 then (.ok, { s with peerMaxConcurrentStreams := value })
  else if id = 4 then
    if value > 0x7fffffff then s.failConnection .flowControlError
    else
      match adjustWindows (value - s.peerInitialWindow) (List.finRange _) s with
      | (result, s) =>
        if result ≠ .ok then (result, s) else (.ok, { s with peerInitialWindow := value })
  else if id = 5 then
    if value < 16384 ∨ value > 16777215 then s.failConnection .protocolError
    else (.ok, { s with peerMaxFrameSize := value })
  else (.ok, s)

/-- The loop over the settings of a payload, six bytes each. -/
def applySettings : Bytes → Session cap → Status × Session cap
  | a :: b :: c :: d :: e :: f :: payload, s =>
    match s.applySetting (a.toNat * 2 ^ 8 + b.toNat) (readU32 [c, d, e, f]) with
    | (result, s) => if result ≠ .ok then (result, s) else applySettings payload s
  | _, s => (.ok, s)

def handleSettings (frame : Frame) : Status × Session cap :=
  if frame.flags &&& 0x01 ≠ 0 then (.ok, s)
  else
    match applySettings frame.payload s with
    | (result, s) =>
      if result ≠ .ok then (result, s)
      else
        match s.enqueueFrame ⟨.settings, 0x01, 0, []⟩ with
        | none => s.failConnection .outputFull
        | some s => s.pumpRequestBodies

def handlePing (frame : Frame) : Status × Session cap :=
  if frame.flags &&& 0x01 = 0 then
    match s.enqueueFrame ⟨.ping, 0x01, 0, frame.payload.take 8⟩ with
    | none => s.failConnection .outputFull
    | some s => (.ok, s)
  else (.ok, s)

def handleGoaway (frame : Frame) : Status × Session cap :=
  let last := readU32 frame.payload % 2 ^ 31
  (.ok, { s with goawayReceived := true, error := .goawayReceived, lastStreamId := last }.resetStreams
    (fun stream => stream.id > last) .dataLoss)

def handleWindowUpdate (frame : Frame) : Status × Session cap :=
  let increment : ℕ := readU32 frame.payload % 2 ^ 31
  if increment = 0 then s.failConnection .flowControlError
  else if frame.streamId = 0 then
    let s : Session cap := { s with connectionSendWindow := s.connectionSendWindow + increment }
    if s.connectionSendWindow > 0x7fffffff then s.failConnection .flowControlError
    else s.pumpRequestBodies
  else
    match s.findStream frame.streamId with
    | none => (.ok, s)
    | some i =>
      let s := s.modifyStream i fun stream =>
        { stream with sendWindow := stream.sendWindow + increment }
      if (s.streams.get i).sendWindow > 0x7fffffff then s.failConnection .flowControlError
      else s.pumpRequestBodies

def handleRstStream (frame : Frame) : Status × Session cap :=
  match s.findStream frame.streamId with
  | none => (.ok, s)
  | some i =>
    if (s.streams.get i).responseComplete || (s.streams.get i).reset then (.ok, s)
    else (.ok, { s with error := .streamReset }.resetStream i .dataLoss)

def appendHeaderFragment (i : Fin cap.maxConcurrentStreams) (data : Bytes) : Status × Session cap :=
  if data.length > cap.maxHeaderBlockSize - (s.streams.get i).headerBlock.length then
    (toStatus .headerLimit,
      { s with error := .headerLimit }.resetStream i (toStatus .headerLimit))
  else
    (.ok, s.modifyStream i fun stream => { stream with headerBlock := stream.headerBlock ++ data })

/-- Verifies the body length, and reports the response. -/
def finishResponse (i : Fin cap.maxConcurrentStreams) : Status × Session cap :=
  let stream := s.streams.get i
  if stream.contentLengthSeen && !stream.noBodySemantics &&
      stream.bodyReceived ≠ stream.expectedBodyLength then
    s.failConnection .protocolError
  else
    (.ok, (s.modifyStream i fun stream => { stream with responseComplete := true }).notifyStream i .ok)

end Session

def statusDigits : Bytes → Option ℕ
  | [a, b, c] =>
    if between 0x30 0x39 a && between 0x30 0x39 b && between 0x30 0x39 c then
      some ((a.toNat - 0x30) * 100 + (b.toNat - 0x30) * 10 + (c.toNat - 0x30))
    else none
  | _ => none

/-- A field of the connection, which HTTP/2 does not have. -/
def connectionSpecific (name : Bytes) : Bool :=
  ["connection", "proxy-connection", "keep-alive", "transfer-encoding", "upgrade"].any fun text =>
    asciiIequal name (octets text)

def isPseudo (field : Field) : Bool := field.name.head? = some 0x3a

/-- Where the loop over the fields of a block stands; `valid` is false when it has returned. -/
structure FieldCheck where
  valid : Bool
  regularSeen : Bool
  statusSeen : Bool
  stream : StreamRecord

def checkField (trailerBlock : Bool) (check : FieldCheck) (field : Field) : FieldCheck :=
  if isPseudo field then
    if trailerBlock || check.regularSeen || !asciiIequal field.name (octets ":status") ||
        check.statusSeen then { check with valid := false }
    else
      match statusDigits field.value with
      | none => { check with valid := false, statusSeen := true }
      | some code =>
        { check with
          valid := !(code < 100 || code > 599 || code = 101)
          statusSeen := true
          stream := { check.stream with statusCode := code } }
  else
    let check := { check with regularSeen := true }
    if !asciiLowercase field.name || connectionSpecific field.name then
      { check with valid := false }
    else if asciiIequal field.name (octets "content-length") then
      match parseDecimal field.value with
      | none => { check with valid := false }
      | some length =>
        if trailerBlock || (check.stream.contentLengthSeen && check.stream.expectedBodyLength ≠ length) then
          { check with valid := false }
        else
          { check with
            stream := { check.stream with contentLengthSeen := true, expectedBodyLength := length } }
    else check

/-- The loop over the fields of a block. -/
def checkFields (trailerBlock : Bool) : List Field → FieldCheck → FieldCheck
  | [], check => check
  | field :: fields, check =>
    let check := checkField trailerBlock check field
    if check.valid then checkFields trailerBlock fields check else check

namespace Session

variable {cap : Capacity} (s : Session cap)

/-- The views of the fields that are not pseudo-headers, at most as many as the views. -/
def buildHeaderViews (maxHeaders : ℕ) (stream : StreamRecord) : StreamRecord :=
  { stream with
    headerViews := (stream.headers.filter fun field => !isPseudo field).take maxHeaders }

/-- An informational response is forgotten. -/
def forgetInformational (stream : StreamRecord) : StreamRecord :=
  { stream with
    headers := []
    headerViews := []
    statusCode := 0
    headersReceived := false
    contentLengthSeen := false
    expectedBodyLength := 0
    endStreamAfterHeaders := false }

/-- The rest of `finish_header_block`, after the fields of a block that is decoded. -/
def finishFields (i : Fin cap.maxConcurrentStreams) (trailerBlock : Bool) (firstField : ℕ) :
    Status × Session cap :=
  let stream := s.streams.get i
  let check := checkFields trailerBlock (stream.headers.drop firstField) ⟨true, false, false, stream⟩
  let s := s.modifyStream i fun _ => check.stream
  if !check.valid then s.failConnection .protocolError
  else if !trailerBlock && !check.statusSeen then s.failConnection .protocolError
  else
    let s := s.modifyStream i fun stream =>
      buildHeaderViews cap.maxHeaders { stream with headersReceived := true }
    if !trailerBlock && (s.streams.get i).statusCode < 200 then
      if (s.streams.get i).endStreamAfterHeaders then s.failConnection .protocolError
      else (.ok, s.modifyStream i forgetInformational)
    else if (s.streams.get i).endStreamAfterHeaders then
      (s.modifyStream i fun stream => { stream with endStreamAfterHeaders := false }).finishResponse i
    else (.ok, s)

def finishHeaderBlock (i : Fin cap.maxConcurrentStreams) : Status × Session cap :=
  let stream := s.streams.get i
  let trailerBlock := stream.headersReceived
  if trailerBlock && !stream.endStreamAfterHeaders then s.failConnection .protocolError
  else
    let firstField := stream.headers.length
    match s.hpack.decodeBlock (Headers.add cap.headers) stream.headerBlock stream.headers with
    | (decoded, hpack, headers) =>
      let s := { s with hpack := hpack }.modifyStream i fun stream =>
        { stream with headers := headers, headerBlock := [] }
      if decoded ≠ .ok then
        let error := Hpack.Decoder.blockError decoded
        (toStatus error, { s with error := error }.resetStream i (toStatus error))
      else if stream.reset then
        (.ok, s.modifyStream i fun stream => { stream with headers := [] })
      else s.finishFields i trailerBlock firstField

/-- The part of a payload without padding and priority; none when they do not fit. -/
def unpad (padded priority : Bool) (payload : Bytes) : Option Bytes := do
  let payload ← if padded then
      match payload with
      | [] => none
      | padding :: rest =>
        if padding.toNat > rest.length then none else some (rest.take (rest.length - padding.toNat))
    else some payload
  if priority then if payload.length < 5 then none else some (payload.drop 5) else some payload

def handleHeaders (frame : Frame) : Status × Session cap :=
  match s.findStream frame.streamId with
  | none => s.failConnection .protocolError
  | some i =>
    if (s.streams.get i).responseComplete then s.failConnection .protocolError
    else
      match unpad (frame.flags &&& 0x08 ≠ 0) (frame.flags &&& 0x20 ≠ 0) frame.payload with
      | none => s.failConnection .invalidFrame
      | some fragment =>
        match s.appendHeaderFragment i fragment with
        | (result, s) =>
          if result ≠ .ok then (result, s)
          else
            let s := s.modifyStream i fun stream =>
              { stream with endStreamAfterHeaders := frame.flags &&& 0x01 ≠ 0 }
            if frame.flags &&& 0x04 ≠ 0 then s.finishHeaderBlock i
            else (.ok, { s with continuationStreamId := (s.streams.get i).id })

def handleContinuation (frame : Frame) : Status × Session cap :=
  if s.continuationStreamId = 0 ∨ frame.streamId ≠ s.continuationStreamId then
    s.failConnection .protocolError
  else
    match s.findStream frame.streamId with
    | none => s.failConnection .protocolError
    | some i =>
      match s.appendHeaderFragment i frame.payload with
      | (result, s) =>
        if result ≠ .ok then (result, s)
        else if frame.flags &&& 0x04 ≠ 0 then
          { s with continuationStreamId := 0 }.finishHeaderBlock i
        else (.ok, s)

def keepChunk (maxBodySize : ℕ) (chunk : Bytes) (stream : StreamRecord) : StreamRecord :=
  { stream with body := stream.body ++ chunk.take (maxBodySize - stream.body.length) }

/-- The unsigned difference of 64-bit values. -/
def remainingBody (stream : StreamRecord) : ℕ :=
  (stream.expectedBodyLength + 2 ^ 64 - stream.bodyReceived) % 2 ^ 64

/-- The end of `handle_data`. -/
def endData (i : Fin cap.maxConcurrentStreams) (frame : Frame) : Status × Session cap :=
  if frame.flags &&& 0x01 ≠ 0 then s.finishResponse i else (.ok, s)

/-- The payload of a DATA frame on a stream that takes it, after flow control. -/
def handleBody (i : Fin cap.maxConcurrentStreams) (frame : Frame) : Status × Session cap :=
  match unpad (frame.flags &&& 0x08 ≠ 0) false frame.payload with
  | none => s.failConnection .invalidFrame
  | some chunk =>
    let stream := s.streams.get i
    if stream.noBodySemantics && chunk.length ≠ 0 then s.failConnection .protocolError
    else if stream.contentLengthSeen && !stream.noBodySemantics &&
        chunk.length > remainingBody stream then s.failConnection .protocolError
    else if chunk.length ≠ 0 then
      let s := if s.bodyCallback then s.record (.body stream.id chunk) else s
      let copied := min (cap.maxBodySize - stream.body.length) chunk.length
      let s := s.modifyStream i (keepChunk cap.maxBodySize chunk)
      if copied ≠ chunk.length ∧ !s.bodyCallback then s.abortStream i .bodyLimit
      else
        (s.modifyStream i fun stream =>
          { stream with
            bodyStreamed := stream.bodyStreamed || copied ≠ chunk.length
            bodyReceived := stream.bodyReceived + chunk.length }).endData i frame
    else s.endData i frame

/-- The credit of a DATA frame. -/
def consumeWindow (frame : Frame) : Session cap :=
  { s with
    connectionReceiveWindow := s.connectionReceiveWindow - frame.length
    connectionReceiveCredit := (s.connectionReceiveCredit + frame.length) % 2 ^ 32 }

def consumeStreamWindow (length : ℕ) (stream : StreamRecord) : StreamRecord :=
  { stream with
    receiveWindow := stream.receiveWindow - length
    receiveCredit := (stream.receiveCredit + length) % 2 ^ 32 }

def handleData (frame : Frame) : Status × Session cap :=
  match s.findStream frame.streamId with
  | none =>
    if !s.isIssuedStream frame.streamId then s.failConnection .protocolError
    else
      let s := s.consumeWindow frame
      if s.connectionReceiveWindow < 0 then s.failConnection .flowControlError else (.ok, s)
  | some i =>
    let stream := s.streams.get i
    if stream.reset then
      let s := s.consumeWindow frame
      if s.connectionReceiveWindow < 0 then s.failConnection .flowControlError else (.ok, s)
    else if !stream.headersReceived || stream.responseComplete then s.failConnection .protocolError
    else
      let s := (s.consumeWindow frame).modifyStream i (consumeStreamWindow frame.length)
      if s.connectionReceiveWindow < 0 || (s.streams.get i).receiveWindow < 0 then
        s.failConnection .flowControlError
      else s.handleBody i frame

def handleFrame (frame : Frame) : Status × Session cap :=
  if s.continuationStreamId ≠ 0 ∧ frame.type ≠ .continuation then s.failConnection .protocolError
  else
    match frame.type with
    | .data => s.handleData frame
    | .headers => s.handleHeaders frame
    | .priority => (.ok, s)
    | .rstStream => s.handleRstStream frame
    | .settings => s.handleSettings frame
    | .pushPromise => s.failConnection .protocolError
    | .ping => s.handlePing frame
    | .goaway => s.handleGoaway frame
    | .windowUpdate => s.handleWindowUpdate frame
    | .continuation => s.handleContinuation frame
    | .extension _ => (.ok, s)

end Session

/-!
## The calls of a session (`http2.hpp`)
-/

/-- A field that a request may not have: a pseudo-header, an upper-case name, a field of the
connection, or `te` for anything but trailers. -/
def forbiddenField (field : Field) : Bool :=
  isPseudo field || !asciiLowercase field.name ||
    (asciiIequal field.name (octets "te") && !asciiIequal field.value (octets "trailers")) ||
    asciiIequal field.name (octets "host") || connectionSpecific field.name

/-- The header block that is built so far, with one more field. -/
def encodeHeader (maxHeaderBlockSize : ℕ) (block : Bytes) (field : Field) : Except Status Bytes :=
  let encoded := Hpack.encodeField field.name field.value (some (maxHeaderBlockSize - block.length))
  if encoded.status ≠ .ok then
    .error (if encoded.status = .full then toStatus .headerLimit else encoded.status)
  else .ok (block ++ encoded.bytes)

/-- The fields of a request after its pseudo-headers. -/
def encodeHeaders (maxHeaderBlockSize : ℕ) : List Field → Bytes → Except Status Bytes
  | [], block => .ok block
  | field :: fields, block =>
    if forbiddenField field then .error .invalidArgument
    else do encodeHeaders maxHeaderBlockSize fields (← encodeHeader maxHeaderBlockSize block field)

structure Request where
  verb : Method
  path : Bytes
  authority : Bytes
  headers : List Field
  body : Bytes
  customMethod : Bytes

namespace Request

variable (request : Request)

def token : Bytes :=
  if request.verb = .custom then request.customMethod else methodToken request.verb

def pseudoHeaders : List Field :=
  [⟨octets ":method", request.token⟩, ⟨octets ":scheme", octets "http"⟩,
    ⟨octets ":authority", request.authority⟩, ⟨octets ":path", request.path⟩]

def headerBlock (maxHeaderBlockSize : ℕ) : Except Status Bytes := do
  let block ← request.pseudoHeaders.foldlM (encodeHeader maxHeaderBlockSize) []
  encodeHeaders maxHeaderBlockSize request.headers block

end Request

namespace Session

variable {cap : Capacity} (s : Session cap)

/-- `reset`; the callbacks are kept. -/
def resetSession : Session cap :=
  { s with
    frameParser := s.frameParser.reset
    hpack := s.hpack.clearDynamicTable
    streams := .replicate _ .free
    output := s.output.clear
    nextStreamId := 1
    connectionSendWindow := defaultWindow
    connectionReceiveWindow := defaultWindow
    connectionReceiveCredit := 0
    peerInitialWindow := 65535
    peerMaxConcurrentStreams := 0x7fffffff
    peerMaxFrameSize := 16384
    continuationStreamId := 0
    goawayReceived := false
    started := false
    failed := false
    lastStreamId := 0x7fffffff
    error := .ok
    log := [] }

def clientPreface : Bytes := octets "PRI * HTTP/2.0\r\n\r\nSM\r\n\r\n"

/-- SETTINGS_HEADER_TABLE_SIZE, SETTINGS_ENABLE_PUSH and SETTINGS_MAX_FRAME_SIZE. -/
def settingsPayload (cap : Capacity) : Bytes :=
  [0x00, 0x01] ++ writeU32 cap.maxDynamicTableBytes ++ [0x00, 0x02, 0x00, 0x00, 0x00, 0x00] ++
    [0x00, 0x05] ++ writeU32 cap.maxFrameSize

def start : Status × Session cap :=
  let s := s.resetSession.enqueueBytes clientPreface
  match s.enqueueFrame ⟨.settings, 0, 0, settingsPayload cap⟩ with
  | none => s.failConnection .outputFull
  | some s => (.ok, { s with started := true })

/-- The frames of a header block from fragment `index` on: HEADERS and its CONTINUATION frames. -/
def headerFrames (streamId maxFrameSize fragments : ℕ) (endStream : Bool) :
    ℕ → ℕ → Bytes → List Frame
  | 0, _, _ => []
  | count + 1, index, block =>
    let endHeaders : UInt8 := if index + 1 = fragments then 0x04 else 0
    let flags : UInt8 := if index = 0 ∧ endStream then endHeaders ||| 0x01 else endHeaders
    let type : FrameType := if index = 0 then .headers else .continuation
    ⟨type, flags, streamId, block.take maxFrameSize⟩ ::
      headerFrames streamId maxFrameSize fragments endStream count (index + 1)
        (block.drop maxFrameSize)

/-- The loop that queues frames; none when one of them does not fit. -/
def enqueueFrames : List Frame → Session cap → Option (Session cap)
  | [], s => some s
  | frame :: frames, s => do enqueueFrames frames (← s.enqueueFrame frame)

/-- A slot for the next stream. -/
def claimStream (i : Fin cap.maxConcurrentStreams) (request : Request) (block : Bytes) :
    Session cap :=
  let stream := StreamRecord.initialized s.nextStreamId s.peerInitialWindow (request.verb = .head)
  { s with
    nextStreamId := s.nextStreamId + 2
    streams := s.streams.set i { stream with
      requestBody := request.body, requestBodySent := request.body.isEmpty } }.record
    (.opened s.nextStreamId block request.body)

/-- A request whose header block is encoded: the status and the stream. -/
def sendRequest (request : Request) (block : Bytes) : Status × ℕ × Session cap :=
  let fragments := (block.length + s.peerMaxFrameSize - 1) / s.peerMaxFrameSize
  let fragments := if fragments = 0 then 1 else fragments
  if s.outputFree < block.length + fragments * 9 then
    (.full, 0, { s with error := .outputFull })
  else
    match s.allocateStream with
    | none => (.full, 0, { s with error := .streamLimit })
    | some i =>
      let streamId := s.nextStreamId
      let frames := headerFrames streamId s.peerMaxFrameSize fragments request.body.isEmpty fragments
        0 block
      match enqueueFrames frames (s.claimStream i request block) with
      | none =>
        let s := (s.claimStream i request block).modifyStream i fun _ => .free
        let (result, s) := s.failConnection .outputFull
        (result, streamId, s)
      | some s =>
        let (result, s) := s.pumpRequestBodies
        (result, streamId, s)

/-- The status, and the identifier of the stream; 0 when none is opened. -/
def openStream (request : Request) : Status × ℕ × Session cap :=
  if !s.started || s.failed then (.notConfigured, 0, s)
  else if s.goawayReceived then (toStatus .goawayReceived, 0, s)
  else if s.activeStreamCount ≥ cap.maxConcurrentStreams ||
      s.activeStreamCount ≥ s.peerMaxConcurrentStreams then
    (toStatus .streamLimit, 0, { s with error := .streamLimit })
  else if s.nextStreamId > 0x7fffffff then
    let (result, s) := s.failConnection .protocolError
    (result, 0, s)
  else if !isToken request.token || !isVisibleText request.path ||
      !isVisibleText request.authority then (.invalidArgument, 0, s)
  else
    match request.headerBlock cap.maxHeaderBlockSize with
    | .error result => (result, 0, s)
    | .ok block => s.sendRequest request block

def receive : FrameParser.Callback (Session cap) := fun frame s =>
  (s.record (.received frame)).handleFrame frame

/-- `data` is `none` for `nullptr` with a size other than 0. -/
def feed (data : Option Bytes) (peerClosed : Bool) : Status × Session cap :=
  if !s.started then (.notConfigured, s)
  else if s.failed then (toStatus s.error, s)
  else
    match s.frameParser.feed cap.maxFrameSize receive s data with
    | (result, _, frameParser, s) =>
      let s := { s with frameParser := frameParser }
      if result ≠ .ok then
        let s := if frameParser.error ≠ .ok then { s with error := frameParser.error } else s
        s.failConnection s.error
      else if peerClosed then s.failConnection .connectionClosed
      else s.pump

def pendingOutputSize : ℕ := s.output.contiguous

def pendingOutput : Bytes := Cells.readCells s.output.cells s.output.head s.pendingOutputSize

def consumeOutput (count : ℕ) : Status × Session cap :=
  if count > s.pendingOutputSize then (.outOfRange, s)
  else { s with output := s.output.dequeue count }.pump

def releaseStream (streamId : ℕ) : Status × Session cap :=
  match s.findStream streamId with
  | none => (.notFound, s)
  | some i =>
    if !(s.streams.get i).responseComplete && !(s.streams.get i).reset then (.invalidConfig, s)
    else (.ok, s.modifyStream i fun _ => .free)

end Session
end Castle.Http.Http2
