import Castle.Http.Types
import Castle.Lib.Cells
import Castle.Lib.Table
import Castle.Http.Hpack.DynamicTable

/-!
# Frames and the frame parser (`http2.hpp`)

The parser assembles frames from chunks of bytes; the used parts of its two buffers are lists.
-/

namespace Castle.Http.Http2

/-- `http2_frame_type`; other codes are extensions. -/
inductive FrameType where
  | data | headers | priority | rstStream | settings | pushPromise | ping | goaway | windowUpdate
  | continuation
  | extension (code : UInt8)
  deriving DecidableEq, Repr

def FrameType.ofByte (code : UInt8) : FrameType :=
  if code = 0 then .data else if code = 1 then .headers else if code = 2 then .priority
  else if code = 3 then .rstStream else if code = 4 then .settings
  else if code = 5 then .pushPromise else if code = 6 then .ping else if code = 7 then .goaway
  else if code = 8 then .windowUpdate else if code = 9 then .continuation else .extension code

def FrameType.toByte : FrameType → UInt8
  | .data => 0 | .headers => 1 | .priority => 2 | .rstStream => 3 | .settings => 4
  | .pushPromise => 5 | .ping => 6 | .goaway => 7 | .windowUpdate => 8 | .continuation => 9
  | .extension code => code

structure Frame where
  type : FrameType
  flags : UInt8
  streamId : ℕ
  payload : Bytes
  deriving DecidableEq, Repr

def Frame.length (frame : Frame) : ℕ := frame.payload.length

/-- A big-endian value of four bytes. -/
def readU32 (p : Bytes) : ℕ :=
  (p.getD 0 0).toNat * 2 ^ 24 + (p.getD 1 0).toNat * 2 ^ 16 + (p.getD 2 0).toNat * 2 ^ 8 +
    (p.getD 3 0).toNat

def writeU32 (value : ℕ) : Bytes :=
  [UInt8.ofNat (value / 2 ^ 24), UInt8.ofNat (value / 2 ^ 16), UInt8.ofNat (value / 2 ^ 8),
    UInt8.ofNat value]

structure FrameParser where
  header : Bytes := []
  payload : Bytes := []
  payloadSize : ℕ := 0
  streamId : ℕ := 0
  type : FrameType := .data
  flags : UInt8 := 0
  error : ErrorCode := .ok
  deriving DecidableEq

namespace FrameParser

variable (p : FrameParser)

def reset : FrameParser := { p with header := [], payload := [], payloadSize := 0, error := .ok }

/-- Ready for the next header. -/
def resetFrame : FrameParser := { p with header := [], payload := [], payloadSize := 0 }

/-- The length and stream rules of the type in the header. -/
def validateHeader : ErrorCode :=
  let invalid : Bool := match p.header.getD 3 0 with
    | 0 | 1 | 9 => p.streamId = 0
    | 2 => p.streamId = 0 || p.payloadSize ≠ 5
    | 3 => p.streamId = 0 || p.payloadSize ≠ 4
    | 4 => p.streamId ≠ 0 ||
        (if p.flags &&& 0x01 ≠ 0 then p.payloadSize ≠ 0 else p.payloadSize % 6 ≠ 0)
    | 5 => p.streamId = 0 || p.payloadSize < 4
    | 6 => p.streamId ≠ 0 || p.payloadSize ≠ 8
    | 7 => p.streamId ≠ 0 || p.payloadSize < 8
    | 8 => p.payloadSize ≠ 4
    | _ => false
  if invalid then .invalidFrame else .ok

/-- The view that the callback gets. -/
def frame : Frame := ⟨p.type, p.flags, p.streamId, p.payload⟩

/-- The parser after a complete header, and an error. -/
def beginFrame (maxFrameSize : ℕ) : FrameParser :=
  let p := { p with payloadSize :=
    (p.header.getD 0 0).toNat * 2 ^ 16 + (p.header.getD 1 0).toNat * 2 ^ 8 +
      (p.header.getD 2 0).toNat }
  if p.payloadSize > maxFrameSize then { p with error := .frameSizeLimit }
  else
    let p := { p with
      streamId := readU32 (p.header.drop 5) % 2 ^ 31
      type := .ofByte (p.header.getD 3 0)
      flags := p.header.getD 4 0
      payload := [] }
    { p with error := p.validateHeader }

abbrev Callback (σ : Type) := Frame → σ → Status × σ

/-- The loop of `feed`: the status, and the bytes that are not consumed. Every pass consumes a
byte, and the fuel is their number. -/
def feedLoop {σ : Type} (maxFrameSize : ℕ) (callback : Callback σ) :
    ℕ → FrameParser → σ → Bytes → Status × Bytes × FrameParser × σ
  | 0, p, s, input => (.ok, input, p, s)
  | _, p, s, [] => (.ok, [], p, s)
  | fuel + 1, p, s, input =>
    if p.header.length < 9 then
      let take := min (9 - p.header.length) input.length
      let p := { p with header := p.header ++ input.take take }
      let input := input.drop take
      if p.header.length ≠ 9 then (.ok, input, p, s)
      else
        let p := p.beginFrame maxFrameSize
        if p.error ≠ .ok then (toStatus p.error, input, p, s)
        else if p.payloadSize = 0 then
          match callback p.frame s with
          | (result, s) =>
            if result ≠ .ok then (result, input, p.resetFrame, s)
            else feedLoop maxFrameSize callback fuel p.resetFrame s input
        else feedLoop maxFrameSize callback fuel p s input
    else
      let take := min (p.payloadSize - p.payload.length) input.length
      let p := { p with payload := p.payload ++ input.take take }
      let input := input.drop take
      if p.payload.length = p.payloadSize then
        match callback p.frame s with
        | (result, s) =>
          if result ≠ .ok then (result, input, p.resetFrame, s)
          else feedLoop maxFrameSize callback fuel p.resetFrame s input
      else feedLoop maxFrameSize callback fuel p s input

/-- The status, and the number of bytes that are consumed. `data` is `none` for `nullptr` with a
size other than 0. -/
def feed {σ : Type} (maxFrameSize : ℕ) (callback : Callback σ) (s : σ) (data : Option Bytes) :
    Status × ℕ × FrameParser × σ :=
  if p.error ≠ .ok then (toStatus p.error, 0, p, s)
  else
    match data with
    | none => (.invalidArgument, 0, p, s)
    | some data =>
      match feedLoop maxFrameSize callback data.length p s data with
      | (result, rest, p, s) => (result, data.length - rest.length, p, s)

section Callbacks

variable {σ τ : Type} {maxFrameSize : ℕ}

variable {s : σ}

/-- What the callback keeps as long as it succeeds: the loop ends with the outcome of the last
callback, or between two frames. -/
theorem feedLoop_outcome {callback : Callback σ} {P : Status → σ → Prop}
    (h : ∀ frame s, P .ok s → P (callback frame s).1 (callback frame s).2) (fuel : ℕ)
    (p : FrameParser) (input : Bytes) (hs : P .ok s) :
    P (feedLoop maxFrameSize callback fuel p s input).1
        (feedLoop maxFrameSize callback fuel p s input).2.2.2 ∨
      P .ok (feedLoop maxFrameSize callback fuel p s input).2.2.2 := by
  induction fuel generalizing p s input with
  | zero => exact Or.inr hs
  | succ fuel ih =>
    cases input with
    | nil => exact Or.inr hs
    | cons byte input =>
      -- the frame is complete, and the loop goes on when the callback succeeds
      have hcall (p : FrameParser) (input : Bytes) : ∀ r, r = (if (callback p.frame s).1 ≠ .ok then
          ((callback p.frame s).1, input, p.resetFrame, (callback p.frame s).2)
          else feedLoop maxFrameSize callback fuel p.resetFrame (callback p.frame s).2 input) →
          P r.1 r.2.2.2 ∨ P .ok r.2.2.2 := by
        rintro r rfl
        have hnext := h p.frame s hs
        split
        · exact Or.inl hnext
        next hok =>
          rw [not_not.mp hok] at hnext
          exact ih _ _ hnext
      rw [feedLoop]
      · dsimp only
        split
        · split
          · exact Or.inr hs
          · split
            · exact Or.inr hs
            · split
              · exact hcall _ _ _ rfl
              · exact ih _ _ hs
        · split
          · exact hcall _ _ _ rfl
          · exact ih _ _ hs
      · simp

variable {P : σ → Prop}

theorem feedLoop_keeps {callback : Callback σ} (h : ∀ frame s, P s → P (callback frame s).2)
    (fuel : ℕ) (p : FrameParser) (input : Bytes) (hs : P s) :
    P (feedLoop maxFrameSize callback fuel p s input).2.2.2 :=
  (feedLoop_outcome (P := fun _ => P) h fuel p input hs).elim id id

theorem feedLoop_map {callback : Callback σ} {callback' : Callback τ} (f : τ → σ)
    (h : ∀ frame t, callback frame (f t) = ((callback' frame t).1, f (callback' frame t).2))
    (fuel : ℕ) (p : FrameParser) (t : τ) (input : Bytes) :
    feedLoop maxFrameSize callback fuel p (f t) input =
      ((feedLoop maxFrameSize callback' fuel p t input).1,
        (feedLoop maxFrameSize callback' fuel p t input).2.1,
        (feedLoop maxFrameSize callback' fuel p t input).2.2.1,
        f (feedLoop maxFrameSize callback' fuel p t input).2.2.2) := by
  induction fuel generalizing p t input with
  | zero => rfl
  | succ fuel ih =>
    cases input with
    | nil => rfl
    | cons byte input =>
      simp only [feedLoop, h, ih]
      split
      · split
        · rfl
        · split
          · rfl
          · split
            · split <;> rfl
            · rfl
      · split
        · split <;> rfl
        · rfl

/-- A callback that also keeps every frame, with the state that it is handled in. -/
def tracing (callback : Callback σ) : Callback (σ × List (Frame × σ)) := fun frame state =>
  ((callback frame state.1).1, (callback frame state.1).2, state.2 ++ [(frame, state.1)])

/-- The frames that `feed` hands to the callback. -/
def handled (p : FrameParser) (maxFrameSize : ℕ) (callback : Callback σ) (s : σ)
    (data : Option Bytes) : List (Frame × σ) :=
  (p.feed maxFrameSize (tracing callback) (s, []) data).2.2.2.2

theorem feed_tracing (p : FrameParser) (callback : Callback σ) (s : σ) (data : Option Bytes) :
    (p.feed maxFrameSize callback s data).1 =
        (p.feed maxFrameSize (tracing callback) (s, []) data).1 ∧
      (p.feed maxFrameSize callback s data).2.2.2 =
        (p.feed maxFrameSize (tracing callback) (s, []) data).2.2.2.1 := by
  unfold feed
  split
  · exact ⟨rfl, rfl⟩
  · cases data with
    | none => exact ⟨rfl, rfl⟩
    | some data =>
      have hsame : ∀ frame (t : σ × List (Frame × σ)), callback frame t.1 =
          ((tracing callback frame t).1, (tracing callback frame t).2.1) := fun _ _ => rfl
      exact ⟨congrArg (fun r => r.1) (feedLoop_map Prod.fst hsame data.length p (s, []) data),
        congrArg (fun r => r.2.2.2) (feedLoop_map Prod.fst hsame data.length p (s, []) data)⟩

theorem feed_keeps {p : FrameParser} {callback : Callback σ} {Q : Frame × σ → Prop}
    (h : ∀ frame s, P s → Q (frame, s) → P (callback frame s).2) {data : Option Bytes} (hs : P s)
    (hQ : ∀ x ∈ p.handled maxFrameSize callback s data, Q x) :
    P (p.feed maxFrameSize callback s data).2.2.2 := by
  rw [(feed_tracing p callback s data).2]
  rw [handled] at hQ
  have hall : (∀ x ∈ (p.feed maxFrameSize (tracing callback) (s, []) data).2.2.2.2, Q x) →
      P (p.feed maxFrameSize (tracing callback) (s, []) data).2.2.2.1 := by
    unfold feed
    split
    · exact fun _ => hs
    · cases data with
      | none => exact fun _ => hs
      | some data =>
        refine feedLoop_keeps (P := fun state : σ × List (Frame × σ) =>
          (∀ x ∈ state.2, Q x) → P state.1) ?_ _ _ _ fun _ => hs
        intro frame state hstate hseen
        rw [tracing, List.forall_mem_append] at hseen
        exact h frame state.1 (hstate hseen.1) (hseen.2 _ (List.mem_singleton_self _))
  exact hall hQ

theorem handled_keeps {p : FrameParser} {callback : Callback σ}
    (h : ∀ frame s, P s → P (callback frame s).2) {data : Option Bytes} (hs : P s) :
    ∀ x ∈ p.handled maxFrameSize callback s data, P x.2 := by
  have hall : P (p.feed maxFrameSize (tracing callback) (s, []) data).2.2.2.1 ∧
      ∀ x ∈ (p.feed maxFrameSize (tracing callback) (s, []) data).2.2.2.2, P x.2 := by
    unfold feed
    split
    · exact ⟨hs, by simp⟩
    · cases data with
      | none => exact ⟨hs, by simp⟩
      | some data =>
        refine feedLoop_keeps (P := fun state : σ × List (Frame × σ) =>
          P state.1 ∧ ∀ x ∈ state.2, P x.2) ?_ _ _ _ ⟨hs, by simp⟩
        intro frame state hstate
        refine ⟨h frame state.1 hstate.1, ?_⟩
        rw [tracing, List.forall_mem_append]
        exact ⟨hstate.2, by simpa using hstate.1⟩
  exact hall.2

end Callbacks

end FrameParser

/-!
## The state of an HTTP/2 session (`http2.hpp`, class `http2_session`)

The session of a client, with a fixed number of stream slots. Functions return their status and
the session after the call. The log is no member of the class: it records, since `start`, what
the session receives, what it queues and which callbacks it invokes.
-/

open Hpack (DecoderCapacity TableDecoder)

/-- The template parameters, with the assertions about them. -/
structure Capacity where
  maxConcurrentStreams : ℕ
  maxHeaderBlockSize : ℕ
  maxFrameSize : ℕ
  maxBodySize : ℕ
  maxHeaders : ℕ
  maxHeaderNameSize : ℕ
  maxHeaderValueSize : ℕ
  maxDynamicTableBytes : ℕ
  maxOutputSize : ℕ
  maxConcurrentStreams_pos : 0 < maxConcurrentStreams
  maxHeaderBlockSize_pos : 0 < maxHeaderBlockSize
  maxFrameSize_ge : 16384 ≤ maxFrameSize
  maxFrameSize_le : maxFrameSize ≤ 0xffffff
  maxBodySize_pos : 0 < maxBodySize
  maxHeaders_pos : 0 < maxHeaders
  maxHeaderNameSize_pos : 0 < maxHeaderNameSize
  maxHeaderValueSize_pos : 0 < maxHeaderValueSize
  maxDynamicTableBytes_le : maxDynamicTableBytes ≤ 0xffffffff
  maxOutputSize_ge : 64 ≤ maxOutputSize

namespace Capacity

variable (cap : Capacity)

def headers : HeadersCapacity := ⟨cap.maxHeaders, cap.maxHeaderNameSize, cap.maxHeaderValueSize⟩

def hpack : DecoderCapacity where
  maxDynamicTableBytes := cap.maxDynamicTableBytes
  maxStringSize := max cap.maxHeaderNameSize cap.maxHeaderValueSize
  maxStringSize_pos := lt_max_of_lt_left cap.maxHeaderNameSize_pos

end Capacity

def defaultWindow : ℤ := 65535

def windowUpdateThreshold : ℕ := 32768

/-- One client stream. The used parts of its buffers are lists. -/
structure StreamRecord where
  id : ℕ := 0
  statusCode : ℕ := 0
  expectedBodyLength : ℕ := 0
  sendWindow : ℤ := defaultWindow
  receiveWindow : ℤ := defaultWindow
  receiveCredit : ℕ := 0
  headers : Headers := []
  headerViews : List Field := []
  headerBlock : Bytes := []
  body : Bytes := []
  requestBody : Bytes := []
  requestBodySentBytes : ℕ := 0
  bodyReceived : ℕ := 0
  used : Bool := false
  headersReceived : Bool := false
  endStreamAfterHeaders : Bool := false
  responseComplete : Bool := false
  requestBodySent : Bool := false
  requestHead : Bool := false
  contentLengthSeen : Bool := false
  bodyStreamed : Bool := false
  reset : Bool := false
  deriving DecidableEq

namespace StreamRecord

/-- `clear`; a new request is `initialized`. -/
def free : StreamRecord := {}

def initialized (streamId initialSendWindow : ℕ) (isHeadRequest : Bool) : StreamRecord :=
  { id := streamId, used := true, sendWindow := initialSendWindow, requestHead := isHeadRequest }

variable (stream : StreamRecord)

def unfinished : Bool := stream.used && !stream.responseComplete && !stream.reset

def noBodySemantics : Bool :=
  stream.requestHead || stream.statusCode = 204 || stream.statusCode = 304

end StreamRecord

structure ResponseView where
  statusCode : ℕ
  headers : List Field
  body : Bytes
  streamId : ℕ
  keepAlive : Bool
  bodyStreamed : Bool
  deriving DecidableEq

inductive Event where
  | opened (streamId : ℕ) (headerBlock requestBody : Bytes)
  | received (frame : Frame)
  | queued (frame : Frame)
  | response (result : Status) (view : ResponseView)
  | body (streamId : ℕ) (chunk : Bytes)
  deriving DecidableEq

structure Session (cap : Capacity) where
  frameParser : FrameParser
  hpack : TableDecoder cap.hpack
  streams : Table cap.maxConcurrentStreams StreamRecord
  responseCallback : Bool
  bodyCallback : Bool
  output : CircularQueue cap.maxOutputSize UInt8
  nextStreamId : ℕ
  peerInitialWindow : ℕ
  peerMaxConcurrentStreams : ℕ
  peerMaxFrameSize : ℕ
  continuationStreamId : ℕ
  lastStreamId : ℕ
  connectionReceiveCredit : ℕ
  connectionSendWindow : ℤ
  connectionReceiveWindow : ℤ
  goawayReceived : Bool
  started : Bool
  failed : Bool
  error : ErrorCode
  log : List Event

/-- The bytes of a frame: nine bytes of header, and the payload. -/
def Frame.bytes (frame : Frame) : Bytes :=
  [UInt8.ofNat (frame.length / 2 ^ 16), UInt8.ofNat (frame.length / 2 ^ 8),
    UInt8.ofNat frame.length, frame.type.toByte, frame.flags] ++
    writeU32 (frame.streamId % 2 ^ 31) ++ frame.payload

namespace Session

variable {cap : Capacity}

/-- A new session, with or without the two callbacks. -/
def init (cap : Capacity) (responseCallback bodyCallback : Bool) : Session cap where
  frameParser := {}
  hpack := .init cap.hpack
  streams := .replicate _ .free
  responseCallback := responseCallback
  bodyCallback := bodyCallback
  output := .empty 0
  nextStreamId := 1
  peerInitialWindow := 65535
  peerMaxConcurrentStreams := 0x7fffffff
  peerMaxFrameSize := 16384
  continuationStreamId := 0
  lastStreamId := 0x7fffffff
  connectionReceiveCredit := 0
  connectionSendWindow := defaultWindow
  connectionReceiveWindow := defaultWindow
  goawayReceived := false
  started := false
  failed := false
  error := .ok
  log := []

variable (s : Session cap)

def record (event : Event) : Session cap := { s with log := s.log ++ [event] }

def modifyStream (i : Fin cap.maxConcurrentStreams) (f : StreamRecord → StreamRecord) :
    Session cap :=
  { s with streams := s.streams.modify i f }

def activeStreamCount : ℕ :=
  ((List.finRange cap.maxConcurrentStreams).filter fun i => (s.streams.get i).unfinished).length

def allocateStream : Option (Fin cap.maxConcurrentStreams) :=
  s.streams.firstIdx fun stream => !stream.used

def findStream (id : ℕ) : Option (Fin cap.maxConcurrentStreams) :=
  s.streams.firstIdx fun stream => stream.used && stream.id = id

def outputFree : ℕ := s.output.free

def enqueueBytes (data : Bytes) : Session cap := { s with output := s.output.enqueue data }

/-- The session with the frame in its queue; none when the frame does not fit. -/
def enqueueFrame (frame : Frame) : Option (Session cap) :=
  if s.outputFree < frame.length + 9 then none
  else some ((s.enqueueBytes frame.bytes).record (.queued frame))

def makeResponse (stream : StreamRecord) : ResponseView where
  statusCode := stream.statusCode
  headers := stream.headerViews
  body := stream.body
  streamId := stream.id
  keepAlive := !s.goawayReceived && !s.failed
  bodyStreamed := stream.bodyStreamed

def notifyStream (i : Fin cap.maxConcurrentStreams) (result : Status) : Session cap :=
  if s.responseCallback then s.record (.response result (s.makeResponse (s.streams.get i))) else s

def resetStream (i : Fin cap.maxConcurrentStreams) (result : Status) : Session cap :=
  (s.modifyStream i fun stream => { stream with reset := true }).notifyStream i result

/-- The loops that reset the unfinished streams of some kind. -/
def resetStreams (p : StreamRecord → Bool) (result : Status) : Session cap :=
  (List.finRange cap.maxConcurrentStreams).foldl
    (fun s i =>
      if (s.streams.get i).unfinished && p (s.streams.get i) then s.resetStream i result else s) s

def failConnection (value : ErrorCode) : Status × Session cap :=
  (toStatus value,
    { s with error := value, failed := true }.resetStreams (fun _ => true) (toStatus value))

def abortStream (i : Fin cap.maxConcurrentStreams) (reason : ErrorCode) : Status × Session cap :=
  match s.enqueueFrame ⟨.rstStream, 0, (s.streams.get i).id, writeU32 0x08⟩ with
  | none => s.failConnection .outputFull
  | some s =>
    (.ok, ({ s.modifyStream i fun stream => { stream with reset := true } with
      error := reason }).notifyStream i (toStatus reason))

/-- The condition of the loop over a stream. -/
def wantsChunk (stream : StreamRecord) : Bool :=
  stream.used && !stream.requestBodySent && !stream.responseComplete && !stream.reset &&
    s.connectionSendWindow > 0 && stream.sendWindow > 0 &&
    stream.requestBodySentBytes < stream.requestBody.length

/-- The size that the windows, the frame size and the body allow. -/
def allowedSize (stream : StreamRecord) : ℕ :=
  let remaining := stream.requestBody.length - stream.requestBodySentBytes
  let allowed := (if s.connectionSendWindow < stream.sendWindow then s.connectionSendWindow
    else stream.sendWindow).toNat
  let allowed := min allowed s.peerMaxFrameSize
  if allowed > remaining then remaining else allowed

/-- The size that the queue allows as well. -/
def chunkSize (stream : StreamRecord) : ℕ :=
  if s.allowedSize stream > s.outputFree - 9 then s.outputFree - 9 else s.allowedSize stream

def isLastChunk (stream : StreamRecord) (size : ℕ) : Bool :=
  stream.requestBodySentBytes + size = stream.requestBody.length

def chunkFrame (stream : StreamRecord) (size : ℕ) : Frame :=
  ⟨.data, if isLastChunk stream size then 0x01 else 0, stream.id,
    (stream.requestBody.drop stream.requestBodySentBytes).take size⟩

def countChunk (i : Fin cap.maxConcurrentStreams) (size : ℕ) : Session cap :=
  { s.modifyStream i fun stream => { stream with
      requestBodySentBytes := stream.requestBodySentBytes + size
      sendWindow := stream.sendWindow - size
      requestBodySent := stream.requestBodySent || isLastChunk stream size } with
    connectionSendWindow := s.connectionSendWindow - size }

/-- One pass of the loop over a stream: none ends the loop; a session and whether `pump` returns. -/
def sendChunk (i : Fin cap.maxConcurrentStreams) : Option (Bool × Session cap) :=
  let stream := s.streams.get i
  if !s.wantsChunk stream then none
  else if s.outputFree ≤ 9 then some (true, s)
  else if s.chunkSize stream = 0 then some (true, s)
  else
    match s.enqueueFrame (chunkFrame stream (s.chunkSize stream)) with
    | none => some (true, s)
    | some s' => some (false, s'.countChunk i (s.chunkSize stream))

/-- The loop over a stream. Every pass sends a byte of the body, and the fuel is its size. -/
def pumpStream (i : Fin cap.maxConcurrentStreams) : ℕ → Session cap → Bool × Session cap
  | 0, s => (false, s)
  | fuel + 1, s =>
    match s.sendChunk i with
    | none => (false, s)
    | some (true, s) => (true, s)
    | some (false, s) => pumpStream i fuel s

def pumpStreams : List (Fin cap.maxConcurrentStreams) → Session cap → Session cap
  | [], s => s
  | i :: rest, s =>
    match pumpStream i (s.streams.get i).requestBody.length s with
    | (true, s) => s
    | (false, s) => pumpStreams rest s

/-- Queues request data as far as the windows and the queue allow. -/
def pumpRequestBodies : Status × Session cap :=
  if s.failed then (toStatus s.error, s)
  else (.ok, pumpStreams (List.finRange cap.maxConcurrentStreams) s)

def sendWindowUpdate (streamId increment : ℕ) : Option (Session cap) :=
  s.enqueueFrame ⟨.windowUpdate, 0, streamId, writeU32 increment⟩

def replenishConnection : Session cap :=
  if s.connectionReceiveCredit ≥ windowUpdateThreshold then
    match s.sendWindowUpdate 0 s.connectionReceiveCredit with
    | none => s
    | some s' => { s' with
        connectionReceiveWindow := s.connectionReceiveWindow + s.connectionReceiveCredit
        connectionReceiveCredit := 0 }
  else s

def replenishStream (i : Fin cap.maxConcurrentStreams) : Session cap :=
  let stream := s.streams.get i
  if stream.unfinished && stream.receiveCredit ≥ windowUpdateThreshold then
    match s.sendWindowUpdate stream.id stream.receiveCredit with
    | none => s
    | some s => s.modifyStream i fun stream => { stream with
        receiveWindow := stream.receiveWindow + stream.receiveCredit
        receiveCredit := 0 }
  else s

def replenishReceiveWindows : Session cap :=
  (List.finRange cap.maxConcurrentStreams).foldl (fun s i => s.replenishStream i)
    s.replenishConnection

def pump : Status × Session cap :=
  if !s.failed then s.replenishReceiveWindows.pumpRequestBodies else s.pumpRequestBodies

/-- Odd identifiers below the next one. -/
def isIssuedStream (id : ℕ) : Bool := id % 2 ≠ 0 && id < s.nextStreamId

end Session
end Castle.Http.Http2
