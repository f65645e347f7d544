import Castle.Http.Fields
import Castle.Http.Text

/-!
# The response parser of the client (`http1.hpp`)

`feed` takes the bytes of a line one by one and the bytes of a body in one piece. A body
callback is part of the environment: the parser keeps the bytes that were passed to it.
-/

namespace Castle.Http.Http1

/-- The template parameters of `http1_response_parser`, and whether a body callback is set. -/
structure ParserCapacity where
  maxBodySize : ℕ
  headers : HeadersCapacity
  maxLineSize : ℕ
  enableChunked : Bool
  bodyCallback : Bool
  bodySize_pos : 0 < maxBodySize
  lineSize_min : 16 ≤ maxLineSize

namespace ParserCapacity

/-- The default template arguments, without a body callback. -/
def standard : ParserCapacity where
  maxBodySize := 1024
  headers := ⟨16, 64, 256⟩
  maxLineSize := 384
  enableChunked := false
  bodyCallback := false
  bodySize_pos := Nat.succ_pos (nat_lit 1023)
  lineSize_min := Nat.le_add_right (nat_lit 16) (nat_lit 368)

end ParserCapacity

inductive State where
  | statusLine | headerLine | fixedBody | closeBody
  | chunkSize | chunkData | chunkDataCr | chunkDataLf | trailerLine
  | complete | failed
  deriving DecidableEq, Repr

structure Parser where
  headers : Headers := []
  /-- the views of the fields that `response` returns -/
  views : Headers := []
  line : Bytes := []
  body : Bytes := []
  bodyReceived : ℕ := 0
  chunkRemaining : ℕ := 0
  contentLength : ℕ := 0
  statusCode : ℕ := 0
  responseVersion : Version := .http11
  state : State := .statusLine
  error : ErrorCode := .ok
  contentLengthSeen : Bool := false
  chunkedSeen : Bool := false
  connectionCloseSeen : Bool := false
  headResponse : Bool := false
  keepAlive : Bool := true
  streamed : Bool := false
  /-- the bytes that were passed to the body callback -/
  delivered : Bytes := []
  deriving DecidableEq

/-- `reset` of a parser that has delivered nothing. -/
def reset (headResponse : Bool) : Parser := { headResponse := headResponse }

def splitField (line : Bytes) : Option (Bytes × Bytes) :=
  match cut colon line with
  | none => none
  | some (name, value) => if isToken name then some (name, trimOws value) else none

/-- `contains_token`: nothing is looked at behind the last comma when nothing stands there. -/
def containsToken (list token : Bytes) : Bool :=
  let items := list.splitOn 0x2c
  (if items.getLast? = some [] then items.dropLast else items).any fun item => asciiIequal (trimOws item) token

def parseHex (value : Bytes) : Option ℕ := if value.isEmpty then none else parseHexLoop value 0

namespace Parser

variable (cap : ParserCapacity) (p : Parser)

def fail (error : ErrorCode) : Status × Parser :=
  (toStatus error, { p with error := error, state := .failed })

def markComplete : Parser := { p with state := .complete }

def digitValue (c : UInt8) : ℕ := c.toNat - 0x30

def parseStatus (line : Bytes) : Status × Parser :=
  let isHttp10 := line.take 9 = octets "HTTP/1.0 "
  let isHttp11 := line.take 9 = octets "HTTP/1.1 "
  match line.drop 9 with
  | a :: b :: c :: reason =>
    if (!isHttp10 && !isHttp11) || !between 0x30 0x39 a || !between 0x30 0x39 b || !between 0x30 0x39 c ||
        reason.head?.any (· ≠ space) then
      p.fail .malformedStatusLine
    else
      let p := { p with
        responseVersion := if isHttp10 then .http10 else .http11
        keepAlive := !isHttp10
        connectionCloseSeen := false
        statusCode := digitValue a * 100 + digitValue b * 10 + digitValue c }
      if p.statusCode < 100 || p.statusCode > 599 then p.fail .malformedStatusLine
      else (.ok, { p with state := .headerLine })
  | _ => p.fail .malformedStatusLine

def nextResponse : Parser :=
  { p with
    headers := []
    views := []
    contentLength := 0
    contentLengthSeen := false
    chunkedSeen := false
    statusCode := 0
    responseVersion := .http11
    keepAlive := true
    connectionCloseSeen := false
    state := .statusLine }

def headersDone : Status × Parser :=
  if p.contentLengthSeen && p.chunkedSeen then p.fail .malformedMessage
  else
    let p := { p with views := p.headers }
    if p.statusCode ≥ 100 && p.statusCode < 200 && p.statusCode ≠ 101 then (.ok, p.nextResponse)
    else if p.statusCode = 101 then p.fail .unsupportedFeature
    else if p.headResponse || p.statusCode = 204 || p.statusCode = 304 then (.ok, p.markComplete)
    else if p.chunkedSeen then (.ok, { p with state := .chunkSize })
    else if p.contentLengthSeen then
      if p.contentLength > cap.maxBodySize && !cap.bodyCallback then p.fail .bodyLimit
      else if p.contentLength = 0 then (.ok, p.markComplete)
      else (.ok, { p with state := .fixedBody })
    else (.ok, { p with state := .closeBody, keepAlive := false })

/-- The failure of a field that `add` refuses. -/
def addFailure (result : Status) (invalid : ErrorCode) : ErrorCode :=
  if result = .full || result = .outOfRange then .headerLimit else invalid

def noteField (name value : Bytes) : Status × Parser :=
  if asciiIequal name (octets "content-length") then
    match parseDecimal value with
    | none => p.fail .malformedMessage
    | some parsed =>
      if p.contentLengthSeen && parsed ≠ p.contentLength then p.fail .malformedMessage
      else (.ok, { p with contentLength := parsed, contentLengthSeen := true })
  else if asciiIequal name (octets "transfer-encoding") then
    if asciiIequal (trimOws value) (octets "chunked") then
      if cap.enableChunked then (.ok, { p with chunkedSeen := true })
      else { p with chunkedSeen := true }.fail .chunkedNotSupported
    else p.fail .unsupportedFeature
  else if asciiIequal name (octets "connection") then
    if containsToken value (octets "close") then
      (.ok, { p with connectionCloseSeen := true, keepAlive := false })
    else if !p.connectionCloseSeen && containsToken value (octets "keep-alive") then
      (.ok, { p with keepAlive := true })
    else (.ok, p)
  else (.ok, p)

def headerLine (line : Bytes) : Status × Parser :=
  if line.isEmpty then p.headersDone cap
  else
    match splitField line with
    | none => p.fail .invalidHeader
    | some (name, value) =>
      match p.headers.add cap.headers name value with
      | (.ok, headers) => { p with headers := headers }.noteField cap name value
      | (result, headers) => { p with headers := headers }.fail (addFailure result .invalidHeader)

def chunkSizeLine (line : Bytes) : Status × Parser :=
  match parseHex (line.takeWhile (· ≠ semicolon)) with
  | none => p.fail .invalidChunk
  | some 0 => (.ok, { p with chunkRemaining := 0, state := .trailerLine })
  | some (size + 1) => (.ok, { p with chunkRemaining := size + 1, state := .chunkData })

def forbiddenTrailer (name : Bytes) : Bool :=
  [octets "content-length", octets "transfer-encoding", octets "host", octets "connection",
    octets "trailer"].any (asciiIequal name ·)

def trailerLine (line : Bytes) : Status × Parser :=
  if line.isEmpty then (.ok, p.markComplete)
  else
    match splitField line with
    | none => p.fail .invalidChunk
    | some (name, value) =>
      if forbiddenTrailer name then p.fail .invalidChunk
      else
        match p.headers.add cap.headers name value with
        | (.ok, headers) => (.ok, { p with headers := headers, views := p.views ++ [⟨name, value⟩] })
        | (result, headers) => { p with headers := headers }.fail (addFailure result .invalidChunk)

/-- `consume_line` in the state of the line. -/
def consumeLine (line : Bytes) : Status × Parser :=
  match p.state with
  | .statusLine => p.parseStatus line
  | .headerLine => p.headerLine cap line
  | .chunkSize => p.chunkSizeLine line
  | .trailerLine => p.trailerLine cap line
  | _ => p.fail .malformedMessage

def appendBody (data : Bytes) : Status × Parser :=
  let p := if cap.bodyCallback then { p with delivered := p.delivered ++ data } else p
  let keep := min (cap.maxBodySize - p.body.length) data.length
  let p := { p with body := p.body ++ data.take keep }
  if keep ≠ data.length && !cap.bodyCallback then p.fail .bodyLimit
  else
    (.ok, { p with
      streamed := p.streamed || keep ≠ data.length
      bodyReceived := p.bodyReceived + data.length
      chunkRemaining := if p.state = .chunkData then p.chunkRemaining - data.length else p.chunkRemaining })

def lineState : State → Bool
  | .statusLine | .headerLine | .chunkSize | .trailerLine => true
  | _ => false

/-- How many of the bytes there are the body takes in one piece. -/
def bodyTake (size : ℕ) : ℕ :=
  match p.state with
  | .fixedBody => min size (p.contentLength - p.bodyReceived)
  | .chunkData => min size p.chunkRemaining
  | _ => size

/-- What follows a piece of a body. -/
def behindBody : Parser :=
  if p.state = .fixedBody && p.bodyReceived = p.contentLength then p.markComplete
  else if p.state = .chunkData && p.chunkRemaining = 0 then { p with state := .chunkDataCr }
  else p

/-- The outcome of a round that moves the offset by `taken`. -/
def taking (taken : ℕ) (outcome : Status × Parser) : Status × ℕ × Parser := (outcome.1, taken, outcome.2)

def lineByte (c : UInt8) : Status × Parser :=
  if p.line.length ≥ cap.maxLineSize then p.fail .headerLineLimit
  else
    let text := p.line ++ [c]
    if c = lineFeed then
      if text.length < 2 || text[text.length - 2]? ≠ some carriageReturn then
        { p with line := text }.fail .malformedMessage
      else { p with line := [] }.consumeLine cap (text.take (text.length - 2))
    else (.ok, { p with line := text })

def bodyPiece (bytes : Bytes) : Status × ℕ × Parser :=
  let take := p.bodyTake bytes.length
  if take = 0 then taking 0 (p.fail .malformedMessage)
  else
    match p.appendBody cap (bytes.take take) with
    | (.ok, p) => (.ok, take, p.behindBody)
    | failure => taking 0 failure

/-- A round of the loop of `feed_bytes` on the bytes from `c` on: the status, how far the offset
moves, and the parser. -/
def round (c : UInt8) (rest : Bytes) : Status × ℕ × Parser :=
  if lineState p.state then taking 1 (p.lineByte cap c)
  else
    match p.state with
    | .chunkDataCr =>
      taking 1 (if c ≠ carriageReturn then p.fail .invalidChunk else (.ok, { p with state := .chunkDataLf }))
    | .chunkDataLf =>
      taking 1 (if c ≠ lineFeed then p.fail .invalidChunk else (.ok, { p with state := .chunkSize }))
    | _ => p.bodyPiece cap (c :: rest)

/-- The loop of `feed_bytes`; each round that goes on takes at least one byte. -/
def feedLoop : ℕ → Parser → Bytes → ℕ → Status × ℕ × Parser
  | 0, p, _, offset => (.ok, offset, p)
  | _ + 1, p, [], offset => (.ok, offset, p)
  | fuel + 1, p, c :: rest, offset =>
    if p.state = .complete then (.ok, offset, p)
    else
      match p.round cap c rest with
      | (.ok, taken, p) => feedLoop fuel p ((c :: rest).drop taken) (offset + taken)
      | (result, taken, p) => (result, offset + taken, p)

/-- `feed`: the status, the number of consumed bytes and the parser. -/
def feed (data : Bytes) (peerClosed : Bool) : Status × ℕ × Parser :=
  match p.state with
  | .failed => (toStatus p.error, 0, p)
  | .complete => (if data.isEmpty then .ok else .invalidConfig, 0, p)
  | _ =>
    match feedLoop cap data.length p data 0 with
    | (.ok, consumed, p) =>
      if peerClosed && p.state ≠ .complete then
        if p.state = .closeBody then (.ok, consumed, p.markComplete)
        else
          let (result, p) := p.fail .connectionClosed
          (result, consumed, p)
      else (.ok, consumed, p)
    | failure => failure

/-- Calls of `feed`, only the last of which may report the end of the stream: how many bytes
were consumed, and the parser. -/
def feedAll (cap : ParserCapacity) : Parser → List Bytes → Bytes → Bool → ℕ × Parser
  | p, [], last, peerClosed => (p.feed cap last peerClosed).2
  | p, data :: chunks, last, peerClosed =>
    let (_, consumed, p) := p.feed cap data false
    let (more, p) := feedAll cap p chunks last peerClosed
    (consumed + more, p)

end Parser

end Castle.Http.Http1
