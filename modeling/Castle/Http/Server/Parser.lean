import Castle.Http.Fields
import Castle.Http.Text

/-!
# Requests and responses (`server.hpp`)

Buffers are the bytes they hold; a buffer keeps to its capacity where it is written.
-/

namespace Castle.Http.Server

/-- The template parameters of `basic_http_server`, with its static assertions. -/
structure Capacity where
  receiveBufferSize : ℕ
  maxRequestsPerConnection : ℕ
  maxHeaders : ℕ
  maxHeaderNameSize : ℕ
  maxHeaderValueSize : ℕ
  maxUriSize : ℕ
  maxBodySize : ℕ
  maxRequestSize : ℕ
  maxHeaderBytes : ℕ
  maxPathSegments : ℕ
  requestsPerConnection_pos : 0 < maxRequestsPerConnection
  headers_pos : 0 < maxHeaders
  headerNameSize_pos : 0 < maxHeaderNameSize
  headerValueSize_pos : 0 < maxHeaderValueSize
  bodySize_pos : 0 < maxBodySize
  requestSize_pos : 0 < maxRequestSize

namespace Capacity

variable (cap : Capacity)

def headers : HeadersCapacity := ⟨cap.maxHeaders, cap.maxHeaderNameSize, cap.maxHeaderValueSize⟩

/-- The default template arguments. -/
def standard : Capacity where
  receiveBufferSize := 512
  maxRequestsPerConnection := 16
  maxHeaders := 16
  maxHeaderNameSize := 64
  maxHeaderValueSize := 256
  maxUriSize := 256
  maxBodySize := 1024
  maxRequestSize := 4096
  maxHeaderBytes := 2048
  maxPathSegments := 8
  requestsPerConnection_pos := Nat.succ_pos (nat_lit 15)
  headers_pos := Nat.succ_pos (nat_lit 15)
  headerNameSize_pos := Nat.succ_pos (nat_lit 63)
  headerValueSize_pos := Nat.succ_pos (nat_lit 255)
  bodySize_pos := Nat.succ_pos (nat_lit 1023)
  requestSize_pos := Nat.succ_pos (nat_lit 4095)

def maxResponseSize : ℕ :=
  cap.maxBodySize + cap.maxHeaders * (cap.maxHeaderNameSize + cap.maxHeaderValueSize + 4) + 160

end Capacity

def containsToken (value token : Bytes) : Bool :=
  (value.splitOn 0x2c).any fun item => asciiIequal (trimOws item) token

def parseMethod (value : Bytes) : Method :=
  if value = octets "GET" then .get
  else if value = octets "POST" then .post
  else if value = octets "PUT" then .put
  else if value = octets "DELETE" then .delete
  else if value = octets "HEAD" then .head
  else if value = octets "OPTIONS" then .options
  else if value = octets "PATCH" then .patch
  else .custom

/-- `server_parse_hex`: the digits of a chunk size, before an extension. -/
def parseHex (value : Bytes) : Option ℕ :=
  let digits := value.takeWhile (· ≠ semicolon)
  if digits.isEmpty then none else parseHexLoop digits 0

def reasonPhrase (code : ℕ) : Bytes :=
  octets (match code with
    | 100 => "Continue" | 101 => "Switching Protocols" | 200 => "OK" | 201 => "Created"
    | 202 => "Accepted" | 204 => "No Content" | 301 => "Moved Permanently" | 302 => "Found"
    | 304 => "Not Modified" | 400 => "Bad Request" | 401 => "Unauthorized" | 403 => "Forbidden"
    | 404 => "Not Found" | 405 => "Method Not Allowed" | 408 => "Request Timeout"
    | 413 => "Payload Too Large" | 414 => "URI Too Long" | 415 => "Unsupported Media Type"
    | 417 => "Expectation Failed" | 429 => "Too Many Requests"
    | 431 => "Request Header Fields Too Large" | 500 => "Internal Server Error"
    | 501 => "Not Implemented" | 502 => "Bad Gateway" | 503 => "Service Unavailable"
    | 504 => "Gateway Timeout" | 505 => "HTTP Version Not Supported" | _ => "Unknown")

/-- `format_uint` of a 32-bit value: nothing when the digits do not fit. -/
def formatUint (value capacity : ℕ) : Bytes :=
  let digits := decimalLoop 10 value []
  if digits.length > capacity then [] else digits

structure Request where
  method : Method := .custom
  version : Version := .http11
  methodText : Bytes := []
  target : Bytes := []
  path : Bytes := []
  queryOffset : ℕ := 0
  headers : Headers := []
  body : Bytes := []
  parameters : List (Bytes × Bytes) := []
  deriving DecidableEq, Repr

namespace Request

variable (cap : Capacity) (request : Request)

/-- The token has a buffer of sixteen characters, one of them for the terminator. -/
def assignMethod (value : Bytes) : Option Request :=
  if value.length ≥ 16 then none
  else some { request with methodText := value, method := parseMethod value }

/-- The rest of `assign_target`: `normalized` is the target from its path on. -/
def assignPath (target normalized : Bytes) : Option Request :=
  if normalized.head? ≠ some slash then none
  else
    let path := normalized.takeWhile (· ≠ question)
    some { request with
      target := target
      path := path
      queryOffset :=
        if path.length = normalized.length then 0
        else target.length - normalized.length + path.length + 1 }

/-- The length of the scheme of an absolute target; none for any other target. -/
def schemeSize (target : Bytes) : Option ℕ :=
  if asciiIequal (target.take 8) (octets "https://") then some 8
  else if asciiIequal (target.take 7) (octets "http://") then some 7
  else none

def assignTarget (target : Bytes) : Option Request :=
  if target = [] || target.length > cap.maxUriSize then none
  else if target = octets "*" then
    some { request with target := target, path := target, queryOffset := 0 }
  else
    match schemeSize target with
    | none => request.assignPath target target
    | some scheme =>
      let authority := (target.drop scheme).takeWhile fun c => c ≠ slash && c ≠ question
      let authorityEnd := scheme + authority.length
      if authority = [] then none
      else if authorityEnd = target.length then request.assignPath target (octets "/")
      else if target.drop authorityEnd |>.head? |> (· = some question) then
        some { request with target := target, path := octets "/", queryOffset := authorityEnd + 1 }
      else request.assignPath target (target.drop authorityEnd)

def addParameter (name value : Bytes) : Option Request :=
  if request.parameters.length ≥ cap.maxPathSegments || name = [] ||
      name.length > cap.maxUriSize || value.length > cap.maxUriSize then none
  else some { request with parameters := request.parameters ++ [(name, value)] }

end Request

structure Response where
  status : ℕ := 200
  headers : Headers := []
  body : Bytes := []
  deriving DecidableEq, Repr

/-- What a handler may call on its response. -/
inductive ResponseCall where
  | setStatus (value : UInt16)
  | add (name value : Bytes)
  | set (name value : Bytes)
  | remove (name : Bytes)
  | setBody (value : Bytes)
  | setJson (value : Bytes)
  | setFile (mediaType content : Bytes)
  | clearHeaders
  | clear
  deriving DecidableEq, Repr

namespace Response

variable (cap : Capacity) (response : Response)

def setStatus (value : ℕ) : Status × Response :=
  if value < 100 || value > 999 then (.invalidArgument, response)
  else (.ok, { response with status := value })

/-- `set_header`, and `set` on the fields. -/
def setHeader (name value : Bytes) : Status × Response :=
  let (result, headers) := response.headers.set cap.headers name value
  (result, { response with headers := headers })

def setBody (value : Bytes) : Status × Response :=
  if value.length > cap.maxBodySize then (.outOfRange, response)
  else (.ok, { response with body := value })

/-- `set_file`, and `set_json` with its own media type. -/
def setFile (mediaType content : Bytes) : Status × Response :=
  let (result, next) := response.setHeader cap (octets "Content-Type") mediaType
  if result = .ok then next.setBody cap content else (result, next)

def setJson (value : Bytes) : Status × Response :=
  response.setFile cap (octets "application/json") value

def apply : ResponseCall → Response
  | .setStatus value => (response.setStatus value.toNat).2
  | .add name value => { response with headers := (response.headers.add cap.headers name value).2 }
  | .set name value => (response.setHeader cap name value).2
  | .remove name => { response with headers := (response.headers.remove name).2 }
  | .setBody value => (response.setBody cap value).2
  | .setJson value => (response.setJson cap value).2
  | .setFile mediaType content => (response.setFile cap mediaType content).2
  | .clearHeaders => { response with headers := [] }
  | .clear => {}

def applyAll (calls : List ResponseCall) : Response :=
  calls.foldl (fun response call => response.apply cap call) response

end Response

/-!
## The request parser (`server.hpp`)

`parse_headers` reads the bytes before the blank line of a buffer, `decode_chunked` the bytes
behind it. Accesses to the buffers are checked here: a read or a write outside gives none.
-/

def findCrlf (data : Bytes) (start : ℕ) : Option ℕ :=
  (firstIndex crlf (data.drop start)).map (start + ·)

def findHeaderEnd (data : Bytes) : Option ℕ := firstIndex (crlf ++ crlf) data

def slice (data : Bytes) (start stop : ℕ) : Bytes := (data.drop start).take (stop - start)

/-- `http_copy_bytes` behind the bytes that the body holds. -/
def copyToBody (cap : Capacity) (body data : Bytes) (start count : ℕ) : Option Bytes :=
  if start + count > data.length || body.length + count > cap.maxBodySize then none
  else some (body ++ slice data start (start + count))

/-- How `parse_headers` fails: `too_large` or `malformed`, and the error status. -/
structure ParseFailure where
  tooLarge : Bool
  errorStatus : ℕ
  deriving DecidableEq, Repr

def malformed (errorStatus : ℕ) : ParseFailure := ⟨false, errorStatus⟩
def tooLarge (errorStatus : ℕ) : ParseFailure := ⟨true, errorStatus⟩

/-- The variables of the loop over the header lines. -/
structure Fields where
  headers : Headers := []
  contentLength : Option ℕ := none
  hasTransferEncoding : Bool := false
  hasHost : Bool := false
  headerCount : ℕ := 0
  deriving DecidableEq

namespace Fields

variable (cap : Capacity) (fields : Fields)

/-- What a field says about the framing and the host. -/
def note (name value : Bytes) : Except ParseFailure Fields :=
  if asciiIequal name (octets "Content-Length") then
    if fields.contentLength.isSome then .error (malformed 400)
    else
      match parseDecimal value with
      | none => .error (malformed 400)
      | some length =>
        if length > cap.maxBodySize then .error (tooLarge 413)
        else .ok { fields with contentLength := some length }
  else if asciiIequal name (octets "Transfer-Encoding") then
    if fields.hasTransferEncoding then .error (malformed 400)
    else if !asciiIequal value (octets "chunked") then .error (malformed 501)
    else .ok { fields with hasTransferEncoding := true }
  else if asciiIequal name (octets "Host") then
    if fields.hasHost then .error (malformed 400)
    else if value.isEmpty then .error (malformed 400)
    else .ok { fields with hasHost := true }
  else .ok fields

/-- The call of `add` at the end of the loop. -/
def store (name value : Bytes) : Except ParseFailure Fields :=
  match fields.headers.add cap.headers name value with
  | (.ok, headers) => .ok { fields with headers := headers }
  | (.full, _) => .error (tooLarge 431)
  | (.outOfRange, _) => .error (tooLarge 431)
  | _ => .error (malformed 400)

def addLine (line : Bytes) : Except ParseFailure Fields :=
  if line.isEmpty || line.head?.any isBlank then .error (malformed 400)
  else
    match cut colon line with
    | none => .error (malformed 400)
    | some (name, rest) =>
      let value := trimOws rest
      if name.isEmpty then .error (malformed 400)
      else if name.length > cap.maxHeaderNameSize || value.length > cap.maxHeaderValueSize then
        .error (tooLarge 431)
      else if fields.headerCount + 1 > cap.maxHeaders then .error (tooLarge 431)
      else do
        let noted ← { fields with headerCount := fields.headerCount + 1 }.note cap name value
        noted.store cap name value

def addLines : List Bytes → Fields → Except ParseFailure Fields
  | [], fields => .ok fields
  | line :: rest, fields => do addLines rest (← fields.addLine cap line)

end Fields

/-- The method, the target and the version of the first line. -/
def parseRequestLine (cap : Capacity) (line : Bytes) : Except ParseFailure Request :=
  match cut space line with
  | none => .error (malformed 400)
  | some (verb, rest) =>
    match cut space rest with
    | none => .error (malformed 400)
    | some (target, protocol) =>
      if verb.isEmpty || target.isEmpty || protocol.contains space then .error (malformed 400)
      else if !isToken verb || !isVisibleText target then .error (malformed 400)
      else if target.length > cap.maxUriSize then .error (tooLarge 414)
      else if protocol ≠ octets "HTTP/1.1" && protocol ≠ octets "HTTP/1.0" then
        .error (malformed 505)
      else
        let request : Request :=
          { version := if protocol = octets "HTTP/1.1" then .http11 else .http10 }
        if target.contains 0x23 then .error (malformed 400)
        else
          match (request.assignMethod verb).bind fun request => request.assignTarget cap target with
          | none => .error (malformed 400)
          | some request => .ok request

def connectionToken (headers : Headers) (token : Bytes) : Bool :=
  headers.any fun field =>
    asciiIequal field.name (octets "Connection") && containsToken field.value token

/-- Whether the connection stays open after the request. -/
def keepsAlive (version : Version) (headers : Headers) : Bool :=
  let close := connectionToken headers (octets "close")
  match version with
  | .http11 => !close
  | .http10 => connectionToken headers (octets "keep-alive") && !close

/-- What `parse_headers` leaves in a connection. -/
structure ParsedHeaders where
  request : Request
  contentLength : Option ℕ
  chunked : Bool
  keepAlive : Bool
  deriving DecidableEq

def expectsContinue (headers : Headers) : Bool :=
  asciiIequal (headers.get (octets "Expect")) (octets "100-continue")

def parseHeaders (cap : Capacity) (input : Bytes) (marker : ℕ) :
    Except ParseFailure ParsedHeaders := do
  let block := lines crlf (input.take marker)
  let request ← parseRequestLine cap (block.headD [])
  let fields ← Fields.addLines cap block.tail {}
  if request.version = .http11 && !fields.hasHost then .error (malformed 400)
  else if fields.contentLength.isSome && fields.hasTransferEncoding then .error (malformed 400)
  else if !expectsContinue fields.headers && !(fields.headers.get (octets "Expect")).isEmpty then
    .error (malformed 417)
  else
    .ok {
      request := { request with headers := fields.headers }
      contentLength := fields.contentLength
      chunked := fields.hasTransferEncoding
      keepAlive := keepsAlive request.version fields.headers }

inductive Decoded where
  | incomplete
  | malformed
  | tooLarge (errorStatus : ℕ)
  | complete (consumed : ℕ) (body : Bytes)
  deriving DecidableEq

/-- The fields that a trailer may not hold. -/
def framingName (name : Bytes) : Bool :=
  asciiIequal name (octets "Content-Length") || asciiIequal name (octets "Transfer-Encoding") ||
    asciiIequal name (octets "Host")

/-- The loop over the trailer section, which begins at `start`. -/
def decodeTrailers (cap : Capacity) (input : Bytes) (start : ℕ) (body : Bytes) :
    ℕ → ℕ → ℕ → Option Decoded
  | 0, _, _ => none
  | fuel + 1, cursor, count =>
    match findCrlf input cursor with
    | none =>
      if input.length - start > cap.maxHeaderBytes then some (.tooLarge 431) else some .incomplete
    | some lineEnd =>
      if lineEnd + 2 - start > cap.maxHeaderBytes then some (.tooLarge 431)
      else if lineEnd = cursor then some (.complete (cursor + 2) body)
      else
        let trailer := slice input cursor lineEnd
        match cut colon trailer with
        | none => some .malformed
        | some (name, value) =>
          if trailer.head?.any isBlank || !isToken name then some .malformed
          else if name.length > cap.maxHeaderNameSize ||
              (trimOws value).length > cap.maxHeaderValueSize || count + 1 > cap.maxHeaders then
            some (.tooLarge 431)
          else if framingName name then some .malformed
          else decodeTrailers cap input start body fuel (lineEnd + 2) (count + 1)

/-- The loop over the chunks; `body` holds the bytes that are decoded so far. -/
def decodeChunks (cap : Capacity) (input : Bytes) : ℕ → ℕ → Bytes → Option Decoded
  | 0, _, _ => none
  | fuel + 1, cursor, body =>
    match findCrlf input cursor with
    | none => some .incomplete
    | some lineEnd =>
      match parseHex (slice input cursor lineEnd) with
      | none => some .malformed
      | some 0 => decodeTrailers cap input (lineEnd + 2) body fuel (lineEnd + 2) 0
      | some (size + 1) =>
        if size + 1 > cap.maxBodySize - body.length then some (.tooLarge 413)
        else if size + 1 + 2 > input.length - (lineEnd + 2) then some .incomplete
        else do
          let body ← copyToBody cap body input (lineEnd + 2) (size + 1)
          let cr ← input[lineEnd + 2 + (size + 1)]?
          let lf ← input[lineEnd + 2 + (size + 1) + 1]?
          if cr ≠ carriageReturn || lf ≠ lineFeed then some .malformed
          else decodeChunks cap input fuel (lineEnd + 2 + (size + 1) + 2) body

/-- Every round of the loops takes bytes of the buffer. -/
def decodeChunked (cap : Capacity) (input : Bytes) (bodyOffset : ℕ) : Option Decoded :=
  decodeChunks cap input (input.length + 1) bodyOffset []

end Castle.Http.Server
