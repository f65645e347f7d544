import Castle.Http.Server.Parser

/-!
# Routes and handlers (`server.hpp`)

A handler runs on the state of the application and makes calls on its response. Its response
is fresh, so that the calls depend on the state and the request alone.
-/

namespace Castle.Http.Server

abbrev Handler (σ : Type) := σ → Request → σ × List ResponseCall

structure Route (σ : Type) where
  path : Bytes
  /-- none when the route takes every method -/
  verb : Option Method
  /-- `prefix` -/
  descends : Bool
  handler : Handler σ

/-- The routes in the order of their registration, and the handler for what matches none. -/
structure Routes (σ : Type) where
  routes : List (Route σ)
  notFoundHandler : Option (Handler σ)

def isParameter (segment : Bytes) : Bool :=
  segment.length ≥ 2 && segment.head? = some 0x7b && segment.getLast? = some 0x7d

def skipSlash (text : Bytes) : Bytes := if text.head? = some slash then text.tail else text

/-- The loop of `match_path`: whether all segments match, and what is left of the path. -/
def matchSegments (cap : Capacity) : ℕ → Bytes → Bytes → Request → Bool × Request × Bytes
  | 0, _, path, request => (true, request, path)
  | fuel + 1, pattern, path, request =>
    let pattern := skipSlash pattern
    if pattern = [] then (true, request, path)
    else
      let path := skipSlash path
      let segment := pattern.takeWhile (· ≠ slash)
      let part := path.takeWhile (· ≠ slash)
      if path = [] then (false, request, path)
      else if isParameter segment then
        match request.addParameter cap segment.tail.dropLast part with
        | none => (false, request, path)
        | some request =>
          matchSegments cap fuel (pattern.dropWhile (· ≠ slash)) (path.dropWhile (· ≠ slash)) request
      else if segment ≠ part then (false, request, path)
      else matchSegments cap fuel (pattern.dropWhile (· ≠ slash)) (path.dropWhile (· ≠ slash)) request

def matchPath (cap : Capacity) (pattern path : Bytes) (descends : Bool) (request : Request) :
    Bool × Request :=
  if pattern = [slash] then (descends || path = [slash], request)
  else
    let trailingSlash := pattern.length > 1 && pattern.getLast? = some slash
    let limited := if trailingSlash then pattern.dropLast else pattern
    let (matched, request, rest) := matchSegments cap (pattern.length + 1) limited path request
    if !matched then (false, request)
    else if trailingSlash then
      if descends then (rest.head? = some slash, request)
      else (rest = [slash], request)
    else if descends then (rest = [] || rest.head? = some slash, request)
    else (rest = [], request)

/-- One pass over the routes: the request with the parameters that were captured last, whether
the path matched some route, and the route whose handler runs. -/
def searchRoutes {σ : Type} (cap : Capacity) (descends : Bool) :
    List (Route σ) → Request → Bool → Request × Bool × Option (Route σ)
  | [], request, pathMatched => (request, pathMatched, none)
  | route :: routes, request, pathMatched =>
    if route.descends ≠ descends then searchRoutes cap descends routes request pathMatched
    else
      match matchPath cap route.path request.path descends { request with parameters := [] } with
      | (false, request) => searchRoutes cap descends routes request pathMatched
      | (true, request) =>
        if route.verb.all (· = request.method) then (request, true, some route)
        else searchRoutes cap descends routes request true

/-- The exact routes first, then the prefix routes. -/
def findRoute {σ : Type} (cap : Capacity) (routes : List (Route σ)) (request : Request) :
    Request × Bool × Option (Route σ) :=
  match searchRoutes cap false routes request false with
  | (request, pathMatched, none) => searchRoutes cap true routes request pathMatched
  | found => found

def runHandler {σ : Type} (cap : Capacity) (handler : Handler σ) (app : σ) (request : Request) :
    σ × Response :=
  let (app, calls) := handler app request
  (app, Response.applyAll cap {} calls)

def plainResponse (cap : Capacity) (status : ℕ) (message : Bytes) : Response :=
  (({ status := status } : Response).setBody cap message).2

def dispatchRequest {σ : Type} (cap : Capacity) (routes : Routes σ) (app : σ) (request : Request) :
    σ × Response :=
  if request.method = .options ∧ request.path = octets "*" then
    (app, (({} : Response).setHeader cap (octets "Allow")
      (octets "GET, POST, PUT, DELETE, HEAD, OPTIONS, PATCH")).2)
  else if request.method = .custom then
    (app, plainResponse cap 501 (octets "Method Not Implemented"))
  else
    match findRoute cap routes.routes request with
    | (request, _, some route) => runHandler cap route.handler app request
    | (request, pathMatched, none) =>
      if pathMatched then (app, plainResponse cap 405 (octets "Method Not Allowed"))
      else
        match routes.notFoundHandler with
        | some handler => runHandler cap handler app request
        | none => (app, plainResponse cap 404 (octets "Not Found"))

/-!
## A connection of the server (`server.hpp`)

The transport is the environment: its answer to each `send_all` on the connection is given.
A session also keeps what was passed to `send_all`, the requests that were dispatched, and
whether an access was outside its buffer.
-/

structure Connection where
  request : Request := {}
  input : Bytes := []
  bodyOffset : ℕ := 0
  contentLength : ℕ := 0
  requestCount : ℕ := 0
  used : Bool := true
  headersParsed : Bool := false
  chunked : Bool := false
  keepAlive : Bool := true

/-- The capacities, the application and the answers of the transport. -/
structure Host (σ : Type) where
  cap : Capacity
  routes : Routes σ
  /-- whether the nth `send_all` succeeds -/
  sends : ℕ → Bool

structure Session (σ : Type) where
  item : Connection := {}
  app : σ
  sent : List Bytes := []
  dispatched : List Request := []
  outOfBounds : Bool := false

def appendText (capacity : ℕ) (output text : Bytes) : Option Bytes :=
  if text.length > capacity - output.length then none else some (output ++ text)

def appendTexts (capacity : ℕ) : List Bytes → Bytes → Option Bytes
  | [], output => some output
  | text :: texts, output => do appendTexts capacity texts (← appendText capacity output text)

def protocolText : Version → Bytes
  | .http10 => octets "HTTP/1.0 "
  | .http11 => octets "HTTP/1.1 "

/-- No body follows the header section of the response. -/
def noBody (request : Request) (response : Response) : Bool :=
  request.method = .head || response.status = 204 || response.status = 304 ||
    (100 ≤ response.status && response.status < 200)

def connectionValue (keepAlive : Bool) : Bytes :=
  if keepAlive then octets "keep-alive" else octets "close"

/-- The `Connection` field is set when there is room for it. -/
def setConnection (cap : Capacity) (headers : Headers) (keepAlive : Bool) : Headers :=
  (headers.set cap.headers (octets "Connection") (connectionValue keepAlive)).2

/-- The framing fields as `send_response` leaves them. -/
def frameHeaders (cap : Capacity) (request : Request) (response : Response) : Option Headers :=
  let headers := (response.headers.remove (octets "Transfer-Encoding")).2
  if noBody request response then some (headers.remove (octets "Content-Length")).2
  else
    let length := formatUint (response.body.length % 2 ^ 32) 10
    if length = [] then none
    else
      match headers.set cap.headers (octets "Content-Length") length with
      | (.ok, headers) => some headers
      | _ => none

/-- The bytes that `send_response` passes to the transport; none when they do not fit. -/
def renderResponse (cap : Capacity) (request : Request) (response : Response) (keepAlive : Bool) :
    Option Bytes := do
  let digits := formatUint response.status 5
  let output ← appendText cap.maxResponseSize [] (protocolText request.version)
  let output ← if digits = [] then none else appendText cap.maxResponseSize output digits
  let output ← appendTexts cap.maxResponseSize
    [[space], reasonPhrase response.status, crlf] output
  let headers ← frameHeaders cap request response
  let output ← appendTexts cap.maxResponseSize
    ((setConnection cap headers keepAlive).flatMap fun field =>
      [field.name, [colon, space], field.value, crlf]) output
  let output ← appendText cap.maxResponseSize output crlf
  if noBody request response then some output
  else if response.body.length > cap.maxResponseSize - output.length then none
  else some (output ++ response.body)

namespace Session

variable {σ : Type} (host : Host σ) (s : Session σ)

def modify (f : Connection → Connection) : Session σ := { s with item := f s.item }

def close : Session σ := s.modify fun item => { item with used := false }

/-- `send_all`, and whether it succeeded. -/
def send (data : Bytes) : Bool × Session σ :=
  (host.sends s.sent.length, { s with sent := s.sent ++ [data] })

def sendResponse (request : Request) (response : Response) (keepAlive : Bool) : Bool × Session σ :=
  match renderResponse host.cap request response keepAlive with
  | none => (false, s)
  | some data => s.send host data

def errorResponse (cap : Capacity) (code : ℕ) (message : Bytes) : Response :=
  let response := (({} : Response).setStatus code).2
  let response := (response.setHeader cap (octets "Content-Type")
    (octets "text/plain; charset=utf-8")).2
  (response.setBody cap message).2

def sendError (code : ℕ) (message : Bytes) : Session σ :=
  (s.sendResponse host {} (errorResponse host.cap code message) false).2.close

def headersMessage (failure : ParseFailure) : Bytes :=
  if failure.tooLarge then octets "Request header or URI exceeds configured capacity"
  else octets "Malformed HTTP request headers"

def withHeaders (parsed : ParsedHeaders) (marker : ℕ) : Session σ :=
  s.modify fun item => { item with
    request := parsed.request
    contentLength := parsed.contentLength.getD item.contentLength
    chunked := item.chunked || parsed.chunked
    keepAlive := parsed.keepAlive
    headersParsed := true
    bodyOffset := marker + 4 }

/-- The first half of a round of `process_buffer`, and whether the round goes on. -/
def readHeaders : Bool × Session σ :=
  if s.item.headersParsed then (true, s)
  else
    match findHeaderEnd s.item.input with
    | none =>
      let firstLine := findCrlf s.item.input 0
      if (firstLine.isNone && s.item.input.length > host.cap.maxUriSize + 32) ||
          s.item.input.length > host.cap.maxHeaderBytes then
        (false, s.sendError host (if firstLine.isNone then 414 else 431)
          (octets "Request line or header section exceeds configured capacity"))
      else (false, s)
    | some marker =>
      if marker + 4 > host.cap.maxHeaderBytes then
        (false, s.sendError host 431
          (octets "Request header section exceeds configured capacity"))
      else
        match parseHeaders host.cap s.item.input marker with
        | .error failure => (false, s.sendError host failure.errorStatus (headersMessage failure))
        | .ok parsed =>
          if expectsContinue parsed.request.headers then
            match (s.withHeaders parsed marker).send host
                (octets "HTTP/1.1 100 Continue\r\n\r\n") with
            | (true, s) => (true, s)
            | (false, s) => (false, s.close)
          else (true, s.withHeaders parsed marker)

/-- What the bytes behind the header section give. -/
inductive BodyRead where
  | incomplete
  | failed (code : ℕ) (message : Bytes)
  | complete (consumed : ℕ) (body : Bytes)
  | outOfBounds
  deriving DecidableEq

def readBody (cap : Capacity) (item : Connection) : BodyRead :=
  if item.chunked then
    match decodeChunked cap item.input item.bodyOffset with
    | none => .outOfBounds
    | some .incomplete => .incomplete
    | some (.tooLarge code) =>
      .failed code (octets "Chunked body or trailer section exceeds configured capacity")
    | some .malformed => .failed 400 (octets "Malformed chunked request body")
    | some (.complete consumed body) => .complete consumed body
  else if item.contentLength > cap.maxBodySize then
    .failed 413 (octets "Content-Length exceeds configured body capacity")
  else if item.contentLength > item.input.length - item.bodyOffset then .incomplete
  else
    match copyToBody cap [] item.input item.bodyOffset item.contentLength with
    | none => .outOfBounds
    | some body => .complete (item.bodyOffset + item.contentLength) body

/-- The connection behind a request that took `consumed` bytes. -/
def nextRequest (consumed : ℕ) : Session σ :=
  s.modify fun item => { item with
    input := item.input.drop consumed
    request := {}
    bodyOffset := 0
    contentLength := 0
    headersParsed := false
    chunked := false
    keepAlive := true }

/-- `dispatch_request` and what follows it, and whether the loop goes on. -/
def respond (request : Request) (consumed : ℕ) : Bool × Session σ :=
  let (app, response) := dispatchRequest host.cap host.routes s.app request
  let count := s.item.requestCount + 1
  let keepAlive := s.item.keepAlive && count < host.cap.maxRequestsPerConnection
  let s := { s with
    item := { s.item with request := request, requestCount := count }
    app := app
    dispatched := s.dispatched ++ [request] }
  let response := { response with
    headers := setConnection host.cap response.headers keepAlive }
  match s.sendResponse host request response keepAlive with
  | (false, s) => (false, s.close)
  | (true, s) =>
    if !keepAlive then (false, s.close)
    else if consumed > s.item.input.length then
      (false, s.sendError host 400 (octets "Invalid request framing"))
    else if (s.item.input.drop consumed).isEmpty then (false, s.nextRequest consumed)
    else (true, s.nextRequest consumed)

/-- A round of the loop of `process_buffer`, and whether another one follows. -/
def processRequest : Bool × Session σ :=
  match s.readHeaders host with
  | (false, s) => (false, s)
  | (true, s) =>
    match readBody host.cap s.item with
    | .incomplete => (false, s)
    | .failed code message => (false, s.sendError host code message)
    | .outOfBounds => (false, { s.close with outOfBounds := true })
    | .complete consumed body => s.respond host { s.item.request with body := body } consumed

/-- Every round but the last answers a request, and the requests of a connection are limited. -/
def processRounds : ℕ → Session σ → Session σ
  | 0, s => s
  | fuel + 1, s =>
    if s.item.used then
      match s.processRequest host with
      | (true, s) => processRounds fuel s
      | (false, s) => s
    else s

def processBuffer : Session σ :=
  processRounds host (host.cap.maxRequestsPerConnection + 1) s

def onReceive (data : Bytes) : Session σ :=
  if !s.item.used || data.isEmpty then s
  else if data.length > host.cap.maxRequestSize - s.item.input.length then
    s.sendError host 413 (octets "Request buffer limit exceeded")
  else
    (s.modify fun item => { item with input := item.input ++ data }).processBuffer host

def receiveAll (chunks : List Bytes) : Session σ :=
  chunks.foldl (fun s data => s.onReceive host data) s

end Session

end Castle.Http.Server
