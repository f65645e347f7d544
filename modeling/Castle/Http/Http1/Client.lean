import Castle.Http.Http1.Request
import Castle.Http.Http1.Response
import Castle.Net.Sockets

/-!
# The polled client (`client.hpp`)

The transport is the environment: what it answers is an input of the call, and bytes arrive
between the calls. Of what the body callback does, `close` is modelled; the calls of the response
callback come behind the `poll` that runs it, which only returns its status after that.

Some members are none of the class: the open connection and the bytes that wait in it, each with
the number of requests that were accepted before it arrived, the requests, and the reports.
-/

namespace Castle.Http.Http1

/-- `capacity` of `authority_buffer` -/
def authorityCapacity : ℕ := 64

/-- The loop of `append_hex` -/
def hexLoop : ℕ → ℕ → Bytes → Bytes
  | 0, _, digits => digits
  | fuel + 1, value, digits =>
    let digit := (octets "0123456789abcdef").getD (value % 16) 0
    if value / 16 = 0 then digit :: digits else hexLoop fuel (value / 16) (digit :: digits)

/-- The groups of an IPv6 address -/
def groups : Bytes → List ℕ
  | high :: low :: rest => (high.toNat * 256 + low.toNat) :: groups rest
  | _ => []

/-- `assign` of a remote endpoint -/
def endpointAuthority (remote : Net.Endpoint) : Bytes :=
  (match remote.family with
    | .ipv4 => [0x2e].intercalate (remote.address.map fun value => decimal value.toNat)
    | .ipv6 =>
      0x5b :: [colon].intercalate ((groups remote.address).map fun group => hexLoop 4 group []) ++ [0x5d]) ++
    colon :: decimal remote.port.toNat

/-- `assign` of the text of the caller -/
def assignAuthority (value : Bytes) : Status × Bytes :=
  if value.length ≥ authorityCapacity then (.outOfRange, [])
  else if !isVisibleText value then (.invalidArgument, [])
  else (.ok, value)

/-- The template parameters of `http1_client`, and whether a response callback is set -/
structure ClientCapacity where
  request : RequestCapacity
  parser : ParserCapacity
  receiveBufferSize : ℕ
  responseCallback : Bool
  receiveBuffer_pos : 0 < receiveBufferSize

inductive ClientState where
  | disconnected | connecting | ready | sending | receiving | failed
  deriving DecidableEq, Repr

structure ResponseView where
  statusCode : ℕ
  responseVersion : Version
  headers : Headers
  body : Bytes
  keepAlive : Bool
  bodyStreamed : Bool
  deriving DecidableEq

def Parser.response (p : Parser) : ResponseView :=
  ⟨p.statusCode, p.responseVersion, p.views, p.body, p.keepAlive, p.streamed⟩

/-- A byte, and how many requests had been accepted when it arrived -/
structure Arrived where
  byte : UInt8
  stamp : ℕ
  deriving DecidableEq

/-- A run of the response callback; further the number of the request, the bytes that the parser
took for it, and those that waited in the transport when the request was accepted. -/
structure Report where
  request : ℕ
  result : Status
  view : ResponseView
  bytes : List Arrived
  waiting : List Arrived
  deriving DecidableEq

structure Client where
  state : ClientState := .disconnected
  connected : Bool := false
  authority : Bytes := []
  request : Bytes := []
  bytesSent : ℕ := 0
  requestKeepAlive : Bool := true
  parser : Parser := {}
  isOpen : Bool := false
  unread : List Arrived := []
  accepted : ℕ := 0
  waiting : List Arrived := []
  fed : List Arrived := []
  abandoned : List ℕ := []
  reports : List Report := []
  deriving DecidableEq

/-- What the transport answers during a `poll`, how many bytes it has sent and received, and
whether a call of the body callback closes the client -/
structure PollAnswers where
  finishConnect : Status := .ok
  sendSome : Status := .ok
  sent : ℕ := 0
  waitReadable : Status := .ok
  receiveSome : Status := .ok
  received : ℕ := 0
  peerClosed : Bool := false
  bodyCloses : Bool := false
  deriving DecidableEq

/-- The value of `request_keep_alive_` -/
def RequestCall.keepsConnection (call : RequestCall) : Bool :=
  let fields := call.headers.filter fun field => field.named (octets "connection")
  if fields.isEmpty then call.keepAlive
  else !fields.any fun field => containsToken field.value (octets "close")

namespace Client

variable (cap : ClientCapacity) (c : Client)

def busy : Bool := c.state = .sending || c.state = .receiving || c.state = .connecting

/-- A request is in flight, the latest that was accepted. -/
def requesting : Bool := c.state = .sending || c.state = .receiving

def canConnect : Bool := c.state = .disconnected || c.state = .failed

/-- The check of `request` -/
def canRequest : Bool := c.connected && c.state = .ready

def closeTransport : Client := { c with isOpen := false, unread := [] }

/-- The response callback runs, if it is set. -/
def report (result : Status) : Client :=
  if cap.responseCallback then
    { c with reports := ⟨c.accepted, result, c.parser.response, c.fed, c.waiting⟩ :: c.reports }
  else c

def connectTransport (answer : Status) : Client × Status :=
  ({ c with
      connected := decide (answer = .ok)
      isOpen := c.isOpen || decide (answer = .ok ∨ answer = .timeOut)
      state :=
        if answer = .ok then .ready else if answer = .timeOut then .connecting else .disconnected }, answer)

/-- `connect`, with the authority of the caller if there is one -/
def connect (remote : Net.Endpoint) (authority : Option Bytes) (answer : Status) : Client × Status :=
  if !c.canConnect then (c, .invalidConfig)
  else
    match authority with
    | none => { c with authority := endpointAuthority remote }.connectTransport answer
    | some authority =>
      match assignAuthority authority with
      | (.ok, authority) => { c with authority := authority }.connectTransport answer
      | (named, authority) => ({ c with authority := authority }, named)

def send (call : RequestCall) : Client × Status :=
  if !c.canRequest then (c, .notConfigured)
  else
    match { call with authority := c.authority }.build cap.request with
    | (.ok, request) =>
      ({ c with
          request := request
          parser := reset (call.verb = .head)
          bytesSent := 0
          requestKeepAlive := call.keepsConnection
          state := .sending
          accepted := c.accepted + 1
          waiting := c.unread
          fed := [] }, .ok)
    | (result, request) => ({ c with request := request }, result)

def close : Client :=
  { c with
    state := .disconnected
    connected := false
    abandoned := if c.requesting then c.accepted :: c.abandoned else c.abandoned }.closeTransport

def completeResponse (reusable : Bool) : Client × Status :=
  let c := { c with state := .ready }
  let c :=
    if !reusable || !c.parser.keepAlive || !c.requestKeepAlive then
      { c.closeTransport with connected := false, state := .disconnected }
    else c
  (c.report cap .ok, .ok)

def fail (result : Status) : Client × Status :=
  ({ c.closeTransport with state := .failed, connected := false }.report cap result, result)

/-- The chunk that `receive_some` has read goes to the parser, which runs the body callback. -/
def feed (chunk : List Arrived) (a : PollAnswers) : Client × Status :=
  let (result, consumed, parser) := c.parser.feed cap.parser (chunk.map Arrived.byte) a.peerClosed
  let bodyRan := parser.delivered ≠ c.parser.delivered
  let c := { c with parser := parser, fed := c.fed ++ chunk.take consumed }
  let c := if a.bodyCloses ∧ bodyRan then c.close else c
  if result ≠ .ok then c.fail cap result
  else if parser.state = .complete then
    c.completeResponse cap (!a.peerClosed && decide (consumed = chunk.length))
  else (c, result)

/-- `poll` in the state `receiving` -/
def receive (a : PollAnswers) : Client × Status :=
  if a.waitReadable ≠ .ok then (c, a.waitReadable)
  else
    let chunk := c.unread.take (min a.received cap.receiveBufferSize)
    let c := { c with unread := c.unread.drop chunk.length }
    if a.receiveSome ≠ .ok ∧ a.receiveSome ≠ .empty then c.fail cap a.receiveSome
    else if chunk ≠ [] ∨ a.peerClosed = true then c.feed cap chunk a
    else (c, a.receiveSome)

/-- The bytes that `send_some` has taken; it takes no more than it is given. -/
def advance (a : PollAnswers) : Client :=
  { c with bytesSent := c.bytesSent + min a.sent (c.request.length - c.bytesSent) }

def poll (a : PollAnswers) : Client × Status :=
  match c.state with
  | .connecting =>
    if a.finishConnect ≠ .ok then (c, a.finishConnect)
    else ({ c with connected := true, state := .ready }, .ok)
  | .sending =>
    let c := c.advance a
    if a.sendSome = .full ∨ a.sendSome = .empty then (c, a.sendSome)
    else if a.sendSome ≠ .ok then c.fail cap a.sendSome
    else if c.bytesSent = c.request.length then { c with state := .receiving }.receive cap a
    else (c, .ok)
  | .receiving => c.receive cap a
  | .ready => (c, .ok)
  | _ => (c, .notConfigured)

end Client

/-- A call of the application, or bytes that arrive at an open transport -/
inductive ClientCall where
  | connect (remote : Net.Endpoint) (authority : Option Bytes) (answer : Status)
  | request (call : RequestCall)
  | poll (answers : PollAnswers)
  | close
  | arrive (bytes : Bytes)

namespace Client

def perform (cap : ClientCapacity) (c : Client) : ClientCall → Client
  | .connect remote authority answer => (c.connect remote authority answer).1
  | .request call => (c.send cap call).1
  | .poll answers => (c.poll cap answers).1
  | .close => c.close
  | .arrive bytes =>
    if c.isOpen then { c with unread := c.unread ++ bytes.map fun byte => ⟨byte, c.accepted⟩ } else c

def after (cap : ClientCapacity) (calls : List ClientCall) : Client := calls.foldl (perform cap) {}

theorem after_snoc (cap : ClientCapacity) (before : List ClientCall) (call : ClientCall) :
    after cap (before ++ [call]) = (after cap before).perform cap call := by
  rw [after, List.foldl_append]
  rfl

end Client
end Castle.Http.Http1
