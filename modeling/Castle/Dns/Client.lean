import Castle.Dns.Message

/-!
# The DNS client (`client.hpp`)

The transports are the environment: what their calls answer is an input. That a TCP transport is
closed changes nothing in the client and is left out. The log records what the client does. A
call of the completion callback to the client is refused, so that a step ends with the callback.
-/

namespace Castle.Dns

open Net

structure ClientConfig where
  timeoutMs : UInt32 := 1000
  retries : UInt8 := 2
  transactionIdSeed : UInt16 := 0xCA57
  deriving DecidableEq

/-- The template parameters, with the assertions about them. -/
structure ClientCapacity where
  maxRecords : ℕ
  tcpMessageCapacity : ℕ
  records_pos : 0 < maxRecords
  tcpMessage_min : headerSize ≤ tcpMessageCapacity
  tcpMessage_max : tcpMessageCapacity ≤ maxMessageSize

/-- What `receive_from` answers: a status that is not `ok`, or a datagram. -/
inductive Received where
  | failed (status : Status)
  | datagram (source : Endpoint) (bytes : Bytes)
  deriving DecidableEq

/-- What `wait_readable` answers, and `receive_from` behind it. -/
structure Wait where
  ready : Status := .ok
  received : Received := .failed .empty
  deriving DecidableEq

/-- What the UDP transport answers before the first query. -/
structure UdpSocket where
  isOpen : Bool := false
  family : AddressFamily := .ipv4
  closed : Status := .ok
  opened : Status := .ok
  nonblocking : Status := .ok
  deriving DecidableEq

/-- What a wait for the TCP transport and its `receive_some` answer. -/
structure TcpReceive where
  ready : Status := .ok
  result : Status := .ok
  bytes : Bytes := []
  peerClosed : Bool := false
  deriving DecidableEq

/-- What the TCP transport answers to a blocking lookup. -/
structure TcpAnswers where
  connected : Status := .ok
  finished : Status := .ok
  sent : SendResult := {}
  received : List TcpReceive := []
  deriving DecidableEq

/-- What the transports answer to a blocking lookup; after the last wait nothing arrives. -/
structure ResolveAnswers where
  socket : UdpSocket := {}
  sends : List SendResult := []
  waits : List Wait := []
  tcp : TcpAnswers := {}
  deriving DecidableEq

/-- What the transports answer to one `poll`. -/
structure PollAnswers where
  received : Received := .failed .empty
  sent : SendResult := {}
  connected : Status := .ok
  finished : Status := .ok
  sentSome : Status × ℕ := (.ok, 0)
  receivedSome : TcpReceive := {}
  deriving DecidableEq

inductive AsyncState where
  | idle | udpWait | tcpConnect | tcpSend | tcpPrefix | tcpBody
  deriving DecidableEq, Repr

inductive Event where
  | query
  /-- An attempt ends and nothing has arrived. -/
  | unanswered (status : Status)
  | failed (status : Status)
  /-- A datagram is taken for the answer. -/
  | parsed (bytes : Bytes)
  /-- The lookup is switched to TCP because of a datagram. -/
  | switched (bytes : Bytes)
  | completed (result : Status)
  | invoked (result : Status) (response : Response)
  deriving DecidableEq

structure Client where
  config : ClientConfig
  nextId : UInt16
  queryId : UInt16 := 0
  query : Bytes := []
  server : Endpoint := {}
  asyncName : Bytes := []
  asyncType : RecordType := RecordType.a
  attempts : UInt16 := 0
  lastAttemptMs : UInt32 := 0
  tcpStartedMs : UInt32 := 0
  tcpQueryOffset : ℕ := 0
  /-- the bytes of the length prefix and of the message that have arrived -/
  tcpPrefix : Bytes := []
  tcpMessage : Bytes := []
  tcpMessageSize : ℕ := 0
  state : AsyncState := .idle
  response : Response
  lastStatus : Status := .notConfigured
  callback : Bool
  log : List Event := []
  deriving DecidableEq

def dnsPeer (nameserver : Endpoint) : Endpoint :=
  let port := if nameserver.port = 0 then 53 else nameserver.port
  match nameserver.family with
  | .ipv4 => ⟨nameserver.address, .ipv4, port, 0⟩
  | .ipv6 => ⟨nameserver.address, .ipv6, port, nameserver.scopeId⟩

def prepareUdp (socket : UdpSocket) (family : AddressFamily) : Status :=
  if socket.isOpen && socket.family ≠ family then
    if socket.closed ≠ .ok ∧ socket.closed ≠ .notConfigured then socket.closed else socket.opened
  else if !socket.isOpen then socket.opened
  else socket.nonblocking

def parseAndValidate (maxRecords : ℕ) (data : Bytes) (id : UInt16) (name : Bytes) (type : RecordType)
    (output : Response) : Status × Response :=
  match parseResponse data id maxRecords output with
  | (.ok, output) =>
    if !sameName name output.questionName || output.questionType ≠ type || output.questionClass ≠ internet then
      (.invalidArgument, output)
    else if output.truncated then (.dataLoss, output)
    else if output.rcode = nameError then (.notFound, output)
    else if output.rcode = formatError then (.invalidArgument, output)
    else if output.rcode ≠ noError then (.unknownError, output)
    else (.ok, output)
  | failure => failure

/-- What the client makes of the answer of `receive_from`. A datagram that is larger than the
buffer (`data_loss`) is larger than the limit too. -/
inductive Reading where
  | nothing
  | failed (status : Status)
  | elsewhere
  | truncated (bytes : Bytes)
  | message (bytes : Bytes)
  deriving DecidableEq

def readDatagram (server : Endpoint) : Received → Reading
  | .failed .empty => .nothing
  | .failed status => .failed status
  | .datagram source bytes =>
    if source ≠ server then .elsewhere
    else if bytes.length > classicUdpLimit || isTruncatedPacket bytes then .truncated bytes
    else .message bytes

namespace Client

variable (cap : ClientCapacity)

def init (config : ClientConfig) (callback : Bool) : Client where
  config := config
  nextId := config.transactionIdSeed
  response := .init cap.maxRecords
  callback := callback

def configure (c : Client) (config : ClientConfig) : Client :=
  { c with
    config := { config with timeoutMs := if config.timeoutMs = 0 then 1 else config.timeoutMs }
    nextId := config.transactionIdSeed }

variable (c : Client)

def record (event : Event) : Client := { c with log := c.log ++ [event] }

def busy : Bool := c.state ≠ .idle

def effectiveTimeout : UInt32 :=
  if c.config.timeoutMs = 0 then 1
  else if c.config.timeoutMs > 0x7fffffff then 0x7fffffff
  else c.config.timeoutMs

/-- The loop of `receive_exact`, with the bytes that have arrived. After the last answer nothing
arrives. -/
def receiveExact (wanted : ℕ) : List TcpReceive → Bytes → Status × Bytes × List TcpReceive
  | [], bytes => (if bytes.length < wanted then .timeOut else .ok, bytes, [])
  | answer :: answers, bytes =>
    if wanted ≤ bytes.length then (.ok, bytes, answer :: answers)
    else if answer.ready ≠ .ok then (answer.ready, bytes, answers)
    else
      let received := answer.bytes.take (wanted - bytes.length)
      let bytes := bytes ++ received
      if answer.peerClosed then (.dataLoss, bytes, answers)
      else if answer.result ≠ .ok ∧ answer.result ≠ .empty then (answer.result, bytes, answers)
      else if received = [] ∧ answer.result = .empty then (.timeOut, bytes, answers)
      else receiveExact wanted answers bytes

def prefixSize (bytes : Bytes) : ℕ := readByte bytes 0 * 256 + readByte bytes 1

def resolveTcp (id : UInt16) (name : Bytes) (type : RecordType) (answers : TcpAnswers)
    (output : Response) :
    Status × Response :=
  let connected := if answers.connected = .timeOut then answers.finished else answers.connected
  if connected ≠ .ok then (connected, output)
  else if answers.sent.status ≠ .ok then (answers.sent.status, output)
  else if !answers.sent.complete then (.dataLoss, output)
  else
    match receiveExact 2 answers.received [] with
    | (.ok, sizeBytes, rest) =>
      let size := prefixSize sizeBytes
      if size < headerSize ∨ size > cap.tcpMessageCapacity then (.full, output)
      else
        match receiveExact size rest [] with
        | (.ok, message, _) => parseAndValidate cap.maxRecords message id name type output
        | (result, _, _) => (result, output)
    | (result, _, _) => (result, output)

/-- The attempts of `resolve` that are left. -/
def resolveLoop (peer : Endpoint) (id : UInt16) (name : Bytes) (type : RecordType) (tcp : TcpAnswers) :
    ℕ → List SendResult → List Wait → Response → Client → Status × Response × Client
  | 0, _, _, output, c => (.timeOut, output, c)
  | left + 1, sends, waits, output, c =>
    let sent := sends.headD {}
    let wait := waits.headD { ready := .timeOut }
    let c := c.record .query
    if sent.status ≠ .ok then (sent.status, output, c)
    else if !sent.complete then (.dataLoss, output, c)
    else if wait.ready = .timeOut then
      resolveLoop peer id name type tcp left sends.tail waits.tail output (c.record (.unanswered .timeOut))
    else if wait.ready ≠ .ok then (wait.ready, output, c.record (.failed wait.ready))
    else
      match readDatagram peer wait.received with
      | .nothing =>
        resolveLoop peer id name type tcp left sends.tail waits.tail output (c.record (.unanswered .empty))
      | .failed result => (result, output, c.record (.failed result))
      | .elsewhere => resolveLoop peer id name type tcp left sends.tail waits.tail output c
      | .truncated bytes =>
        let (result, output) := resolveTcp cap id name type tcp output
        (result, output, c.record (.switched bytes))
      | .message bytes =>
        let (result, output) := parseAndValidate cap.maxRecords bytes id name type output
        (result, output, c.record (.parsed bytes))

def resolve (nameserver : Endpoint) (name : Bytes) (type : RecordType) (answers : ResolveAnswers)
    (output : Response) : Status × Response × Client :=
  if c.busy then (.invalidConfig, output, c)
  else
    let output := output.clear
    let id := c.nextId
    let c := { c with nextId := c.nextId + 1 }
    match encodeQuery name type id 512 with
    | .error result => (result, output, c)
    | .ok query =>
      let c := { c with query := query }
      let peer := dnsPeer nameserver
      let prepared := prepareUdp answers.socket peer.family
      if prepared ≠ .ok then (prepared, output, c)
      else
        resolveLoop cap peer id name type answers.tcp (c.config.retries.toNat + 1) answers.sends answers.waits output c

def complete (result : Status) : Status × Client :=
  let c := { c with state := .idle, lastStatus := result }.record (.completed result)
  (result, if c.callback then c.record (.invoked result c.response) else c)

def sendUdpQuery (sent : SendResult) : Status × Client :=
  (if sent.status ≠ .ok then sent.status else if sent.complete then .ok else .dataLoss, c.record .query)

def startResolve (nameserver : Endpoint) (name : Bytes) (type : RecordType) (now : UInt32)
    (socket : UdpSocket) (sent : SendResult) : Status × Client :=
  if c.busy then (.invalidConfig, c)
  else
    let c := { c with
      response := c.response.clear
      server := dnsPeer nameserver
      queryId := c.nextId
      nextId := c.nextId + 1 }
    match encodeQuery name type c.queryId 512 with
    | .error result => (result, { c with query := [] })
    | .ok query =>
      let c := { c with query := query }
      if name.length ≥ textCapacity then (.outOfRange, c)
      else
        let c := { c with asyncName := name }
        let prepared := prepareUdp socket c.server.family
        if prepared ≠ .ok then (prepared, c)
        else
          match c.sendUdpQuery sent with
          | (.ok, c) =>
            (.ok, { c with
              attempts := 1
              lastAttemptMs := now
              asyncType := type
              state := .udpWait
              lastStatus := .empty })
          | failure => failure

def beginTcpAsync (now : UInt32) (connected : Status) : Status × Client :=
  let c := { c with tcpStartedMs := now, tcpQueryOffset := 0 }
  if connected = .timeOut then (.ok, { c with state := .tcpConnect })
  else if connected ≠ .ok then c.complete connected
  else (.ok, { c with state := .tcpSend })

/-- The deadline of the attempt has passed. -/
def attemptOver (now : UInt32) : Bool := !(now - c.lastAttemptMs < c.effectiveTimeout)

/-- `poll` when nothing has arrived. -/
def pollNothing (now : UInt32) (sent : SendResult) : Status × Client :=
  if !c.attemptOver now then (.empty, c)
  else if c.attempts.toNat ≤ c.config.retries.toNat then
    match c.sendUdpQuery sent with
    | (.ok, c) => (.ok, { c with attempts := c.attempts + 1, lastAttemptMs := now })
    | (result, c) => c.complete result
  else c.complete .timeOut

/-- `poll` while the answer to a datagram is outstanding. -/
def pollUdp (now : UInt32) (answers : PollAnswers) : Status × Client :=
  match readDatagram c.server answers.received with
  | .nothing => c.pollNothing now answers.sent
  | .failed result => (c.record (.failed result)).complete result
  | .elsewhere => (.empty, c)
  | .truncated bytes => (c.record (.switched bytes)).beginTcpAsync now answers.connected
  | .message bytes =>
    let (result, response) := parseAndValidate cap.maxRecords bytes c.queryId c.asyncName c.asyncType c.response
    ({ c with response := response }.record (.parsed bytes)).complete result

def receiveAsyncBytes (wanted : ℕ) (answer : TcpReceive) : Status × Bytes :=
  (if answer.peerClosed then .dataLoss
    else if answer.result = .empty ∨ answer.result = .full then .empty
    else answer.result, answer.bytes.take wanted)

/-- `poll` while the lookup uses TCP. -/
def pollTcp (answers : PollAnswers) : Status × Client :=
  match c.state with
  | .tcpConnect =>
    if [.timeOut, .full, .empty].contains answers.finished then (.empty, c)
    else if answers.finished ≠ .ok then c.complete answers.finished
    else (.ok, { c with state := .tcpSend })
  | .tcpSend =>
    let (result, size) := answers.sentSome
    let c := { c with tcpQueryOffset := c.tcpQueryOffset + size }
    if result = .full ∨ result = .empty then (.empty, c)
    else if result ≠ .ok then c.complete result
    else if c.tcpQueryOffset = c.query.length + 2 then (.ok, { c with tcpPrefix := [], state := .tcpPrefix })
    else (.ok, c)
  | .tcpPrefix =>
    let (result, bytes) := receiveAsyncBytes (2 - c.tcpPrefix.length) answers.receivedSome
    let c := { c with tcpPrefix := c.tcpPrefix ++ bytes }
    if result = .empty then (.empty, c)
    else if result ≠ .ok then c.complete result
    else if c.tcpPrefix.length = 2 then
      let size := prefixSize c.tcpPrefix
      let c := { c with tcpMessageSize := size }
      if size < headerSize ∨ size > cap.tcpMessageCapacity then c.complete .full
      else (.ok, { c with tcpMessage := [], state := .tcpBody })
    else (.ok, c)
  | _ =>
    let (result, bytes) := receiveAsyncBytes (c.tcpMessageSize - c.tcpMessage.length) answers.receivedSome
    let c := { c with tcpMessage := c.tcpMessage ++ bytes }
    if result = .empty then (.empty, c)
    else if result ≠ .ok then c.complete result
    else if c.tcpMessage.length = c.tcpMessageSize then
      let (result, response) :=
        parseAndValidate cap.maxRecords c.tcpMessage c.queryId c.asyncName c.asyncType c.response
      { c with response := response }.complete result
    else (.ok, c)

def poll (now : UInt32) (answers : PollAnswers) : Status × Client :=
  match c.state with
  | .idle => (.notConfigured, c)
  | .udpWait => c.pollUdp cap now answers
  | _ =>
    if c.effectiveTimeout ≤ now - c.tcpStartedMs then c.complete .timeOut
    else c.pollTcp cap answers

end Client
end Castle.Dns
