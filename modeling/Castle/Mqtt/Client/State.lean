import Castle.Lib.Table
import Castle.Mqtt.Topic
import Castle.Mqtt.Types

/-!
# The client's members and senders (`client.hpp`)

The TCP client is its open flag; what the socket answers to a send is the next
entry of `sendResults` (an empty list answers `ok`). What the application does
inside a message callback is the next entry of `callbackScript` (an empty list
does nothing). `trace` records what happened on the connection.
-/

namespace Castle.Mqtt

/-- The template parameters with their static assertions. -/
structure ClientConfig where
  receiveBufferSize : ℕ := 512
  maxPacketSize : ℕ := 1024
  maxOutstanding : ℕ := 8
  maxTopicLength : ℕ := 128
  maxPayloadSize : ℕ := 512
  properties : PropertyLimits := ⟨8, 64, 32⟩
  buffers_ge : 0 < receiveBufferSize ∧ 8 ≤ maxPacketSize := by decide
  capacities_pos : 0 < maxOutstanding ∧ 1 < maxTopicLength := by decide

inductive ClientOutgoingState where
  | awaitPuback | awaitPubrec | awaitPubcomp
  deriving DecidableEq, Repr, Inhabited

/-- The answer that a PUBLISH with this quality waits for first. -/
def ClientOutgoingState.first (quality : Qos) : ClientOutgoingState :=
  if quality = .atLeastOnce then .awaitPuback else .awaitPubrec

structure OutgoingEntry where
  used : Bool := false
  identifier : UInt16 := 0
  quality : Qos := .atLeastOnce
  state : ClientOutgoingState := .awaitPuback
  topic : Bytes := []
  payload : Bytes := []
  retain : Bool := false
  deriving DecidableEq, Inhabited

structure IncomingEntry where
  used : Bool := false
  identifier : UInt16 := 0
  topic : Bytes := []
  payload : Bytes := []
  retain : Bool := false
  deriving DecidableEq, Inhabited

structure PendingRequest where
  used : Bool := false
  identifier : UInt16 := 0
  type : PacketType := .reserved
  deriving DecidableEq, Inhabited

instance : Slot OutgoingEntry UInt16 := ⟨OutgoingEntry.used, OutgoingEntry.identifier⟩
instance : Slot IncomingEntry UInt16 := ⟨IncomingEntry.used, IncomingEntry.identifier⟩
instance : Slot PendingRequest UInt16 := ⟨PendingRequest.used, PendingRequest.identifier⟩

structure WillOptions where
  topic : Bytes := []
  payload : Bytes := []
  quality : Qos := .atMostOnce
  retain : Bool := false
  deriving DecidableEq

structure ConnectOptions where
  /-- the wire level: 3, 4 or 5 -/
  protocolVersion : UInt8 := 4
  clientId : Bytes := [0x63, 0x61, 0x73, 0x74, 0x6C, 0x65, 0x2D, 0x63, 0x6C, 0x69, 0x65, 0x6E, 0x74]
  cleanSession : Bool := true
  keepAliveSeconds : UInt16 := 30
  hasWill : Bool := false
  will : WillOptions := {}
  username : Bytes := []
  password : Bytes := []
  hasUsername : Bool := false
  hasPassword : Bool := false
  properties : List Property := []
  willProperties : List Property := []
  deriving DecidableEq

/-- A call the application may make on the client from inside its message
callback. `transportOpen` is what it does to the socket through `transport()`. -/
inductive ApiCall where
  | publish (topic payload : Bytes) (quality : Qos) (retain : Bool)
  | subscribe (filters : List (Bytes × Qos))
  | unsubscribe (filters : List Bytes)
  | poll (now : UInt32)
  | disconnect (reason : ReasonCode)
  | forceClose
  | connect (options : ConnectOptions) (tcp : Status)
  | setMessageCallback
  | clearMessageCallback
  | transportOpen (value : Bool)
  deriving DecidableEq

inductive ClientEvent where
  /-- TCP was connected for a new MQTT connection -/
  | opened
  /-- a CONNACK with this return code was processed -/
  | connack (code : UInt8)
  | sent (type : PacketType) (frame : Bytes) (result : Status)
  | delivered (message : MessageView)
  deriving DecidableEq

def ClientEvent.isSent : ClientEvent → Bool
  | .sent .. => true
  | _ => false

structure Client (cfg : ClientConfig) where
  transportOpen : Bool := false
  hasCallback : Bool := false
  /-- a `set` or `clear` of the callback deferred until the running one returns -/
  deferredCallback : Option Bool := none
  options : ConnectOptions := {}
  outgoing : Table cfg.maxOutstanding OutgoingEntry := .replicate _ {}
  incoming : Table cfg.maxOutstanding IncomingEntry := .replicate _ {}
  requests : Table cfg.maxOutstanding PendingRequest := .replicate _ {}
  rx : Table (cfg.maxPacketSize + cfg.receiveBufferSize) UInt8 := .replicate _ 0
  rxSize : ℕ := 0
  nextIdentifier : UInt16 := 0
  lastAcknowledgedId : UInt16 := 0
  nowMs : UInt32 := 0
  lastTxMs : UInt32 := 0
  lastRxMs : UInt32 := 0
  pingSentMs : UInt32 := 0
  connecting : Bool := false
  connected : Bool := false
  sessionPresent : Bool := false
  pingOutstanding : Bool := false
  clockStarted : Bool := false
  fatal : Bool := false
  lastError : Status := .ok
  sendResults : List Status := []
  callbackScript : List (List ApiCall) := []
  trace : List ClientEvent := []
  deriving DecidableEq

namespace Client

variable {cfg : ClientConfig} (c : Client cfg)

def record (event : ClientEvent) : Client cfg := { c with trace := c.trace ++ [event] }

def setLastError (status : Status) : Client cfg := { c with lastError := status }

def sendBody (type : PacketType) (flags : UInt8) (body : Bytes) : Status × Client cfg :=
  match encodePacket type flags body cfg.maxPacketSize with
  | .error status => (status, c)
  | .ok frame =>
    if !c.transportOpen then (.notConfigured, c.setLastError .notConfigured)
    else
      let result := c.sendResults.headD .ok
      let c := { c with sendResults := c.sendResults.tail }.record (.sent type frame result)
      if result = .ok then (.ok, { c with lastTxMs := c.nowMs })
      else (result, c.setLastError result)

theorem sendBody_spec (type : PacketType) (flags : UInt8) (body : Bytes) :
    ((c.sendBody type flags body).1 ≠ .ok ∧ (c.sendBody type flags body).2.trace = c.trace) ∨
      ∃ frame, encodePacket type flags body cfg.maxPacketSize = .ok frame ∧
        c.transportOpen = true ∧ (c.sendBody type flags body).2.trace =
          c.trace ++ [.sent type frame (c.sendBody type flags body).1] := by
  unfold sendBody
  split
  next status he => exact .inl ⟨encodePacket_error_ne_ok he, rfl⟩
  next frame he =>
  by_cases hopen : c.transportOpen = true
  · right
    refine ⟨frame, he, hopen, ?_⟩
    simp only [hopen, Bool.not_true, Bool.false_eq_true, if_false]
    split
    next hr => simp only [record, hr]
    · rfl
  · left
    simp only [hopen, Bool.not_false, if_true]
    exact ⟨by decide, rfl⟩

def publishBody (cfg : ClientConfig) (version : UInt8) (topic payload : Bytes) (quality : Qos)
    (identifier : UInt16) : PacketWriter :=
  let body := ({ capacity := cfg.maxPacketSize } : PacketWriter).putUtf8 topic
  let body := if quality ≠ .atMostOnce then body.putU16 identifier else body
  let body := if version = 5 then body.putU8 0 else body
  body.putBytes payload

def publishFlags (quality : Qos) (retain duplicate : Bool) : UInt8 :=
  UInt8.ofNat (quality.toNat * 2) ||| (if retain then 0x01 else 0) |||
    (if duplicate then 0x08 else 0)

def sendPublish (topic payload : Bytes) (quality : Qos) (retain : Bool) (identifier : UInt16)
    (duplicate : Bool) : Status × Client cfg :=
  let body :=
    publishBody cfg c.options.protocolVersion topic payload quality identifier
  if body.status ≠ .ok then (body.status, c)
  else c.sendBody .publish (publishFlags quality retain duplicate) body.data

def sendIdentifier (type : PacketType) (identifier : UInt16) (duplicate : Bool) :
    Status × Client cfg :=
  let body := ({ capacity := cfg.maxPacketSize } : PacketWriter).putU16 identifier
  let body :=
    if c.options.protocolVersion = 5 ∧ type = .pubrel then (body.putU8 0).putU8 0 else body
  let flags : UInt8 := if type = .pubrel then (if duplicate then 0x0A else 0x02) else 0
  c.sendBody type flags body.data

/-- `c'` is `c` after sends: only the socket, the time of the last send, the last
error and the trace have moved on, and frames went to an open socket. -/
def SendsOnly (c c' : Client cfg) : Prop :=
  ∃ sendResults frames lastTxMs lastError,
    c' = { c with sendResults, trace := c.trace ++ frames, lastTxMs, lastError } ∧
      ∀ e ∈ frames, e.isSent = true ∧ c.transportOpen = true

theorem SendsOnly.refl : SendsOnly c c := ⟨c.sendResults, [], c.lastTxMs, c.lastError, by simp⟩

theorem SendsOnly.trans {c₁ c₂ c₃ : Client cfg} (h : SendsOnly c₁ c₂) (h' : SendsOnly c₂ c₃) :
    SendsOnly c₁ c₃ := by
  obtain ⟨_, frames, _, _, rfl, hf⟩ := h
  obtain ⟨_, frames', _, _, rfl, hf'⟩ := h'
  refine ⟨_, frames ++ frames', _, _, by rw [← List.append_assoc], fun e he => ?_⟩
  exact (List.mem_append.mp he).elim (hf e) (hf' e)

theorem sendBody_sendsOnly (type : PacketType) (flags : UInt8) (body : Bytes) :
    SendsOnly c (c.sendBody type flags body).2 := by
  unfold sendBody
  split
  · exact SendsOnly.refl c
  next frame _ =>
  have hframe (result : Status) : ∀ e ∈ [ClientEvent.sent type frame result],
      e.isSent = true := by simp [ClientEvent.isSent]
  dsimp only
  split
  · exact ⟨c.sendResults, [], c.lastTxMs, .notConfigured, by simp [setLastError]⟩
  next hopen =>
  have hopen : c.transportOpen = true := by simpa using hopen
  split
  · exact ⟨_, _, _, _, rfl, fun e he => ⟨hframe _ e he, hopen⟩⟩
  · exact ⟨_, _, _, _, rfl, fun e he => ⟨hframe _ e he, hopen⟩⟩

theorem sendPublish_sendsOnly (topic payload : Bytes) (quality : Qos) (retain : Bool)
    (identifier : UInt16) (duplicate : Bool) :
    SendsOnly c (c.sendPublish topic payload quality retain identifier duplicate).2 := by
  unfold sendPublish
  dsimp only
  split_ifs
  · exact SendsOnly.refl c
  · exact c.sendBody_sendsOnly ..

theorem sendIdentifier_sendsOnly (type : PacketType) (identifier : UInt16) (duplicate : Bool) :
    SendsOnly c (c.sendIdentifier type identifier duplicate).2 :=
  c.sendBody_sendsOnly ..

def identifierInUse (id : UInt16) : Bool :=
  (c.outgoing.firstIdx fun e => e.used && e.identifier = id).isSome ||
    (c.requests.firstIdx fun r => r.used && r.identifier = id).isSome

def allocateIdentifier : UInt16 × Client cfg :=
  let search := searchIdentifier c.identifierInUse 65535 c.nextIdentifier
  (if search.2 then search.1 else 0, { c with nextIdentifier := search.1 })

def allocateOutgoing : Option (Fin cfg.maxOutstanding × UInt16) × Client cfg :=
  match c.outgoing.firstIdx fun e => !e.used with
  | none => (none, c)
  | some k =>
    let (identifier, c) := c.allocateIdentifier
    (if identifier = 0 then none else some (k, identifier), c)

def storeRequest (k : Fin cfg.maxOutstanding) (request : PendingRequest) : Client cfg :=
  { c with requests := c.requests.set k request }

def reserveRequest (identifier : UInt16) (type : PacketType) : Bool × Client cfg :=
  match c.requests.firstIdx fun r => !r.used with
  | some k => (true, c.storeRequest k ⟨true, identifier, type⟩)
  | none => (false, c)

def findRequest (identifier : UInt16) (type : PacketType) : Option (Fin cfg.maxOutstanding) :=
  c.requests.firstIdx fun r => r.used && r.identifier = identifier && r.type = type

def findOutgoing (id : UInt16) : Option (Fin cfg.maxOutstanding) :=
  c.outgoing.firstIdx fun e => e.used && e.identifier = id

def findIncoming (id : UInt16) : Option (Fin cfg.maxOutstanding) :=
  c.incoming.firstIdx fun e => e.used && e.identifier = id

def allocateIncoming : Option (Fin cfg.maxOutstanding) := c.incoming.firstIdx fun e => !e.used

def storeOutgoing (k : Fin cfg.maxOutstanding) (entry : OutgoingEntry) : Client cfg :=
  { c with outgoing := c.outgoing.set k entry }

def storeIncoming (k : Fin cfg.maxOutstanding) (entry : IncomingEntry) : Client cfg :=
  { c with incoming := c.incoming.set k entry }

def releaseOutgoing (k : Fin cfg.maxOutstanding) : Client cfg :=
  { c with outgoing := c.outgoing.modify k fun e => { e with used := false } }

/-- A PUBREC moves its entry on. -/
def awaitPubcomp (k : Fin cfg.maxOutstanding) : Client cfg :=
  { c with outgoing := c.outgoing.modify k fun e => { e with state := .awaitPubcomp } }

def releaseRequest (k : Fin cfg.maxOutstanding) : Client cfg :=
  { c with requests := c.requests.modify k fun r => { r with used := false } }

def releaseIncoming (k : Fin cfg.maxOutstanding) : Client cfg :=
  { c with incoming := c.incoming.modify k fun e => { e with used := false } }

def clearOutgoing : Client cfg :=
  { c with outgoing := c.outgoing.map fun e => { e with used := false } }

def clearIncoming : Client cfg :=
  { c with incoming := c.incoming.map fun e => { e with used := false } }

def clearRequests : Client cfg :=
  { c with requests := c.requests.map fun r => { r with used := false } }

end Client

/-!
## The client's calls (`client.hpp`)

`connect` and `poll` are cut at `transport_.process_once`, which is rejected with
`invalid_config` while a receive callback runs. `runCall` is a call made from
inside the message callback.
-/

namespace Client

variable {cfg : ClientConfig} (c : Client cfg)

def publish (topic payload : Bytes) (quality : Qos) (retain : Bool) : Status × Client cfg :=
  if !c.connected then (.notConfigured, c)
  else if validateTopicName topic ≠ .ok then (.invalidArgument, c)
  else if cfg.maxTopicLength ≤ topic.length ∨ cfg.maxPayloadSize < payload.length then
    (.outOfRange, c)
  else if quality = .atMostOnce then c.sendPublish topic payload quality retain 0 false
  else
    match c.allocateOutgoing with
    | (none, c) => (.full, c)
    | (some (k, identifier), c) =>
      let entry : OutgoingEntry :=
        { used := true
          identifier, quality
          state := .first quality
          topic := cstr topic, payload, retain }
      let (result, c) := (c.storeOutgoing k entry).sendPublish topic payload quality retain identifier false
      (result, if result ≠ .ok then c.releaseOutgoing k else c)

/-- The body that `subscribe` and `unsubscribe` write: each filter with its option
bytes. -/
def putFilters : PacketWriter → List (Bytes × Bytes) → Except Status PacketWriter
  | body, [] => .ok body
  | body, (filter, options) :: filters =>
    if validateTopicFilter filter ≠ .ok then .error .invalidArgument
    else putFilters (options.foldl PacketWriter.putU8 (body.putUtf8 filter)) filters

/-- The body of a SUBSCRIBE or UNSUBSCRIBE packet. -/
def requestBody (cfg : ClientConfig) (version : UInt8) (id : UInt16)
    (filters : List (Bytes × Bytes)) : Except Status PacketWriter :=
  let body := ({ capacity := cfg.maxPacketSize } : PacketWriter).putU16 id
  let body := if version = 5 then body.putU8 0 else body
  if body.status ≠ .ok then .error body.status
  else
    match putFilters body filters with
    | .error status => .error status
    | .ok body => if body.status ≠ .ok then .error body.status else .ok body

/-- The common part of `subscribe` and `unsubscribe`: the status, the packet
identifier and the client. -/
def sendRequest (type : PacketType) (filters : List (Bytes × Bytes)) :
    Status × UInt16 × Client cfg :=
  if !c.connected then (.notConfigured, 0, c)
  else if filters = [] then (.invalidArgument, 0, c)
  else
    let (id, c) := c.allocateIdentifier
    if id = 0 then (.full, 0, c)
    else
      match requestBody cfg c.options.protocolVersion id filters with
      | .error status => (status, 0, c)
      | .ok body =>
        match c.reserveRequest id type with
        | (false, c) => (.full, 0, c)
        | (true, c) =>
          let (result, c) := c.sendBody type 0x02 body.data
          if result = .ok then (.ok, id, c)
          else
            match c.findRequest id type with
            | some k => (result, 0, c.releaseRequest k)
            | none => (result, 0, c)

def subscribe (filters : List (Bytes × Qos)) : Status × UInt16 × Client cfg :=
  c.sendRequest .subscribe (filters.map fun f => (f.1, [UInt8.ofNat f.2.toNat]))

def unsubscribe (filters : List Bytes) : Status × UInt16 × Client cfg :=
  c.sendRequest .unsubscribe (filters.map fun f => (f, []))

/-- `force_close`; the status is that of closing the socket. -/
def forceClose : Client cfg :=
  { c with
    connected := false
    connecting := false
    clockStarted := false
    pingOutstanding := false
    rxSize := 0
    transportOpen := false }

/-- The DISCONNECT packet of `disconnect`, which only a connected client sends. -/
def sendDisconnect (reason : ReasonCode) : Status × Client cfg :=
  if c.connected then
    let body : PacketWriter := { capacity := cfg.maxPacketSize }
    let body :=
      if c.options.protocolVersion = 5 ∧ reason ≠ ReasonCode.normalDisconnection then
        (body.putU8 reason).putU8 0
      else body
    c.sendBody .disconnect 0 body.data
  else (.ok, c)

theorem sendDisconnect_sendsOnly (reason : ReasonCode) :
    SendsOnly c (c.sendDisconnect reason).2 := by
  unfold sendDisconnect
  split
  · exact c.sendBody_sendsOnly ..
  · exact SendsOnly.refl c

def disconnect (reason : ReasonCode) : Status × Client cfg :=
  if !c.transportOpen then (.notConfigured, c)
  else
    let (result, c) := c.sendDisconnect reason
    (result, c.forceClose)

def validateConnectOptions (cfg : ClientConfig) (o : ConnectOptions) : Status :=
  if o.protocolVersion ≠ 3 ∧ o.protocolVersion ≠ 4 ∧ o.protocolVersion ≠ 5 then .invalidArgument
  else if o.clientId = [] ∨ cfg.maxTopicLength ≤ o.clientId.length ∨ validUtf8 o.clientId = false then
    .invalidArgument
  else if (o.hasPassword ∧ o.hasUsername = false) ∨
      (o.hasUsername ∧ (cfg.maxTopicLength ≤ o.username.length ∨ validUtf8 o.username = false)) ∨
      (o.hasPassword ∧ (cfg.maxTopicLength ≤ o.password.length ∨ validUtf8 o.password = false)) then
    .invalidArgument
  else if o.hasWill ∧
      (validateTopicName o.will.topic ≠ .ok ∨ cfg.maxPayloadSize < o.will.payload.length) then
    .invalidArgument
  else .ok

def appendProperties (cfg : ClientConfig) (body : PacketWriter) (properties : List Property) :
    Except Status PacketWriter :=
  match encodeProperties cfg.properties properties cfg.maxPacketSize with
  | .error status => .error status
  | .ok encoded =>
    let body := body.putBytes encoded
    if body.status ≠ .ok then .error body.status else .ok body

def connectFlags (o : ConnectOptions) : UInt8 :=
  (if o.cleanSession then 0x02 else 0) |||
    (if o.hasWill then
      0x04 ||| UInt8.ofNat (o.will.quality.toNat * 8) ||| (if o.will.retain then 0x20 else 0)
    else 0) |||
    (if o.hasUsername then 0x80 else 0) ||| (if o.hasPassword then 0x40 else 0)

def connectBody (cfg : ClientConfig) (o : ConnectOptions) : Except Status PacketWriter := do
  let body := ({ capacity := cfg.maxPacketSize } : PacketWriter).putUtf8
    (if o.protocolVersion = 3 then [0x4D, 0x51, 0x49, 0x73, 0x64, 0x70]
    else [0x4D, 0x51, 0x54, 0x54])
  let body := ((body.putU8 o.protocolVersion).putU8 (connectFlags o)).putU16 o.keepAliveSeconds
  let body ← if o.protocolVersion = 5 then appendProperties cfg body o.properties else .ok body
  let body := body.putUtf8 o.clientId
  let body ←
    if o.hasWill then do
      let body ← if o.protocolVersion = 5 then appendProperties cfg body o.willProperties else .ok body
      .ok ((body.putUtf8 o.will.topic).putBinary o.will.payload)
    else .ok body
  let body := if o.hasUsername then body.putUtf8 o.username else body
  let body := if o.hasPassword then body.putBinary o.password else body
  if body.status ≠ .ok then .error body.status else .ok body

def sendConnect : Status × Client cfg :=
  match connectBody cfg c.options with
  | .error status => (status, c)
  | .ok body => c.sendBody .connect 0 body.data

theorem sendConnect_sendsOnly : SendsOnly c c.sendConnect.2 := by
  unfold sendConnect
  split
  · exact SendsOnly.refl c
  · exact c.sendBody_sendsOnly ..

/-- The members that `connect` resets before it connects the socket. -/
def startConnecting (options : ConnectOptions) : Client cfg :=
  let c := { c with options }
  let c := if options.cleanSession then c.clearOutgoing.clearIncoming.clearRequests else c
  { c with
    rxSize := 0, fatal := false, connecting := true, connected := false
    clockStarted := false, lastError := .ok }

/-- The TCP connection is established. -/
def openTransport : Client cfg := { c with transportOpen := true }.record .opened

/-- `connect` up to its receive loop; `tcp` is the answer of the TCP connect, and a
status ends the call. -/
def connectBegin (options : ConnectOptions) (tcp : Status) : Option Status × Client cfg :=
  if c.transportOpen then (some .invalidConfig, c)
  else
    let valid := validateConnectOptions cfg options
    if valid ≠ .ok then (some valid, c.setLastError valid)
    else
      let c := c.startConnecting options
      if tcp ≠ .ok then (some tcp, { c with connecting := false }.setLastError tcp)
      else
        let (result, c) := c.openTransport.sendConnect
        if result ≠ .ok then (some result, c.forceClose.setLastError result) else (none, c)

/-- One turn of the receive loop after `process_once` answered `result`. -/
def connectTurn (result : Status) : Option Status × Client cfg :=
  if c.fatal then (some c.lastError, c.forceClose)
  else if result = .timeOut ∨ result = .empty then (some .timeOut, c.forceClose.setLastError .timeOut)
  else if result ≠ .ok then (some result, c.forceClose.setLastError result)
  else (none, c)

/-- The body of the loop of `resend_outgoing`. -/
def resendEntry (c : Client cfg) (k : Fin cfg.maxOutstanding) : Client cfg :=
  let entry := c.outgoing.get k
  if !entry.used then c
  else if entry.state = .awaitPubcomp then
    let body := writeBe16 entry.identifier
    let body := if c.options.protocolVersion = 5 then body ++ [0] else body
    (c.sendBody .pubrel 0x0A body).2
  else
    (c.sendPublish entry.topic entry.payload entry.quality entry.retain entry.identifier true).2

theorem resendEntry_sendsOnly (k : Fin cfg.maxOutstanding) : SendsOnly c (resendEntry c k) := by
  unfold resendEntry
  dsimp only
  split
  · exact SendsOnly.refl c
  · split
    · exact c.sendBody_sendsOnly ..
    · exact c.sendPublish_sendsOnly ..

def resendOutgoing : Client cfg := (List.finRange cfg.maxOutstanding).foldl resendEntry c

theorem resendOutgoing_sendsOnly : SendsOnly c c.resendOutgoing :=
  List.foldlRecOn (List.finRange cfg.maxOutstanding) resendEntry (SendsOnly.refl c)
    fun d hd k _ => hd.trans (d.resendEntry_sendsOnly k)

/-- `connect` behind its receive loop. -/
def connectEnd (options : ConnectOptions) : Status × Client cfg :=
  if !c.connected then (.invalidArgument, c.forceClose.setLastError .invalidArgument)
  else if c.sessionPresent && !options.cleanSession then (.ok, c.resendOutgoing)
  else (.ok, c.clearOutgoing.clearIncoming)

/-- `poll` up to `process_once`. -/
def pollBegin (now : UInt32) : Client cfg :=
  let c := { c with nowMs := now }
  if !c.clockStarted then { c with lastTxMs := now, lastRxMs := now, clockStarted := true } else c

/-- The keep-alive block of `poll`; `result` is returned when no deadline passed. -/
def checkKeepAlive (result : Status) : Status × Client cfg :=
  let keepAliveMs := c.options.keepAliveSeconds.toUInt32 * 1000
  if c.connected && c.options.keepAliveSeconds ≠ 0 then
    if !c.pingOutstanding && c.nowMs - c.lastTxMs ≥ keepAliveMs then
      let (ping, c) := c.sendBody .pingreq 0 []
      if ping ≠ .ok then (ping, c)
      else (result, { c with pingOutstanding := true, pingSentMs := c.nowMs })
    else if c.pingOutstanding && c.nowMs - c.pingSentMs > keepAliveMs then
      (.timeOut, c.forceClose.setLastError .timeOut)
    else (result, c)
  else (result, c)

/-- `poll` after `process_once` answered `result`. -/
def pollEnd (result : Status) : Status × Client cfg :=
  if c.fatal then (c.lastError, c.forceClose)
  else if result = .notConfigured then (result, { c with connected := false })
  else if result ≠ .ok ∧ result ≠ .empty ∧ result ≠ .timeOut then (result, c.setLastError result)
  else c.checkKeepAlive (if result = .timeOut then .empty else result)

/-- `poll` while a receive callback runs. -/
def nestedPoll (now : UInt32) : Client cfg :=
  if !c.transportOpen then c else ((c.pollBegin now).pollEnd .invalidConfig).2

/-- `connect` while a receive callback runs. -/
def nestedConnect (options : ConnectOptions) (tcp : Status) : Client cfg :=
  match c.connectBegin options tcp with
  | (none, c) => (c.connectTurn .invalidConfig).2
  | (some _, c) => c

def runCall (c : Client cfg) : ApiCall → Client cfg
  | .publish topic payload quality retain => (c.publish topic payload quality retain).2
  | .subscribe filters => (c.subscribe filters).2.2
  | .unsubscribe filters => (c.unsubscribe filters).2.2
  | .poll now => c.nestedPoll now
  | .disconnect reason => (c.disconnect reason).2
  | .forceClose => c.forceClose
  | .connect options tcp => c.nestedConnect options tcp
  | .setMessageCallback => { c with deferredCallback := some true }
  | .clearMessageCallback => { c with deferredCallback := some false }
  | .transportOpen value => { c with transportOpen := value }

/-- The message callback starts to run on `message`. -/
def enterCallback (message : MessageView) : Client cfg :=
  { c with callbackScript := c.callbackScript.tail, deferredCallback := none }.record
    (.delivered message)

/-- `dispatcher_.invoke(message_callback_, message)`, when a callback is set. -/
def invokeCallback (message : MessageView) : Client cfg :=
  if !c.hasCallback then c
  else
    let c := (c.callbackScript.headD []).foldl runCall (c.enterCallback message)
    { c with hasCallback := c.deferredCallback.getD c.hasCallback, deferredCallback := none }

end Client
end Castle.Mqtt
