import Castle.Mqtt.Broker.State

/-!
# CONNECT (`broker.hpp`)
-/

namespace Castle.Mqtt

open Net

namespace Broker

variable {cfg : BrokerConfig} (b : Broker cfg)

/-- The fields in front of the properties. -/
structure ConnectHeader where
  name : Bytes
  level : UInt8
  flags : UInt8
  keepAlive : UInt16
  deriving DecidableEq

/-- The fields behind the client identifier. -/
structure ConnectPayload where
  willTopic : Bytes := []
  willPayload : Bytes := []
  username : Bytes := []
  password : Bytes := []
  deriving DecidableEq

def readConnectHeader (reader : PacketReader) : Option (ConnectHeader × PacketReader) := do
  let (name, reader) ← (reader.getUtf8 8).ok?
  let (level, reader) ← reader.getU8.ok?
  let (flags, reader) ← reader.getU8.ok?
  let (keepAlive, reader) ← reader.getU16.ok?
  return ({ name := cstr name, level, flags, keepAlive }, reader)

/-- `"MQIsdp"` and `"MQTT"`. -/
def protocolNameOf (level : UInt8) : Option Bytes :=
  if level = 3 then some [0x4D, 0x51, 0x49, 0x73, 0x64, 0x70]
  else if level = 4 ∨ level = 5 then some [0x4D, 0x51, 0x54, 0x54]
  else none

def ConnectHeader.valid (h : ConnectHeader) : Bool :=
  protocolNameOf h.level = some h.name && h.flags &&& 0x01 = 0 &&
    !(h.flags &&& 0x04 = 0 && h.flags &&& 0x38 ≠ 0) &&
    !(h.flags &&& 0x04 ≠ 0 && (h.flags &&& 0x18) >>> 3 = 3) &&
    !(h.flags &&& 0x40 ≠ 0 && h.flags &&& 0x80 = 0)

def ConnectHeader.clean (h : ConnectHeader) : Bool := h.flags &&& 0x02 ≠ 0
def ConnectHeader.will (h : ConnectHeader) : Bool := h.flags &&& 0x04 ≠ 0
def ConnectHeader.hasUsername (h : ConnectHeader) : Bool := h.flags &&& 0x80 ≠ 0
def ConnectHeader.hasPassword (h : ConnectHeader) : Bool := h.flags &&& 0x40 ≠ 0

/-- A property section that only level 5 has. -/
def readProperties (cfg : BrokerConfig) (level : UInt8) (reader : PacketReader) :
    Except Status (List Property × PacketReader) :=
  if level = 5 then
    let properties := decodeProperties cfg.properties reader true
    if properties.status = .ok then .ok (properties.value, properties.reader)
    else .error properties.status
  else .ok ([], reader)

/-- Will, user name and password, which must use up the packet. -/
def readConnectPayload (cfg : BrokerConfig) (h : ConnectHeader) (reader : PacketReader) :
    Except Status ConnectPayload := do
  let (_, reader) ← if h.will then readProperties cfg h.level reader else .ok ([], reader)
  let (willTopic, reader) ←
    if h.will then
      match (reader.getUtf8 cfg.maxTopicLength).ok? with
      | some (topic, reader) =>
        if validateTopicName topic = .ok then .ok (topic, reader) else .error .invalidArgument
      | none => .error .invalidArgument
    else .ok ([], reader)
  let (willPayload, reader) ←
    if h.will then
      ((reader.getBinary cfg.maxPayloadSize).ok?.map .ok).getD (.error .invalidArgument)
    else .ok ([], reader)
  let (username, reader) ←
    if h.hasUsername then
      ((reader.getUtf8 cfg.maxTopicLength).ok?.map .ok).getD (.error .invalidArgument)
    else .ok ([], reader)
  let (password, reader) ←
    if h.hasPassword then
      ((reader.getBinary cfg.maxTopicLength).ok?.map .ok).getD (.error .invalidArgument)
    else .ok ([], reader)
  if reader.remaining ≠ 0 then .error .invalidArgument
  else .ok { willTopic, willPayload, username, password }

/-- Mark every other connection with the same identifier for closing. -/
def takeOver (i : Fin cfg.maxClients) (id : Bytes) : Broker cfg :=
  { b with clients := b.clients.mapIdx fun j other =>
      if j ≠ i && other.used && other.clientId ≠ [] && other.clientId = id then
        { other with closePending := true, willPending := false }
      else other }

/-- The end of `handle_connect`, once the packet is accepted. -/
def acceptConnect (i : Fin cfg.maxClients) (h : ConnectHeader) (p : ConnectPayload)
    (id : Bytes) (assigned : Bool) : Status × Broker cfg :=
  let sessionPresent := !h.clean && b.sessionExists (cstr id)
  let b := if h.clean then b.clearSession (cstr id) else b
  let (ensured, b) := b.ensureSession (cstr id)
  if !ensured then
    let (_, b) := b.sendConnack i false ReasonCode.serverBusy none
    (.full, b)
  else
    let b := b.takeOver i (cstr id)
    let b := b.modifyClient i fun s =>
      { s with
        clientId := cstr id
        protocolLevel := h.level
        cleanSession := h.clean
        keepAliveSeconds := h.keepAlive
        willPresent := h.will
        willPending := h.will
        willRetain := h.flags &&& 0x20 ≠ 0
        willQuality := (Qos.ofNat? ((h.flags >>> 3) &&& 0x03).toNat).getD .atMostOnce
        willTopic := if h.will then cstr p.willTopic else s.willTopic
        willPayload := if h.will then p.willPayload else s.willPayload }
    b.sendConnack i sessionPresent ReasonCode.success (if assigned then some id else none)

/-- A CONNACK with a failure code in front of a failing return. -/
def refuseConnect (i : Fin cfg.maxClients) (reason : ReasonCode) (status : Status) :
    Status × Broker cfg :=
  (status, (b.sendConnack i false reason none).2)

/-- The Session Expiry Interval, when the CONNECT carries one. -/
def setSessionExpiry (i : Fin cfg.maxClients) (properties : List Property) : Broker cfg :=
  match findProperty PropertyId.sessionExpiryInterval properties with
  | some expiry => b.modifyClient i fun s => { s with sessionExpirySeconds := expiry.integer }
  | none => b

/-- The identifier of the session: the one in the packet, or an assigned one for a
clean session without any. -/
def chooseClientId (clean : Bool) (id : Bytes) : Option Bytes × Broker cfg :=
  if id = [] then if clean then assignClientId (cfg.maxClients + 1) b else (none, b)
  else (some id, b)

/-- The part of `handle_connect` behind the client identifier. -/
def finishConnect (i : Fin cfg.maxClients) (h : ConnectHeader) (id : Bytes) (assigned : Bool)
    (reader : PacketReader) : Status × Broker cfg :=
  match readConnectPayload cfg h reader with
  | .error status => (status, b)
  | .ok p =>
    if b.authenticationEnabled && (!h.hasUsername || !h.hasPassword ||
        b.expectedUsername ≠ p.username || b.expectedPassword ≠ p.password) then
      b.refuseConnect i ReasonCode.badUserNameOrPassword .notConfigured
    else b.acceptConnect i h p id assigned

def handleConnect (i : Fin cfg.maxClients) (reader : PacketReader) : Status × Broker cfg :=
  if (b.clients.get i).protocolLevel ≠ 0 then (.invalidArgument, b)
  else
    match readConnectHeader reader with
    | none => (.invalidArgument, b)
    | some (h, reader) =>
      let b := b.modifyClient i fun s => { s with protocolLevel := h.level }
      if !h.valid then
        b.refuseConnect i
          (if h.level > 5 then ReasonCode.unsupportedProtocolVersion else ReasonCode.malformedPacket)
          .invalidArgument
      else
        match readProperties cfg h.level reader with
        | .error status => (status, b)
        | .ok (properties, reader) =>
          let b := b.setSessionExpiry i properties
          match (reader.getUtf8 cfg.maxTopicLength).ok? with
          | none => b.refuseConnect i ReasonCode.clientIdentifierNotValid .invalidArgument
          | some (id, reader) =>
            match b.chooseClientId h.clean id with
            | (none, b) => b.refuseConnect i ReasonCode.clientIdentifierNotValid .invalidArgument
            | (some chosen, b) => b.finishConnect i h chosen (id = []) reader

end Broker
end Castle.Mqtt

/-!
## PUBLISH, acknowledgements, SUBSCRIBE and UNSUBSCRIBE (`broker.hpp`)
-/

namespace Castle.Mqtt

open Net

namespace Broker

variable {cfg : BrokerConfig} (b : Broker cfg)

structure PublishFields where
  topic : Bytes
  identifier : UInt16
  payload : Bytes
  deriving DecidableEq

/-- The reading part of `handle_publish`. -/
def readPublish (cfg : BrokerConfig) (level : UInt8) (quality : Qos) (reader : PacketReader) :
    Except Status PublishFields :=
  match (reader.getUtf8 cfg.maxTopicLength).ok? with
  | none => .error .invalidArgument
  | some (topic, reader) =>
    if validateTopicName topic ≠ .ok then .error .invalidArgument
    else
      let identifier := if quality = .atMostOnce then some (0, reader) else reader.getU16.ok?
      match identifier with
      | none => .error .invalidArgument
      | some (identifier, reader) =>
        if quality ≠ .atMostOnce ∧ identifier = 0 then .error .invalidArgument
        else
          match readProperties cfg level reader with
          | .error status => .error status
          | .ok (_, reader) =>
            if cfg.maxPayloadSize < reader.remaining then .error .outOfRange
            else .ok { topic, identifier, payload := reader.rest }

/-- The quality bits of the fixed-header flags. -/
def qualityOf (flags : UInt8) : Option Qos := Qos.ofNat? ((flags >>> 1) &&& 0x03).toNat

/-- A new QoS 2 message is kept until its PUBREL. -/
def storeIncoming (i : Fin cfg.maxClients) (k : Fin cfg.maxOutstanding) (p : PublishFields)
    (retain : Bool) : Broker cfg :=
  b.modifyClient i fun s =>
    { s with incomingQos2 := s.incomingQos2.modify k fun e =>
      { e with
        used := true, identifier := p.identifier, quality := .exactlyOnce
        topic := cstr p.topic, payload := p.payload, retain } }

def releaseIncoming (i : Fin cfg.maxClients) (k : Fin cfg.maxOutstanding) : Broker cfg :=
  b.modifyClient i fun s =>
    { s with incomingQos2 := s.incomingQos2.modify k fun e => { e with used := false } }

def handlePublish (i : Fin cfg.maxClients) (packet : PacketView) : Status × Broker cfg :=
  match qualityOf packet.flags with
  | none => (.invalidArgument, b)
  | some quality =>
    match readPublish cfg (b.clients.get i).protocolLevel quality ⟨packet.body, .ok⟩ with
    | .error status => (status, b)
    | .ok p =>
      let retain : Bool := packet.flags &&& 1 ≠ 0
      let handle := (b.clients.get i).handle
      if quality = .exactlyOnce then
        match findQos (b.clients.get i).incomingQos2 p.identifier with
        | some _ => b.sendIdentifier handle .pubrec p.identifier false
        | none =>
          match allocateQos (b.clients.get i).incomingQos2 with
          | none => (.full, b)
          | some k => (b.storeIncoming i k p retain).sendIdentifier handle .pubrec p.identifier false
      else
        let b := b.publishMessage ⟨p.topic, p.payload, quality, retain⟩
        if quality = .atLeastOnce then b.sendIdentifier handle .puback p.identifier false
        else (.ok, b)

def handleClientPubrel (i : Fin cfg.maxClients) (reader : PacketReader) : Status × Broker cfg :=
  match readAcknowledgement cfg.properties (b.clients.get i).protocolLevel reader with
  | .error status => (status, b)
  | .ok (identifier, _) =>
    let b :=
      match findQos (b.clients.get i).incomingQos2 identifier with
      | none => b
      | some k =>
        let entry := (b.clients.get i).incomingQos2.get k
        let p : Publication := ⟨entry.topic, entry.payload, .exactlyOnce, entry.retain⟩
        (b.publishMessage p).releaseIncoming i k
    b.sendIdentifier (b.clients.get i).handle .pubcomp identifier false

/-- A PUBREC moves its entry on. -/
def awaitPubcomp (i : Fin cfg.maxClients) (k : Fin cfg.maxOutstanding) : Broker cfg :=
  b.modifyClient i fun s =>
    { s with outgoing := s.outgoing.modify k fun e => { e with state := .awaitPubcomp } }

def handleClientAck (i : Fin cfg.maxClients) (reader : PacketReader) (expected : OutgoingState)
    (type : PacketType) : Status × Broker cfg :=
  match readAcknowledgement cfg.properties (b.clients.get i).protocolLevel reader with
  | .error status => (status, b)
  | .ok (identifier, reason) =>
    match findQos (b.clients.get i).outgoing identifier with
    | none => (.invalidArgument, b)
    | some k =>
      if ((b.clients.get i).outgoing.get k).state ≠ expected then (.invalidArgument, b)
      else if reason ≥ 0x80 then (toStatus reason, b.releaseOutgoing i k)
      else if type = .pubrec then
        let b := b.awaitPubcomp i k
        b.sendIdentifier (b.clients.get i).handle .pubrel identifier false
      else (.ok, b.releaseOutgoing i k)

def addSubscription (clientId filter : Bytes) (quality : Qos) : Bool × Broker cfg :=
  match b.subscriptions.firstIdx fun s => s.used && s.clientId = clientId && s.filter = filter with
  | some k =>
    (true, { b with
      subscriptions := b.subscriptions.modify k fun s => { s with maximumQuality := quality } })
  | none =>
    match b.subscriptions.firstIdx fun s => !s.used with
    | some k =>
      (true, { b with subscriptions := b.subscriptions.set k ⟨true, clientId, filter, quality⟩ })
    | none => (false, b)

def removeSubscription (clientId filter : Bytes) : Bool × Broker cfg :=
  match b.subscriptions.firstIdx fun s => s.used && s.clientId = clientId && s.filter = filter with
  | some k =>
    (true, { b with subscriptions := b.subscriptions.modify k fun s => { s with used := false } })
  | none => (false, b)

/-- One filter of a SUBSCRIBE packet with the code that answers it. -/
structure FilterResult where
  filter : Bytes
  requested : Qos
  reason : UInt8

/-- The options byte of a filter: the requested quality, if it is valid. -/
def subscribeOptions (level options : UInt8) : Option Qos :=
  let reserved :=
    if level = 5 then options &&& 0xC0 ≠ 0 || (options >>> 4) &&& 0x03 = 3 else options &&& 0xFC ≠ 0
  if reserved then none else Qos.ofNat? (options &&& 0x03).toNat

/-- The identifier and the properties in front of the filters. -/
def readFilterHeader (cfg : BrokerConfig) (level : UInt8) (reader : PacketReader) :
    Except Status (UInt16 × PacketReader) :=
  match reader.getU16.ok? with
  | none => .error .invalidArgument
  | some (identifier, reader) =>
    if identifier = 0 then .error .invalidArgument
    else
      match readProperties cfg level reader with
      | .error status => .error status
      | .ok (_, reader) => .ok (identifier, reader)

def readFilter (cfg : BrokerConfig) (reader : PacketReader) : Option (Bytes × PacketReader) :=
  match (reader.getUtf8 cfg.maxTopicLength).ok? with
  | none => none
  | some (filter, reader) =>
    if validateTopicFilter filter = .ok then some (cstr filter, reader) else none

/-- The filter loop of `handle_subscribe`; every turn consumes bytes, so `fuel`
is the number of bytes left. -/
def subscribeFilters (i : Fin cfg.maxClients) :
    ℕ → Broker cfg → PacketReader → List FilterResult →
      Except Status (List FilterResult) × Broker cfg
  | 0, b, _, results => (.ok results, b)
  | fuel + 1, b, reader, results =>
    if reader.remaining = 0 then (.ok results, b)
    else if cfg.maxSubscriptions ≤ results.length then (.error .full, b)
    else
      match readFilter cfg reader with
      | none => (.error .invalidArgument, b)
      | some (filter, reader) =>
        match reader.getU8.ok? with
        | none => (.error .invalidArgument, b)
        | some (options, reader) =>
          let level := (b.clients.get i).protocolLevel
          match subscribeOptions level options with
          | none => (.error .invalidArgument, b)
          | some requested =>
            let (added, b) := b.addSubscription (b.clients.get i).clientId filter requested
            let reason : UInt8 :=
              if added then UInt8.ofNat requested.toNat else if level = 5 then 0x97 else 0x80
            subscribeFilters i fuel b reader (results ++ [⟨filter, requested, reason⟩])

/-- Retained messages for one granted filter. -/
def sendRetained (handle : ClientHandle) (result : FilterResult) (b : Broker cfg)
    (k : Fin cfg.maxRetained) : Broker cfg :=
  let retained := b.retained.get k
  if retained.used && topicMatches result.filter retained.topic then
    let delivery :=
      if retained.quality.toNat < result.requested.toNat then retained.quality else result.requested
    (b.sendPublishTo handle retained.topic retained.payload delivery true).2
  else b

def sendRetainedFor (handle : ClientHandle) (b : Broker cfg) (result : FilterResult) : Broker cfg :=
  if result.reason > 2 then b
  else (List.finRange cfg.maxRetained).foldl (sendRetained handle result) b

def subackBody (cfg : BrokerConfig) (level : UInt8) (identifier : UInt16)
    (reasons : List UInt8) : PacketWriter :=
  let body := ({ capacity := cfg.maxPacketSize } : PacketWriter).putU16 identifier
  let body := if level = 5 then body.putU8 0 else body
  body.putBytes reasons

def handleSubscribe (i : Fin cfg.maxClients) (reader : PacketReader) : Status × Broker cfg :=
  let level := (b.clients.get i).protocolLevel
  match readFilterHeader cfg level reader with
  | .error status => (status, b)
  | .ok (identifier, reader) =>
    match subscribeFilters i reader.remaining b reader [] with
    | (.error status, b) => (status, b)
    | (.ok results, b) =>
      if results = [] then (.invalidArgument, b)
      else
        let body := subackBody cfg level identifier (results.map FilterResult.reason)
        let handle := (b.clients.get i).handle
        let (result, b) := b.sendPacket handle .suback 0 body.data
        if result ≠ .ok then (result, b)
        else (.ok, results.foldl (sendRetainedFor handle) b)

def unsubscribeFilters (i : Fin cfg.maxClients) :
    ℕ → Broker cfg → PacketReader → List UInt8 → Except Status (List UInt8) × Broker cfg
  | 0, b, _, results => (.ok results, b)
  | fuel + 1, b, reader, results =>
    if reader.remaining = 0 then (.ok results, b)
    else if cfg.maxSubscriptions ≤ results.length then (.error .full, b)
    else
      match readFilter cfg reader with
      | none => (.error .invalidArgument, b)
      | some (filter, reader) =>
        let level := (b.clients.get i).protocolLevel
        let (removed, b) := b.removeSubscription (b.clients.get i).clientId filter
        let result : UInt8 := if level = 5 then (if removed then 0 else 0x11) else 0
        unsubscribeFilters i fuel b reader (results ++ [result])

def unsubackBody (cfg : BrokerConfig) (level : UInt8) (identifier : UInt16)
    (results : List UInt8) : PacketWriter :=
  let body := ({ capacity := cfg.maxPacketSize } : PacketWriter).putU16 identifier
  if level = 5 then (body.putU8 0).putBytes results else body

def handleUnsubscribe (i : Fin cfg.maxClients) (reader : PacketReader) : Status × Broker cfg :=
  let level := (b.clients.get i).protocolLevel
  match readFilterHeader cfg level reader with
  | .error status => (status, b)
  | .ok (identifier, reader) =>
    match unsubscribeFilters i reader.remaining b reader [] with
    | (.error status, b) => (status, b)
    | (.ok results, b) =>
      if results = [] then (.invalidArgument, b)
      else
        let body := unsubackBody cfg level identifier results
        b.sendPacket (b.clients.get i).handle .unsuback 0 body.data

end Broker
end Castle.Mqtt

/-!
## The dispatcher, the receive buffer and `poll` (`broker.hpp`)
-/

namespace Castle.Mqtt

open Net

namespace Broker

variable {cfg : BrokerConfig} (b : Broker cfg)

def handleDisconnect (i : Fin cfg.maxClients) (reader : PacketReader) : Status × Broker cfg :=
  match readOptionalReason cfg.properties (b.clients.get i).protocolLevel reader with
  | .error status => (status, b)
  | .ok _ => (.ok, b.modifyClient i fun s => { s with willPending := false, closePending := true })

def handlePacket (i : Fin cfg.maxClients) (packet : PacketView) : Status × Broker cfg :=
  let reader : PacketReader := ⟨packet.body, .ok⟩
  if (b.clients.get i).protocolLevel = 0 ∧ packet.type ≠ .connect then (.invalidArgument, b)
  else
    match packet.type with
    | .connect => b.handleConnect i reader
    | .publish => b.handlePublish i packet
    | .puback => b.handleClientAck i reader .awaitPuback .puback
    | .pubrec => b.handleClientAck i reader .awaitPubrec .pubrec
    | .pubcomp => b.handleClientAck i reader .awaitPubcomp .pubcomp
    | .pubrel => b.handleClientPubrel i reader
    | .subscribe => b.handleSubscribe i reader
    | .unsubscribe => b.handleUnsubscribe i reader
    | .pingreq =>
      if packet.remainingLength ≠ 0 then (.invalidArgument, b)
      else b.sendPacket (b.clients.get i).handle .pingresp 0 []
    | .disconnect => b.handleDisconnect i reader
    | .auth => (.invalidConfig, b)
    | _ => (.invalidArgument, b)

/-- The packet loop of `receive_bytes` over the buffered bytes `rx`, from offset
`consumed` on: the broker, the final offset and, for the record, the packets handed
to `handle_packet`. Every packet has at least two bytes, so `fuel` is the number of
bytes buffered. -/
def receiveLoop (i : Fin cfg.maxClients) (rx : Bytes) :
    ℕ → Broker cfg → ℕ → Broker cfg × ℕ × List PacketView
  | 0, b, consumed => (b, consumed, [])
  | fuel + 1, b, consumed =>
    if consumed < rx.length ∧ (b.clients.get i).closePending = false then
      match inspectPacket (rx.drop consumed) cfg.maxPacketSize with
      | .error .empty => (b, consumed, [])
      | .error _ => (b.markClose i, consumed, [])
      | .ok packet =>
        let (status, b) := b.handlePacket i packet
        if status ≠ .ok then (b.markClose i, consumed, [packet])
        else
          let (b, consumed, handed) := receiveLoop i rx fuel b (consumed + packet.packetSize)
          (b, consumed, packet :: handed)
    else (b, consumed, [])

/-- `receive_bytes` for the connection in slot `i` with the buffered bytes `rx`,
without the time stamp: the broker, the bytes left in the buffer and the packets
handed to `handle_packet`. -/
def receiveBytes (i : Fin cfg.maxClients) (rx data : Bytes) :
    Broker cfg × Bytes × List PacketView :=
  if cfg.maxPacketSize + cfg.receiveBufferSize - rx.length < data.length then
    (b.markClose i, rx, [])
  else
    let rx := rx ++ data
    let (b, consumed, handed) := receiveLoop i rx rx.length b 0
    (b, rx.drop consumed, handed)

end Broker

/-- The broker with the clock of its polls and the receive buffers. -/
structure PolledBroker (cfg : BrokerConfig) where
  broker : Broker cfg := {}
  nowMs : UInt32 := 0
  lastReceivedMs : Table cfg.maxClients UInt32 := .replicate _ 0
  /-- `rx[0 .. rx_size)` of each client -/
  rx : Table cfg.maxClients Bytes := .replicate _ []

/-- What the sockets deliver during one `poll`: the answer of the listener (looked
at when a slot is free) and one receive for each slot. -/
structure PollInput where
  now : UInt32
  accepted : Status := .empty
  received : List Receive := []

namespace PolledBroker

variable {cfg : BrokerConfig} (p : PolledBroker cfg)

/-- The client state of a connection that was just accepted. -/
def freshClient (h : ClientHandle) : ClientState cfg := { used := true, handle := h }

def openClient (i : Fin cfg.maxClients) (h : ClientHandle) : PolledBroker cfg :=
  { p with
    broker := p.broker.modifyClient i fun _ => freshClient h
    lastReceivedMs := p.lastReceivedMs.set i p.nowMs
    rx := p.rx.set i [] }

def receiveBytes (h : ClientHandle) (data : Bytes) : PolledBroker cfg :=
  match p.broker.findClient h with
  | none => p
  | some i =>
    let (broker, left, _) := p.broker.receiveBytes i (p.rx.get i) data
    { p with
      broker
      lastReceivedMs := p.lastReceivedMs.set i p.nowMs
      rx := p.rx.set i left }

def releaseSlot (i : Fin cfg.maxClients) : PolledBroker cfg :=
  { p with broker := { p.broker with server := p.broker.server.releaseSlot i } }

/-- `server_.process_client` for slot `i`; one receive fills at most the receive
buffer. End of file and a failed receive release the slot. -/
def processClient (i : Fin cfg.maxClients) (h : ClientHandle) (received : Receive) :
    Status × PolledBroker cfg :=
  match p.broker.server.findSlot h, received with
  | none, _ => (.notFound, p)
  | some _, .idle => (.empty, p)
  | some _, .waitFailed status => (status, p)
  | some _, .closed => (.notConfigured, p.releaseSlot i)
  | some _, .failed status => (status, if status = .systemCallError then p.releaseSlot i else p)
  | some _, .data bytes => (.ok, p.receiveBytes h (bytes.take cfg.receiveBufferSize))

def checkKeepAlive (i : Fin cfg.maxClients) : PolledBroker cfg :=
  let s := p.broker.clients.get i
  if s.keepAliveSeconds ≠ 0 ∧
      p.nowMs - p.lastReceivedMs.get i > s.keepAliveSeconds.toUInt32 * 1500 then
    { p with broker := p.broker.modifyClient i fun s =>
        { s with closePending := true, willPending := true } }
  else p

def pollReceive (i : Fin cfg.maxClients) (h : ClientHandle) (received : Receive) :
    PolledBroker cfg :=
  if (p.broker.clients.get i).closePending then p
  else
    let (result, p) := p.processClient i h received
    if result ≠ .ok ∧ result ≠ .empty then
      { p with broker := p.broker.modifyClient i fun s =>
          { s with
            closePending := true
            willPending :=
              if result = .notConfigured ∨ result = .systemCallError then true
              else s.willPending } }
    else p

def pollClose (i : Fin cfg.maxClients) (h : ClientHandle) : PolledBroker cfg :=
  if (p.broker.clients.get i).closePending then
    let b := (p.broker.publishPendingWill i).closeState p.nowMs i true
    { p with broker := { b with server := b.server.closeClient h } }
  else p

/-- The body of the client loop of `poll`. -/
def pollClient (input : PollInput) (p : PolledBroker cfg) (i : Fin cfg.maxClients) :
    PolledBroker cfg :=
  let h := p.broker.server.clientAt i
  if !h.isValid then p
  else
    let s := p.broker.clients.get i
    let p := if !s.used || s.handle ≠ h then p.openClient i h else p
    ((p.checkKeepAlive i).pollReceive i h (input.received.getD i .idle)).pollClose i h

/-- `accept_client` and the reset of the accepted client's state. -/
def accept (accepted : Status) : Status × PolledBroker cfg :=
  match p.broker.server.acceptClient accepted with
  | (status, server, none) => (status, { p with broker := { p.broker with server } })
  | (status, server, some (i, h)) =>
    (status, PolledBroker.openClient { p with broker := { p.broker with server } } i h)

def poll (input : PollInput) : Status × PolledBroker cfg :=
  if !p.broker.server.isOpen then (.notConfigured, p)
  else
    let p := { p with nowMs := input.now, broker := p.broker.pruneSessions input.now }
    let (status, p) := p.accept input.accepted
    if status ≠ .ok ∧ status ≠ .empty ∧ status ≠ .full then (status, p)
    else (.ok, (List.finRange cfg.maxClients).foldl (pollClient input) p)

def close : PolledBroker cfg :=
  { p with broker := { p.broker with
      clients := p.broker.clients.map fun s => { s with used := false }
      server := p.broker.server.close } }

def setAuthentication (username password : Bytes) : Status × PolledBroker cfg :=
  if cfg.maxTopicLength ≤ username.length ∨ cfg.maxTopicLength ≤ password.length ∨
      validUtf8 username = false ∨ validUtf8 password = false then
    (.outOfRange, p)
  else
    (.ok, { p with broker := { p.broker with
      expectedUsername := cstr username
      expectedPassword := cstr password
      authenticationEnabled := username ≠ [] } })

def openListener (opened : Status) : Status × PolledBroker cfg :=
  let (status, server) := p.broker.server.openListener opened
  (status, { p with broker := { p.broker with server } })

end PolledBroker

/-- A call of the application on the broker, with the answers of the sockets. -/
inductive BrokerCall where
  | openListener (opened : Status)
  | close
  | setAuthentication (username password : Bytes)
  | poll (input : PollInput)

namespace PolledBroker

variable {cfg : BrokerConfig}

def call (p : PolledBroker cfg) : BrokerCall → PolledBroker cfg
  | .openListener opened => (p.openListener opened).2
  | .close => p.close
  | .setAuthentication username password => (p.setAuthentication username password).2
  | .poll input => (p.poll input).2

/-- The broker after a sequence of calls on a newly constructed one; the sockets
answer the sends with `sendResults`. -/
def run (sendResults : List Status) (calls : List BrokerCall) : PolledBroker cfg :=
  calls.foldl call { broker := { sendResults } }

end PolledBroker
end Castle.Mqtt
