import Castle.Net.Sockets
import Castle.Mqtt.Client.State

/-!
# The client's receive path (`client.hpp`)

`rx_` is a table of its declared size. A read or write outside of it, a
subtraction `rx_size_ - consumed` that would wrap and a packet loop that does not
stop are a `Fault`: what the C++ program does from there on is undefined.
-/

namespace Castle.Mqtt

open Net

inductive Fault where
  | rxOutOfBounds
  | rxUnderflow
  | loopLimit
  deriving DecidableEq

namespace Client

variable {cfg : ClientConfig} (c : Client cfg)

/-- The status of a refused CONNACK of level 3 or 4. -/
def connackStatus (code : UInt8) : Status :=
  if code = 1 then .invalidConfig
  else if code = 2 then .invalidArgument
  else if code = 3 then .timeOut
  else if code = 4 ∨ code = 5 then .notConfigured
  else .invalidArgument

def checkConnack (cfg : ClientConfig) (version code : UInt8) (reader : PacketReader) : Status :=
  if version = 5 then
    if reader.remaining = 0 then .invalidArgument
    else (decodeProperties cfg.properties reader true).status
  else if reader.remaining ≠ 0 ∨ code > 5 then .invalidArgument
  else .ok

/-- The status of a CONNACK with a failure code. -/
def refusedStatus (version code : UInt8) : Status :=
  if version = 5 then toStatus code else connackStatus code

def handleConnack (reader : PacketReader) : Status × Client cfg :=
  if !c.connecting || reader.remaining < 2 then (.invalidArgument, c)
  else
    let flags := reader.getU8
    let code := flags.reader.getU8
    if flags.value &&& 0xFE ≠ 0 then (.invalidArgument, c)
    else
      let c := { c with sessionPresent := flags.value &&& 0x01 ≠ 0 }
      let checked := checkConnack cfg c.options.protocolVersion code.value code.reader
      if checked ≠ .ok then (checked, c)
      else
        let c := { c with connecting := false }.record (.connack code.value)
        if code.value ≠ 0 then (refusedStatus c.options.protocolVersion code.value, c)
        else (.ok, { c with connected := true, lastRxMs := c.nowMs })

/-- The reading part of `handle_publish`: topic, identifier and payload. -/
def readPublish (cfg : ClientConfig) (version : UInt8) (quality : Qos) (reader : PacketReader) :
    Except Status (Bytes × UInt16 × Bytes) :=
  match (reader.getUtf8 cfg.maxTopicLength).ok? with
  | none => .error .invalidArgument
  | some (topic, reader) =>
    if validateTopicName topic ≠ .ok then .error .invalidArgument
    else
      match if quality = .atMostOnce then some (0, reader) else reader.getU16.ok? with
      | none => .error .invalidArgument
      | some (identifier, reader) =>
        if quality ≠ .atMostOnce ∧ identifier = 0 then .error .invalidArgument
        else
          let properties := decodeProperties cfg.properties reader true
          if version = 5 ∧ properties.status ≠ .ok then .error properties.status
          else
            let reader := if version = 5 then properties.reader else reader
            if cfg.maxPayloadSize < reader.remaining then .error .outOfRange
            else .ok (topic, identifier, reader.rest)

def handlePublish (packet : PacketView) : Status × Client cfg :=
  match Qos.ofNat? ((packet.flags >>> 1) &&& 0x03).toNat with
  | none => (.invalidArgument, c)
  | some quality =>
    match readPublish cfg c.options.protocolVersion quality ⟨packet.body, .ok⟩ with
    | .error status => (status, c)
    | .ok (topic, identifier, payload) =>
      let message : MessageView :=
        { topic, payload, quality
          duplicate := packet.flags &&& 0x08 ≠ 0
          retain := packet.flags &&& 0x01 ≠ 0
          packetIdentifier := identifier }
      if quality = .exactlyOnce then
        match c.findIncoming identifier with
        | some _ => c.sendIdentifier .pubrec identifier false
        | none =>
          match c.allocateIncoming with
          | none => (.full, c)
          | some k =>
            let entry : IncomingEntry :=
              { used := true, identifier, topic := cstr topic, payload, retain := message.retain }
            (c.storeIncoming k entry).sendIdentifier .pubrec identifier false
      else
        let c := c.invokeCallback message
        if quality = .atLeastOnce then c.sendIdentifier .puback identifier false else (.ok, c)

def handlePubrel (reader : PacketReader) : Status × Client cfg :=
  match readAcknowledgement cfg.properties c.options.protocolVersion reader with
  | .error status => (status, c)
  | .ok (identifier, _) =>
    let c :=
      match c.findIncoming identifier with
      | none => c
      | some k =>
        let entry := c.incoming.get k
        let message : MessageView :=
          { topic := entry.topic
            payload := entry.payload
            quality := .exactlyOnce
            retain := entry.retain
            packetIdentifier := identifier }
        (c.invokeCallback message).releaseIncoming k
    c.sendIdentifier .pubcomp identifier false

def handleAck (reader : PacketReader) (expected : ClientOutgoingState) (type : PacketType) :
    Status × Client cfg :=
  match readAcknowledgement cfg.properties c.options.protocolVersion reader with
  | .error status => (status, c)
  | .ok (identifier, reason) =>
    match c.findOutgoing identifier with
    | none => (.invalidArgument, c)
    | some k =>
      if (c.outgoing.get k).state ≠ expected then (.invalidArgument, c)
      else
        let c := { c with lastAcknowledgedId := identifier }
        if reason ≥ 0x80 then (toStatus reason, c.releaseOutgoing k)
        else if type = .pubrec then (c.awaitPubcomp k).sendIdentifier .pubrel identifier false
        else (.ok, c.releaseOutgoing k)

/-- The request slot that an acknowledgement releases. -/
def acknowledgeRequest (identifier : UInt16) (type : PacketType) : Status × Client cfg :=
  match c.findRequest identifier type with
  | none => (.invalidArgument, c)
  | some k => (.ok, { c.releaseRequest k with lastAcknowledgedId := identifier })

/-- The identifier and, for level 5, the properties of a SUBACK or UNSUBACK. -/
def readAckHeader (cfg : ClientConfig) (version : UInt8) (reader : PacketReader) :
    Except Status (UInt16 × PacketReader) :=
  match reader.getU16.ok? with
  | none => .error .invalidArgument
  | some (identifier, reader) =>
    if identifier = 0 then .error .invalidArgument
    else if version = 5 then
      let properties := decodeProperties cfg.properties reader true
      if properties.status ≠ .ok then .error properties.status
      else .ok (identifier, properties.reader)
    else .ok (identifier, reader)

def handleSuback (reader : PacketReader) : Status × Client cfg :=
  match readAckHeader cfg c.options.protocolVersion reader with
  | .error status => (status, c)
  | .ok (identifier, reader) =>
    if reader.remaining = 0 then (.invalidArgument, c)
    else if reader.rest.any fun code => code > 2 && code < 0x80 then (.invalidArgument, c)
    else c.acknowledgeRequest identifier .subscribe

def handleUnsuback (reader : PacketReader) : Status × Client cfg :=
  match readAckHeader cfg c.options.protocolVersion reader with
  | .error status => (status, c)
  | .ok (identifier, reader) =>
    if c.options.protocolVersion ≠ 5 ∧ reader.remaining ≠ 0 then (.invalidArgument, c)
    else c.acknowledgeRequest identifier .unsubscribe

def handleDisconnect (reader : PacketReader) : Status × Client cfg :=
  if !c.connected then (.invalidArgument, c)
  else
    let reason :=
      if c.options.protocolVersion = 5 then
        readOptionalReason cfg.properties c.options.protocolVersion reader
      else .ok 0
    match reason with
    | .error status => (status, c)
    | .ok _ => (.notConfigured, { c with connected := false, transportOpen := false })

def handlePacket (packet : PacketView) : Status × Client cfg :=
  let reader : PacketReader := ⟨packet.body, .ok⟩
  match packet.type with
  | .connack => c.handleConnack reader
  | .publish => c.handlePublish packet
  | .puback => c.handleAck reader .awaitPuback .puback
  | .pubrec => c.handleAck reader .awaitPubrec .pubrec
  | .pubcomp => c.handleAck reader .awaitPubcomp .pubcomp
  | .pubrel => c.handlePubrel reader
  | .suback => c.handleSuback reader
  | .unsuback => c.handleUnsuback reader
  | .pingresp =>
    if packet.remainingLength ≠ 0 || !c.pingOutstanding then (.invalidArgument, c)
    else (.ok, { c with pingOutstanding := false })
  | .disconnect => c.handleDisconnect reader
  | .auth => (.invalidConfig, c)
  | _ => (.invalidArgument, c)

/-- `rx_[rx_size_++] = value` -/
def pushRx (c : Client cfg) (value : UInt8) : Except Fault (Client cfg) :=
  if h : c.rxSize < cfg.maxPacketSize + cfg.receiveBufferSize then
    .ok { c with rx := c.rx.set ⟨c.rxSize, h⟩ value, rxSize := c.rxSize + 1 }
  else .error .rxOutOfBounds

/-- The bytes `rx_[from .. rx_size_)`. -/
def rxFrom (start : ℕ) : Bytes := (c.rx.cells.take c.rxSize).drop start

/-- The compaction loop: move the bytes behind `consumed` to the front. -/
def compactRx (consumed : ℕ) : Except Fault (Client cfg) :=
  if c.rxSize < consumed then .error .rxUnderflow
  else if cfg.maxPacketSize + cfg.receiveBufferSize < c.rxSize then .error .rxOutOfBounds
  else
    let remaining := c.rxFrom consumed
    .ok { c with
      rx := c.rx.mapIdx fun i old => remaining.getD i old
      rxSize := c.rxSize - consumed }

/-- `fatal_ = true; last_error_ = status;` -/
def setFatal (status : Status) : Client cfg := { c with fatal := true, lastError := status }

/-- The packet loop of `receive_bytes` from offset `consumed` on: the offset at
which it stopped, none after an early return, and the client. The list records
the packets handed to `handle_packet` with the client each one met. Every packet
has at least two bytes, so `fuel` is the number of bytes buffered. -/
def receiveLoop : ℕ → Client cfg → ℕ →
    Except Fault (Option ℕ × Client cfg × List (Client cfg × PacketView))
  | 0, c, consumed => if c.rxSize ≤ consumed then .ok (some consumed, c, []) else .error .loopLimit
  | fuel + 1, c, consumed =>
    if c.rxSize ≤ consumed then .ok (some consumed, c, [])
    else if cfg.maxPacketSize + cfg.receiveBufferSize < c.rxSize then .error .rxOutOfBounds
    else
      match inspectPacket (c.rxFrom consumed) cfg.maxPacketSize with
      | .error .empty => .ok (some consumed, c, [])
      | .error status => .ok (none, c.setFatal status, [])
      | .ok packet =>
        match c.handlePacket packet with
        | (.ok, c') =>
          match receiveLoop fuel { c' with lastRxMs := c'.nowMs } (consumed + packet.packetSize) with
          | .error fault => .error fault
          | .ok (stop, c'', handed) => .ok (stop, c'', (c, packet) :: handed)
        | (status, c') => .ok (none, c'.setFatal status, [(c, packet)])

def receiveBytes (data : Bytes) : Except Fault (Client cfg × List (Client cfg × PacketView)) :=
  if c.fatal || cfg.maxPacketSize + cfg.receiveBufferSize - c.rxSize < data.length then
    .ok (c.setFatal .outOfRange, [])
  else do
    let c ← data.foldlM pushRx c
    let (stop, c, handed) ← receiveLoop c.rxSize c 0
    match stop with
    | none => .ok (c, handed)
    | some 0 => .ok (c, handed)
    | some consumed => do
      let c ← c.compactRx consumed
      .ok (c, handed)

/-- `transport_.process_once`; one receive fills at most the receive buffer. -/
def processOnce (received : Receive) :
    Except Fault (Status × Client cfg × List (Client cfg × PacketView)) :=
  if !c.transportOpen then .ok (.notConfigured, c, [])
  else
    match received with
    | .idle => .ok (.timeOut, c, [])
    | .waitFailed status => .ok (status, c, [])
    | .closed => .ok (.notConfigured, { c with transportOpen := false }, [])
    | .failed status => .ok (status, c, [])
    | .data bytes => do
      let (c, handed) ← c.receiveBytes (bytes.take cfg.receiveBufferSize)
      .ok (.ok, c, handed)

/-- The receive loop of `connect` with `attempts` turns left; when `received` is
used up nothing more arrives. -/
def connectLoop : ℕ → List Receive → Client cfg →
    Except Fault (Option Status × Client cfg × List (Client cfg × PacketView))
  | 0, _, c => .ok (none, c, [])
  | attempts + 1, received, c =>
    if !c.connecting then .ok (none, c, [])
    else do
      let (result, c, handed) ← c.processOnce (received.headD .idle)
      match c.connectTurn result with
      | (some status, c) => .ok (some status, c, handed)
      | (none, c) => do
        let (status, c, handed') ← connectLoop attempts received.tail c
        .ok (status, c, handed ++ handed')

def connect (options : ConnectOptions) (tcp : Status) (received : List Receive) :
    Except Fault (Status × Client cfg × List (Client cfg × PacketView)) :=
  match c.connectBegin options tcp with
  | (some status, c) => .ok (status, c, [])
  | (none, c) => do
    let (status, c, handed) ← connectLoop cfg.maxPacketSize received c
    match status with
    | some status => .ok (status, c, handed)
    | none =>
      let (status, c) := c.connectEnd options
      .ok (status, c, handed)

def poll (now : UInt32) (received : Receive) :
    Except Fault (Status × Client cfg × List (Client cfg × PacketView)) :=
  if !c.transportOpen then .ok (.notConfigured, c, [])
  else do
    let (result, c, handed) ← (c.pollBegin now).processOnce received
    let (status, c) := c.pollEnd result
    .ok (status, c, handed)

end Client
end Castle.Mqtt
