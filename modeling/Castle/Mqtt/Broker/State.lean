import Castle.Lib.Table
import Castle.Net.Sockets
import Castle.Mqtt.Topic
import Castle.Mqtt.Types

/-!
# The broker (`broker.hpp`)

`Broker` holds the member tables of `basic_broker`. `now_ms_` and, of each client,
`last_received_ms` and the receive buffer `rx` are kept beside it in `PolledBroker`,
since no packet handler reads or writes them. What a socket answers to a send is the next
entry of `sendResults` (an empty list answers `ok`), and `trace` records the
frames given to the sockets and the calls of `publish_message`.
-/

namespace Castle.Mqtt

open Net

/-- The template parameters with their static assertions. -/
structure BrokerConfig where
  maxClients : ℕ := 4
  receiveBufferSize : ℕ := 512
  maxPacketSize : ℕ := 1024
  maxSubscriptions : ℕ := 32
  maxRetained : ℕ := 16
  maxOutstanding : ℕ := 8
  maxTopicLength : ℕ := 128
  maxPayloadSize : ℕ := 512
  properties : PropertyLimits := ⟨8, 64, 32⟩
  clients_pos : 0 < maxClients ∧ 0 < receiveBufferSize := by decide
  packet_ge : 8 ≤ maxPacketSize ∧ 0 < maxSubscriptions ∧ 1 < maxTopicLength := by decide
  qos_pos : 0 < maxOutstanding ∧ 0 < maxRetained := by decide

instance (cfg : BrokerConfig) : NeZero cfg.maxClients := ⟨cfg.clients_pos.1.ne'⟩

inductive OutgoingState where
  | awaitPuback | awaitPubrec | awaitPubcomp
  deriving DecidableEq, Repr, Inhabited

/-- The answer that a PUBLISH with this quality waits for first. -/
def OutgoingState.first (quality : Qos) : OutgoingState :=
  if quality = .atLeastOnce then .awaitPuback else .awaitPubrec

structure QosEntry where
  used : Bool := false
  identifier : UInt16 := 0
  state : OutgoingState := .awaitPuback
  quality : Qos := .atMostOnce
  topic : Bytes := []
  payload : Bytes := []
  retain : Bool := false
  deriving DecidableEq, Inhabited

instance : Slot QosEntry UInt16 := ⟨QosEntry.used, QosEntry.identifier⟩

structure ClientState (cfg : BrokerConfig) where
  used : Bool := false
  closePending : Bool := false
  willPending : Bool := false
  cleanSession : Bool := true
  willPresent : Bool := false
  willRetain : Bool := false
  protocolLevel : UInt8 := 0
  keepAliveSeconds : UInt16 := 0
  nextPacketIdentifier : UInt16 := 0
  sessionExpirySeconds : UInt32 := 0
  handle : ClientHandle := {}
  clientId : Bytes := []
  willTopic : Bytes := []
  willPayload : Bytes := []
  willQuality : Qos := .atMostOnce
  incomingQos2 : Table cfg.maxOutstanding QosEntry := .replicate _ {}
  outgoing : Table cfg.maxOutstanding QosEntry := .replicate _ {}
  deriving DecidableEq

structure SubscriptionEntry where
  used : Bool := false
  clientId : Bytes := []
  filter : Bytes := []
  maximumQuality : Qos := .atMostOnce
  deriving DecidableEq, Inhabited

structure RetainedEntry where
  used : Bool := false
  topic : Bytes := []
  payload : Bytes := []
  quality : Qos := .atMostOnce
  deriving DecidableEq, Inhabited

structure SessionEntry where
  used : Bool := false
  clientId : Bytes := []
  expiresAtMs : UInt32 := 0
  deriving DecidableEq, Inhabited

instance : Slot SubscriptionEntry (Bytes × Bytes) :=
  ⟨SubscriptionEntry.used, fun s => (s.clientId, s.filter)⟩
instance : Slot SessionEntry Bytes := ⟨SessionEntry.used, SessionEntry.clientId⟩

/-- A call of `publish_message`. -/
structure Publication where
  topic : Bytes
  payload : Bytes
  quality : Qos
  retain : Bool
  deriving DecidableEq

inductive BrokerEvent where
  | sent (handle : ClientHandle) (frame : Bytes) (result : Status)
  | published (publication : Publication)
  deriving DecidableEq

structure Broker (cfg : BrokerConfig) where
  server : Server cfg.maxClients := {}
  clients : Table cfg.maxClients (ClientState cfg) := .replicate _ {}
  subscriptions : Table cfg.maxSubscriptions SubscriptionEntry := .replicate _ {}
  retained : Table cfg.maxRetained RetainedEntry := .replicate _ {}
  sessions : Table cfg.maxClients SessionEntry := .replicate _ {}
  expectedUsername : Bytes := []
  expectedPassword : Bytes := []
  nextAssignedId : UInt32 := 0
  authenticationEnabled : Bool := false
  sendResults : List Status := []
  trace : List BrokerEvent := []
  deriving DecidableEq

def publications (trace : List BrokerEvent) : List Publication :=
  trace.filterMap fun
    | .published p => some p
    | .sent .. => none

/-- Whether closing this connection keeps its session. -/
def ClientState.keepsSession {cfg : BrokerConfig} (s : ClientState cfg) : Bool :=
  if s.protocolLevel = 5 then s.sessionExpirySeconds ≠ 0 else !s.cleanSession

namespace Broker

variable {cfg : BrokerConfig} (b : Broker cfg)

def modifyClient (i : Fin cfg.maxClients) (f : ClientState cfg → ClientState cfg) : Broker cfg :=
  { b with clients := b.clients.modify i f }

def markClose (i : Fin cfg.maxClients) : Broker cfg :=
  b.modifyClient i fun s => { s with closePending := true }

def findClient (h : ClientHandle) : Option (Fin cfg.maxClients) :=
  if hi : h.index < cfg.maxClients then
    let i : Fin cfg.maxClients := ⟨h.index, hi⟩
    if h.isValid && (b.clients.get i).used && (b.clients.get i).handle = h then some i else none
  else none

def sendAll (h : ClientHandle) (frame : Bytes) : Status × Broker cfg :=
  match b.server.findSlot h with
  | none => (.notFound, b)
  | some _ =>
    let result := b.sendResults.headD .ok
    (result, { b with
      sendResults := b.sendResults.tail
      trace := b.trace ++ [.sent h frame result] })

def sendPacket (h : ClientHandle) (type : PacketType) (flags : UInt8) (body : Bytes) :
    Status × Broker cfg :=
  match encodePacket type flags body cfg.maxPacketSize with
  | .error status => (status, b)
  | .ok frame => b.sendAll h frame

def sendIdentifier (h : ClientHandle) (type : PacketType) (identifier : UInt16)
    (duplicate : Bool) : Status × Broker cfg :=
  match b.findClient h with
  | none => (.notFound, b)
  | some i =>
    let body := ({ capacity := cfg.maxPacketSize } : PacketWriter).putU16 identifier
    let body :=
      if (b.clients.get i).protocolLevel = 5 ∧ type = .pubrel then (body.putU8 0).putU8 0 else body
    let flags : UInt8 := if type = .pubrel then (if duplicate then 0x0A else 0x02) else 0
    b.sendPacket h type flags body.data

/-- The body of a CONNACK, which names an assigned client identifier at level 5. -/
def connackBody (cfg : BrokerConfig) (level : UInt8) (sessionPresent : Bool) (reason : ReasonCode)
    (assignedId : Option Bytes) : PacketWriter :=
  let body := ({ capacity := cfg.maxPacketSize } : PacketWriter).putU8 (if sessionPresent then 1 else 0)
  let body := body.putU8 reason
  if level = 5 then
    match assignedId with
    | none => body.putU8 0
    | some assigned =>
      ((body.putVarint (3 + assigned.length)).putU8 PropertyId.assignedClientIdentifier).putUtf8
        assigned
  else body

def sendConnack (i : Fin cfg.maxClients) (sessionPresent : Bool) (reason : ReasonCode)
    (assignedId : Option Bytes) : Status × Broker cfg :=
  let body := connackBody cfg (b.clients.get i).protocolLevel sessionPresent reason assignedId
  if body.status ≠ .ok then (body.status, b)
  else b.sendPacket (b.clients.get i).handle .connack 0 body.data

end Broker
end Castle.Mqtt

/-!
## QoS tables and `publish_message` (`broker.hpp`)
-/

namespace Castle.Mqtt

open Net

namespace Broker

variable {cfg : BrokerConfig} (b : Broker cfg)

def findQos (entries : Table cfg.maxOutstanding QosEntry) (identifier : UInt16) :
    Option (Fin cfg.maxOutstanding) :=
  entries.firstIdx fun e => e.used && e.identifier = identifier

theorem findQos_none {entries : Table cfg.maxOutstanding QosEntry} {identifier : UInt16} :
    findQos entries identifier = none ↔ ¬entries.Holds identifier :=
  Table.lookup_none

theorem findQos_some {entries : Table cfg.maxOutstanding QosEntry} {identifier : UInt16}
    {k : Fin cfg.maxOutstanding} (h : findQos entries identifier = some k) :
    (entries.get k).used = true ∧ (entries.get k).identifier = identifier :=
  Table.lookup_some h

def allocateQos (entries : Table cfg.maxOutstanding QosEntry) : Option (Fin cfg.maxOutstanding) :=
  entries.firstIdx fun e => !e.used

def storeOutgoing (i : Fin cfg.maxClients) (k : Fin cfg.maxOutstanding) (entry : QosEntry) :
    Broker cfg :=
  b.modifyClient i fun s => { s with outgoing := s.outgoing.set k entry }

def releaseOutgoing (i : Fin cfg.maxClients) (k : Fin cfg.maxOutstanding) : Broker cfg :=
  b.modifyClient i fun s =>
    { s with outgoing := s.outgoing.modify k fun e => { e with used := false } }

/-- The frame of `send_publish_to`, when the packet body fits. -/
def publishBody (cfg : BrokerConfig) (level : UInt8) (topic payload : Bytes) (quality : Qos)
    (identifier : UInt16) : PacketWriter :=
  let body := ({ capacity := cfg.maxPacketSize } : PacketWriter).putUtf8 topic
  let body := if quality ≠ .atMostOnce then body.putU16 identifier else body
  let body := if level = 5 then body.putU8 0 else body
  body.putBytes payload

def publishFlags (quality : Qos) (retain duplicate : Bool) : UInt8 :=
  UInt8.ofNat (quality.toNat * 2) ||| (if retain then 0x01 else 0) |||
    (if duplicate then 0x08 else 0)

/-- The outgoing slot taken for a QoS 1 or 2 delivery: its index and identifier. -/
def reserveOutgoing (i : Fin cfg.maxClients) (topic payload : Bytes) (quality : Qos)
    (retain : Bool) : Option (Fin cfg.maxOutstanding × UInt16) × Broker cfg :=
  let state := b.clients.get i
  match allocateQos state.outgoing with
  | none => (none, b)
  | some k =>
    let search := searchIdentifier (fun id => (findQos state.outgoing id).isSome) 65535
      state.nextPacketIdentifier
    let b := b.modifyClient i fun s => { s with nextPacketIdentifier := search.1 }
    if !search.2 then (none, b)
    else
      let entry : QosEntry :=
        { used := true
          identifier := search.1
          state := .first quality
          quality, topic := cstr topic, payload, retain }
      (some (k, search.1), b.storeOutgoing i k entry)

def sendPublishTo (h : ClientHandle) (topic payload : Bytes) (quality : Qos) (retain : Bool) :
    Status × Broker cfg :=
  match b.findClient h with
  | none => (.outOfRange, b)
  | some i =>
    if cfg.maxTopicLength ≤ topic.length ∨ cfg.maxPayloadSize < payload.length then (.outOfRange, b)
    else if quality = .atMostOnce then
      let body := publishBody cfg (b.clients.get i).protocolLevel topic payload quality 0
      if body.status ≠ .ok then (body.status, b)
      else b.sendPacket h .publish (publishFlags quality retain false) body.data
    else
      match b.reserveOutgoing i topic payload quality retain with
      | (none, b) => (.full, b)
      | (some (k, identifier), b) =>
        let body :=
          publishBody cfg (b.clients.get i).protocolLevel topic payload quality identifier
        if body.status ≠ .ok then (body.status, b.releaseOutgoing i k)
        else
          let (result, b) := b.sendPacket h .publish (publishFlags quality retain false) body.data
          (result, if result ≠ .ok then b.releaseOutgoing i k else b)

def findRetained (topic : Bytes) : Option (Fin cfg.maxRetained) :=
  b.retained.firstIdx fun r => r.used && r.topic = topic

def allocateRetained : Option (Fin cfg.maxRetained) := b.retained.firstIdx fun r => !r.used

/-- The `if (retain)` block of `publish_message`. -/
def updateRetained (topic payload : Bytes) (quality : Qos) : Broker cfg :=
  if payload = [] then
    match b.findRetained topic with
    | some k => { b with retained := b.retained.modify k fun r => { r with used := false } }
    | none => b
  else
    match (b.findRetained topic).or b.allocateRetained with
    | some k => { b with retained := b.retained.set k ⟨true, cstr topic, payload, quality⟩ }
    | none => b

/-- The subscription loop of `publish_message` for one recipient: whether a
filter matched, and the best granted quality. -/
def matchSubscriptions (clientId topic : Bytes) : Bool × Qos :=
  b.subscriptions.cells.foldl
    (fun best sub =>
      if sub.used && sub.clientId = clientId && topicMatches sub.filter topic then
        (true, if best.2.toNat < sub.maximumQuality.toNat then sub.maximumQuality else best.2)
      else best)
    (false, .atMostOnce)

/-- The body of the client loop of `publish_message`. -/
def publishToClient (p : Publication) (b : Broker cfg) (i : Fin cfg.maxClients) : Broker cfg :=
  let recipient := b.clients.get i
  if !recipient.used || recipient.clientId = [] || recipient.closePending then b
  else
    let best := b.matchSubscriptions recipient.clientId p.topic
    if best.1 then
      let delivery := if p.quality.toNat < best.2.toNat then p.quality else best.2
      (b.sendPublishTo recipient.handle p.topic p.payload delivery false).2
    else b

def publishMessage (p : Publication) : Broker cfg :=
  let b := { b with trace := b.trace ++ [.published p] }
  let b := if p.retain then b.updateRetained p.topic p.payload p.quality else b
  (List.finRange cfg.maxClients).foldl (publishToClient p) b

end Broker
end Castle.Mqtt

/-!
## The session table, wills and closing (`broker.hpp`)
-/

namespace Castle.Mqtt

open Net

namespace Broker

variable {cfg : BrokerConfig} (b : Broker cfg)

def sessionExists (id : Bytes) : Bool :=
  (b.sessions.firstIdx fun s => s.used && s.clientId = id).isSome

def clearSession (id : Bytes) : Broker cfg :=
  { b with
    subscriptions := b.subscriptions.map fun s =>
      if s.used && s.clientId = id then { s with used := false } else s
    sessions := b.sessions.map fun s =>
      if s.used && s.clientId = id then { s with used := false } else s }

def ensureSession (id : Bytes) : Bool × Broker cfg :=
  match b.sessions.firstIdx fun s => s.used && s.clientId = id with
  | some k => (true, { b with sessions := b.sessions.modify k fun s => { s with expiresAtMs := 0 } })
  | none =>
    match b.sessions.firstIdx fun s => !s.used with
    | some k => (true, { b with sessions := b.sessions.set k ⟨true, id, 0⟩ })
    | none => (false, b)

/-- `static_cast<int32_t>(now - expires_at) >= 0` -/
def SessionEntry.expired (now : UInt32) (s : SessionEntry) : Bool :=
  s.used && s.expiresAtMs ≠ 0 && (now - s.expiresAtMs).toNat < 2 ^ 31

/-- The body of the loop of `prune_sessions`. -/
def pruneSession (now : UInt32) (b : Broker cfg) (k : Fin cfg.maxClients) : Broker cfg :=
  if SessionEntry.expired now (b.sessions.get k) then b.clearSession (b.sessions.get k).clientId
  else b

def pruneSessions (now : UInt32) : Broker cfg :=
  (List.finRange cfg.maxClients).foldl (pruneSession now) b

/-- The `do … while` that writes the digits of a 32-bit value, least first. -/
def decimalDigits : ℕ → ℕ → Bytes
  | 0, _ => []
  | fuel + 1, value =>
    UInt8.ofNat (48 + value % 10) ::
      (if value / 10 ≠ 0 then decimalDigits fuel (value / 10) else [])

/-- `"castle-"` -/
def assignedPrefix : Bytes := [0x63, 0x61, 0x73, 0x74, 0x6C, 0x65, 0x2D]

/-- `assign_client_id` with `attempts` turns of its loop left. -/
def assignClientId : ℕ → Broker cfg → Option Bytes × Broker cfg
  | 0, b => (none, b)
  | attempts + 1, b =>
    let digits := decimalDigits 10 b.nextAssignedId.toNat
    let b := { b with nextAssignedId := b.nextAssignedId + 1 }
    if assignedPrefix.length + digits.length + 1 > cfg.maxTopicLength then (none, b)
    else
      let id := assignedPrefix ++ digits.reverse
      if b.sessionExists id then assignClientId attempts b else (some id, b)

def publishWill (i : Fin cfg.maxClients) : Broker cfg :=
  let s := b.clients.get i
  let b :=
    if s.willPresent && s.willPending && s.willTopic ≠ [] then
      b.publishMessage ⟨s.willTopic, s.willPayload, s.willQuality, s.willRetain⟩
    else b
  b.modifyClient i fun s => { s with willPending := false }

/-- `if (state.will_pending) publish_will(state);` -/
def publishPendingWill (i : Fin cfg.maxClients) : Broker cfg :=
  if (b.clients.get i).willPending then b.publishWill i else b

/-- The session of a closed connection starts to expire. -/
def startExpiry (now : UInt32) (clientId : Bytes) (seconds : UInt32) : Broker cfg :=
  { b with sessions := b.sessions.map fun s =>
      if s.used && s.clientId = clientId then
        { s with expiresAtMs := if seconds = 0 then 0 else now + seconds * 1000 }
      else s }

/-- The session of a connection that closes: it starts to expire, or it ends. -/
def endSession (now : UInt32) (i : Fin cfg.maxClients) : Broker cfg :=
  let s := b.clients.get i
  if s.clientId ≠ [] then
    if s.keepsSession then b.startExpiry now s.clientId s.sessionExpirySeconds
    else b.clearSession s.clientId
  else b

def closeState (now : UInt32) (i : Fin cfg.maxClients) (unexpected : Bool) : Broker cfg :=
  let b := if unexpected then b.publishPendingWill i else b
  (b.endSession now i).modifyClient i fun s => { s with used := false }

end Broker
end Castle.Mqtt
