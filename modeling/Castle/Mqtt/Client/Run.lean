import Castle.Lib.BoundedOutput
import Castle.Mqtt.Client.Receive

/-!
# Runs of the client

The public calls, and the rule by which a property of the client's state that
every handler and every step around the receive loop keeps is kept by whole
calls. `A` restricts the packets that are handled.
-/

namespace Castle.Mqtt

open Net

/-- A small configuration, for runs on concrete bytes. -/
def smallClient : ClientConfig :=
  { receiveBufferSize := 64, maxPacketSize := 64, maxOutstanding := 2, maxTopicLength := 16
    maxPayloadSize := 16 }

/-- A call of the application on the client, with what the socket answers. -/
inductive ClientCall where
  | connect (options : ConnectOptions) (tcp : Status) (received : List Receive)
  | poll (now : UInt32) (received : Receive)
  | publish (topic payload : Bytes) (quality : Qos) (retain : Bool)
  | subscribe (filters : List (Bytes × Qos))
  | unsubscribe (filters : List Bytes)
  | disconnect (reason : ReasonCode)
  | forceClose
  | setMessageCallback
  | clearMessageCallback
  | transportOpen (value : Bool)

namespace Client

variable {cfg : ClientConfig}

/-- A call from outside of the callback, and the packets that were handled in it. -/
def call (c : Client cfg) :
    ClientCall → Except Fault (Client cfg × List (Client cfg × PacketView))
  | .connect options tcp received => do
    let (_, c, handed) ← c.connect options tcp received
    .ok (c, handed)
  | .poll now received => do
    let (_, c, handed) ← c.poll now received
    .ok (c, handed)
  | .publish topic payload quality retain => .ok ((c.publish topic payload quality retain).2, [])
  | .subscribe filters => .ok ((c.subscribe filters).2.2, [])
  | .unsubscribe filters => .ok ((c.unsubscribe filters).2.2, [])
  | .disconnect reason => .ok ((c.disconnect reason).2, [])
  | .forceClose => .ok (c.forceClose, [])
  | .setMessageCallback => .ok ({ c with hasCallback := true }, [])
  | .clearMessageCallback => .ok ({ c with hasCallback := false }, [])
  | .transportOpen value => .ok ({ c with transportOpen := value }, [])

/-- A sequence of calls, and the packets that were handled in it. -/
def runCalls (c : Client cfg) :
    List ClientCall → Except Fault (Client cfg × List (Client cfg × PacketView))
  | [] => .ok (c, [])
  | k :: calls => do
    let (c, handed) ← c.call k
    let (c, handed') ← runCalls c calls
    .ok (c, handed ++ handed')

/-- A new client; `sendResults` and `callbackScript` are what its environment will do. -/
def initial (sendResults : List Status) (callbackScript : List (List ApiCall)) : Client cfg :=
  { sendResults, callbackScript }

/-- `c'` is `c` with other bytes in its receive buffer, verdict or receive time. -/
def ReceivesOnly (c c' : Client cfg) : Prop :=
  ∃ rx rxSize fatal lastError lastRxMs, c' = { c with rx, rxSize, fatal, lastError, lastRxMs } ∧
    (c.rxSize ≤ cfg.maxPacketSize + cfg.receiveBufferSize →
      rxSize ≤ cfg.maxPacketSize + cfg.receiveBufferSize)

/-- `P` is kept by every step of a call, when the packets handled satisfy `A`. -/
structure Kept (P : Client cfg → Prop) (A : Client cfg → PacketView → Prop) : Prop where
  receives : ∀ c c', ReceivesOnly c c' → P c → P c'
  handlePacket : ∀ c packet, P c → A c packet → P (c.handlePacket packet).2
  connectBegin : ∀ c options tcp, P c → P (c.connectBegin options tcp).2
  connectTurn : ∀ c result, P c → P (c.connectTurn result).2
  connectEnd : ∀ c options, P c → P (c.connectEnd options).2
  pollBegin : ∀ c now, P c → P (c.pollBegin now)
  pollEnd : ∀ c result, P c → P (c.pollEnd result).2
  runCall : ∀ c call, P c → P (c.runCall call)
  callback : ∀ (c : Client cfg) value, P c → P { c with hasCallback := value }

namespace Kept

variable {P : Client cfg → Prop} {A : Client cfg → PacketView → Prop} (h : Kept P A)
include h

variable {handed : List (Client cfg × PacketView)}

theorem receiveLoop {fuel : ℕ} {c c' : Client cfg} {consumed : ℕ} {stop : Option ℕ}
    (hr : Client.receiveLoop fuel c consumed = .ok (stop, c', handed)) (hc : P c)
    (ha : ∀ q ∈ handed, A q.1 q.2) : P c' ∧ ∀ q ∈ handed, P q.1 := by
  induction fuel generalizing c consumed stop c' handed with
  | zero =>
    unfold Client.receiveLoop at hr
    split at hr
    · cases hr
      exact ⟨hc, by simp⟩
    · cases hr
  | succ fuel ih =>
    unfold Client.receiveLoop at hr
    split at hr
    · cases hr
      exact ⟨hc, by simp⟩
    split at hr
    · cases hr
    split at hr
    · cases hr
      exact ⟨hc, by simp⟩
    · cases hr
      exact ⟨h.receives _ _ ⟨_, _, _, _, _, rfl, id⟩ hc, by simp⟩
    next packet _ =>
    split at hr
    next c₁ he =>
      split at hr
      · cases hr
      next stop₁ c₂ handed₁ hloop =>
      cases hr
      have hp : P c₁ := by
        simpa [he] using h.handlePacket c packet hc (ha (c, packet) (by simp))
      obtain ⟨hfin, hall⟩ := ih hloop (h.receives _ _ ⟨_, _, _, _, _, rfl, id⟩ hp)
        fun q hq => ha q (List.mem_cons_of_mem _ hq)
      exact ⟨hfin, by simpa [hc] using hall⟩
    next status c₁ _ he =>
      cases hr
      have hp : P c₁ := by
        simpa [he] using h.handlePacket c packet hc (ha (c, packet) (by simp))
      exact ⟨h.receives _ _ ⟨_, _, _, _, _, rfl, id⟩ hp, by simpa using hc⟩

theorem pushRx {c c' : Client cfg} {data : Bytes} (hr : data.foldlM Client.pushRx c = .ok c')
    (hc : P c) : P c' := by
  induction data generalizing c with
  | nil =>
    cases hr
    exact hc
  | cons value data ih =>
    rw [List.foldlM_cons] at hr
    obtain ⟨c₁, hp, hr⟩ := bind_eq_ok.mp hr
    refine ih hr ?_
    unfold Client.pushRx at hp
    split at hp
    next hlt =>
      cases hp
      exact h.receives _ _ ⟨_, _, _, _, _, rfl, fun _ => hlt⟩ hc
    · cases hp

theorem receiveBytes {c c' : Client cfg} {data : Bytes}
    (hr : c.receiveBytes data = .ok (c', handed)) (hc : P c) (ha : ∀ q ∈ handed, A q.1 q.2) :
    P c' := by
  unfold Client.receiveBytes at hr
  split at hr
  · cases hr
    exact h.receives _ _ ⟨_, _, _, _, _, rfl, id⟩ hc
  obtain ⟨c₁, hp, hr⟩ := bind_eq_ok.mp hr
  obtain ⟨⟨stop, c₂, handed₂⟩, hl, hr⟩ := bind_eq_ok.mp hr
  have hloop := h.receiveLoop hl (h.pushRx hp hc)
  dsimp only at hr
  split at hr
  · cases hr
    exact (hloop ha).1
  · cases hr
    exact (hloop ha).1
  · obtain ⟨c₃, hk, hr⟩ := bind_eq_ok.mp hr
    cases hr
    unfold Client.compactRx at hk
    split at hk
    · cases hk
    split at hk
    · cases hk
    · cases hk
      exact h.receives _ _ ⟨_, _, _, _, _, rfl, fun hle => (Nat.sub_le _ _).trans hle⟩ (hloop ha).1

theorem processOnce {c c' : Client cfg} {received : Receive} {result : Status}
    (hr : c.processOnce received = .ok (result, c', handed)) (hc : P c)
    (ha : ∀ q ∈ handed, A q.1 q.2) : P c' := by
  unfold Client.processOnce at hr
  split at hr
  · cases hr
    exact hc
  split at hr
  · cases hr
    exact hc
  · cases hr
    exact hc
  · cases hr
    exact h.runCall c (.transportOpen false) hc
  · cases hr
    exact hc
  · obtain ⟨⟨c₁, handed₁⟩, hb, hr⟩ := bind_eq_ok.mp hr
    cases hr
    exact h.receiveBytes hb hc ha

theorem connectLoop {attempts : ℕ} {received : List Receive} {c c' : Client cfg}
    {status : Option Status}
    (hr : Client.connectLoop attempts received c = .ok (status, c', handed)) (hc : P c)
    (ha : ∀ q ∈ handed, A q.1 q.2) : P c' := by
  induction attempts generalizing received c status handed with
  | zero =>
    cases hr
    exact hc
  | succ attempts ih =>
    unfold Client.connectLoop at hr
    split at hr
    · cases hr
      exact hc
    obtain ⟨⟨result, c₁, handed₁⟩, hp, hr⟩ := bind_eq_ok.mp hr
    have ht : ∀ hall : ∀ q ∈ handed₁, A q.1 q.2, P (c₁.connectTurn result).2 :=
      fun hall => h.connectTurn c₁ result (h.processOnce hp hc hall)
    dsimp only at hr
    split at hr
    next status₁ c₂ he =>
      cases hr
      simpa [he] using ht ha
    next c₂ he =>
      obtain ⟨⟨status₂, c₃, handed₂⟩, hl, hr⟩ := bind_eq_ok.mp hr
      cases hr
      refine ih hl ?_ fun q hq => ha q (List.mem_append_right _ hq)
      simpa [he] using ht fun q hq => ha q (List.mem_append_left _ hq)

theorem connect {c c' : Client cfg} {options : ConnectOptions} {tcp result : Status}
    {received : List Receive} (hr : c.connect options tcp received = .ok (result, c', handed))
    (hc : P c) (ha : ∀ q ∈ handed, A q.1 q.2) : P c' := by
  have hb := h.connectBegin c options tcp hc
  unfold Client.connect at hr
  split at hr
  next status c₁ he =>
    cases hr
    simpa [he] using hb
  next c₁ he =>
    rw [he] at hb
    obtain ⟨⟨status, c₂, handed₂⟩, hl, hr⟩ := bind_eq_ok.mp hr
    have hloop := fun hall => h.connectLoop hl hb hall
    dsimp only at hr
    split at hr
    · cases hr
      exact hloop ha
    · cases hr
      exact h.connectEnd c₂ options (hloop ha)

theorem poll {c c' : Client cfg} {now : UInt32} {received : Receive} {result : Status}
    (hr : c.poll now received = .ok (result, c', handed)) (hc : P c) (ha : ∀ q ∈ handed, A q.1 q.2)
    : P c' := by
  unfold Client.poll at hr
  split at hr
  · cases hr
    exact hc
  obtain ⟨⟨result₁, c₁, handed₁⟩, hp, hr⟩ := bind_eq_ok.mp hr
  cases hr
  exact h.pollEnd c₁ result₁ (h.processOnce hp (h.pollBegin c now hc) ha)

theorem call {c c' : Client cfg} {k : ClientCall} (hr : c.call k = .ok (c', handed)) (hc : P c)
    (ha : ∀ q ∈ handed, A q.1 q.2) : P c' := by
  cases k with
  | connect options tcp received =>
    obtain ⟨⟨result, c₁, handed₁⟩, he, hr⟩ := bind_eq_ok.mp hr
    cases hr
    exact h.connect he hc ha
  | poll now received =>
    obtain ⟨⟨result, c₁, handed₁⟩, he, hr⟩ := bind_eq_ok.mp hr
    cases hr
    exact h.poll he hc ha
  | publish topic payload quality retain =>
    cases hr
    exact h.runCall c (.publish topic payload quality retain) hc
  | subscribe filters =>
    cases hr
    exact h.runCall c (.subscribe filters) hc
  | unsubscribe filters =>
    cases hr
    exact h.runCall c (.unsubscribe filters) hc
  | disconnect reason =>
    cases hr
    exact h.runCall c (.disconnect reason) hc
  | forceClose =>
    cases hr
    exact h.runCall c .forceClose hc
  | setMessageCallback =>
    cases hr
    exact h.callback c true hc
  | clearMessageCallback =>
    cases hr
    exact h.callback c false hc
  | transportOpen value =>
    cases hr
    exact h.runCall c (.transportOpen value) hc

theorem runCalls {c c' : Client cfg} {calls : List ClientCall}
    (hr : c.runCalls calls = .ok (c', handed)) (hc : P c) (ha : ∀ q ∈ handed, A q.1 q.2) :
    P c' := by
  induction calls generalizing c handed with
  | nil =>
    cases hr
    exact hc
  | cons k calls ih =>
    obtain ⟨⟨c₁, handed₁⟩, hk, hr⟩ := bind_eq_ok.mp hr
    obtain ⟨⟨c₂, handed₂⟩, hl, hr⟩ := bind_eq_ok.mp hr
    cases hr
    have hc₁ := h.call hk hc fun q hq => ha q (List.mem_append_left _ hq)
    exact ih hl hc₁ fun q hq => ha q (List.mem_append_right _ hq)

end Kept

/-- The states a client passes through, between its calls, between the packets of a
call and between the calls that its callback makes. The contents of the receive
buffer are left arbitrary. -/
inductive Reachable : Client cfg → Prop
  | initial (sendResults : List Status) (callbackScript : List (List ApiCall)) :
      Reachable (initial sendResults callbackScript)
  | call {c c' : Client cfg} {k : ClientCall} {handed : List (Client cfg × PacketView)} :
      Reachable c → c.call k = .ok (c', handed) → Reachable c'
  | receives {c c' : Client cfg} : Reachable c → ReceivesOnly c c' → Reachable c'
  | handlePacket {c : Client cfg} (packet : PacketView) :
      Reachable c → Reachable (c.handlePacket packet).2
  | callback {c : Client cfg} {calls : List ApiCall} (message : MessageView) :
      Reachable c → calls <+: c.callbackScript.headD [] →
        Reachable (calls.foldl runCall (c.enterCallback message))

theorem Reachable.runCalls {c c' : Client cfg} {calls : List ClientCall}
    {handed : List (Client cfg × PacketView)} (h : Reachable c)
    (hr : c.runCalls calls = .ok (c', handed)) : Reachable c' := by
  induction calls generalizing c handed with
  | nil =>
    cases hr
    exact h
  | cons k calls ih =>
    obtain ⟨⟨c₁, handed₁⟩, hk, hr⟩ := bind_eq_ok.mp hr
    obtain ⟨⟨c₂, handed₂⟩, hl, hr⟩ := bind_eq_ok.mp hr
    cases hr
    exact ih (h.call hk) hl

end Client
end Castle.Mqtt

/-!
## What the steps of the client leave unchanged

`Talks` bounds what the calls and handlers that neither open nor close anything
can change: the tables and counters, and frames sent on an open socket.
-/

namespace Castle.Mqtt
namespace Client

open Net

variable {cfg : ClientConfig} (c : Client cfg)

/-- `c'` is `c` after frames on the same connection. -/
structure Talks (c c' : Client cfg) : Prop where
  frames : ∃ frames, c'.trace = c.trace ++ frames ∧
    ∀ e ∈ frames, e.isSent = true ∧ c.transportOpen = true
  callbackScript : c'.callbackScript = c.callbackScript
  hasCallback : c'.hasCallback = c.hasCallback
  connected : c'.connected = c.connected
  connecting : c'.connecting = c.connecting
  transportOpen : c'.transportOpen = c.transportOpen
  options : c'.options = c.options
  rx : c'.rx = c.rx
  rxSize : c'.rxSize = c.rxSize

theorem Talks.trans {c₁ c₂ c₃ : Client cfg} (h : Talks c₁ c₂) (h' : Talks c₂ c₃) : Talks c₁ c₃ := by
  refine ⟨?_, h'.callbackScript.trans h.callbackScript, h'.hasCallback.trans h.hasCallback,
    h'.connected.trans h.connected, h'.connecting.trans h.connecting,
    h'.transportOpen.trans h.transportOpen, h'.options.trans h.options, h'.rx.trans h.rx,
    h'.rxSize.trans h.rxSize⟩
  obtain ⟨frames, he, hf⟩ := h.frames
  obtain ⟨frames', he', hf'⟩ := h'.frames
  rw [h.transportOpen] at hf'
  refine ⟨frames ++ frames', by rw [he', he, List.append_assoc], fun e hmem => ?_⟩
  exact (List.mem_append.mp hmem).elim (hf e) (hf' e)

theorem SendsOnly.talks {c c' : Client cfg} (h : SendsOnly c c') : Talks c c' := by
  obtain ⟨_, frames, _, _, rfl, hf⟩ := h
  exact ⟨⟨frames, rfl, hf⟩, rfl, rfl, rfl, rfl, rfl, rfl, rfl, rfl⟩

theorem Talks.tables (outgoing incoming requests nextIdentifier lastAcknowledgedId
    pingOutstanding pingSentMs) :
    Talks c { c with
      outgoing, incoming, requests, nextIdentifier, lastAcknowledgedId, pingOutstanding
      pingSentMs } :=
  ⟨⟨[], by simp, by simp⟩, rfl, rfl, rfl, rfl, rfl, rfl, rfl, rfl⟩

theorem Talks.refl : Talks c c := .tables c _ _ _ _ _ _ _

theorem allocateOutgoing_talks : Talks c c.allocateOutgoing.2 := by
  unfold allocateOutgoing
  split
  · exact .refl c
  · exact .tables c _ _ _ _ _ _ _

theorem publish_talks (topic payload : Bytes) (quality : Qos) (retain : Bool) :
    Talks c (c.publish topic payload quality retain).2 := by
  unfold publish
  split
  · exact .refl c
  split
  · exact .refl c
  split
  · exact .refl c
  split
  · exact (c.sendPublish_sendsOnly ..).talks
  have ha := c.allocateOutgoing_talks
  generalize c.allocateOutgoing = r at ha ⊢
  obtain ⟨_ | ⟨k, id⟩, c₁⟩ := r
  · exact ha
  dsimp only at ha ⊢
  have hstore (e : OutgoingEntry) : Talks c (c₁.storeOutgoing k e) :=
    ha.trans (.tables c₁ _ _ _ _ _ _ _)
  have hsent := fun e => (hstore e).trans
    (sendPublish_sendsOnly _ topic payload quality retain id false).talks
  split
  · exact (hsent _).trans (.tables _ _ _ _ _ _ _ _)
  · exact hsent _

theorem reserveRequest_talks (id : UInt16) (type : PacketType) :
    Talks c (c.reserveRequest id type).2 := by
  unfold reserveRequest
  split
  · exact .tables c _ _ _ _ _ _ _
  · exact .refl c

theorem sendRequest_talks (type : PacketType) (filters : List (Bytes × Bytes)) :
    Talks c (c.sendRequest type filters).2.2 := by
  unfold sendRequest
  split
  · exact .refl c
  split
  · exact .refl c
  have ha : Talks c c.allocateIdentifier.2 := .tables c _ _ _ _ _ _ _
  generalize c.allocateIdentifier = r at ha ⊢
  obtain ⟨id, c₁⟩ := r
  dsimp only at ha ⊢
  split
  · exact ha
  split
  · exact ha
  next body _ =>
  have hr := ha.trans (c₁.reserveRequest_talks id type)
  generalize c₁.reserveRequest id type = r at hr ⊢
  obtain ⟨_ | _, c₂⟩ := r
  · exact hr
  dsimp only at hr ⊢
  have hsent := hr.trans (c₂.sendBody_sendsOnly type 0x02 body.data).talks
  split
  · exact hsent
  split
  · exact hsent.trans (.tables _ _ _ _ _ _ _ _)
  · exact hsent

theorem handleAck_talks (reader : PacketReader) (expected : ClientOutgoingState)
    (type : PacketType) : Talks c (c.handleAck reader expected type).2 := by
  unfold handleAck
  split
  · exact .refl c
  split
  · exact .refl c
  next k _ =>
  split
  · exact .refl c
  dsimp only
  split
  · exact .tables c _ _ _ _ _ _ _
  split
  · have hmove (id : UInt16) :
        Talks c (({ c with lastAcknowledgedId := id } : Client cfg).awaitPubcomp k) :=
      .tables c _ _ _ _ _ _ _
    exact (hmove _).trans (sendIdentifier_sendsOnly ..).talks
  · exact .tables c _ _ _ _ _ _ _

theorem acknowledgeRequest_talks (identifier : UInt16) (type : PacketType) :
    Talks c (c.acknowledgeRequest identifier type).2 := by
  unfold acknowledgeRequest
  split
  · exact .refl c
  · exact .tables c _ _ _ _ _ _ _

theorem handleSuback_talks (reader : PacketReader) : Talks c (c.handleSuback reader).2 := by
  unfold handleSuback
  split
  · exact .refl c
  split
  · exact .refl c
  split
  · exact .refl c
  · exact c.acknowledgeRequest_talks ..

theorem handleUnsuback_talks (reader : PacketReader) : Talks c (c.handleUnsuback reader).2 := by
  unfold handleUnsuback
  split
  · exact .refl c
  split
  · exact .refl c
  · exact c.acknowledgeRequest_talks ..

def onlyTalks : PacketType → Bool
  | .connack | .publish | .pubrel | .disconnect => false
  | _ => true

theorem handlePacket_talks {packet : PacketView} (ht : onlyTalks packet.type = true) :
    Talks c (c.handlePacket packet).2 := by
  unfold handlePacket
  dsimp only
  split
  case h_1 h | h_2 h | h_6 h | h_10 h =>
    rw [h] at ht
    cases ht
  · exact c.handleAck_talks ..
  · exact c.handleAck_talks ..
  · exact c.handleAck_talks ..
  · exact c.handleSuback_talks _
  · exact c.handleUnsuback_talks _
  · split
    · exact .refl c
    · exact .tables c _ _ _ _ _ _ _
  · exact .refl c
  · exact .refl c

end Client
end Castle.Mqtt
