import Castle.Lib.Steps
import Castle.Mqtt.Client.Run

/-!
# The phase before CONNACK

The client delivers messages and sends packets other than CONNECT only behind a
CONNACK with return code 0, unless a packet that comes before it is accepted: the
dispatcher checks `connected_` for DISCONNECT only.
-/

namespace Castle.Mqtt

open Net

/-- Whether a CONNACK with return code 0 was processed since TCP was connected. -/
def acceptedAfter (accepted : Bool) : ClientEvent → Bool
  | .opened => false
  | .connack code => accepted || code = 0
  | _ => accepted

def accepted (trace : List ClientEvent) : Bool := trace.foldl acceptedAfter false

def ClientEvent.needsConnack : ClientEvent → Bool
  | .delivered _ => true
  | .sent type .. => type ≠ .connect
  | _ => false

/-- Messages are delivered and packets other than CONNECT sent only behind a CONNACK
with return code 0. -/
def InPhase (trace : List ClientEvent) : Prop :=
  AtEach trace fun before e => e.needsConnack = true → accepted before = true

theorem accepted_snoc (trace : List ClientEvent) (e : ClientEvent) :
    accepted (trace ++ [e]) = acceptedAfter (accepted trace) e := by
  simp [accepted]

theorem accepted_append_sent (trace : List ClientEvent) {frames : List ClientEvent}
    (h : ∀ e ∈ frames, e.isSent = true) : accepted (trace ++ frames) = accepted trace := by
  induction frames using List.reverseRecOn with
  | nil => simp
  | append_singleton frames e ih =>
    have he := h e (by simp)
    rw [← List.append_assoc, accepted_snoc, ih fun e he => h e (by simp [he])]
    cases e with
    | sent type frame result => rfl
    | _ => cases he

theorem InPhase.append_sent {trace frames : List ClientEvent} (h : InPhase trace)
    (hs : ∀ e ∈ frames, e.isSent = true) (ha : frames ≠ [] → accepted trace = true) :
    InPhase (trace ++ frames) := by
  induction frames using List.reverseRecOn with
  | nil => simpa using h
  | append_singleton frames e ih =>
    have hs' : ∀ e ∈ frames, e.isSent = true := fun e he => hs e (by simp [he])
    have ha' := ha (by simp)
    rw [← List.append_assoc]
    refine AtEach.snoc.mpr ⟨ih hs' fun _ => ha', fun _ => ?_⟩
    rw [accepted_append_sent trace hs', ha']

namespace Client

variable {cfg : ClientConfig} {c c' : Client cfg} {r : Bool}

/-- The client is in phase; with `r` an open socket is one of an accepted connection,
as it is while a handler of a connected client runs. -/
structure Phased (r : Bool) (c : Client cfg) : Prop where
  trace : InPhase c.trace
  connected : c.connected = true → accepted c.trace = true
  script : ∀ calls ∈ c.callbackScript, ApiCall.transportOpen true ∉ calls
  ready : r = true → c.transportOpen = true → accepted c.trace = true

theorem Phased.quiet (h : Phased r c) (ht : c'.trace = c.trace)
    (hs : c'.callbackScript = c.callbackScript) (hc : c'.connected = true → c.connected = true)
    (ho : c'.transportOpen = true → c.transportOpen = true) : Phased r c' where
  trace := ht ▸ h.trace
  connected hc' := ht ▸ h.connected (hc hc')
  script := hs ▸ h.script
  ready hr ho' := ht ▸ h.ready hr (ho ho')

theorem Phased.talks (h : Phased r c) (ht : Talks c c')
    (ha : c.transportOpen = true → c'.trace ≠ c.trace → accepted c.trace = true) : Phased r c' := by
  obtain ⟨frames, he, hf⟩ := ht.frames
  have hsent : ∀ e ∈ frames, e.isSent = true := fun e he => (hf e he).1
  have hacc : accepted c'.trace = accepted c.trace := by rw [he, accepted_append_sent _ hsent]
  refine ⟨?_, fun hc => ?_, ht.callbackScript ▸ h.script, fun hr ho => ?_⟩
  · rw [he]
    refine h.trace.append_sent hsent fun hne => ?_
    obtain ⟨e, hmem⟩ := List.exists_mem_of_ne_nil frames hne
    exact ha (hf e hmem).2 (by simpa [he] using hne)
  · rw [hacc]
    exact h.connected (ht.connected ▸ hc)
  · rw [hacc]
    exact h.ready hr (ht.transportOpen ▸ ho)

theorem Phased.talks_connected (h : Phased r c) (ht : Talks c c') (hc : c.connected = true) :
    Phased r c' :=
  h.talks ht fun _ _ => h.connected hc

theorem Phased.talks_ready (h : Phased true c) (ht : Talks c c') : Phased true c' :=
  h.talks ht fun ho _ => h.ready rfl ho

theorem Phased.toReady (h : Phased r c) (hc : c.connected = true) : Phased true c :=
  ⟨h.trace, h.connected, h.script, fun _ _ => h.connected hc⟩

theorem Phased.weaken (h : Phased r c) : Phased false c :=
  ⟨h.trace, h.connected, h.script, fun hr => absurd hr (by decide)⟩

theorem Phased.forceClose (h : Phased false c) : Phased r c.forceClose where
  trace := h.trace
  connected hc := absurd hc (by simp [Client.forceClose])
  script := h.script
  ready _ ho := absurd ho (by simp [Client.forceClose])

theorem Phased.setLastError (h : Phased r c) (status : Status) : Phased r (c.setLastError status) :=
  h.quiet rfl rfl id id

theorem publish_unconnected (hc : c.connected = false) (topic payload : Bytes) (quality : Qos)
    (retain : Bool) : (c.publish topic payload quality retain).2 = c := by
  simp [publish, hc]

theorem sendRequest_unconnected (hc : c.connected = false) (type : PacketType)
    (filters : List (Bytes × Bytes)) : (c.sendRequest type filters).2.2 = c := by
  simp [sendRequest, hc]

theorem Phased.talks_if_connected (h : Phased r c) (ht : Talks c c')
    (hc : c.connected = false → c' = c) : Phased r c' := by
  cases hconn : c.connected with
  | true => exact h.talks_connected ht hconn
  | false =>
    rw [hc hconn]
    exact h

theorem Phased.disconnect (h : Phased r c) (reason : ReasonCode) :
    Phased r (c.disconnect reason).2 := by
  unfold Client.disconnect
  split
  · exact h
  · refine Phased.forceClose (h.talks_if_connected (c.sendDisconnect_sendsOnly reason).talks ?_).weaken
    intro hc
    simp [sendDisconnect, hc]

theorem Phased.checkKeepAlive (h : Phased r c) (result : Status) :
    Phased r (c.checkKeepAlive result).2 := by
  unfold Client.checkKeepAlive
  dsimp only
  split
  next hc =>
    have hc : c.connected = true := (Bool.and_eq_true_iff.mp hc).1
    split
    · have hping := h.talks_connected (c.sendBody_sendsOnly .pingreq 0 []).talks hc
      split
      · exact hping
      · exact hping.quiet rfl rfl id id
    · split
      · exact (Phased.forceClose h.weaken).setLastError _
      · exact h
  · exact h

theorem Phased.pollBegin (h : Phased r c) (now : UInt32) : Phased r (c.pollBegin now) := by
  unfold Client.pollBegin
  dsimp only
  split
  · exact h.quiet rfl rfl id id
  · exact h.quiet rfl rfl id id

theorem Phased.pollEnd (h : Phased r c) (result : Status) : Phased r (c.pollEnd result).2 := by
  unfold Client.pollEnd
  split
  · exact Phased.forceClose h.weaken
  split
  · exact h.quiet rfl rfl (fun hc => absurd hc (by simp)) id
  split
  · exact h.setLastError _
  · exact h.checkKeepAlive _

theorem Phased.sendConnect (h : Phased false c) : Phased false c.sendConnect.2 := by
  unfold Client.sendConnect
  split
  · exact h
  next body _ =>
  have ht := (c.sendBody_sendsOnly .connect 0 body.data).talks
  obtain ⟨-, he⟩ | ⟨frame, -, -, he⟩ := c.sendBody_spec .connect 0 body.data
  · exact h.talks ht fun _ hne => absurd he hne
  · refine ⟨?_, fun hc => ?_, ht.callbackScript ▸ h.script, fun hr => absurd hr (by decide)⟩
    · rw [he]
      exact AtEach.snoc.mpr ⟨h.trace, fun hneeds => absurd hneeds (by simp [ClientEvent.needsConnack])⟩
    · rw [he, accepted_snoc]
      exact h.connected (ht.connected ▸ hc)

section

variable (h : Phased r c)
include h

theorem Phased.openTransport (hc : c.connected = false) :
    Phased false c.openTransport where
  trace := AtEach.snoc.mpr ⟨h.trace, fun hneeds => absurd hneeds (by simp [ClientEvent.needsConnack])⟩
  connected hc' := absurd (hc.symm.trans hc') (by decide)
  script := h.script
  ready hr := absurd hr (by decide)

theorem Phased.startConnecting (options : ConnectOptions) :
    Phased r (c.startConnecting options) := by
  unfold Client.startConnecting
  dsimp only
  split
  · exact h.quiet rfl rfl (fun hc => absurd hc (by simp)) id
  · exact h.quiet rfl rfl (fun hc => absurd hc (by simp)) id

theorem Phased.connectBegin (options : ConnectOptions) (tcp : Status) :
    Phased false (c.connectBegin options tcp).2 ∧
      ((c.connectBegin options tcp).1 ≠ none → Phased r (c.connectBegin options tcp).2) := by
  unfold Client.connectBegin
  split
  · exact ⟨h.weaken, fun _ => h⟩
  dsimp only
  split
  · exact ⟨(h.setLastError _).weaken, fun _ => h.setLastError _⟩
  have hstart := h.startConnecting options
  split
  · have hfail : Phased r ({ c.startConnecting options with connecting := false }.setLastError
        tcp : Client cfg) := hstart.quiet rfl rfl id id
    exact ⟨hfail.weaken, fun _ => hfail⟩
  have hsent := (hstart.openTransport rfl).sendConnect
  split
  · exact ⟨(hsent.forceClose (r := false)).setLastError _, fun _ => hsent.forceClose.setLastError _⟩
  · exact ⟨hsent, fun hne => absurd rfl hne⟩

theorem Phased.connectTurn (result : Status) :
    Phased r (c.connectTurn result).2 := by
  unfold Client.connectTurn
  split
  · exact Phased.forceClose h.weaken
  split
  · exact (Phased.forceClose h.weaken).setLastError _
  split
  · exact (Phased.forceClose h.weaken).setLastError _
  · exact h

theorem Phased.nestedConnect (options : ConnectOptions) (tcp : Status) :
    Phased r (c.nestedConnect options tcp) := by
  obtain ⟨hgo, hstop⟩ := h.connectBegin options tcp
  unfold Client.nestedConnect
  generalize c.connectBegin options tcp = q at hgo hstop ⊢
  obtain ⟨_ | status, c₁⟩ := q
  · unfold Client.connectTurn
    dsimp only
    split
    · exact hgo.forceClose
    · rw [if_neg (by decide), if_pos (by decide)]
      exact hgo.forceClose.setLastError _
  · exact hstop (by simp)

theorem Phased.connectEnd (options : ConnectOptions) :
    Phased r (c.connectEnd options).2 := by
  unfold Client.connectEnd
  split
  · exact (Phased.forceClose h.weaken).setLastError _
  next hc =>
  split
  · exact h.talks_connected c.resendOutgoing_sendsOnly.talks (by simpa using hc)
  · exact h.quiet rfl rfl id id

end

theorem Phased.runCall (h : Phased r c) (call : ApiCall)
    (hcall : r = true → call ≠ .transportOpen true) : Phased r (c.runCall call) := by
  cases call with
  | publish topic payload quality retain =>
    exact h.talks_if_connected (c.publish_talks ..) (publish_unconnected · ..)
  | subscribe filters =>
    exact h.talks_if_connected (c.sendRequest_talks ..) (sendRequest_unconnected · ..)
  | unsubscribe filters =>
    exact h.talks_if_connected (c.sendRequest_talks ..) (sendRequest_unconnected · ..)
  | poll now =>
    unfold Client.runCall Client.nestedPoll
    dsimp only
    split
    · exact h
    · exact (h.pollBegin now).pollEnd _
  | disconnect reason => exact h.disconnect reason
  | forceClose => exact Phased.forceClose h.weaken
  | connect options tcp => exact h.nestedConnect options tcp
  | setMessageCallback => exact h.quiet rfl rfl id id
  | clearMessageCallback => exact h.quiet rfl rfl id id
  | transportOpen value =>
    refine ⟨h.trace, h.connected, h.script, fun hr ho => ?_⟩
    have hv : value = true := ho
    exact absurd (by rw [hv]) (hcall hr)

theorem Phased.invokeCallback (h : Phased true c) (ha : accepted c.trace = true)
    (message : MessageView) : Phased true (c.invokeCallback message) := by
  unfold Client.invokeCallback
  split
  · exact h
  have henter : Phased true (c.enterCallback message) := by
    refine ⟨AtEach.snoc.mpr ⟨h.trace, fun _ => ha⟩, fun hc => ?_, fun calls hmem => ?_,
      fun _ ho => ?_⟩
    · exact (accepted_snoc _ _).trans ha
    · exact h.script calls (List.mem_of_mem_tail hmem)
    · exact (accepted_snoc _ _).trans ha
  have hcalls : ∀ call ∈ c.callbackScript.headD [], call ≠ .transportOpen true := by
    rintro call hmem rfl
    cases hs : c.callbackScript with
    | nil => simp [hs] at hmem
    | cons calls script => exact h.script calls (by simp [hs]) (by simpa [hs] using hmem)
  have hrun : Phased true
      ((c.callbackScript.headD []).foldl Client.runCall (c.enterCallback message)) :=
    List.foldlRecOn _ Client.runCall henter fun _ hd call hmem => hd.runCall call fun _ => hcalls call hmem
  exact hrun.quiet rfl rfl id id

theorem Phased.handlePublish (h : Phased true c) (ha : accepted c.trace = true)
    (packet : PacketView) : Phased true (c.handlePublish packet).2 := by
  unfold Client.handlePublish
  split
  · exact h
  split
  · exact h
  dsimp only
  split
  · split
    · exact h.talks_ready (c.sendIdentifier_sendsOnly ..).talks
    split
    · exact h
    next k _ =>
      have hstore (e : IncomingEntry) : Talks c (c.storeIncoming k e) := .tables c _ _ _ _ _ _ _
      exact (h.talks_ready (hstore _)).talks_ready (sendIdentifier_sendsOnly ..).talks
  · split
    · exact (h.invokeCallback ha _).talks_ready (sendIdentifier_sendsOnly ..).talks
    · exact h.invokeCallback ha _

theorem Phased.handlePubrel (h : Phased true c) (ha : accepted c.trace = true)
    (reader : PacketReader) : Phased true (c.handlePubrel reader).2 := by
  unfold Client.handlePubrel
  split
  · exact h
  dsimp only
  split
  · exact h.talks_ready (c.sendIdentifier_sendsOnly ..).talks
  · refine Phased.talks_ready ?_ (sendIdentifier_sendsOnly ..).talks
    exact (h.invokeCallback ha _).quiet rfl rfl id id

theorem Phased.handleDisconnect (h : Phased r c) (reader : PacketReader) :
    Phased r (c.handleDisconnect reader).2 := by
  unfold Client.handleDisconnect
  split
  · exact h
  dsimp only
  split
  · exact h
  · exact h.quiet rfl rfl (fun hc => absurd hc (by simp)) (fun ho => absurd ho (by simp))

theorem Phased.handleConnack (h : Phased false c) (reader : PacketReader) :
    Phased false (c.handleConnack reader).2 := by
  unfold Client.handleConnack
  dsimp only
  split
  · exact h
  split
  · exact h
  have hpresent (sessionPresent : Bool) : Phased false { c with sessionPresent } :=
    h.quiet rfl rfl id id
  split
  · exact hpresent _
  generalize reader.getU8.reader.getU8.value = code
  have htrace : InPhase (c.trace ++ [.connack code]) :=
    AtEach.snoc.mpr ⟨h.trace, fun hneeds => absurd hneeds (by simp [ClientEvent.needsConnack])⟩
  split
  · refine ⟨htrace, fun hc => ?_, h.script, fun hr => absurd hr (by decide)⟩
    have hacc : accepted c.trace = true := h.connected hc
    exact (accepted_snoc _ _).trans (by simp [acceptedAfter, hacc])
  next hcode =>
    refine ⟨htrace, fun _ => ?_, h.script, fun hr => absurd hr (by decide)⟩
    exact (accepted_snoc _ _).trans (by simp [acceptedAfter, not_not.mp hcode])

theorem Phased.handlePacket_connected (h : Phased false c) (hc : c.connected = true)
    (packet : PacketView) : Phased false (c.handlePacket packet).2 := by
  have ha := h.connected hc
  cases ht : onlyTalks packet.type with
  | true => exact h.talks_connected (c.handlePacket_talks ht) hc
  | false =>
    unfold Client.handlePacket
    cases hp : packet.type
    case connack => exact h.handleConnack _
    case publish => exact ((h.toReady hc).handlePublish ha packet).weaken
    case pubrel => exact ((h.toReady hc).handlePubrel ha _).weaken
    case disconnect => exact h.handleDisconnect _
    all_goals
      rw [hp] at ht
      cases ht

/-- An acknowledgement that `handle_ack` reads and that fits an outgoing entry. -/
def AckAccepted (c : Client cfg) (reader : PacketReader) (expected : ClientOutgoingState)
    (type : PacketType) : Prop :=
  readAcknowledgement cfg.properties c.options.protocolVersion reader = .error .ok ∨
    ∃ id reason k, readAcknowledgement cfg.properties c.options.protocolVersion reader =
        .ok (id, reason) ∧ c.findOutgoing id = some k ∧ (c.outgoing.get k).state = expected ∧
      reason < 0x80 ∧ (type = .pubrec → c.transportOpen = true)

/-- A message of this quality is delivered or answered. -/
def MessageTaken (c : Client cfg) (id : UInt16) : Qos → Prop
  | .atMostOnce => True
  | .atLeastOnce => c.hasCallback = true ∨ c.transportOpen = true
  | .exactlyOnce => c.transportOpen = true ∧ (c.findIncoming id ≠ none ∨ c.allocateIncoming ≠ none)

/-- A PUBLISH that `handle_publish` reads and has room for. -/
def PublishAccepted (c : Client cfg) (packet : PacketView) : Prop :=
  ∃ quality topic id payload, Qos.ofNat? ((packet.flags >>> 1) &&& 0x03).toNat = some quality ∧
    readPublish cfg c.options.protocolVersion quality ⟨packet.body, .ok⟩ =
      .ok (topic, id, payload) ∧ c.MessageTaken id quality

/-- The packets that the dispatcher accepts whether or not the client is connected. -/
def AcceptedEarly (c : Client cfg) (packet : PacketView) : Prop :=
  let reader : PacketReader := ⟨packet.body, .ok⟩
  match packet.type with
  | .publish => c.PublishAccepted packet
  | .puback => c.AckAccepted reader .awaitPuback .puback
  | .pubrec => c.AckAccepted reader .awaitPubrec .pubrec
  | .pubcomp => c.AckAccepted reader .awaitPubcomp .pubcomp
  | .pubrel =>
    readAcknowledgement cfg.properties c.options.protocolVersion reader = .error .ok ∨
      ∃ id reason, readAcknowledgement cfg.properties c.options.protocolVersion reader =
          .ok (id, reason) ∧
        (c.transportOpen = true ∨ (c.hasCallback = true ∧ c.findIncoming id ≠ none))
  | .suback => ∃ id rest, readAckHeader cfg c.options.protocolVersion reader = .ok (id, rest) ∧
      rest.remaining ≠ 0 ∧ (rest.rest.any fun code => code > 2 && code < 0x80) = false ∧
        c.findRequest id .subscribe ≠ none
  | .unsuback => ∃ id rest, readAckHeader cfg c.options.protocolVersion reader = .ok (id, rest) ∧
      (c.options.protocolVersion ≠ 5 → rest.remaining = 0) ∧ c.findRequest id .unsubscribe ≠ none
  | .pingresp => packet.remainingLength = 0 ∧ c.pingOutstanding = true
  | _ => False

/-- The packet is refused and nothing happens on the connection. -/
structure Refused (c : Client cfg) (result : Status × Client cfg) : Prop where
  status : result.1 ≠ .ok
  trace : result.2.trace = c.trace
  talks : Talks c result.2

variable {status : Status}

theorem refused_same (h : status ≠ .ok) : Refused c (status, c) :=
  ⟨h, rfl, .refl c⟩

theorem refused_sendIdentifier (ho : c.transportOpen = false) (type : PacketType) (id : UInt16)
    (duplicate : Bool) : Refused c (c.sendIdentifier type id duplicate) := by
  have ht := (c.sendIdentifier_sendsOnly type id duplicate).talks
  unfold sendIdentifier at ht ⊢
  dsimp only at ht ⊢
  generalize (if type = .pubrel then if duplicate then (0x0A : UInt8) else 0x02 else 0) = flags
    at ht ⊢
  generalize PacketWriter.data _ = body at ht ⊢
  obtain ⟨hs, he⟩ | ⟨_, _, hopen, _⟩ := c.sendBody_spec type flags body
  · exact ⟨hs, he, ht⟩
  · exact absurd (ho.symm.trans hopen) (by decide)

theorem Refused.after {c₁ : Client cfg} {result : Status × Client cfg} (h : Refused c₁ result)
    (ht : Talks c c₁) (he : c₁.trace = c.trace) : Refused c result :=
  ⟨h.status, h.trace.trans he, ht.trans h.talks⟩

variable {reader : PacketReader}

theorem readPublish_error_ne_ok {version : UInt8} {quality : Qos}
    (h : readPublish cfg version quality reader = .error status) : status ≠ .ok := by
  unfold readPublish at h
  split at h
  · cases h
    decide
  split at h
  · cases h
    decide
  split at h
  · cases h
    decide
  split at h
  · cases h
    decide
  dsimp only at h
  split at h
  next hp =>
    cases h
    exact hp.2
  · generalize (if version = 5 then _ else _ : PacketReader) = rest at h
    split at h
    · cases h
      decide
    · cases h

theorem readAckHeader_error_ne_ok {version : UInt8}
    (h : readAckHeader cfg version reader = .error status) : status ≠ .ok := by
  unfold readAckHeader at h
  split at h
  · cases h
    decide
  split at h
  · cases h
    decide
  split at h
  · dsimp only at h
    split at h
    next hp =>
      cases h
      exact hp
    · cases h
  · cases h

theorem refused_handlePublish {packet : PacketView} (h : ¬c.PublishAccepted packet) :
    Refused c (c.handlePublish packet) := by
  unfold handlePublish
  split
  · exact refused_same (by decide)
  next quality hq =>
  split
  next status he => exact refused_same (readPublish_error_ne_ok he)
  next topic id payload he =>
  dsimp only
  have hno : ¬c.MessageTaken id quality := fun hacc => h ⟨quality, topic, id, payload, hq, he, hacc⟩
  cases quality with
  | atMostOnce => exact absurd trivial hno
  | atLeastOnce =>
    have hcb : c.hasCallback = false := by
      by_contra hcb
      exact hno (.inl (by simpa using hcb))
    have ho : c.transportOpen = false := by
      by_contra ho
      exact hno (.inr (by simpa using ho))
    simp only [reduceCtorEq, if_false, if_true, invokeCallback, hcb, Bool.not_false]
    exact refused_sendIdentifier ho ..
  | exactlyOnce =>
    simp only [if_true]
    split
    next k hk =>
      have ho : c.transportOpen = false := by
        by_contra ho
        exact hno ⟨by simpa using ho, .inl (by simp [hk])⟩
      exact refused_sendIdentifier ho ..
    next hk =>
      split
      · exact refused_same (by decide)
      next k hk' =>
        have ho : c.transportOpen = false := by
          by_contra ho
          exact hno ⟨by simpa using ho, .inr (by simp [hk'])⟩
        have hstore (e : IncomingEntry) : Talks c (c.storeIncoming k e) := .tables c _ _ _ _ _ _ _
        exact (refused_sendIdentifier (c := c.storeIncoming k _) ho ..).after (hstore _) rfl

theorem refused_handleAck {expected : ClientOutgoingState} {type : PacketType}
    (h : ¬c.AckAccepted reader expected type) : Refused c (c.handleAck reader expected type) := by
  unfold handleAck
  split
  next status he =>
    refine refused_same ?_
    rintro rfl
    exact h (.inl he)
  next id reason he =>
  split
  · exact refused_same (by decide)
  next k hk =>
  split
  · exact refused_same (by decide)
  next hstate =>
  have hno (hr : reason < 0x80) (ho : type = .pubrec → c.transportOpen = true) : False :=
    h (.inr ⟨id, reason, k, he, hk, not_not.mp hstate, hr, ho⟩)
  dsimp only
  split
  next hreason => exact ⟨toStatus_ne_ok hreason, rfl, .tables c _ _ _ _ _ _ _⟩
  next hreason =>
  have hr : reason < 0x80 := by simpa using hreason
  split
  next ht =>
    have ho : c.transportOpen = false := by
      by_contra ho
      exact hno hr fun _ => by simpa using ho
    have hmove : Talks c (({ c with lastAcknowledgedId := id } : Client cfg).awaitPubcomp k) :=
      .tables c _ _ _ _ _ _ _
    exact (refused_sendIdentifier
      (c := ({ c with lastAcknowledgedId := id } : Client cfg).awaitPubcomp k) ho ..).after hmove rfl
  next ht => exact (hno hr fun h => absurd h ht).elim

theorem refused_acknowledgeRequest {id : UInt16} {type : PacketType}
    (h : c.findRequest id type = none) : Refused c (c.acknowledgeRequest id type) := by
  unfold acknowledgeRequest
  rw [h]
  exact refused_same (by decide)

theorem early_refused (hc : c.connected = false) {packet : PacketView} (ht : packet.type ≠ .connack)
    (h : ¬c.AcceptedEarly packet) : Refused c (c.handlePacket packet) := by
  unfold AcceptedEarly at h
  unfold handlePacket
  cases hp : packet.type
  case connack => exact absurd hp ht
  case publish =>
    simp only [hp] at h
    exact refused_handlePublish h
  case puback | pubrec | pubcomp =>
    simp only [hp] at h
    exact refused_handleAck h
  case pubrel =>
    simp only [hp, not_or] at h
    obtain ⟨hok, hno⟩ := h
    dsimp only
    unfold handlePubrel
    split
    next status he =>
      refine refused_same ?_
      rintro rfl
      exact hok he
    next id reason he =>
    have hno' : ¬(c.transportOpen = true ∨ (c.hasCallback = true ∧ c.findIncoming id ≠ none)) :=
      fun hx => hno ⟨id, reason, he, hx⟩
    rw [not_or] at hno'
    have ho : c.transportOpen = false := by simpa using hno'.1
    dsimp only
    split
    · exact refused_sendIdentifier ho ..
    next k hk =>
      have hcb : c.hasCallback = false := by
        by_contra hcb
        exact hno'.2 ⟨by simpa using hcb, by simp [hk]⟩
      simp only [invokeCallback, hcb, Bool.not_false, if_true]
      have hrel : Talks c (c.releaseIncoming k) := .tables c _ _ _ _ _ _ _
      exact (refused_sendIdentifier (c := c.releaseIncoming k) ho ..).after hrel rfl
  case suback =>
    simp only [hp] at h
    dsimp only
    unfold handleSuback
    split
    next status he => exact refused_same (readAckHeader_error_ne_ok he)
    next id rest he =>
    split
    · exact refused_same (by decide)
    next hrem =>
    split
    · exact refused_same (by decide)
    next hcodes =>
    refine refused_acknowledgeRequest ?_
    by_contra hreq
    exact h ⟨id, rest, he, hrem, by simpa using hcodes, hreq⟩
  case unsuback =>
    simp only [hp] at h
    dsimp only
    unfold handleUnsuback
    split
    next status he => exact refused_same (readAckHeader_error_ne_ok he)
    next id rest he =>
    split
    · exact refused_same (by decide)
    next hrem =>
    refine refused_acknowledgeRequest ?_
    by_contra hreq
    exact h ⟨id, rest, he, fun hv => by_contra fun hr => hrem ⟨hv, hr⟩, hreq⟩
  case pingresp =>
    simp only [hp] at h
    dsimp only
    rw [if_pos (by by_contra hx; exact h (by simpa using hx))]
    exact refused_same (by decide)
  case disconnect =>
    simp only [handleDisconnect, hc]
    exact refused_same (by decide)
  all_goals exact refused_same (by decide)

theorem Phased.handlePacket (h : Phased false c) {packet : PacketView}
    (ha : c.connected = false → ¬c.AcceptedEarly packet) :
    Phased false (c.handlePacket packet).2 := by
  cases hc : c.connected with
  | true => exact h.handlePacket_connected hc packet
  | false =>
    by_cases ht : packet.type = .connack
    · unfold Client.handlePacket
      rw [ht]
      exact h.handleConnack _
    · have hr := early_refused hc ht (ha hc)
      exact h.talks hr.talks fun _ hne => absurd hr.trace hne

theorem phased_kept : Kept (@Phased cfg false)
    fun c packet => c.connected = false → ¬c.AcceptedEarly packet where
  receives := by
    rintro c c' ⟨_, _, _, _, _, rfl, -⟩ h
    exact h.quiet rfl rfl id id
  handlePacket _ _ h ha := h.handlePacket ha
  connectBegin _ options tcp h := (h.connectBegin options tcp).1
  connectTurn _ result h := h.connectTurn result
  connectEnd _ options h := h.connectEnd options
  pollBegin _ now h := h.pollBegin now
  pollEnd _ result h := h.pollEnd result
  runCall _ call h := h.runCall call fun hr => absurd hr (by decide)
  callback _ _ h := h.quiet rfl rfl id id

def SomeRefused (handed : List (Client cfg × PacketView)) : Prop :=
  ∃ q ∈ handed, (q.1.handlePacket q.2).1 ≠ .ok

theorem not_someRefused_nil : ¬SomeRefused ([] : List (Client cfg × PacketView)) := by
  simp [SomeRefused]

variable {handed : List (Client cfg × PacketView)}

theorem receiveLoop_refused {fuel consumed : ℕ} {stop : Option ℕ}
    (hr : receiveLoop fuel c consumed = .ok (stop, c', handed)) (h : SomeRefused handed) :
    stop = none ∧ c'.fatal = true := by
  induction fuel generalizing c consumed stop c' handed with
  | zero =>
    unfold receiveLoop at hr
    split at hr
    · cases hr
      exact absurd h not_someRefused_nil
    · cases hr
  | succ fuel ih =>
    unfold receiveLoop at hr
    split at hr
    · cases hr
      exact absurd h not_someRefused_nil
    split at hr
    · cases hr
    split at hr
    · cases hr
      exact absurd h not_someRefused_nil
    · cases hr
      exact absurd h not_someRefused_nil
    next packet _ =>
    split at hr
    next c₁ he =>
      split at hr
      · cases hr
      next stop₁ c₂ handed₁ hloop =>
      cases hr
      obtain ⟨q, hq, hne⟩ := h
      rcases List.mem_cons.mp hq with rfl | hq
      · exact absurd (by rw [he]) hne
      · exact ih hloop ⟨q, hq, hne⟩
    · cases hr
      exact ⟨rfl, rfl⟩

theorem receiveBytes_refused {data : Bytes} (hr : c.receiveBytes data = .ok (c', handed))
    (h : SomeRefused handed) : c'.fatal = true := by
  unfold receiveBytes at hr
  split at hr
  · cases hr
    rfl
  obtain ⟨c₁, -, hr⟩ := bind_eq_ok.mp hr
  obtain ⟨⟨stop, c₂, handed₂⟩, hl, hr⟩ := bind_eq_ok.mp hr
  dsimp only at hr
  split at hr
  · cases hr
    exact (receiveLoop_refused hl h).2
  · cases hr
    exact absurd (receiveLoop_refused hl h).1 (by simp)
  · obtain ⟨c₃, -, hr⟩ := bind_eq_ok.mp hr
    cases hr
    exact absurd (receiveLoop_refused hl h).1 (by simp)

theorem processOnce_refused {received : Receive} {result : Status}
    (hr : c.processOnce received = .ok (result, c', handed)) (h : SomeRefused handed) :
    c'.fatal = true := by
  unfold processOnce at hr
  split at hr
  · cases hr
    exact absurd h not_someRefused_nil
  split at hr
  case h_5 =>
    obtain ⟨⟨c₁, handed₁⟩, hb, hr⟩ := bind_eq_ok.mp hr
    cases hr
    exact receiveBytes_refused hb h
  all_goals
    cases hr
    exact absurd h not_someRefused_nil

def Closed (c : Client cfg) : Prop := c.transportOpen = false ∧ c.connected = false

theorem connectTurn_fatal (h : c.fatal = true) (result : Status) :
    c.connectTurn result = (some c.lastError, c.forceClose) := by
  simp [connectTurn, h]

theorem connectLoop_refused {attempts : ℕ} {received : List Receive} {status : Option Status}
    (hr : connectLoop attempts received c = .ok (status, c', handed)) (h : SomeRefused handed) :
    status ≠ none ∧ Closed c' := by
  induction attempts generalizing received c status handed with
  | zero =>
    cases hr
    exact absurd h not_someRefused_nil
  | succ attempts ih =>
    unfold connectLoop at hr
    split at hr
    · cases hr
      exact absurd h not_someRefused_nil
    obtain ⟨⟨result, c₁, handed₁⟩, hp, hr⟩ := bind_eq_ok.mp hr
    dsimp only at hr
    split at hr
    next status₁ c₂ he =>
      cases hr
      rw [connectTurn_fatal (processOnce_refused hp h)] at he
      cases he
      exact ⟨by simp, rfl, rfl⟩
    next c₂ he =>
      obtain ⟨⟨status₂, c₃, handed₂⟩, hl, hr⟩ := bind_eq_ok.mp hr
      cases hr
      obtain ⟨q, hq, hne⟩ := h
      rcases List.mem_append.mp hq with hq | hq
      · rw [connectTurn_fatal (processOnce_refused hp ⟨q, hq, hne⟩)] at he
        cases he
      · exact ih hl ⟨q, hq, hne⟩

theorem call_refused {k : ClientCall} (hr : c.call k = .ok (c', handed)) (h : SomeRefused handed) :
    Closed c' := by
  cases k with
  | connect options tcp received =>
    obtain ⟨⟨result, c₁, handed₁⟩, he, hr⟩ := bind_eq_ok.mp hr
    cases hr
    unfold connect at he
    split at he
    · cases he
      exact absurd h not_someRefused_nil
    obtain ⟨⟨status, c₂, handed₂⟩, hl, he⟩ := bind_eq_ok.mp he
    dsimp only at he
    split at he
    · cases he
      exact (connectLoop_refused hl h).2
    · cases he
      exact absurd rfl (connectLoop_refused hl h).1
  | poll now received =>
    obtain ⟨⟨result, c₁, handed₁⟩, he, hr⟩ := bind_eq_ok.mp hr
    cases hr
    unfold poll at he
    split at he
    · cases he
      exact absurd h not_someRefused_nil
    obtain ⟨⟨result₁, c₂, handed₂⟩, hp, he⟩ := bind_eq_ok.mp he
    rcases hend : c₂.pollEnd result₁ with ⟨status, c₃⟩
    dsimp only at he
    rw [hend] at he
    cases he
    have hf := processOnce_refused hp h
    simp only [pollEnd, hf, if_true] at hend
    cases hend
    exact ⟨rfl, rfl⟩
  | _ =>
    cases hr
    exact absurd h not_someRefused_nil

theorem phased_initial (sendResults : List Status) {callbackScript : List (List ApiCall)}
    (h : ∀ calls ∈ callbackScript, ApiCall.transportOpen true ∉ calls) :
    Phased false (initial sendResults callbackScript : Client cfg) :=
  ⟨AtEach.nil _, fun hc => absurd hc (by simp [initial]), h, fun hr => absurd hr (by decide)⟩

/-- In a run without a packet that is accepted early: messages are delivered and
packets other than CONNECT sent only behind a CONNACK with return code 0, every other
packet that comes first is refused without effect, and a call in which a packet was
refused leaves the connection closed. -/
theorem connack_comes_first {sendResults : List Status} {callbackScript : List (List ApiCall)}
    {calls : List ClientCall} {handed : List (Client cfg × PacketView)}
    (hscript : ∀ calls ∈ callbackScript, ApiCall.transportOpen true ∉ calls)
    (hrun : (initial sendResults callbackScript).runCalls calls = .ok (c, handed))
    (hearly : ∀ q ∈ handed, q.1.connected = false → ¬q.1.AcceptedEarly q.2) : InPhase c.trace ∧
    (∀ q ∈ handed, q.1.connected = false → q.2.type ≠ .connack → Refused q.1 (q.1.handlePacket q.2))
    ∧ ∀ (d d' : Client cfg) (k : ClientCall) (handed' : List (Client cfg × PacketView)), d.call k =
    .ok (d', handed') → SomeRefused handed' → Closed d' := by
  refine ⟨?_, ?_, ?_⟩
  · exact (phased_kept.runCalls hrun (phased_initial sendResults hscript) hearly).trace
  · intro q hq hc ht
    exact early_refused hc ht (hearly q hq hc)
  · intro d d' k handed' hr h
    exact call_refused hr h

/-- A QoS 0 PUBLISH with topic `t` and payload `x`. -/
def earlyPublish : Bytes := [0x30, 4, 0, 1, 0x74, 0x78]

/-- The server sends it in front of the CONNACK: `connect` succeeds and the message
was delivered first. -/
theorem delivered_before_connack : ∃ (c : Client smallClient)
    (handed : List (Client smallClient × PacketView)), (initial [] []).runCalls
    [.setMessageCallback, .connect {} .ok [.data (earlyPublish ++ [0x20, 2, 0, 0])]] =
    .ok (c, handed) ∧ c.connected = true ∧ ¬InPhase c.trace := by
  have hrun : (((initial [] [] : Client smallClient).runCalls [.setMessageCallback,
      .connect {} .ok [.data (earlyPublish ++ [0x20, 2, 0, 0])]]).toOption.map fun r =>
        (r.1.connected, accepted (r.1.trace.take 2), r.1.trace.drop 2)) =
      some (true, false, [.delivered ⟨[0x74], [0x78], .atMostOnce, false, false, 0⟩,
        .connack 0]) := by decide
  obtain ⟨⟨c, handed⟩, hc, he⟩ := Option.map_eq_some_iff.mp hrun
  obtain ⟨hconn, hacc, htrace⟩ : c.connected = true ∧ accepted (c.trace.take 2) = false ∧
      c.trace.drop 2 = [.delivered ⟨[0x74], [0x78], .atMostOnce, false, false, 0⟩,
        .connack 0] := by simpa using he
  refine ⟨c, handed, ?_, hconn, fun h => ?_⟩
  · generalize (initial [] [] : Client smallClient).runCalls _ = run at hc ⊢
    cases run with
    | error fault => cases hc
    | ok r => exact congrArg _ (Option.some.inj hc)
  · have hbefore := h (c.trace.take 2) (.delivered ⟨[0x74], [0x78], .atMostOnce, false, false, 0⟩)
      ⟨[.connack 0], by rw [List.append_assoc, List.singleton_append, ← htrace, List.take_append_drop]⟩
      rfl
    rw [hacc] at hbefore
    cases hbefore

/-- Behind the CONNACK the same PUBLISH is delivered in phase. -/
theorem connack_comes_first_published : ∃ (c : Client smallClient)
    (handed : List (Client smallClient × PacketView)), (initial [] []).runCalls
    [.setMessageCallback, .connect {} .ok [.data [0x20, 2, 0, 0]], .poll 1 (.data earlyPublish)] =
    .ok (c, handed) ∧ InPhase c.trace := by
  have hrun : (((initial [] [] : Client smallClient).runCalls [.setMessageCallback,
      .connect {} .ok [.data [0x20, 2, 0, 0]], .poll 1 (.data earlyPublish)]).toOption.map
        fun r => r.2.all fun q => q.1.connected || q.2.type = .connack) = some true := by
    decide
  cases hr : (initial [] [] : Client smallClient).runCalls [.setMessageCallback,
      .connect {} .ok [.data [0x20, 2, 0, 0]], .poll 1 (.data earlyPublish)] with
  | error fault =>
    rw [hr] at hrun
    cases hrun
  | ok r =>
    rw [hr] at hrun
    obtain ⟨c, handed⟩ := r
    have hall : (handed.all fun q => q.1.connected || q.2.type = .connack) = true :=
      Option.some.inj hrun
    refine ⟨c, handed, rfl, (connack_comes_first (by simp) hr fun q hq hc hearly => ?_).1⟩
    have ht : q.2.type = .connack := by simpa [hc] using List.all_eq_true.mp hall q hq
    simp [AcceptedEarly, ht] at hearly

end Client
end Castle.Mqtt
