import Castle.Mqtt.Client.Run
import Castle.Mqtt.Broker.Run

/-!
# Packet identifiers in use at the client

`outgoing_` and `requests_` draw their identifiers from one counter.
-/

namespace Castle.Mqtt
namespace Client

open Net

variable {cfg : ClientConfig}

/-- The used entries of both tables carry nonzero, pairwise distinct identifiers. -/
structure IdentifiersOk (c : Client cfg) : Prop where
  outgoing : c.outgoing.Distinct
  requests : c.requests.Distinct
  disjoint : ∀ id, c.outgoing.Holds id → ¬c.requests.Holds id
  outgoing_ne_zero : ¬c.outgoing.Holds 0
  requests_ne_zero : ¬c.requests.Holds 0

/-- `c'` uses no identifier that `c` does not use in the same slot. -/
def Narrows (c c' : Client cfg) : Prop :=
  c'.outgoing.Within c.outgoing ∧ c'.requests.Within c.requests

theorem Narrows.of_eq {c c' : Client cfg} (ho : c'.outgoing = c.outgoing)
    (hr : c'.requests = c.requests) : Narrows c c' :=
  ⟨.of_eq ho, .of_eq hr⟩

theorem Narrows.trans {c₁ c₂ c₃ : Client cfg} (h : Narrows c₁ c₂) (h' : Narrows c₂ c₃) :
    Narrows c₁ c₃ :=
  ⟨h'.1.trans h.1, h'.2.trans h.2⟩

theorem SendsOnly.narrows {c c' : Client cfg} (h : SendsOnly c c') : Narrows c c' := by
  obtain ⟨_, _, _, _, rfl, -⟩ := h
  exact .of_eq rfl rfl

theorem IdentifiersOk.narrow {c c' : Client cfg} (h : IdentifiersOk c) (hn : Narrows c c') :
    IdentifiersOk c' where
  outgoing := hn.1.distinct h.outgoing
  requests := hn.2.distinct h.requests
  disjoint id ho hr := h.disjoint id (hn.1.holds ho) (hn.2.holds hr)
  outgoing_ne_zero ho := h.outgoing_ne_zero (hn.1.holds ho)
  requests_ne_zero hr := h.requests_ne_zero (hn.2.holds hr)

theorem IdentifiersOk.of_sends {c c' : Client cfg} (h : IdentifiersOk c) (hs : SendsOnly c c') :
    IdentifiersOk c' :=
  h.narrow hs.narrows

variable (c : Client cfg) (k : Fin cfg.maxOutstanding)

theorem releaseOutgoing_narrows : Narrows c (c.releaseOutgoing k) :=
  ⟨Table.within_modify _ _ _ fun h => absurd h (by simp [Slot.used]), .refl _⟩

theorem releaseRequest_narrows : Narrows c (c.releaseRequest k) :=
  ⟨.refl _, Table.within_modify _ _ _ fun h => absurd h (by simp [Slot.used])⟩

theorem clearOutgoing_narrows : Narrows c c.clearOutgoing :=
  ⟨Table.within_map _ _ fun _ h => absurd h (by simp [Slot.used]), .refl _⟩

theorem clearRequests_narrows : Narrows c c.clearRequests :=
  ⟨.refl _, Table.within_map _ _ fun _ h => absurd h (by simp [Slot.used])⟩

theorem storeIncoming_narrows (e : IncomingEntry) : Narrows c (c.storeIncoming k e) :=
  .of_eq rfl rfl

theorem releaseIncoming_narrows : Narrows c (c.releaseIncoming k) :=
  .of_eq rfl rfl

theorem forceClose_narrows : Narrows c c.forceClose := .of_eq rfl rfl

theorem identifierInUse_iff (id : UInt16) :
    c.identifierInUse id = true ↔ c.outgoing.Holds id ∨ c.requests.Holds id := by
  rw [identifierInUse, Bool.or_eq_true]
  exact or_congr Table.lookup_isSome Table.lookup_isSome

variable {id : UInt16}

theorem allocateIdentifier_spec {c c' : Client cfg} (h : c.allocateIdentifier = (id, c')) :
    Narrows c c' ∧ (id ≠ 0 → c'.identifierInUse id = false) := by
  cases h
  refine ⟨.of_eq rfl rfl, ?_⟩
  intro hz
  split_ifs at hz ⊢ with hs
  · exact searchIdentifier_unused _ _ _ hs
  · exact absurd rfl hz

theorem allocateIdentifier_ne_zero (h : 2 * cfg.maxOutstanding < 65535) :
    c.allocateIdentifier.1 ≠ 0 := by
  have hs : (searchIdentifier c.identifierInUse 65535 c.nextIdentifier).2 = true := by
    apply searchIdentifier_succeeds _ _ (c.outgoing.keys ++ c.requests.keys)
    · intro id hid
      rw [List.mem_append, Table.mem_keys, Table.mem_keys]
      exact (c.identifierInUse_iff id).mp hid
    · have ho := c.outgoing.length_keys_le
      have hr := c.requests.length_keys_le
      rw [List.length_append]
      omega
  simpa [allocateIdentifier, hs] using searchIdentifier_ne_zero _ _ _ hs

theorem IdentifiersOk.set_outgoing {c : Client cfg} (h : IdentifiersOk c)
    (k : Fin cfg.maxOutstanding) {e : OutgoingEntry} (he : e.identifier = id) (hz : id ≠ 0)
    (hf : c.identifierInUse id = false) : IdentifiersOk (c.storeOutgoing k e) := by
  subst he
  have hfree : ¬(c.outgoing.Holds e.identifier ∨ c.requests.Holds e.identifier) := by
    rw [← identifierInUse_iff, hf]
    decide
  push Not at hfree
  refine ⟨h.outgoing.set k hfree.1, h.requests, ?_, ?_, h.requests_ne_zero⟩
  · intro id ho hr
    rcases Table.holds_set ho with rfl | ho
    · exact hfree.2 hr
    · exact h.disjoint id ho hr
  · intro ho
    rcases Table.holds_set ho with he | ho
    · exact hz he
    · exact h.outgoing_ne_zero ho

theorem IdentifiersOk.set_request {c : Client cfg} (h : IdentifiersOk c)
    (k : Fin cfg.maxOutstanding) {r : PendingRequest} (he : r.identifier = id) (hz : id ≠ 0)
    (hf : c.identifierInUse id = false) : IdentifiersOk (c.storeRequest k r) := by
  subst he
  have hfree : ¬(c.outgoing.Holds r.identifier ∨ c.requests.Holds r.identifier) := by
    rw [← identifierInUse_iff, hf]
    decide
  push Not at hfree
  refine ⟨h.outgoing, h.requests.set k hfree.2, ?_, h.outgoing_ne_zero, ?_⟩
  · intro id ho hr
    rcases Table.holds_set hr with rfl | hr
    · exact hfree.1 ho
    · exact h.disjoint id ho hr
  · intro hr
    rcases Table.holds_set hr with he | hr
    · exact hz he
    · exact h.requests_ne_zero hr

theorem allocateOutgoing_spec {c c' : Client cfg}
    {r : Option (Fin cfg.maxOutstanding × UInt16)} (h : c.allocateOutgoing = (r, c')) :
    Narrows c c' ∧ ∀ k id, r = some (k, id) → id ≠ 0 ∧ c'.identifierInUse id = false := by
  unfold allocateOutgoing at h
  split at h
  · cases h
    exact ⟨.of_eq rfl rfl, by simp⟩
  · rcases ha : c.allocateIdentifier with ⟨id, c₁⟩
    rw [ha] at h
    cases h
    obtain ⟨hn, hf⟩ := allocateIdentifier_spec ha
    refine ⟨hn, ?_⟩
    intro k id' hr
    split_ifs at hr with hz
    cases hr
    exact ⟨hz, hf hz⟩

theorem IdentifiersOk.publish {c : Client cfg} (h : IdentifiersOk c) (topic payload : Bytes)
    (quality : Qos) (retain : Bool) : IdentifiersOk (c.publish topic payload quality retain).2 := by
  unfold Client.publish
  split
  · exact h
  split
  · exact h
  split
  · exact h
  split
  · exact h.of_sends (c.sendPublish_sendsOnly ..)
  rcases ha : c.allocateOutgoing with ⟨r, c'⟩
  obtain ⟨hn, hr⟩ := allocateOutgoing_spec ha
  cases r with
  | none => exact h.narrow hn
  | some slot =>
    obtain ⟨k, id⟩ := slot
    obtain ⟨hz, hf⟩ := hr k id rfl
    have hset := (h.narrow hn).set_outgoing k
      (e := ⟨true, id, quality, .first quality, cstr topic, payload, retain⟩) rfl hz hf
    have hsent := hset.of_sends (sendPublish_sendsOnly _ topic payload quality retain id false)
    dsimp only
    split
    · exact hsent.narrow (releaseOutgoing_narrows _ k)
    · exact hsent

theorem reserveRequest_spec {c c' : Client cfg}
    {type : PacketType} {done : Bool} (h : c.reserveRequest id type = (done, c')) :
    (done = false ∧ c' = c) ∨ ∃ k, done = true ∧ c' = c.storeRequest k ⟨true, id, type⟩ := by
  unfold reserveRequest at h
  split at h
  · cases h
    exact .inr ⟨_, rfl, rfl⟩
  · cases h
    exact .inl ⟨rfl, rfl⟩

theorem IdentifiersOk.sendRequest {c : Client cfg} (h : IdentifiersOk c) (type : PacketType)
    (filters : List (Bytes × Bytes)) : IdentifiersOk (c.sendRequest type filters).2.2 := by
  unfold Client.sendRequest
  split
  · exact h
  split
  · exact h
  rcases ha : c.allocateIdentifier with ⟨id, c₁⟩
  obtain ⟨hn, hf⟩ := allocateIdentifier_spec ha
  have h₁ := h.narrow hn
  dsimp only
  split
  · exact h₁
  next hz =>
  rcases requestBody cfg c₁.options.protocolVersion id filters with status | body
  · exact h₁
  dsimp only
  split
  next c₂ hr =>
    obtain ⟨-, rfl⟩ | ⟨k, hd, -⟩ := reserveRequest_spec hr
    · exact h₁
    · cases hd
  next c₂ hr =>
    obtain ⟨hd, -⟩ | ⟨k, -, rfl⟩ := reserveRequest_spec hr
    · cases hd
    · have hsent := (h₁.set_request k (r := ⟨true, id, type⟩) rfl hz (hf hz)).of_sends
        (sendBody_sendsOnly _ type 0x02 body.data)
      split
      · exact hsent
      · split
        · exact hsent.narrow (releaseRequest_narrows ..)
        · exact hsent

theorem IdentifiersOk.disconnect {c : Client cfg} (h : IdentifiersOk c) (reason : ReasonCode) :
    IdentifiersOk (c.disconnect reason).2 := by
  unfold Client.disconnect
  split
  · exact h
  · exact (h.of_sends (c.sendDisconnect_sendsOnly reason)).narrow (forceClose_narrows _)

variable (options : ConnectOptions)

theorem startConnecting_narrows : Narrows c (c.startConnecting options) := by
  unfold startConnecting
  dsimp only
  split
  · exact ((clearOutgoing_narrows _).trans (clearRequests_narrows _) : Narrows c _)
  · exact .of_eq rfl rfl

theorem connectBegin_narrows (tcp : Status) : Narrows c (c.connectBegin options tcp).2 := by
  unfold connectBegin
  dsimp only
  have hstart := c.startConnecting_narrows options
  have hsent := (c.startConnecting options).openTransport.sendConnect_sendsOnly.narrows
  split
  · exact .of_eq rfl rfl
  split
  · exact .of_eq rfl rfl
  split
  · exact hstart.trans (.of_eq rfl rfl)
  split
  · exact (hstart.trans hsent).trans (.of_eq rfl rfl)
  · exact hstart.trans hsent

variable (result : Status)

theorem connectTurn_narrows : Narrows c (c.connectTurn result).2 := by
  unfold connectTurn
  split
  · exact .of_eq rfl rfl
  split
  · exact .of_eq rfl rfl
  split
  · exact .of_eq rfl rfl
  · exact .of_eq rfl rfl

theorem connectEnd_narrows : Narrows c (c.connectEnd options).2 := by
  unfold connectEnd
  split
  · exact .of_eq rfl rfl
  split
  · exact c.resendOutgoing_sendsOnly.narrows
  · exact c.clearOutgoing_narrows.trans (.of_eq rfl rfl)

theorem pollBegin_narrows (now : UInt32) : Narrows c (c.pollBegin now) := by
  unfold pollBegin
  dsimp only
  split <;> exact .of_eq rfl rfl

theorem checkKeepAlive_narrows : Narrows c (c.checkKeepAlive result).2 := by
  unfold checkKeepAlive
  dsimp only
  split
  · split
    · have hp := (c.sendBody_sendsOnly .pingreq 0 []).narrows
      split
      · exact hp
      · exact hp.trans (.of_eq rfl rfl)
    · split
      · exact .of_eq rfl rfl
      · exact .of_eq rfl rfl
  · exact .of_eq rfl rfl

theorem pollEnd_narrows : Narrows c (c.pollEnd result).2 := by
  unfold pollEnd
  split
  · exact .of_eq rfl rfl
  split
  · exact .of_eq rfl rfl
  split
  · exact .of_eq rfl rfl
  · exact c.checkKeepAlive_narrows _

theorem nestedPoll_narrows (now : UInt32) : Narrows c (c.nestedPoll now) := by
  unfold nestedPoll
  split
  · exact .of_eq rfl rfl
  · exact (c.pollBegin_narrows now).trans (pollEnd_narrows _ _)

theorem nestedConnect_narrows (tcp : Status) : Narrows c (c.nestedConnect options tcp) := by
  have hb := c.connectBegin_narrows options tcp
  unfold nestedConnect
  generalize c.connectBegin options tcp = r at hb ⊢
  obtain ⟨status | status, c'⟩ := r
  · exact hb.trans (c'.connectTurn_narrows _)
  · exact hb

theorem IdentifiersOk.runCall {c : Client cfg} (h : IdentifiersOk c) (call : ApiCall) :
    IdentifiersOk (c.runCall call) := by
  cases call with
  | publish topic payload quality retain => exact h.publish topic payload quality retain
  | subscribe filters => exact h.sendRequest .subscribe _
  | unsubscribe filters => exact h.sendRequest .unsubscribe _
  | poll now => exact h.narrow (c.nestedPoll_narrows now)
  | disconnect reason => exact h.disconnect reason
  | forceClose => exact h.narrow (forceClose_narrows c)
  | connect options tcp => exact h.narrow (c.nestedConnect_narrows options tcp)
  | setMessageCallback => exact h.narrow (.of_eq rfl rfl)
  | clearMessageCallback => exact h.narrow (.of_eq rfl rfl)
  | transportOpen value => exact h.narrow (.of_eq rfl rfl)

theorem IdentifiersOk.invokeCallback {c : Client cfg} (h : IdentifiersOk c)
    (message : MessageView) : IdentifiersOk (c.invokeCallback message) := by
  unfold Client.invokeCallback
  split
  · exact h
  · have hcalls : IdentifiersOk
        ((c.callbackScript.headD []).foldl Client.runCall (c.enterCallback message)) :=
      List.foldlRecOn _ _ (h.narrow (.of_eq rfl rfl)) fun _ hd call _ => hd.runCall call
    exact hcalls.narrow (.of_eq rfl rfl)

variable (reader : PacketReader)

theorem handleConnack_narrows : Narrows c (c.handleConnack reader).2 := by
  unfold handleConnack
  dsimp only
  split
  · exact .of_eq rfl rfl
  split
  · exact .of_eq rfl rfl
  split
  · exact .of_eq rfl rfl
  split
  · exact .of_eq rfl rfl
  · exact .of_eq rfl rfl

theorem IdentifiersOk.handlePublish {c : Client cfg} (h : IdentifiersOk c) (packet : PacketView) :
    IdentifiersOk (c.handlePublish packet).2 := by
  unfold Client.handlePublish
  split
  · exact h
  split
  · exact h
  next topic identifier payload _ =>
  dsimp only
  split
  · split
    · exact h.of_sends (c.sendIdentifier_sendsOnly ..)
    split
    · exact h
    · exact (h.narrow (c.storeIncoming_narrows _ _)).of_sends (sendIdentifier_sendsOnly ..)
  · have hcall := h.invokeCallback ⟨topic, payload, ‹Qos›, packet.flags &&& 0x08 ≠ 0,
      packet.flags &&& 0x01 ≠ 0, identifier⟩
    split
    · exact hcall.of_sends (sendIdentifier_sendsOnly ..)
    · exact hcall

theorem IdentifiersOk.handlePubrel {c : Client cfg} (h : IdentifiersOk c) (reader : PacketReader) :
    IdentifiersOk (c.handlePubrel reader).2 := by
  unfold Client.handlePubrel
  split
  · exact h
  next identifier _ _ =>
  dsimp only
  split
  · exact h.of_sends (c.sendIdentifier_sendsOnly ..)
  next k _ =>
    have hcall := h.invokeCallback
      { topic := (c.incoming.get k).topic
        payload := (c.incoming.get k).payload
        quality := .exactlyOnce
        retain := (c.incoming.get k).retain
        packetIdentifier := identifier }
    exact (hcall.narrow (releaseIncoming_narrows _ k)).of_sends (sendIdentifier_sendsOnly ..)

theorem handleAck_narrows (expected : ClientOutgoingState) (type : PacketType) :
    Narrows c (c.handleAck reader expected type).2 := by
  unfold handleAck
  split
  · exact .of_eq rfl rfl
  split
  · exact .of_eq rfl rfl
  next k _ =>
  split
  · exact .of_eq rfl rfl
  dsimp only
  split
  · exact c.releaseOutgoing_narrows k
  split
  · -- the entry moves on under its identifier
    have hmove (d : Client cfg) : Narrows d (d.awaitPubcomp k) :=
      ⟨Table.within_modify _ _ _ fun hu => ⟨hu, rfl⟩, .refl _⟩
    have hid (id : UInt16) : Narrows c { c with lastAcknowledgedId := id } := .of_eq rfl rfl
    exact ((hid _).trans (hmove _)).trans (sendIdentifier_sendsOnly ..).narrows
  · exact c.releaseOutgoing_narrows k

theorem acknowledgeRequest_narrows (identifier : UInt16) (type : PacketType) :
    Narrows c (c.acknowledgeRequest identifier type).2 := by
  unfold acknowledgeRequest
  split
  · exact .of_eq rfl rfl
  · exact c.releaseRequest_narrows _

theorem handleSuback_narrows : Narrows c (c.handleSuback reader).2 := by
  unfold handleSuback
  split
  · exact .of_eq rfl rfl
  split
  · exact .of_eq rfl rfl
  split
  · exact .of_eq rfl rfl
  · exact c.acknowledgeRequest_narrows ..

theorem handleUnsuback_narrows : Narrows c (c.handleUnsuback reader).2 := by
  unfold handleUnsuback
  split
  · exact .of_eq rfl rfl
  split
  · exact .of_eq rfl rfl
  · exact c.acknowledgeRequest_narrows ..

theorem handleDisconnect_narrows : Narrows c (c.handleDisconnect reader).2 := by
  unfold handleDisconnect
  split
  · exact .of_eq rfl rfl
  dsimp only
  split
  · exact .of_eq rfl rfl
  · exact .of_eq rfl rfl

theorem IdentifiersOk.handlePacket {c : Client cfg} (h : IdentifiersOk c) (packet : PacketView) :
    IdentifiersOk (c.handlePacket packet).2 := by
  unfold Client.handlePacket
  dsimp only
  split
  · exact h.narrow (c.handleConnack_narrows _)
  · exact h.handlePublish packet
  · exact h.narrow (c.handleAck_narrows ..)
  · exact h.narrow (c.handleAck_narrows ..)
  · exact h.narrow (c.handleAck_narrows ..)
  · exact h.handlePubrel _
  · exact h.narrow (c.handleSuback_narrows _)
  · exact h.narrow (c.handleUnsuback_narrows _)
  · split
    · exact h
    · exact h.narrow (.of_eq rfl rfl)
  · exact h.narrow (c.handleDisconnect_narrows _)
  · exact h
  · exact h

theorem identifiersOk_initial (sendResults : List Status) (callbackScript : List (List ApiCall)) :
    IdentifiersOk (initial sendResults callbackScript : Client cfg) where
  outgoing := Table.distinct_of_free fun i => by simp [initial, Slot.used]
  requests := Table.distinct_of_free fun i => by simp [initial, Slot.used]
  disjoint _ ho := absurd ho (Table.not_holds_of_free (fun i => by simp [initial, Slot.used]) _)
  outgoing_ne_zero := Table.not_holds_of_free (fun i => by simp [initial, Slot.used]) _
  requests_ne_zero := Table.not_holds_of_free (fun i => by simp [initial, Slot.used]) _

theorem identifiersOk_kept : Kept (@IdentifiersOk cfg) fun _ _ => True where
  receives := by
    rintro c c' ⟨_, _, _, _, _, rfl, -⟩ h
    exact h.narrow (.of_eq rfl rfl)
  handlePacket _ packet h _ := h.handlePacket packet
  connectBegin c options tcp h := h.narrow (c.connectBegin_narrows options tcp)
  connectTurn c result h := h.narrow (c.connectTurn_narrows result)
  connectEnd c options h := h.narrow (c.connectEnd_narrows options)
  pollBegin c now h := h.narrow (c.pollBegin_narrows now)
  pollEnd c result h := h.narrow (c.pollEnd_narrows result)
  runCall _ call h := h.runCall call
  callback _ _ h := h.narrow (.of_eq rfl rfl)

theorem Reachable.identifiersOk {c : Client cfg} (h : Reachable c) : IdentifiersOk c := by
  induction h with
  | initial sendResults callbackScript => exact identifiersOk_initial sendResults callbackScript
  | call _ hr ih => exact identifiersOk_kept.call hr ih fun _ _ => trivial
  | receives _ hr ih => exact identifiersOk_kept.receives _ _ hr ih
  | handlePacket packet _ ih => exact ih.handlePacket packet
  | callback message _ _ ih =>
    exact List.foldlRecOn _ _ (ih.narrow (.of_eq rfl rfl)) fun _ hd call _ => hd.runCall call

end Client

/-- Identifiers in use are nonzero and pairwise distinct, in every state of a client
and of a broker; with room for them the client always finds a new one, and a
delivery keeps the identifiers of every client of the broker apart. -/
theorem identifiers_distinct :
    (∀ (cfg : ClientConfig) (c : Client cfg), c.Reachable →
      c.IdentifiersOk ∧ (2 * cfg.maxOutstanding < 65535 →
        c.allocateIdentifier.1 ≠ 0 ∧ c.identifierInUse c.allocateIdentifier.1 = false)) ∧
    (∀ (cfg : BrokerConfig) (sendResults : List Status) (acts : List (Act cfg)),
      (PolledBroker.runActs sendResults acts).IdentifiersOk) ∧
    ∀ (cfg : BrokerConfig) (b : Broker cfg) (h : Net.ClientHandle) (topic payload : Bytes)
      (quality : Qos) (retain : Bool), (∀ i, (b.clients.get i).OutgoingOk) →
      ∀ i, ((b.sendPublishTo h topic payload quality retain).2.clients.get i).OutgoingOk := by
  refine ⟨?_, ?_, ?_⟩
  · intro cfg c hc
    refine ⟨hc.identifiersOk, fun hroom => ?_⟩
    have hz := c.allocateIdentifier_ne_zero hroom
    exact ⟨hz, (Client.allocateIdentifier_spec rfl).2 hz⟩
  · intro cfg sendResults acts
    exact PolledBroker.identifiersOk_runActs sendResults acts
  · intro cfg b h topic payload quality retain hok i
    exact ((b.sendPublishTo_delivers h topic payload quality retain).served.client i).outgoing
      (hok i)

open Client in
theorem identifiers_distinct_published :
    (∃ c : Client smallClient, c.IdentifiersOk ∧ c.identifierInUse 1 = true ∧
      c.allocateIdentifier.1 ≠ 0 ∧ c.identifierInUse c.allocateIdentifier.1 = false) ∧
    ∀ i, ((({} : Broker smallBroker).sendPublishTo {} [0x61] [] .atLeastOnce false).2.clients.get
      i).OutgoingOk := by
  refine ⟨?_, identifiers_distinct.2.2 smallBroker {} {} [0x61] [] .atLeastOnce false
    (PolledBroker.identifiersOk_runActs [] [])⟩
  have hused : (match (initial [] [] : Client smallClient).runCalls
      [.connect {} .ok [.data [0x20, 2, 0, 0]], .publish [0x61] [0x62] .exactlyOnce false] with
      | .ok (c, _) => c.identifierInUse 1
      | .error _ => false) = true := by decide
  cases hr : (initial [] [] : Client smallClient).runCalls
      [.connect {} .ok [.data [0x20, 2, 0, 0]], .publish [0x61] [0x62] .exactlyOnce false] with
  | error fault =>
    rw [hr] at hused
    cases hused
  | ok r =>
    rw [hr] at hused
    obtain ⟨hok, hnew⟩ :=
      identifiers_distinct.1 smallClient r.1 (Reachable.runCalls (.initial [] []) hr)
    exact ⟨r.1, hok, hused, hnew (by decide)⟩
end Castle.Mqtt
