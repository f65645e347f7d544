import Castle.Mqtt.Client.Run
import Castle.Mqtt.Client.Identifiers

/-!
# Request slots across connections

A request slot is filled when its SUBSCRIBE or UNSUBSCRIBE is sent and freed by the acknowledgement,
which a lost connection never brings.
-/

namespace Castle.Mqtt
namespace Client

open Net

variable {cfg : ClientConfig} {c c' : Client cfg} {before : List ClientEvent}

/-- The event is a SUBSCRIBE or UNSUBSCRIBE with this identifier that the socket took. -/
def Asks (cfg : ClientConfig) (id : UInt16) (e : ClientEvent) : Prop :=
  ∃ type version filters body frame, (type = .subscribe ∨ type = .unsubscribe) ∧
    requestBody cfg version id filters = .ok body ∧
      encodePacket type 0x02 body.data cfg.maxPacketSize = .ok frame ∧ e = .sent type frame .ok

/-- The trace begins with `before`, and every request slot in use is one of a packet
sent behind it. -/
structure RequestedSince (before : List ClientEvent) (c : Client cfg) : Prop where
  trace : before <+: c.trace
  requests : ∀ id, c.requests.Holds id → ∃ e ∈ c.trace.drop before.length, Asks cfg id e

/-- `c'` fills no request slot, and its trace goes on from that of `c`. -/
structure Advances (c c' : Client cfg) : Prop where
  requests : c'.requests.Within c.requests
  trace : c.trace <+: c'.trace

theorem Advances.refl (c : Client cfg) : Advances c c := ⟨.refl _, List.prefix_rfl⟩

theorem Advances.trans {c₁ c₂ c₃ : Client cfg} (h : Advances c₁ c₂) (h' : Advances c₂ c₃) :
    Advances c₁ c₃ :=
  ⟨h'.requests.trans h.requests, h.trace.trans h'.trace⟩

theorem Advances.quiet (hr : c'.requests.Within c.requests) (ht : c'.trace = c.trace) :
    Advances c c' :=
  ⟨hr, ht ▸ List.prefix_rfl⟩

theorem Advances.of_eq (hr : c'.requests = c.requests) (ht : c'.trace = c.trace) : Advances c c' :=
  .quiet (.of_eq hr) ht

theorem Advances.record (c : Client cfg) (event : ClientEvent) : Advances c (c.record event) :=
  ⟨.refl _, List.prefix_append _ _⟩

theorem Talks.trace_le (h : Talks c c') : c.trace <+: c'.trace := by
  obtain ⟨frames, he, -⟩ := h.frames
  exact he ▸ List.prefix_append _ _

theorem Talks.advances (h : Talks c c') (hn : Narrows c c') : Advances c c' :=
  ⟨hn.2, h.trace_le⟩

theorem SendsOnly.advances (h : SendsOnly c c') : Advances c c' := h.talks.advances h.narrows

theorem RequestedSince.advance (h : RequestedSince before c) (ha : Advances c c') :
    RequestedSince before c' := by
  refine ⟨h.trace.trans ha.trace, fun id hid => ?_⟩
  obtain ⟨e, he, hasks⟩ := h.requests id (ha.requests.holds hid)
  obtain ⟨events, hevents⟩ := ha.trace
  rw [← hevents, List.drop_append_of_le_length h.trace.length_le]
  exact ⟨e, List.mem_append_left _ he, hasks⟩

theorem allocateOutgoing_requests (c : Client cfg) :
    c.allocateOutgoing.2.requests = c.requests := by
  unfold allocateOutgoing
  split
  · rfl
  · rfl

theorem sendPublish_requests (c : Client cfg) (topic payload : Bytes) (quality : Qos)
    (retain : Bool) (identifier : UInt16) (duplicate : Bool) :
    (c.sendPublish topic payload quality retain identifier duplicate).2.requests = c.requests := by
  obtain ⟨_, _, _, _, he, -⟩ := c.sendPublish_sendsOnly topic payload quality retain identifier duplicate
  rw [he]

theorem publish_requests (c : Client cfg) (topic payload : Bytes) (quality : Qos) (retain : Bool) :
    (c.publish topic payload quality retain).2.requests = c.requests := by
  unfold publish
  split
  · rfl
  split
  · rfl
  split
  · rfl
  split
  · exact c.sendPublish_requests ..
  have ha := c.allocateOutgoing_requests
  generalize c.allocateOutgoing = r at ha ⊢
  obtain ⟨_ | ⟨k, id⟩, c₁⟩ := r
  · exact ha
  dsimp only at ha ⊢
  have hsent (entry : OutgoingEntry) := (c₁.storeOutgoing k entry).sendPublish_requests topic
    payload quality retain id false
  split
  · exact (hsent _).trans ha
  · exact (hsent _).trans ha

theorem publish_advances (c : Client cfg) (topic payload : Bytes) (quality : Qos)
    (retain : Bool) : Advances c (c.publish topic payload quality retain).2 :=
  ⟨.of_eq (c.publish_requests ..), (c.publish_talks ..).trace_le⟩

variable {type : PacketType}

/-- A request that is not in use is found in the slot that was filled with it, and
freeing that slot leaves the others. -/
theorem releaseRequest_reserved {id : UInt16} {k j : Fin cfg.maxOutstanding}
    (hfree : ¬c.requests.Holds id) (hc : c'.requests = (c.storeRequest k ⟨true, id, type⟩).requests)
    (hj : c'.findRequest id type = some j) : (c'.releaseRequest j).requests.Within c.requests := by
  have hfound : (c'.requests.get j).used = true ∧ (c'.requests.get j).identifier = id := by
    have hp := Table.firstIdx_some hj
    simp only [Bool.and_eq_true, decide_eq_true_eq] at hp
    exact hp.1
  have hjk : j = k := by
    by_contra hne
    rw [hc, storeRequest, Table.get_set_ne _ _ hne] at hfound
    exact hfree ⟨j, hfound.1, hfound.2⟩
  intro i hi
  rw [releaseRequest, Table.get_modify] at hi ⊢
  split_ifs at hi ⊢ with hij
  rw [hc, storeRequest, Table.get_set_ne _ _ (hjk ▸ hij)] at hi ⊢
  exact ⟨hi, rfl⟩

/-- What `subscribe` and `unsubscribe` do to the request slots: they free some, or the
socket took the packet and one slot more is used, under its identifier. -/
theorem sendRequest_spec (c : Client cfg) (ht : type = .subscribe ∨ type = .unsubscribe)
    (filters : List (Bytes × Bytes)) : Advances c (c.sendRequest type filters).2.2 ∨
    ∃ k id e, Asks cfg id e ∧ (c.sendRequest type filters).2.2.trace = c.trace ++
    [e] ∧ (c.sendRequest type filters).2.2.requests = c.requests.set k ⟨true, id, type⟩ := by
  unfold sendRequest
  split
  · exact .inl (.refl c)
  split
  · exact .inl (.refl c)
  rcases ha : c.allocateIdentifier with ⟨id, c₁⟩
  have hfree := (allocateIdentifier_spec ha).2
  obtain ⟨hr₁, ht₁⟩ : c₁.requests = c.requests ∧ c₁.trace = c.trace := by
    cases ha
    exact ⟨rfl, rfl⟩
  rw [← hr₁, ← ht₁]
  have hcome {d : Client cfg} (h : Advances c₁ d) : Advances c d := (Advances.of_eq hr₁ ht₁).trans h
  dsimp only
  split
  · exact .inl (hcome (.refl c₁))
  next hz =>
  split
  · exact .inl (hcome (.refl c₁))
  next body hbody =>
  split
  next c₂ hres =>
    obtain ⟨-, rfl⟩ | ⟨k, hd, -⟩ := reserveRequest_spec hres
    · exact .inl (hcome (.refl _))
    · cases hd
  next c₂ hres =>
  obtain ⟨hd, -⟩ | ⟨k, -, rfl⟩ := reserveRequest_spec hres
  · cases hd
  have hsends := (c₁.storeRequest k ⟨true, id, type⟩).sendBody_sendsOnly type 0x02 body.data
  have hkeep : ((c₁.storeRequest k ⟨true, id, type⟩).sendBody type 0x02 body.data).2.requests =
      (c₁.storeRequest k ⟨true, id, type⟩).requests := by
    obtain ⟨_, _, _, _, he, -⟩ := hsends
    rw [he]
  split
  next hok =>
    -- the packet is on the socket, and its slot stays in use
    right
    obtain ⟨hne, -⟩ | ⟨frame, hframe, -, htrace⟩ :=
      (c₁.storeRequest k ⟨true, id, type⟩).sendBody_spec type 0x02 body.data
    · exact absurd hok hne
    rw [hok] at htrace
    exact ⟨k, id, _, ⟨type, _, filters, body, frame, ht, hbody, hframe, rfl⟩, htrace, hkeep⟩
  · left
    have hunused : ¬c₁.requests.Holds id := fun hh => by
      have hused := (c₁.identifierInUse_iff id).mpr (.inr hh)
      rw [hfree hz] at hused
      cases hused
    split
    next j hj =>
      exact hcome ⟨releaseRequest_reserved hunused hkeep hj, hsends.talks.trace_le⟩
    next hj =>
      -- the slot that was just filled is found
      refine absurd (Table.firstIdx_none hj k) ?_
      rw [hkeep, storeRequest, Table.get_set_self]
      simp

theorem RequestedSince.sendRequest (h : RequestedSince before c)
    (ht : type = .subscribe ∨ type = .unsubscribe) (filters : List (Bytes × Bytes)) :
    RequestedSince before (c.sendRequest type filters).2.2 := by
  obtain ha | ⟨k, id, e, hasks, htrace, hrequests⟩ := c.sendRequest_spec ht filters
  · exact h.advance ha
  refine ⟨?_, fun id' hid => ?_⟩
  · rw [htrace]
    exact h.trace.trans (List.prefix_append _ _)
  rw [htrace, List.drop_append_of_le_length h.trace.length_le]
  rw [hrequests] at hid
  obtain rfl | hold := Table.holds_set hid
  · exact ⟨e, by simp, hasks⟩
  · obtain ⟨e', he', hasks'⟩ := h.requests id' hold
    exact ⟨e', List.mem_append_left _ he', hasks'⟩

theorem disconnect_advances (c : Client cfg) (reason : ReasonCode) :
    Advances c (c.disconnect reason).2 := by
  unfold disconnect
  split
  · exact .refl c
  · exact (c.sendDisconnect_sendsOnly reason).advances.trans (.of_eq rfl rfl)

theorem startConnecting_advances (c : Client cfg) (options : ConnectOptions) :
    Advances c (c.startConnecting options) := by
  refine .quiet (c.startConnecting_narrows options).2 ?_
  unfold startConnecting
  dsimp only
  split
  · rfl
  · rfl

theorem openTransport_advances (c : Client cfg) : Advances c c.openTransport :=
  ⟨.refl _, List.prefix_append _ _⟩

theorem connectBegin_advances (c : Client cfg) (options : ConnectOptions) (tcp : Status) :
    Advances c (c.connectBegin options tcp).2 := by
  have hstart := c.startConnecting_advances options
  have hopen := (hstart.trans (c.startConnecting options).openTransport_advances).trans
    (c.startConnecting options).openTransport.sendConnect_sendsOnly.advances
  unfold connectBegin
  dsimp only
  split
  · exact .refl c
  split
  · exact .of_eq rfl rfl
  split
  · exact hstart.trans (.of_eq rfl rfl)
  split
  · exact hopen.trans (.of_eq rfl rfl)
  · exact hopen

theorem connectTurn_advances (c : Client cfg) (result : Status) :
    Advances c (c.connectTurn result).2 := by
  refine .quiet (c.connectTurn_narrows result).2 ?_
  unfold connectTurn
  split
  · rfl
  split
  · rfl
  split
  · rfl
  · rfl

theorem connectEnd_advances (c : Client cfg) (options : ConnectOptions) :
    Advances c (c.connectEnd options).2 := by
  unfold connectEnd
  split
  · exact .of_eq rfl rfl
  split
  · exact c.resendOutgoing_sendsOnly.advances
  · exact .of_eq rfl rfl

theorem pollBegin_advances (c : Client cfg) (now : UInt32) : Advances c (c.pollBegin now) := by
  unfold pollBegin
  dsimp only
  split
  · exact .of_eq rfl rfl
  · exact .of_eq rfl rfl

theorem pollEnd_advances (c : Client cfg) (result : Status) : Advances c (c.pollEnd result).2 := by
  unfold pollEnd checkKeepAlive
  dsimp only
  have hping := (c.sendBody_sendsOnly .pingreq 0 []).advances
  split
  · exact .of_eq rfl rfl
  split
  · exact .of_eq rfl rfl
  split
  · exact .of_eq rfl rfl
  split
  · split
    · split
      · exact hping
      · exact hping.trans (.of_eq rfl rfl)
    split
    · exact .of_eq rfl rfl
    · exact .refl c
  · exact .refl c

theorem nestedConnect_advances (c : Client cfg) (options : ConnectOptions) (tcp : Status) :
    Advances c (c.nestedConnect options tcp) := by
  have hb := c.connectBegin_advances options tcp
  unfold nestedConnect
  generalize c.connectBegin options tcp = r at hb ⊢
  obtain ⟨status | status, c'⟩ := r
  · exact hb.trans (c'.connectTurn_advances _)
  · exact hb

theorem RequestedSince.runCall (h : RequestedSince before c) (call : ApiCall) :
    RequestedSince before (c.runCall call) := by
  cases call with
  | publish topic payload quality retain => exact h.advance (c.publish_advances ..)
  | subscribe filters => exact h.sendRequest (.inl rfl) _
  | unsubscribe filters => exact h.sendRequest (.inr rfl) _
  | poll now =>
    unfold Client.runCall nestedPoll
    dsimp only
    split
    · exact h
    · exact (h.advance (c.pollBegin_advances now)).advance (pollEnd_advances _ _)
  | disconnect reason => exact h.advance (c.disconnect_advances reason)
  | forceClose => exact h.advance (.of_eq rfl rfl)
  | connect options tcp => exact h.advance (c.nestedConnect_advances options tcp)
  | setMessageCallback => exact h.advance (.of_eq rfl rfl)
  | clearMessageCallback => exact h.advance (.of_eq rfl rfl)
  | transportOpen value => exact h.advance (.of_eq rfl rfl)

section

variable (h : RequestedSince before c)
include h

theorem RequestedSince.invokeCallback (message : MessageView) :
    RequestedSince before (c.invokeCallback message) := by
  unfold Client.invokeCallback
  split
  · exact h
  have henter : RequestedSince before (c.enterCallback message) :=
    (h.advance (.record c (.delivered message))).advance (.of_eq rfl rfl)
  have hcalls : RequestedSince before
      ((c.callbackScript.headD []).foldl Client.runCall (c.enterCallback message)) :=
    List.foldlRecOn _ _ henter fun _ hd call _ => hd.runCall call
  exact hcalls.advance (.of_eq rfl rfl)

theorem RequestedSince.sendIdentifier (type : PacketType)
    (identifier : UInt16) (duplicate : Bool) :
    RequestedSince before (c.sendIdentifier type identifier duplicate).2 :=
  h.advance (c.sendIdentifier_sendsOnly ..).advances

theorem RequestedSince.handlePublish (packet : PacketView) :
    RequestedSince before (c.handlePublish packet).2 := by
  unfold Client.handlePublish
  split
  · exact h
  split
  · exact h
  dsimp only
  split
  · split
    · exact h.sendIdentifier ..
    split
    · exact h
    next k _ =>
      have hstore (e : IncomingEntry) : RequestedSince before (c.storeIncoming k e) :=
        h.advance (.of_eq rfl rfl)
      exact (hstore _).sendIdentifier ..
  · split
    · exact (h.invokeCallback _).sendIdentifier ..
    · exact h.invokeCallback _

theorem RequestedSince.handlePubrel (reader : PacketReader) :
    RequestedSince before (c.handlePubrel reader).2 := by
  unfold Client.handlePubrel
  split
  · exact h
  dsimp only
  split
  · exact h.sendIdentifier ..
  · refine RequestedSince.sendIdentifier ?_ ..
    exact (h.invokeCallback _).advance (.of_eq rfl rfl)

end

theorem handleConnack_advances (c : Client cfg) (reader : PacketReader) :
    Advances c (c.handleConnack reader).2 := by
  unfold handleConnack
  dsimp only
  generalize reader.getU8.reader.getU8.value = code
  have hrecord := Advances.record c (.connack code)
  split
  · exact .refl c
  split
  · exact .refl c
  split
  · exact .of_eq rfl rfl
  split
  · exact hrecord.trans (.of_eq rfl rfl)
  · exact hrecord.trans (.of_eq rfl rfl)

theorem handleDisconnect_advances (c : Client cfg) (reader : PacketReader) :
    Advances c (c.handleDisconnect reader).2 := by
  refine .quiet (c.handleDisconnect_narrows reader).2 ?_
  unfold handleDisconnect
  split
  · rfl
  dsimp only
  split
  · rfl
  · rfl

theorem RequestedSince.handlePacket (h : RequestedSince before c) (packet : PacketView) :
    RequestedSince before (c.handlePacket packet).2 := by
  unfold Client.handlePacket
  dsimp only
  split
  · exact h.advance (c.handleConnack_advances _)
  · exact h.handlePublish packet
  · exact h.advance ((c.handleAck_talks ..).advances (c.handleAck_narrows ..))
  · exact h.advance ((c.handleAck_talks ..).advances (c.handleAck_narrows ..))
  · exact h.advance ((c.handleAck_talks ..).advances (c.handleAck_narrows ..))
  · exact h.handlePubrel _
  · exact h.advance ((c.handleSuback_talks _).advances (c.handleSuback_narrows _))
  · exact h.advance ((c.handleUnsuback_talks _).advances (c.handleUnsuback_narrows _))
  · split
    · exact h
    · exact h.advance (.of_eq rfl rfl)
  · exact h.advance (c.handleDisconnect_advances _)
  · exact h
  · exact h

theorem requestedSince_kept (before : List ClientEvent) :
    Kept (@RequestedSince cfg before) fun _ _ => True where
  receives := by
    rintro c c' ⟨_, _, _, _, _, rfl, -⟩ h
    exact h.advance (.of_eq rfl rfl)
  handlePacket _ packet h _ := h.handlePacket packet
  connectBegin c options tcp h := h.advance (c.connectBegin_advances options tcp)
  connectTurn c result h := h.advance (c.connectTurn_advances result)
  connectEnd c options h := h.advance (c.connectEnd_advances options)
  pollBegin c now h := h.advance (c.pollBegin_advances now)
  pollEnd c result h := h.advance (c.pollEnd_advances result)
  runCall _ call h := h.runCall call
  callback _ _ h := h.advance (.of_eq rfl rfl)

variable {options : ConnectOptions}

theorem startConnecting_unused
    (hfresh : options.cleanSession = true ∨ ∀ k, (c.requests.get k).used = false)
    (k : Fin cfg.maxOutstanding) : ((c.startConnecting options).requests.get k).used = false := by
  unfold startConnecting
  dsimp only
  split
  · simp [clearOutgoing, clearIncoming, clearRequests]
  next hclean => exact hfresh.resolve_left hclean k

theorem startConnecting_trace (c : Client cfg) (options : ConnectOptions) :
    (c.startConnecting options).trace = c.trace := by
  unfold startConnecting
  dsimp only
  split
  · rfl
  · rfl

/-- When `connect` goes on to its receive loop it has opened a connection; with its
slots free by then, only this connection can fill them. -/
theorem connectBegin_opened {tcp : Status} (h : c.connectBegin options tcp = (none, c'))
    (hfresh : options.cleanSession = true ∨ ∀ k, (c.requests.get k).used = false) :
    RequestedSince (c.trace ++ [.opened]) c' := by
  have hsent := (c.startConnecting options).openTransport.sendConnect_sendsOnly.advances
  have hopen : RequestedSince (c.trace ++ [.opened]) (c.startConnecting options).openTransport := by
    refine ⟨?_, fun id hid => ?_⟩
    · rw [← c.startConnecting_trace options]
      exact List.prefix_rfl
    · exact absurd hid (Table.not_holds_of_free (startConnecting_unused hfresh) id)
  unfold connectBegin at h
  dsimp only at h
  split at h
  · cases h
  split at h
  · cases h
  split at h
  · cases h
  split at h
  · cases h
  cases h
  exact hopen.advance hsent

theorem connectBegin_ne_ok (c : Client cfg) (options : ConnectOptions) (tcp : Status) :
    (c.connectBegin options tcp).1 ≠ some .ok := by
  unfold connectBegin
  dsimp only
  split
  · simp
  split
  next hvalid => exact fun h => hvalid (Option.some.inj h)
  split
  next htcp => exact fun h => htcp (Option.some.inj h)
  split
  next hsend => exact fun h => hsend (Option.some.inj h)
  · simp

theorem connect_requestedSince {tcp : Status} {received : List Receive}
    {handed : List (Client cfg × PacketView)}
    (h : c.connect options tcp received = .ok (.ok, c', handed))
    (hfresh : options.cleanSession = true ∨ ∀ k, (c.requests.get k).used = false) :
    RequestedSince (c.trace ++ [.opened]) c' := by
  have hkept : Kept (@RequestedSince cfg (c.trace ++ [.opened])) _ := requestedSince_kept _
  unfold connect at h
  split at h
  next status c₁ hbegin =>
    cases h
    exact absurd (congrArg Prod.fst hbegin) (c.connectBegin_ne_ok options tcp)
  next c₁ hbegin =>
  obtain ⟨⟨status, c₂, handed₂⟩, hloop, h⟩ := bind_eq_ok.mp h
  have hc₂ := hkept.connectLoop hloop (connectBegin_opened hbegin hfresh) fun _ _ => trivial
  dsimp only at h
  split at h
  · cases h
    exact hc₂
  · have he := hkept.connectEnd c₂ options hc₂
    cases hend : c₂.connectEnd options
    rw [hend] at h he
    cases h
    exact he

theorem reserveRequest_free (hfree : ∀ id, ¬c.requests.Holds id) (id : UInt16)
    (type : PacketType) : (c.reserveRequest id type).1 = true := by
  unfold reserveRequest
  split
  · rfl
  next hnone =>
    have hused := Table.firstIdx_none hnone ⟨0, cfg.capacities_pos.1⟩
    exact absurd ⟨_, by simpa [Slot.used] using hused, rfl⟩ (hfree _)

theorem ok_of_any {ε α : Type} {x : Except ε α} {p : α → Bool} (h : x.toOption.any p = true) :
    ∃ a, x = .ok a ∧ p a = true := by
  cases x with
  | error e => cases h
  | ok a => exact ⟨a, rfl, h⟩

/-- Two SUBSCRIBE packets whose acknowledgements are lost with the connection. -/
def lostRequests : List ClientCall :=
  [.connect { cleanSession := false } .ok [.data [0x20, 2, 0, 0]], .subscribe [([0x61], .atMostOnce)],
    .subscribe [([0x62], .atMostOnce)], .poll 1 .closed]

/-- A `connect` that asks for a clean session, or that meets no request slot in use,
leaves none to an earlier connection, whatever came before it and whatever is called
after it: a slot in use is one of a SUBSCRIBE or UNSUBSCRIBE that the socket took
behind the opening of this connection, and while nothing was requested on it there is
a free slot. -/
theorem requests_of_connection {c'' : Client cfg} {options : ConnectOptions} {tcp : Status}
    {received : List Receive} {later : List ClientCall}
    {handed handed' : List (Client cfg × PacketView)}
    (hconnect : c.connect options tcp received = .ok (.ok, c', handed))
    (hfresh : options.cleanSession = true ∨ ∀ k, (c.requests.get k).used = false)
    (hlater : c'.runCalls later = .ok (c'', handed')) :
    ∃ events, c''.trace = c.trace ++ .opened :: events ∧
      (∀ k, (c''.requests.get k).used = true →
        ∃ e ∈ events, Asks cfg (c''.requests.get k).identifier e) ∧
      ((∀ e ∈ events, ∀ id, ¬Asks cfg id e) →
        ∀ id type, (c''.reserveRequest id type).1 = true) := by
  have hsince := (requestedSince_kept _).runCalls hlater (connect_requestedSince hconnect hfresh)
    fun _ _ => trivial
  have hrequests := hsince.requests
  obtain ⟨events, hevents⟩ := hsince.trace
  rw [← hevents, List.drop_left] at hrequests
  rw [List.append_assoc, List.singleton_append] at hevents
  refine ⟨events, hevents.symm, fun k hk => hrequests _ ⟨k, hk, rfl⟩, fun hnone id type => ?_⟩
  refine reserveRequest_free (fun id' hid => ?_) id type
  obtain ⟨e, he, hasks⟩ := hrequests id' hid
  exact hnone e he id' hasks

theorem requests_of_connection_clean :
    ∃ (c c' c'' : Client smallClient) (handed' : List (Client smallClient × PacketView)),
      (∀ k, (c.requests.get k).used = true) ∧
        c.connect {} .ok [.data [0x20, 2, 0, 0]] = .ok (.ok, c', handed') ∧
          (c''.requests.get ⟨0, by decide⟩).used = true ∧
            ∃ events, c''.trace = c.trace ++ .opened :: events ∧
              ∃ e ∈ events, Asks smallClient (c''.requests.get ⟨0, by decide⟩).identifier e := by
  have hrun : ((initial [] [] : Client smallClient).runCalls lostRequests).toOption.any (fun first =>
      (first.1.connect {} .ok [.data [0x20, 2, 0, 0]]).toOption.any fun opened =>
        (opened.2.1.runCalls [.subscribe [([0x61], .atMostOnce)]]).toOption.any fun second =>
          decide (opened.1 = .ok ∧ (∀ k, (first.1.requests.get k).used = true) ∧
            (second.1.requests.get ⟨0, by decide⟩).used = true)) = true := by decide
  obtain ⟨⟨c, handed⟩, -, hrun⟩ := ok_of_any hrun
  obtain ⟨⟨status, c', handed'⟩, hc', hrun⟩ := ok_of_any hrun
  obtain ⟨⟨c'', handed''⟩, hc'', hrun⟩ := ok_of_any hrun
  obtain ⟨rfl, hlost, hused⟩ := of_decide_eq_true hrun
  obtain ⟨events, htrace, hall, -⟩ := requests_of_connection hc' (.inl rfl) hc''
  exact ⟨c, c', c'', handed', hlost, hc', hused, events, htrace, hall _ hused⟩

def isRequest : ClientEvent → Bool
  | .sent type .. => type = .subscribe || type = .unsubscribe
  | _ => false

theorem Asks.isRequest {id : UInt16} {e : ClientEvent} (h : Asks cfg id e) :
    isRequest e = true := by
  obtain ⟨type, _, _, _, _, rfl | rfl, -, -, rfl⟩ := h
  · rfl
  · rfl

/-- The session is not resumed, yet `connect` leaves both slots to packets that were
sent on the lost connection: there is no slot for a SUBSCRIBE on the new one. -/
theorem requests_of_lost_connection :
    ∃ (c c' : Client smallClient) (handed handed' : List (Client smallClient × PacketView)),
      (initial [] []).runCalls lostRequests = .ok (c, handed) ∧
        c.connect { cleanSession := false } .ok [.data [0x20, 2, 0, 0]] = .ok (.ok, c', handed') ∧
          (∀ k, (c'.requests.get k).used = true) ∧
            (∀ e ∈ c'.trace.drop c.trace.length, ∀ id, ¬Asks smallClient id e) ∧
              (c'.subscribe [([0x61], .atMostOnce)]).1 = .full := by
  have hrun : ((initial [] [] : Client smallClient).runCalls lostRequests).toOption.any (fun first =>
      (first.1.connect { cleanSession := false } .ok [.data [0x20, 2, 0, 0]]).toOption.any fun opened =>
        decide (opened.1 = .ok ∧ (∀ k, (opened.2.1.requests.get k).used = true) ∧
          (∀ e ∈ opened.2.1.trace.drop first.1.trace.length, isRequest e = false) ∧
            (opened.2.1.subscribe [([0x61], .atMostOnce)]).1 = .full)) = true := by decide
  obtain ⟨⟨c, handed⟩, hc, hrun⟩ := ok_of_any hrun
  obtain ⟨⟨status, c', handed'⟩, hc', hrun⟩ := ok_of_any hrun
  obtain ⟨rfl, hused, hnone, hfull⟩ := of_decide_eq_true hrun
  refine ⟨c, c', handed, handed', hc, hc', hused, ?_, hfull⟩
  intro e he id hasks
  have hnot := hnone e he
  rw [hasks.isRequest] at hnot
  cases hnot

end Client
end Castle.Mqtt
