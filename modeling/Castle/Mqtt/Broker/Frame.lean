import Castle.Mqtt.Broker.Packets

/-!
# What the steps of the broker leave unchanged

`SendsOnly`, `Delivers` and `Handled` bound what a send, a publication and a
packet handler can change, and are what other modules use in place of the bodies
of these functions.
-/

namespace Castle.Mqtt

open Net

namespace ClientState

variable {cfg : BrokerConfig}

/-- The used outgoing entries carry nonzero, pairwise distinct identifiers. -/
def OutgoingOk (s : ClientState cfg) : Prop := s.outgoing.Distinct ∧ ¬s.outgoing.Holds 0

theorem OutgoingOk.within {s s' : ClientState cfg} (h : s.OutgoingOk)
    (hw : s'.outgoing.Within s.outgoing) : s'.OutgoingOk :=
  ⟨hw.distinct h.1, fun h0 => h.2 (hw.holds h0)⟩

/-- `s'` is `s` after messages were delivered to it. -/
def Delivered (s s' : ClientState cfg) : Prop :=
  ∃ outgoing nextPacketIdentifier, s' = { s with outgoing, nextPacketIdentifier } ∧
    (s.OutgoingOk → s'.OutgoingOk)

variable (s : ClientState cfg)

theorem Delivered.refl : s.Delivered s := ⟨_, _, rfl, id⟩

theorem Delivered.trans {s₁ s₂ s₃ : ClientState cfg} (h : s₁.Delivered s₂) (h' : s₂.Delivered s₃) :
    s₁.Delivered s₃ := by
  obtain ⟨_, _, rfl, ho⟩ := h
  obtain ⟨_, _, rfl, ho'⟩ := h'
  exact ⟨_, _, rfl, ho' ∘ ho⟩

/-- `s'` is the state of the same connection after a packet. -/
structure Handled (s s' : ClientState cfg) : Prop where
  used : s'.used = s.used
  handle : s'.handle = s.handle
  outgoing : s.OutgoingOk → s'.OutgoingOk
  closePending : s.closePending = true → s'.closePending = true

theorem Handled.refl : s.Handled s := ⟨rfl, rfl, id, id⟩

theorem Handled.trans {s₁ s₂ s₃ : ClientState cfg} (h : s₁.Handled s₂) (h' : s₂.Handled s₃) :
    s₁.Handled s₃ :=
  ⟨h'.used.trans h.used, h'.handle.trans h.handle, h'.outgoing ∘ h.outgoing,
    h'.closePending ∘ h.closePending⟩

/-- `s'` is `s` after a packet other than CONNECT. -/
structure Served (s s' : ClientState cfg) : Prop extends Handled s s' where
  clientId : s'.clientId = s.clientId
  protocolLevel : s'.protocolLevel = s.protocolLevel

theorem Served.refl : s.Served s := ⟨.refl s, rfl, rfl⟩

theorem Served.trans {s₁ s₂ s₃ : ClientState cfg} (h : s₁.Served s₂) (h' : s₂.Served s₃) :
    s₁.Served s₃ :=
  ⟨h.toHandled.trans h'.toHandled, h'.clientId.trans h.clientId,
    h'.protocolLevel.trans h.protocolLevel⟩

theorem Delivered.served {s s' : ClientState cfg} (h : s.Delivered s') : s.Served s' := by
  obtain ⟨_, _, rfl, ho⟩ := h
  exact ⟨⟨rfl, rfl, ho, id⟩, rfl, rfl⟩

end ClientState

namespace Broker

variable {cfg : BrokerConfig} (b : Broker cfg)

variable (i : Fin cfg.maxClients)

variable (f : ClientState cfg → ClientState cfg)

@[simp] theorem get_modifyClient_self :
    (b.modifyClient i f).clients.get i = f (b.clients.get i) := by
  simp [modifyClient]

@[simp] theorem get_modifyClient_ne {i j : Fin cfg.maxClients} (h : j ≠ i) :
    (b.modifyClient i f).clients.get j = b.clients.get j := by
  simp [modifyClient, h]

variable {f : ClientState cfg → ClientState cfg}

/-- A relation that holds between every client and itself holds of every client when
it holds of the one that is modified. -/
theorem forall_modifyClient {R : ClientState cfg → ClientState cfg → Prop} (hr : ∀ s, R s s)
    {i : Fin cfg.maxClients} (h : R (b.clients.get i) (f (b.clients.get i)))
    (j : Fin cfg.maxClients) : R (b.clients.get j) ((b.modifyClient i f).clients.get j) := by
  by_cases hji : j = i
  · subst hji
    simpa using h
  · simpa [hji] using hr _

/-- `b'` is `b` after sends. -/
def SendsOnly (b b' : Broker cfg) : Prop :=
  ∃ sendResults trace, b' = { b with sendResults, trace } ∧
    publications trace = publications b.trace

theorem SendsOnly.refl : SendsOnly b b := ⟨_, _, rfl, rfl⟩

theorem SendsOnly.clients {b b' : Broker cfg} (h : SendsOnly b b') : b'.clients = b.clients := by
  obtain ⟨_, _, rfl, -⟩ := h
  rfl

theorem SendsOnly.published {b b' : Broker cfg} (h : SendsOnly b b') :
    publications b'.trace = publications b.trace := by
  obtain ⟨_, _, rfl, hp⟩ := h
  exact hp

theorem sendAll_sendsOnly (h : ClientHandle) (frame : Bytes) :
    SendsOnly b (b.sendAll h frame).2 := by
  unfold sendAll
  split
  · exact SendsOnly.refl b
  · exact ⟨_, _, rfl, by simp [publications]⟩

theorem sendPacket_sendsOnly (h : ClientHandle) (type : PacketType) (flags : UInt8)
    (body : Bytes) : SendsOnly b (b.sendPacket h type flags body).2 := by
  unfold sendPacket
  split
  · exact SendsOnly.refl b
  · exact b.sendAll_sendsOnly ..

theorem sendIdentifier_sendsOnly (h : ClientHandle) (type : PacketType) (identifier : UInt16)
    (duplicate : Bool) : SendsOnly b (b.sendIdentifier h type identifier duplicate).2 := by
  unfold sendIdentifier
  split
  · exact SendsOnly.refl b
  · exact b.sendPacket_sendsOnly ..

theorem sendConnack_sendsOnly (sessionPresent : Bool) (reason : ReasonCode)
    (assignedId : Option Bytes) :
    SendsOnly b (b.sendConnack i sessionPresent reason assignedId).2 := by
  unfold sendConnack
  dsimp only
  split
  · exact SendsOnly.refl b
  · exact b.sendPacket_sendsOnly ..

/-- `b'` is `b` after the publications `ps` and any deliveries. -/
def Delivers (ps : List Publication) (b b' : Broker cfg) : Prop :=
  ∃ clients retained sendResults trace, b' = { b with clients, retained, sendResults, trace } ∧
    publications trace = publications b.trace ++ ps ∧
    ∀ i, (b.clients.get i).Delivered (clients.get i)

theorem SendsOnly.delivers {b b' : Broker cfg} (h : SendsOnly b b') : Delivers [] b b' := by
  obtain ⟨_, _, rfl, hp⟩ := h
  exact ⟨_, _, _, _, rfl, by simpa using hp, fun i => .refl _⟩

theorem Delivers.refl : Delivers [] b b := (SendsOnly.refl b).delivers

variable {ps : List Publication}

theorem Delivers.trans {b₁ b₂ b₃ : Broker cfg} {qs : List Publication} (h : Delivers ps b₁ b₂)
    (h' : Delivers qs b₂ b₃) : Delivers (ps ++ qs) b₁ b₃ := by
  obtain ⟨_, _, _, _, rfl, hp, hc⟩ := h
  obtain ⟨_, _, _, _, rfl, hp', hc'⟩ := h'
  exact ⟨_, _, _, _, rfl, by rw [hp', hp, List.append_assoc], fun i => (hc i).trans (hc' i)⟩

theorem Delivers.client {b b' : Broker cfg} (h : Delivers ps b b') (i : Fin cfg.maxClients) :
    (b.clients.get i).Delivered (b'.clients.get i) := by
  obtain ⟨_, _, _, _, rfl, -, hc⟩ := h
  exact hc i

theorem Delivers.published {b b' : Broker cfg} (h : Delivers ps b b') :
    publications b'.trace = publications b.trace ++ ps := by
  obtain ⟨_, _, _, _, rfl, hp, -⟩ := h
  exact hp

theorem delivers_modifyClient {i : Fin cfg.maxClients}
    (h : (b.clients.get i).Delivered (f (b.clients.get i))) : Delivers [] b (b.modifyClient i f) :=
  ⟨_, _, _, _, rfl, by simp, b.forall_modifyClient .refl h⟩

theorem releaseOutgoing_delivers (k : Fin cfg.maxOutstanding) :
    Delivers [] b (b.releaseOutgoing i k) :=
  b.delivers_modifyClient ⟨_, _, rfl, fun h => h.within <|
    Table.within_modify _ _ _ fun hu => absurd hu (by simp [Slot.used])⟩

theorem storeOutgoing_delivers (k : Fin cfg.maxOutstanding) (e : QosEntry) (hz : e.identifier ≠ 0)
    (hf : ¬(b.clients.get i).outgoing.Holds e.identifier) : Delivers [] b (b.storeOutgoing i k e) :=
  b.delivers_modifyClient ⟨_, _, rfl, fun h => ⟨h.1.set k hf, fun h0 =>
    (Table.holds_set h0).elim hz h.2⟩⟩

theorem reserveOutgoing_delivers (topic payload : Bytes) (quality : Qos) (retain : Bool) :
    Delivers [] b (b.reserveOutgoing i topic payload quality retain).2 := by
  unfold reserveOutgoing
  dsimp only
  split
  · exact Delivers.refl b
  next k _ =>
  -- drawing an identifier moves the counter only
  have hnext (next : UInt16) : Delivers [] b
      (b.modifyClient i fun s => { s with nextPacketIdentifier := next }) :=
    b.delivers_modifyClient ⟨_, _, rfl, fun h => h⟩
  split
  · exact hnext _
  next hfound =>
    have hfound : (searchIdentifier (fun id => (findQos (b.clients.get i).outgoing id).isSome)
        65535 (b.clients.get i).nextPacketIdentifier).2 = true := by simpa using hfound
    have hfree := searchIdentifier_unused _ _ _ hfound
    refine (hnext _).trans (storeOutgoing_delivers _ i k _ ?_ ?_)
    · exact searchIdentifier_ne_zero _ _ _ hfound
    · rw [get_modifyClient_self]
      exact findQos_none.mp (by simpa using hfree)

theorem sendPublishTo_delivers (h : ClientHandle) (topic payload : Bytes) (quality : Qos)
    (retain : Bool) : Delivers [] b (b.sendPublishTo h topic payload quality retain).2 := by
  unfold sendPublishTo
  split
  · exact Delivers.refl b
  next i _ =>
  split
  · exact Delivers.refl b
  split
  · dsimp only
    split
    · exact Delivers.refl b
    · exact (b.sendPacket_sendsOnly ..).delivers
  have hres := b.reserveOutgoing_delivers i topic payload quality retain
  generalize b.reserveOutgoing i topic payload quality retain = r at hres ⊢
  obtain ⟨_ | ⟨k, id⟩, b₁⟩ := r
  · exact hres
  dsimp only
  split
  · exact hres.trans (b₁.releaseOutgoing_delivers i k)
  · have hsent := fun flags body =>
      hres.trans (b₁.sendPacket_sendsOnly h .publish flags body).delivers
    split
    · exact (hsent _ _).trans (releaseOutgoing_delivers _ i k)
    · exact hsent _ _

theorem updateRetained_delivers (topic payload : Bytes) (quality : Qos) :
    Delivers [] b (b.updateRetained topic payload quality) := by
  have h (retained) : Delivers [] b { b with retained } :=
    ⟨_, _, _, _, rfl, by simp, fun i => .refl _⟩
  unfold updateRetained
  split
  · split
    · exact h _
    · exact Delivers.refl b
  · split
    · exact h _
    · exact Delivers.refl b

theorem publishToClient_delivers (p : Publication) (i : Fin cfg.maxClients) :
    Delivers [] b (publishToClient p b i) := by
  unfold publishToClient
  dsimp only
  split
  · exact Delivers.refl b
  split
  · exact b.sendPublishTo_delivers ..
  · exact Delivers.refl b

theorem foldl_delivers {α : Type} (l : List α) (f : Broker cfg → α → Broker cfg)
    (h : ∀ b a, Delivers [] b (f b a)) : Delivers [] b (l.foldl f b) :=
  List.foldlRecOn l f (Delivers.refl b) fun _ hd a _ => hd.trans (h _ a)

theorem publishMessage_delivers (p : Publication) : Delivers [p] b (b.publishMessage p) := by
  have hp : Delivers [p] b { b with trace := b.trace ++ [.published p] } :=
    ⟨_, _, _, _, rfl, by simp [publications], fun i => .refl _⟩
  unfold publishMessage
  dsimp only
  split
  · exact (hp.trans (updateRetained_delivers ..)).trans (foldl_delivers _ _ _ fun b i =>
      b.publishToClient_delivers p i)
  · exact hp.trans (foldl_delivers _ _ _ fun b i => b.publishToClient_delivers p i)

theorem sendRetainedFor_delivers (h : ClientHandle) (result : FilterResult) :
    Delivers [] b (sendRetainedFor h b result) := by
  unfold sendRetainedFor
  split
  · exact Delivers.refl b
  · refine foldl_delivers _ _ _ fun b k => ?_
    unfold sendRetained
    dsimp only
    split
    · exact b.sendPublishTo_delivers ..
    · exact Delivers.refl b

/-- `b'` is `b` after a packet: the same connections. -/
structure Handled (b b' : Broker cfg) : Prop where
  server : b'.server = b.server
  client : ∀ i, (b.clients.get i).Handled (b'.clients.get i)

theorem Handled.refl : Handled b b := ⟨rfl, fun _ => .refl _⟩

theorem Handled.trans {b₁ b₂ b₃ : Broker cfg} (h : Handled b₁ b₂) (h' : Handled b₂ b₃) :
    Handled b₁ b₃ :=
  ⟨h'.server.trans h.server, fun i => (h.client i).trans (h'.client i)⟩

theorem Handled.of_clients {b b' : Broker cfg} (hs : b'.server = b.server)
    (hc : b'.clients = b.clients) : Handled b b' :=
  ⟨hs, fun _ => hc ▸ .refl _⟩

/-- `b'` is `b` after a packet other than CONNECT. -/
structure Served (b b' : Broker cfg) : Prop where
  server : b'.server = b.server
  sessions : b'.sessions = b.sessions
  client : ∀ i, (b.clients.get i).Served (b'.clients.get i)

theorem Served.refl : Served b b := ⟨rfl, rfl, fun _ => .refl _⟩

theorem Served.trans {b₁ b₂ b₃ : Broker cfg} (h : Served b₁ b₂) (h' : Served b₂ b₃) :
    Served b₁ b₃ :=
  ⟨h'.server.trans h.server, h'.sessions.trans h.sessions,
    fun i => (h.client i).trans (h'.client i)⟩

theorem Served.handled {b b' : Broker cfg} (h : Served b b') : Handled b b' :=
  ⟨h.server, fun i => (h.client i).toHandled⟩

theorem Delivers.served {b b' : Broker cfg} (h : Delivers ps b b') : Served b b' := by
  obtain ⟨_, _, _, _, rfl, -, hc⟩ := h
  exact ⟨rfl, rfl, fun i => (hc i).served⟩

theorem SendsOnly.served {b b' : Broker cfg} (h : SendsOnly b b') : Served b b' :=
  h.delivers.served

theorem SendsOnly.handled {b b' : Broker cfg} (h : SendsOnly b b') : Handled b b' :=
  h.served.handled

theorem served_modifyClient {i : Fin cfg.maxClients}
    (h : (b.clients.get i).Served (f (b.clients.get i))) : Served b (b.modifyClient i f) :=
  ⟨rfl, rfl, b.forall_modifyClient .refl h⟩

theorem handled_modifyClient {i : Fin cfg.maxClients}
    (h : (b.clients.get i).Handled (f (b.clients.get i))) : Handled b (b.modifyClient i f) :=
  ⟨rfl, b.forall_modifyClient .refl h⟩

theorem clearSession_handled (id : Bytes) : Handled b (b.clearSession id) := .of_clients rfl rfl

theorem ensureSession_handled (id : Bytes) : Handled b (b.ensureSession id).2 := by
  unfold ensureSession
  split
  · exact .of_clients rfl rfl
  split
  · exact .of_clients rfl rfl
  · exact Handled.refl b

theorem assignClientId_handled (attempts : ℕ) : Handled b (assignClientId attempts b).2 := by
  induction attempts generalizing b with
  | zero => exact Handled.refl b
  | succ attempts ih =>
    unfold assignClientId
    dsimp only
    split
    · exact .of_clients rfl rfl
    split
    · have hstep : Handled b { b with nextAssignedId := b.nextAssignedId + 1 } :=
        .of_clients rfl rfl
      exact hstep.trans (ih _)
    · exact .of_clients rfl rfl

theorem takeOver_handled (id : Bytes) : Handled b (b.takeOver i id) := by
  refine ⟨rfl, fun j => ?_⟩
  simp only [takeOver, Table.get_mapIdx]
  split
  · exact ⟨rfl, rfl, fun ho => ho, fun _ => rfl⟩
  · exact .refl _

theorem refuseConnect_handled (reason : ReasonCode) (status : Status) :
    Handled b (b.refuseConnect i reason status).2 :=
  (b.sendConnack_sendsOnly ..).handled

theorem acceptConnect_handled (h : ConnectHeader) (p : ConnectPayload) (id : Bytes)
    (assigned : Bool) : Handled b (b.acceptConnect i h p id assigned).2 := by
  unfold acceptConnect
  have hclear : Handled b (if h.clean = true then b.clearSession (cstr id) else b) := by
    split
    · exact b.clearSession_handled _
    · exact Handled.refl b
  dsimp only
  generalize (if h.clean = true then b.clearSession (cstr id) else b) = b₁ at hclear ⊢
  have hens := hclear.trans (b₁.ensureSession_handled (cstr id))
  generalize b₁.ensureSession (cstr id) = r at hens ⊢
  obtain ⟨ensured, b₂⟩ := r
  dsimp only
  split
  · exact hens.trans (b₂.sendConnack_sendsOnly ..).handled
  · refine Handled.trans ?_ (sendConnack_sendsOnly ..).handled
    exact (hens.trans (b₂.takeOver_handled i _)).trans
      (handled_modifyClient _ ⟨rfl, rfl, fun ho => ho, fun hc => hc⟩)

theorem setSessionExpiry_handled (properties : List Property) :
    Handled b (b.setSessionExpiry i properties) := by
  unfold setSessionExpiry
  split
  · exact b.handled_modifyClient ⟨rfl, rfl, fun ho => ho, id⟩
  · exact Handled.refl b

theorem chooseClientId_handled (clean : Bool) (id : Bytes) :
    Handled b (b.chooseClientId clean id).2 := by
  unfold chooseClientId
  split
  · split
    · exact b.assignClientId_handled _
    · exact Handled.refl b
  · exact Handled.refl b

theorem finishConnect_handled (h : ConnectHeader) (id : Bytes) (assigned : Bool)
    (reader : PacketReader) : Handled b (b.finishConnect i h id assigned reader).2 := by
  unfold finishConnect
  split
  · exact Handled.refl b
  split
  · exact b.refuseConnect_handled ..
  · exact b.acceptConnect_handled ..

variable (reader : PacketReader)

theorem handleConnect_handled : Handled b (b.handleConnect i reader).2 := by
  unfold handleConnect
  split
  · exact Handled.refl b
  split
  · exact Handled.refl b
  next h _ _ =>
  have hlevel : Handled b (b.modifyClient i fun s => { s with protocolLevel := h.level }) :=
    b.handled_modifyClient ⟨rfl, rfl, fun ho => ho, id⟩
  dsimp only
  split
  · exact hlevel.trans (refuseConnect_handled ..)
  split
  · exact hlevel
  next properties _ _ =>
  have hexp := hlevel.trans (setSessionExpiry_handled _ i properties)
  split
  · exact hexp.trans (refuseConnect_handled ..)
  next id _ _ =>
  have hid := hexp.trans (chooseClientId_handled _ h.clean id)
  split
  next b₁ hc =>
    rw [hc] at hid
    exact hid.trans (b₁.refuseConnect_handled ..)
  next chosen b₁ hc =>
    rw [hc] at hid
    exact hid.trans (b₁.finishConnect_handled ..)

theorem handlePublish_served (packet : PacketView) : Served b (b.handlePublish i packet).2 := by
  unfold handlePublish
  split
  · exact Served.refl b
  split
  · exact Served.refl b
  dsimp only
  split
  · split
    · exact (b.sendIdentifier_sendsOnly ..).served
    split
    · exact Served.refl b
    · refine Served.trans (b.served_modifyClient ?_) (sendIdentifier_sendsOnly ..).served
      exact ⟨⟨rfl, rfl, fun ho => ho, id⟩, rfl, rfl⟩
  · split
    · exact (b.publishMessage_delivers _).served.trans (sendIdentifier_sendsOnly ..).served
    · exact (b.publishMessage_delivers _).served

theorem handleClientPubrel_served : Served b (b.handleClientPubrel i reader).2 := by
  unfold handleClientPubrel
  split
  · exact Served.refl b
  dsimp only
  split
  · exact (b.sendIdentifier_sendsOnly ..).served
  · refine Served.trans ?_ (sendIdentifier_sendsOnly ..).served
    exact (b.publishMessage_delivers _).served.trans
      (served_modifyClient _ ⟨⟨rfl, rfl, fun ho => ho, id⟩, rfl, rfl⟩)

theorem handleClientAck_served (expected : OutgoingState) (type : PacketType) :
    Served b (b.handleClientAck i reader expected type).2 := by
  unfold handleClientAck
  split
  · exact Served.refl b
  split
  · exact Served.refl b
  next k _ =>
  have hrelease := (b.releaseOutgoing_delivers i k).served
  split
  · exact Served.refl b
  split
  · exact hrelease
  split
  · refine Served.trans (b.served_modifyClient ?_) (sendIdentifier_sendsOnly ..).served
    exact ⟨⟨rfl, rfl, fun ho => ho.within (Table.within_modify _ _ _ fun hu => ⟨hu, rfl⟩), id⟩,
      rfl, rfl⟩
  · exact hrelease

theorem addSubscription_served (clientId filter : Bytes) (quality : Qos) :
    Served b (b.addSubscription clientId filter quality).2 := by
  unfold addSubscription
  split
  · exact ⟨rfl, rfl, fun _ => .refl _⟩
  split
  · exact ⟨rfl, rfl, fun _ => .refl _⟩
  · exact Served.refl b

theorem removeSubscription_served (clientId filter : Bytes) :
    Served b (b.removeSubscription clientId filter).2 := by
  unfold removeSubscription
  split
  · exact ⟨rfl, rfl, fun _ => .refl _⟩
  · exact Served.refl b

theorem subscribeFilters_served (fuel : ℕ) (reader : PacketReader) (results : List FilterResult) :
    Served b (subscribeFilters i fuel b reader results).2 := by
  induction fuel generalizing b reader results with
  | zero => exact Served.refl b
  | succ fuel ih =>
    unfold subscribeFilters
    split
    · exact Served.refl b
    split
    · exact Served.refl b
    split
    · exact Served.refl b
    split
    · exact Served.refl b
    dsimp only
    split
    · exact Served.refl b
    · exact (b.addSubscription_served ..).trans (ih ..)

theorem unsubscribeFilters_served (fuel : ℕ) (reader : PacketReader) (results : List UInt8) :
    Served b (unsubscribeFilters i fuel b reader results).2 := by
  induction fuel generalizing b reader results with
  | zero => exact Served.refl b
  | succ fuel ih =>
    unfold unsubscribeFilters
    split
    · exact Served.refl b
    split
    · exact Served.refl b
    split
    · exact Served.refl b
    · exact (b.removeSubscription_served ..).trans (ih ..)

theorem handleSubscribe_served : Served b (b.handleSubscribe i reader).2 := by
  unfold handleSubscribe
  dsimp only
  split
  · exact Served.refl b
  next reader _ =>
  have hf := b.subscribeFilters_served i reader.remaining reader []
  generalize subscribeFilters i reader.remaining b reader [] = r at hf ⊢
  obtain ⟨_ | results, b₁⟩ := r
  · exact hf
  dsimp only
  split
  · exact hf
  have hsent := fun body => hf.trans
    (b₁.sendPacket_sendsOnly (b₁.clients.get i).handle .suback 0 body).served
  split
  · exact hsent _
  · exact (hsent _).trans (foldl_delivers _ _ _ fun b r => b.sendRetainedFor_delivers _ r).served

theorem handleUnsubscribe_served : Served b (b.handleUnsubscribe i reader).2 := by
  unfold handleUnsubscribe
  dsimp only
  split
  · exact Served.refl b
  next reader _ =>
  have hf := b.unsubscribeFilters_served i reader.remaining reader []
  generalize unsubscribeFilters i reader.remaining b reader [] = r at hf ⊢
  obtain ⟨_ | results, b₁⟩ := r
  · exact hf
  dsimp only
  split
  · exact hf
  · exact hf.trans (b₁.sendPacket_sendsOnly ..).served

theorem handleDisconnect_served : Served b (b.handleDisconnect i reader).2 := by
  unfold handleDisconnect
  split
  · exact Served.refl b
  · exact b.served_modifyClient ⟨⟨rfl, rfl, fun ho => ho, fun _ => rfl⟩, rfl, rfl⟩

theorem handlePacket_served (packet : PacketView) (ht : packet.type ≠ .connect) :
    Served b (b.handlePacket i packet).2 := by
  unfold handlePacket
  dsimp only
  split
  · exact Served.refl b
  split
  next h => exact absurd h ht
  · exact b.handlePublish_served ..
  · exact b.handleClientAck_served ..
  · exact b.handleClientAck_served ..
  · exact b.handleClientAck_served ..
  · exact b.handleClientPubrel_served ..
  · exact b.handleSubscribe_served ..
  · exact b.handleUnsubscribe_served ..
  · split
    · exact Served.refl b
    · exact (b.sendPacket_sendsOnly ..).served
  · exact b.handleDisconnect_served ..
  · exact Served.refl b
  · exact Served.refl b

theorem handlePacket_connect {packet : PacketView} (ht : packet.type = .connect) :
    b.handlePacket i packet = b.handleConnect i ⟨packet.body, .ok⟩ := by
  unfold handlePacket
  dsimp only
  rw [if_neg (by simp [ht]), ht]

theorem handlePacket_handled (packet : PacketView) : Handled b (b.handlePacket i packet).2 := by
  by_cases ht : packet.type = .connect
  · rw [b.handlePacket_connect i ht]
    exact b.handleConnect_handled ..
  · exact (b.handlePacket_served i packet ht).handled

theorem publishWill_served : Served b (b.publishWill i) := by
  unfold publishWill
  dsimp only
  split
  · exact (b.publishMessage_delivers _).served.trans
      (served_modifyClient _ ⟨⟨rfl, rfl, fun ho => ho, id⟩, rfl, rfl⟩)
  · exact b.served_modifyClient ⟨⟨rfl, rfl, fun ho => ho, id⟩, rfl, rfl⟩

theorem publishPendingWill_served : Served b (b.publishPendingWill i) := by
  unfold publishPendingWill
  split
  · exact b.publishWill_served i
  · exact Served.refl b

theorem startExpiry_handled (now : UInt32) (clientId : Bytes) (seconds : UInt32) :
    Handled b (b.startExpiry now clientId seconds) :=
  .of_clients rfl rfl

theorem pruneSessions_handled (now : UInt32) : Handled b (b.pruneSessions now) := by
  refine List.foldlRecOn _ _ (Handled.refl b) fun d hd k _ => hd.trans ?_
  unfold pruneSession
  split
  · exact d.clearSession_handled _
  · exact Handled.refl d

theorem endSession_handled (now : UInt32) (i : Fin cfg.maxClients) :
    Handled b (b.endSession now i) := by
  unfold endSession
  dsimp only
  split
  · split
    · exact b.startExpiry_handled ..
    · exact b.clearSession_handled _
  · exact Handled.refl b

end Broker
end Castle.Mqtt
