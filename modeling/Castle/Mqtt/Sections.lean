import Castle.Mqtt.Broker.Run
import Castle.Mqtt.Client.Run

/-!
# Optional property sections

PUBACK, PUBREC, PUBREL, PUBCOMP and DISCONNECT may carry a property section behind their reason
code.
-/

namespace Castle.Mqtt

open Net

/-- The status of the outer reader once `decode_properties` has failed on `bytes`:
that of the Property Length. -/
def lengthStatus (bytes : Bytes) : Status :=
  match decodeRemainingLength bytes with
  | .error status => status
  | .ok _ => .ok

theorem lengthStatus_ne_ok {bytes : Bytes} :
    lengthStatus bytes ≠ .ok ↔ ∃ status, decodeRemainingLength bytes = .error status := by
  unfold lengthStatus
  cases h : decodeRemainingLength bytes with
  | error status => simp [decodeLengthFrom_error_ne_ok h]
  | ok v => simp

theorem getVarint_error {bytes : Bytes} {status : Status}
    (h : decodeRemainingLength bytes = .error status) :
    (⟨bytes, .ok⟩ : PacketReader).getVarint = ⟨status, 0, ⟨bytes, status⟩⟩ := by
  unfold PacketReader.getVarint
  rw [h]
  rfl

theorem getVarint_ok {bytes : Bytes} {value used : ℕ}
    (h : decodeRemainingLength bytes = .ok (value, used)) :
    (⟨bytes, .ok⟩ : PacketReader).getVarint = ⟨.ok, value, ⟨bytes.drop used, .ok⟩⟩ := by
  unfold PacketReader.getVarint
  rw [h]
  rfl

theorem decodeProperties_reader_status (limits : PropertyLimits) (bytes : Bytes)
    (ignoreUnknown : Bool) (h : (decodeProperties limits ⟨bytes, .ok⟩ ignoreUnknown).status ≠ .ok) :
    (decodeProperties limits ⟨bytes, .ok⟩ ignoreUnknown).reader.status = lengthStatus bytes := by
  unfold lengthStatus
  rcases hl : decodeRemainingLength bytes with status | ⟨value, used⟩
  · unfold decodeProperties
    rw [getVarint_error hl]
    simp [decodeLengthFrom_error_ne_ok hl]
  · unfold decodeProperties at h ⊢
    rw [getVarint_ok hl] at h ⊢
    simp only [ne_eq, not_true_eq_false, if_false] at h ⊢
    split
    · rfl
    next hfit =>
    rw [if_neg hfit] at h
    split
    · rfl
    next output hlist =>
    -- a section that decodes is skipped, which cannot fail
    rw [hlist] at h
    simp [PacketReader.skip, hfit, PacketReader.advance] at h

/-- The bytes behind the reason code. -/
def propertySection (packet : PacketView) : Bytes :=
  packet.body.drop (if packet.type = .disconnect then 1 else 3)

/-- There is a property section and `decode_properties` rejects it. -/
def SectionRejected (limits : PropertyLimits) (packet : PacketView) : Prop :=
  propertySection packet ≠ [] ∧
    (decodeProperties limits ⟨propertySection packet, .ok⟩ true).status ≠ .ok

/-- The Property Length is not a variable byte integer. -/
def LengthMalformed (packet : PacketView) : Prop :=
  ∃ status, decodeRemainingLength (propertySection packet) = .error status

def packetIdentifier (packet : PacketView) : UInt16 :=
  readBe16 (packet.body.getD 0 0) (packet.body.getD 1 0)

def IdentifierZero (packet : PacketView) : Prop :=
  packet.type ≠ .disconnect ∧ packetIdentifier packet = 0

theorem readOptionalReason_section (limits : PropertyLimits) (reason : UInt8) (rest : Bytes) :
    readOptionalReason limits 5 ⟨reason :: rest, .ok⟩ =
    if rest ≠ [] ∧ (decodeProperties limits ⟨rest, .ok⟩ true).status ≠
    .ok then .error (lengthStatus rest) else .ok reason := by
  have hread : (⟨reason :: rest, .ok⟩ : PacketReader).getU8 = ⟨.ok, reason, ⟨rest, .ok⟩⟩ := rfl
  simp only [readOptionalReason, hread, PacketReader.remaining, true_and]
  cases rest with
  | nil => simp
  | cons x rest =>
    have hone : (reason :: x :: rest).length ≠ 0 := by simp
    have htwo : (x :: rest).length ≠ 0 := by simp
    rw [if_pos hone, if_pos htwo]
    by_cases hs : (decodeProperties limits ⟨x :: rest, .ok⟩ true).status = .ok
    · simp [hs]
    · rw [if_pos hs, if_pos ⟨by simp, hs⟩, decodeProperties_reader_status limits _ _ hs]

variable {limits : PropertyLimits}

theorem readOptionalReason_rejected {packet : PacketView} (ht : packet.type = .disconnect)
    (h : SectionRejected limits packet) : readOptionalReason limits 5 ⟨packet.body, .ok⟩ =
    .error (lengthStatus (propertySection packet)) := by
  unfold SectionRejected propertySection at *
  rw [if_pos ht] at h ⊢
  cases hb : packet.body with
  | nil =>
    rw [hb] at h
    exact absurd rfl h.1
  | cons reason rest =>
    rw [hb] at h
    simp only [List.drop_succ_cons, List.drop_zero] at h ⊢
    rw [readOptionalReason_section, if_pos h]

/-- An acknowledgement with a rejected section is refused for its identifier, or
with the status that the Property Length leaves behind. -/
theorem readAcknowledgement_rejected {packet : PacketView} (ht : packet.type ≠ .disconnect)
    (h : SectionRejected limits packet) :
    readAcknowledgement limits 5 ⟨packet.body, .ok⟩ =
      .error (if packetIdentifier packet = 0 then .invalidArgument
        else lengthStatus (propertySection packet)) := by
  unfold SectionRejected propertySection packetIdentifier at *
  rw [if_neg ht] at h ⊢
  match hb : packet.body with
  | hi :: lo :: reason :: rest =>
    rw [hb] at h
    simp only [List.drop_succ_cons, List.drop_zero] at h ⊢
    have hread : (⟨hi :: lo :: reason :: rest, .ok⟩ : PacketReader).getU16.ok? =
        some (readBe16 hi lo, ⟨reason :: rest, .ok⟩) := rfl
    simp only [readAcknowledgement, hread, readOptionalReason_section, List.getD_cons_zero,
      List.getD_cons_succ]
    split
    · rfl
    · rfl
  | [] | [_] | [_, _] =>
    rw [hb] at h
    exact absurd rfl h.1

theorem readAcknowledgement_identifier {level : UInt8} {packet : PacketView} {id : UInt16}
    {reason : UInt8} (h : readAcknowledgement limits level ⟨packet.body, .ok⟩ = .ok (id, reason)) :
    id = packetIdentifier packet := by
  unfold readAcknowledgement at h
  split at h
  · cases h
  next id' reader hread =>
  split at h
  · cases h
  split at h
  · cases h
  cases h
  match hb : packet.body with
  | hi :: lo :: rest =>
    rw [hb] at hread
    cases hread
    rw [packetIdentifier, hb]
    rfl
  | [] | [_] =>
    rw [hb] at hread
    cases hread

theorem readOptionalReason_error_ok {bytes : Bytes}
    (h : readOptionalReason limits 5 ⟨bytes, .ok⟩ = .error .ok) :
    bytes.drop 1 ≠ [] ∧ (decodeProperties limits ⟨bytes.drop 1, .ok⟩ true).status ≠ .ok := by
  cases bytes with
  | nil => simp [readOptionalReason, PacketReader.remaining] at h
  | cons reason rest =>
    rw [readOptionalReason_section] at h
    simp only [List.drop_succ_cons, List.drop_zero]
    by_contra hs
    rw [if_neg hs] at h
    cases h

theorem readAcknowledgement_error_ok {packet : PacketView} (ht : packet.type ≠ .disconnect)
    (h : readAcknowledgement limits 5 ⟨packet.body, .ok⟩ = .error .ok) :
    SectionRejected limits packet := by
  unfold readAcknowledgement at h
  split at h
  · cases h
  next id reader hread =>
  split at h
  · cases h
  split at h
  next status he =>
    cases h
    unfold SectionRejected propertySection
    rw [if_neg ht]
    match hb : packet.body with
    | hi :: lo :: rest =>
      rw [hb] at hread
      cases hread
      exact readOptionalReason_error_ok he
    | [] | [_] =>
      rw [hb] at hread
      cases hread
  · cases h

theorem readAcknowledgement_cases {packet : PacketView} (ht : packet.type ≠ .disconnect)
    (hs : ¬SectionRejected limits packet) :
    (∃ status ≠ .ok, readAcknowledgement limits 5 ⟨packet.body, .ok⟩ = .error status) ∨
      ∃ reason, readAcknowledgement limits 5 ⟨packet.body, .ok⟩ = .ok (packetIdentifier packet, reason) := by
  cases hread : readAcknowledgement limits 5 ⟨packet.body, .ok⟩ with
  | error status =>
    refine Or.inl ⟨status, ?_, rfl⟩
    rintro rfl
    exact hs (readAcknowledgement_error_ok ht hread)
  | ok read =>
    obtain ⟨id, reason⟩ := read
    rw [readAcknowledgement_identifier hread]
    exact Or.inr ⟨reason, rfl⟩

/-- The acknowledgements that carry a reason code. -/
def isAcknowledgement : PacketType → Bool
  | .puback | .pubrec | .pubcomp | .pubrel => true
  | _ => false

theorem isAcknowledgement_ne_disconnect {type : PacketType} (h : isAcknowledgement type = true) :
    type ≠ .disconnect := by
  rintro rfl
  cases h

namespace Broker

variable {cfg : BrokerConfig} (b : Broker cfg) (i : Fin cfg.maxClients) (packet : PacketView)

section

variable (hlevel : (b.clients.get i).protocolLevel = 5)
include hlevel

theorem handlePacket_unread {status : Status}
    (ht : isAcknowledgement packet.type = true)
    (h : readAcknowledgement cfg.properties 5 ⟨packet.body, .ok⟩ = .error status) :
    b.handlePacket i packet = (status, b) := by
  unfold handlePacket
  dsimp only
  rw [if_neg (by simp [hlevel])]
  cases hp : packet.type
  case puback | pubrec | pubcomp => simp only [handleClientAck, hlevel, h]
  case pubrel => simp only [handleClientPubrel, hlevel, h]
  all_goals
    rw [hp] at ht
    cases ht

theorem handleDisconnect_unread {status : Status}
    (ht : packet.type = .disconnect)
    (h : readOptionalReason cfg.properties 5 ⟨packet.body, .ok⟩ = .error status) :
    b.handlePacket i packet = (status, b) := by
  unfold handlePacket
  dsimp only
  rw [if_neg (by simp [hlevel]), ht]
  simp only [handleDisconnect, hlevel, h]

/-- A handler refuses a rejected section exactly when its Property Length is
malformed or the packet acknowledges identifier 0. -/
theorem handlePacket_rejected
    (ht : isAcknowledgement packet.type = true ∨ packet.type = .disconnect)
    (h : SectionRejected cfg.properties packet) :
    (b.handlePacket i packet).1 ≠ .ok ↔ LengthMalformed packet ∨ IdentifierZero packet := by
  unfold LengthMalformed
  rw [← lengthStatus_ne_ok]
  rcases ht with ht | ht
  · have hd := isAcknowledgement_ne_disconnect ht
    rw [handlePacket_unread b i packet hlevel ht (readAcknowledgement_rejected hd h)]
    by_cases hz : packetIdentifier packet = 0
    · simp [hz, IdentifierZero, hd]
    · simp [hz, IdentifierZero]
  · rw [handleDisconnect_unread b i packet hlevel ht (readOptionalReason_rejected ht h)]
    simp [IdentifierZero, ht]

end

/-- What a packet that the broker accepts does. -/
def TookEffect (b b' : Broker cfg) (i : Fin cfg.maxClients) (packet : PacketView) : Prop :=
  match packet.type with
  | .puback | .pubcomp => ∃ k,
      findQos (b.clients.get i).outgoing (packetIdentifier packet) = some k ∧
        ((b'.clients.get i).outgoing.get k).used = false
  | .pubrec => ∃ k,
      findQos (b.clients.get i).outgoing (packetIdentifier packet) = some k ∧
        ((b'.clients.get i).outgoing.get k).state = .awaitPubcomp
  | .pubrel => ∃ trace frame,
      encodePacket .pubcomp 0 (writeBe16 (packetIdentifier packet)) cfg.maxPacketSize = .ok frame ∧
        b'.trace = trace ++ [.sent (b.clients.get i).handle frame .ok]
  | .disconnect => (b'.clients.get i).closePending = true
  | _ => False

theorem sendIdentifier_pubcomp_ok {h : ClientHandle} {id : UInt16}
    (hok : (b.sendIdentifier h .pubcomp id false).1 = .ok) :
    ∃ trace frame, encodePacket .pubcomp 0 (writeBe16 id) cfg.maxPacketSize = .ok frame ∧
      (b.sendIdentifier h .pubcomp id false).2.trace = trace ++ [.sent h frame .ok] := by
  have hbody := PacketWriter.putU16_data cfg.packet_ge.1 id
  unfold sendIdentifier at hok ⊢
  split at hok
  · cases hok
  dsimp only at hok ⊢
  simp only [reduceCtorEq, and_false, if_false, hbody] at hok ⊢
  unfold sendPacket at hok ⊢
  split at hok
  next status he => exact absurd hok (encodePacket_error_ne_ok he)
  next frame he =>
    unfold sendAll at hok ⊢
    split at hok
    · cases hok
    · dsimp only at hok ⊢
      exact ⟨b.trace, frame, he, by rw [hok]⟩

section Accepted

variable {b i packet} (hlevel : (b.clients.get i).protocolLevel = 5) (ht : packet.type ≠ .disconnect)
  (hs : ¬SectionRejected cfg.properties packet)

include hlevel ht hs

theorem handleClientAck_ok {expected : OutgoingState} {type : PacketType}
    (hok : (b.handleClientAck i ⟨packet.body, .ok⟩ expected type).1 = .ok) : ∃ k,
    findQos (b.clients.get i).outgoing (packetIdentifier packet) = some k ∧ if type = .pubrec then
    (((b.handleClientAck i ⟨packet.body, .ok⟩ expected type).2.clients.get i).outgoing.get k).state
    = .awaitPubcomp else
    (((b.handleClientAck i ⟨packet.body, .ok⟩ expected type).2.clients.get i).outgoing.get k).used =
    false := by
  unfold handleClientAck at hok ⊢
  obtain ⟨status, hne, hread⟩ | ⟨reason, hread⟩ := readAcknowledgement_cases ht hs
  · rw [hlevel, hread] at hok
    exact absurd hok hne
  rw [hlevel, hread] at hok ⊢
  dsimp only at hok ⊢
  split at hok
  · cases hok
  next k hk =>
  refine ⟨k, hk, ?_⟩
  split at hok
  · cases hok
  next hstate =>
  split at hok
  next hreason => exact absurd hok (toStatus_ne_ok hreason)
  next hreason =>
  rw [if_neg hstate, if_neg hreason]
  split
  · rw [(sendIdentifier_sendsOnly ..).clients]
    simp [awaitPubcomp]
  · simp [releaseOutgoing]

theorem handleClientPubrel_ok (hok : (b.handleClientPubrel i ⟨packet.body, .ok⟩).1 = .ok) :
    ∃ trace frame, encodePacket .pubcomp 0 (writeBe16 (packetIdentifier packet)) cfg.maxPacketSize =
    .ok frame ∧ (b.handleClientPubrel i ⟨packet.body, .ok⟩).2.trace =
    trace ++ [.sent (b.clients.get i).handle frame .ok] := by
  unfold handleClientPubrel at hok ⊢
  obtain ⟨status, hne, hread⟩ | ⟨reason, hread⟩ := readAcknowledgement_cases ht hs
  · rw [hlevel, hread] at hok
    exact absurd hok hne
  rw [hlevel, hread] at hok ⊢
  obtain ⟨trace, frame, hframe, htrace⟩ := sendIdentifier_pubcomp_ok _ hok
  refine ⟨trace, frame, hframe, ?_⟩
  dsimp only at htrace ⊢
  rw [htrace]
  -- publishing the stored message leaves the handle alone
  split
  · rfl
  · rw [releaseIncoming, get_modifyClient_self]
    have hp := fun p => ((b.publishMessage_delivers p).served.client i).handle
    rw [hp]

end Accepted

theorem handlePacket_tookEffect (hlevel : (b.clients.get i).protocolLevel = 5)
    (ht : isAcknowledgement packet.type = true ∨ packet.type = .disconnect)
    (hs : ¬SectionRejected cfg.properties packet) (hok : (b.handlePacket i packet).1 = .ok) :
    TookEffect b (b.handlePacket i packet).2 i packet := by
  unfold handlePacket at hok ⊢
  dsimp only at hok ⊢
  rw [if_neg (by simp [hlevel])] at hok ⊢
  unfold TookEffect
  cases hp : packet.type
  case puback | pubcomp | pubrec =>
    simp only [hp] at hok
    obtain ⟨k, hk, heff⟩ := handleClientAck_ok hlevel (by simp [hp]) hs hok
    exact ⟨k, hk, by simpa using heff⟩
  case pubrel =>
    simp only [hp] at hok
    exact handleClientPubrel_ok hlevel (by simp [hp]) hs hok
  case disconnect =>
    simp only [hp] at hok
    unfold handleDisconnect at hok ⊢
    split at hok
    next status he =>
      have hst : status = .ok := hok
      have hrej := readOptionalReason_error_ok (by rw [hlevel, hst] at he; exact he)
      exact absurd (by rw [SectionRejected, propertySection, if_pos hp]; exact hrej) hs
    · simp
  all_goals simp [hp, isAcknowledgement] at ht

end Broker

namespace Client

variable {cfg : ClientConfig} (c : Client cfg) (packet : PacketView)

section

variable (hv : c.options.protocolVersion = 5)
include hv

theorem handlePacket_unread {status : Status}
    (ht : isAcknowledgement packet.type = true)
    (h : readAcknowledgement cfg.properties 5 ⟨packet.body, .ok⟩ = .error status) :
    c.handlePacket packet = (status, c) := by
  unfold handlePacket
  cases hp : packet.type
  case puback | pubrec | pubcomp => simp only [handleAck, hv, h]
  case pubrel => simp only [handlePubrel, hv, h]
  all_goals
    rw [hp] at ht
    cases ht

theorem handleDisconnect_unread {status : Status}
    (ht : packet.type = .disconnect) (hc : c.connected = true)
    (h : readOptionalReason cfg.properties 5 ⟨packet.body, .ok⟩ = .error status) :
    c.handlePacket packet = (status, c) := by
  unfold handlePacket
  simp only [ht, handleDisconnect, hv, h, hc]
  rfl

/-- The client refuses a rejected section in the same cases as the broker, and a
DISCONNECT also while it is not connected. -/
theorem handlePacket_rejected
    (ht : isAcknowledgement packet.type = true ∨ packet.type = .disconnect)
    (h : SectionRejected cfg.properties packet) : (c.handlePacket packet).1 ≠ .ok ↔ LengthMalformed
    packet ∨ IdentifierZero packet ∨ (packet.type = .disconnect ∧ c.connected = false) := by
  unfold LengthMalformed
  rw [← lengthStatus_ne_ok]
  rcases ht with ht | ht
  · have hd := isAcknowledgement_ne_disconnect ht
    rw [handlePacket_unread c packet hv ht (readAcknowledgement_rejected hd h)]
    by_cases hz : packetIdentifier packet = 0
    · simp [hz, IdentifierZero, hd]
    · simp [hz, IdentifierZero, hd]
  · cases hc : c.connected with
    | false =>
      have hrefused : (c.handlePacket packet).1 = .invalidArgument := by
        simp [handlePacket, ht, handleDisconnect, hc]
      rw [hrefused]
      simp [ht]
    | true =>
      rw [handleDisconnect_unread c packet hv ht hc (readOptionalReason_rejected ht h)]
      simp [IdentifierZero, ht]

end

/-- What an acknowledgement that the client accepts does. -/
def TookEffect (c c' : Client cfg) (packet : PacketView) : Prop :=
  match packet.type with
  | .puback | .pubcomp => ∃ k, c.findOutgoing (packetIdentifier packet) = some k ∧
      (c'.outgoing.get k).used = false
  | .pubrec => ∃ k, c.findOutgoing (packetIdentifier packet) = some k ∧
      (c'.outgoing.get k).state = .awaitPubcomp
  | .pubrel => ∃ trace frame,
      encodePacket .pubcomp 0 (writeBe16 (packetIdentifier packet)) cfg.maxPacketSize = .ok frame ∧
        c'.trace = trace ++ [.sent .pubcomp frame .ok]
  | _ => False

theorem sendIdentifier_pubcomp_ok {id : UInt16} (hok : (c.sendIdentifier .pubcomp id false).1 = .ok)
    : ∃ trace frame, encodePacket .pubcomp 0 (writeBe16 id) cfg.maxPacketSize = .ok frame ∧
    (c.sendIdentifier .pubcomp id false).2.trace = trace ++ [.sent .pubcomp frame .ok] := by
  have hbody := PacketWriter.putU16_data cfg.buffers_ge.2 id
  unfold sendIdentifier at hok ⊢
  simp only [reduceCtorEq, and_false, if_false, hbody] at hok ⊢
  obtain ⟨hfail, -⟩ | ⟨frame, he, -, htrace⟩ := c.sendBody_spec .pubcomp 0 (writeBe16 id)
  · exact absurd hok hfail
  · rw [hok] at htrace
    exact ⟨c.trace, frame, he, htrace⟩

section Accepted

variable {c packet} (hv : c.options.protocolVersion = 5) (ht : packet.type ≠ .disconnect)
  (hs : ¬SectionRejected cfg.properties packet)

include hv ht hs

theorem handleAck_ok {expected : ClientOutgoingState}
    {type : PacketType} (hok : (c.handleAck ⟨packet.body, .ok⟩ expected type).1 = .ok) :
    ∃ k, c.findOutgoing (packetIdentifier packet) = some k ∧ if type = .pubrec
    then ((c.handleAck ⟨packet.body, .ok⟩ expected type).2.outgoing.get k).state = .awaitPubcomp
    else ((c.handleAck ⟨packet.body, .ok⟩ expected type).2.outgoing.get k).used = false := by
  unfold handleAck at hok ⊢
  obtain ⟨status, hne, hread⟩ | ⟨reason, hread⟩ := readAcknowledgement_cases ht hs
  · rw [hv, hread] at hok
    exact absurd hok hne
  rw [hv, hread] at hok ⊢
  dsimp only at hok ⊢
  split at hok
  · cases hok
  next k hk =>
  refine ⟨k, hk, ?_⟩
  split at hok
  · cases hok
  next hstate =>
  split at hok
  next hreason => exact absurd hok (toStatus_ne_ok hreason)
  next hreason =>
  rw [if_neg hstate, if_neg hreason]
  split
  · obtain ⟨_, _, _, _, he', -⟩ := sendIdentifier_sendsOnly
      (({ c with lastAcknowledgedId := packetIdentifier packet } : Client cfg).awaitPubcomp k) .pubrel
      (packetIdentifier packet) false
    rw [he']
    simp [awaitPubcomp]
  · simp [releaseOutgoing]

theorem handlePubrel_ok (hok : (c.handlePubrel ⟨packet.body, .ok⟩).1 = .ok) : ∃ trace frame,
    encodePacket .pubcomp 0 (writeBe16 (packetIdentifier packet)) cfg.maxPacketSize = .ok frame ∧
      (c.handlePubrel ⟨packet.body, .ok⟩).2.trace = trace ++ [.sent .pubcomp frame .ok] := by
  unfold handlePubrel at hok ⊢
  obtain ⟨status, hne, hread⟩ | ⟨reason, hread⟩ := readAcknowledgement_cases ht hs
  · rw [hv, hread] at hok
    exact absurd hok hne
  rw [hv, hread] at hok ⊢
  exact sendIdentifier_pubcomp_ok _ hok

end Accepted

theorem handlePacket_tookEffect (hv : c.options.protocolVersion = 5)
    (ht : isAcknowledgement packet.type = true ∨ packet.type = .disconnect)
    (hs : ¬SectionRejected cfg.properties packet) (hok : (c.handlePacket packet).1 = .ok) :
    TookEffect c (c.handlePacket packet).2 packet := by
  unfold handlePacket at hok ⊢
  unfold TookEffect
  cases hp : packet.type
  case puback | pubcomp | pubrec =>
    simp only [hp] at hok
    obtain ⟨k, hk, heff⟩ := handleAck_ok hv (by simp [hp]) hs hok
    exact ⟨k, hk, by simpa using heff⟩
  case pubrel =>
    simp only [hp] at hok
    exact handlePubrel_ok hv (by simp [hp]) hs hok
  case disconnect =>
    -- a DISCONNECT always ends the connection, unless its section is rejected
    simp only [hp, handleDisconnect, hv, if_true] at hok
    split at hok
    · cases hok
    split at hok
    next status he =>
      have hst : status = .ok := hok
      have hrej := readOptionalReason_error_ok (by rw [hst] at he; exact he)
      exact absurd (by rw [SectionRejected, propertySection, if_pos hp]; exact hrej) hs
    · cases hok
  all_goals simp [hp, isAcknowledgement] at ht

end Client

/-- A handler answers a rejected section with a failure if and only if the Property
Length itself is malformed or the packet is refused for its identifier (or, for a
DISCONNECT, because the client is not connected). Without a rejected section `ok`
means that the packet took effect. -/
theorem rejected_section_refused_iff (packet : PacketView)
    (ht : isAcknowledgement packet.type = true ∨ packet.type = .disconnect) :
    (∀ (cfg : BrokerConfig) (b : Broker cfg) (i : Fin cfg.maxClients),
      (b.clients.get i).protocolLevel = 5 →
      ((SectionRejected cfg.properties packet → (b.handlePacket i packet).1 ≠ .ok) ↔
        (SectionRejected cfg.properties packet →
          LengthMalformed packet ∨ IdentifierZero packet)) ∧
      (¬SectionRejected cfg.properties packet → (b.handlePacket i packet).1 = .ok →
        Broker.TookEffect b (b.handlePacket i packet).2 i packet)) ∧
    ∀ (cfg : ClientConfig) (c : Client cfg), c.options.protocolVersion = 5 →
      ((SectionRejected cfg.properties packet → (c.handlePacket packet).1 ≠ .ok) ↔
        (SectionRejected cfg.properties packet →
          LengthMalformed packet ∨ IdentifierZero packet ∨
            (packet.type = .disconnect ∧ c.connected = false))) ∧
      (¬SectionRejected cfg.properties packet → (c.handlePacket packet).1 = .ok →
        Client.TookEffect c (c.handlePacket packet).2 packet) := by
  constructor
  · intro cfg b i hlevel
    refine ⟨?_, b.handlePacket_tookEffect i packet hlevel ht⟩
    exact forall_congr' fun h => b.handlePacket_rejected i packet hlevel ht h
  · intro cfg c hv
    refine ⟨?_, c.handlePacket_tookEffect packet hv ht⟩
    exact forall_congr' fun h => c.handlePacket_rejected packet hv ht h

/-- A level 5 connection that sends a PUBREL for identifier 1 with the property
section `02 01 02`, in which the Payload Format Indicator has the value 2. -/
def badPubrel : PacketView :=
  { type := .pubrel
    flags := 2
    remainingLength := 6
    headerSize := 2
    packetSize := 8
    body := [0, 1, 0, 2, 1, 2] }

/-- The broker of that connection, in slot 0. -/
def levelFiveBroker : Broker smallBroker :=
  (PolledBroker.run []
    [.openListener .ok,
      .poll { now := 0, accepted := .ok, received := [.data
        [0x10, 14, 0, 4, 0x4D, 0x51, 0x54, 0x54, 5, 2, 0, 0, 0, 0, 1, 0x61]] }]).broker

theorem rejected_section_accepted : (levelFiveBroker.clients.get 0).protocolLevel =
    5 ∧ SectionRejected smallBroker.properties badPubrel ∧
    levelFiveBroker.handlePacket 0 badPubrel = (.ok, levelFiveBroker) := by
  unfold SectionRejected
  decide

theorem rejected_section_refused_iff_malformed :
    (levelFiveBroker.handlePacket 0 { badPubrel with body := [0, 1, 0, 0x80, 0] }).1 ≠ .ok ∧
      (({ options := { protocolVersion := 5 } } : Client smallClient).handlePacket
        { badPubrel with body := [0, 1, 0, 0x80, 0] }).1 ≠ .ok := by
  have hrej : SectionRejected smallBroker.properties
      { badPubrel with body := [0, 1, 0, 0x80, 0] } := by
    unfold SectionRejected
    decide
  have hlen : LengthMalformed { badPubrel with body := [0, 1, 0, 0x80, 0] } :=
    ⟨.invalidArgument, by decide⟩
  constructor
  · exact ((rejected_section_refused_iff _ (.inl (by decide))).1 smallBroker levelFiveBroker 0
      (by decide)).1.mpr (fun _ => .inl hlen) hrej
  · exact ((rejected_section_refused_iff _ (.inl (by decide))).2 smallClient
      { options := { protocolVersion := 5 } } rfl).1.mpr (fun _ => .inl hlen) hrej

end Castle.Mqtt
