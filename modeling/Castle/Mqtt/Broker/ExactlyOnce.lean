import Castle.Lib.Groups
import Castle.Lib.Steps
import Castle.Mqtt.Sections

/-!
# QoS 2 on the receiving side

A connection's QoS 2 PUBLISH packets open groups and its PUBREL packets close them.
-/

namespace Castle.Mqtt

open Net

/-- What a stored QoS 2 message is published as. -/
def QosEntry.publication (e : QosEntry) : Publication :=
  ⟨e.topic, e.payload, .exactlyOnce, e.retain⟩

/-- A QoS 2 PUBLISH or a PUBREL. -/
def IsQos2 (packet : PacketView) : Prop :=
  packet.type = .publish ∧ Broker.qualityOf packet.flags = some .exactlyOnce ∨
    packet.type = .pubrel

theorem IsQos2.ne_connect {packet : PacketView} (hq : IsQos2 packet) : packet.type ≠ .connect := by
  rcases hq with ⟨ht, -⟩ | ht
  · simp [ht]
  · simp [ht]

/-- The mark of a QoS 2 packet, by what the packet itself carries. -/
def markOf (cfg : BrokerConfig) (level : UInt8) (packet : PacketView) :
    Option (Mark UInt16 Publication) :=
  match packet.type with
  | .publish =>
    match Broker.readPublish cfg level .exactlyOnce ⟨packet.body, .ok⟩ with
    | .ok p => some (.opens p.identifier ⟨p.topic, p.payload, .exactlyOnce, packet.flags &&& 1 ≠ 0⟩)
    | .error _ => none
  | .pubrel => some (.closes (packetIdentifier packet))
  | _ => none

namespace Broker

variable {cfg : BrokerConfig} {b b' : Broker cfg} {i : Fin cfg.maxClients} {packet : PacketView}
  {log : List (Mark UInt16 Publication)}

/-- The broker after packets of one connection that it all accepts. -/
def handleAll (b : Broker cfg) (i : Fin cfg.maxClients) : List PacketView → Option (Broker cfg)
  | [] => some b
  | packet :: packets =>
    match b.handlePacket i packet with
    | (.ok, b) => handleAll b i packets
    | (_, _) => none

/-- The used incoming entries have distinct nonzero identifiers. -/
def IncomingOk (b : Broker cfg) (i : Fin cfg.maxClients) : Prop :=
  (b.clients.get i).incomingQos2.Distinct ∧ ¬(b.clients.get i).incomingQos2.Holds 0

/-- The table holds what is pending in the log. -/
structure Receiving (b : Broker cfg) (i : Fin cfg.maxClients)
    (log : List (Mark UInt16 Publication)) : Prop where
  ok : IncomingOk b i
  stored : ∀ id, ((b.clients.get i).incomingQos2.entry id).map QosEntry.publication =
    Mark.pending id log

theorem Receiving.congr (h : Receiving b i log)
    (he : (b'.clients.get i).incomingQos2 = (b.clients.get i).incomingQos2) :
    Receiving b' i log := by
  refine ⟨?_, ?_⟩
  · unfold IncomingOk
    rw [he]
    exact h.ok
  · intro id
    rw [he]
    exact h.stored id

theorem Receiving.of_clients (h : Receiving b i log) (hc : b'.clients = b.clients) :
    Receiving b' i log :=
  h.congr (by rw [hc])

variable {reader : PacketReader}

theorem readPublish_qos2 {level : UInt8} {p : PublishFields}
    (h : readPublish cfg level .exactlyOnce reader = .ok p) :
    p.identifier ≠ 0 ∧ validateTopicName p.topic = .ok := by
  unfold readPublish at h
  split at h
  · cases h
  split at h
  · cases h
  next htopic =>
  dsimp only at h
  split at h
  · cases h
  split at h
  · cases h
  next hid =>
  split at h
  · cases h
  split at h
  · cases h
  · cases h
    exact ⟨fun h0 => hid ⟨by decide, h0⟩, not_not.mp htopic⟩

theorem readPublish_error_ne_ok {level : UInt8} {quality : Qos} {status : Status}
    (h : readPublish cfg level quality reader = .error status) : status ≠ .ok := by
  unfold readPublish at h
  split at h
  · cases h
    decide
  split at h
  · cases h
    decide
  dsimp only at h
  split at h
  · cases h
    decide
  split at h
  · cases h
    decide
  split at h
  next status' hp =>
    cases h
    unfold readProperties at hp
    split at hp
    · dsimp only at hp
      split at hp
      · cases hp
      next hs =>
        cases hp
        exact hs
    · cases hp
  · split at h
    · cases h
      decide
    · cases h

theorem Receiving.store (h : Receiving b i log) {k : Fin cfg.maxOutstanding} {p : PublishFields}
    {retain : Bool} (hz : p.identifier ≠ 0) (ht : validateTopicName p.topic = .ok)
    (hnew : findQos (b.clients.get i).incomingQos2 p.identifier = none)
    (hk : allocateQos (b.clients.get i).incomingQos2 = some k) :
    Receiving (b.storeIncoming i k p retain) i
      (log ++ [.opens p.identifier ⟨p.topic, p.payload, .exactlyOnce, retain⟩]) := by
  have hfree : ((b.clients.get i).incomingQos2.get k).used = false := by
    simpa using Table.firstIdx_some hk
  have hf := findQos_none.mp hnew
  have hfill := h.ok.1.entry_fill (i := k)
    (a := { (b.clients.get i).incomingQos2.get k with
      used := true, identifier := p.identifier, quality := .exactlyOnce
      topic := cstr p.topic, payload := p.payload, retain }) hfree rfl hf
  refine ⟨?_, ?_⟩
  · unfold IncomingOk storeIncoming
    rw [get_modifyClient_self]
    exact ⟨h.ok.1.set k hf, fun h0 => (Table.holds_set h0).elim hz h.ok.2⟩
  · intro id
    rw [Mark.pending_snoc, storeIncoming, get_modifyClient_self]
    have hpend := h.stored id
    have he := hfill id
    simp only [Table.modify, Mark.pend]
    rw [he]
    by_cases hid : p.identifier = id
    · subst hid
      have hnone : (b.clients.get i).incomingQos2.entry p.identifier = none :=
        Table.entry_eq_none.mpr hf
      rw [hnone] at hpend
      rw [if_pos rfl, ← hpend, if_pos (by rfl)]
      simp [QosEntry.publication, cstr_of_validTopicName ht]
    · rw [if_neg hid, if_neg (by exact hid), hpend]

theorem Receiving.release (h : Receiving b i log) {k : Fin cfg.maxOutstanding} {id : UInt16}
    (hk : findQos (b.clients.get i).incomingQos2 id = some k) :
    Receiving (b.releaseIncoming i k) i (log ++ [.closes id]) := by
  obtain ⟨hu, hid⟩ := findQos_some hk
  have hrel := h.ok.1.entry_release (f := fun e => { e with used := false }) hu rfl rfl
  have hw : ((b.clients.get i).incomingQos2.modify k fun e => { e with used := false }).Within
      (b.clients.get i).incomingQos2 :=
    Table.within_modify _ _ _ fun hu => absurd hu (by simp [Slot.used])
  refine ⟨?_, ?_⟩
  · unfold IncomingOk releaseIncoming
    rw [get_modifyClient_self]
    exact ⟨hw.distinct h.ok.1, fun h0 => h.ok.2 (hw.holds h0)⟩
  · intro id'
    rw [Mark.pending_snoc, releaseIncoming, get_modifyClient_self]
    have hkey : Slot.key ((b.clients.get i).incomingQos2.get k) = id := hid
    rw [hrel, hkey]
    simp only [Mark.pend]
    split_ifs
    · rfl
    · exact h.stored id'

theorem sendIdentifier_eq {h : ClientHandle} {type : PacketType} {id : UInt16} {status : Status}
    (he : b.sendIdentifier h type id false = (status, b')) :
    b'.clients = b.clients ∧ publications b'.trace = publications b.trace := by
  have hs := b.sendIdentifier_sendsOnly h type id false
  rw [he] at hs
  exact ⟨hs.clients, hs.published⟩

theorem handlePublish_qos2 (h : Receiving b i log) (hq : qualityOf packet.flags = some .exactlyOnce)
    (he : b.handlePublish i packet = (.ok, b')) : ∃ p, readPublish cfg
    (b.clients.get i).protocolLevel .exactlyOnce ⟨packet.body, .ok⟩ = .ok p ∧ Receiving b' i
    (log ++ [.opens p.identifier ⟨p.topic, p.payload, .exactlyOnce, packet.flags &&& 1 ≠ 0⟩]) ∧
    publications b'.trace = publications b.trace := by
  unfold handlePublish at he
  rw [hq] at he
  dsimp only at he
  split at he
  next status hread =>
    cases he
    exact absurd rfl (readPublish_error_ne_ok hread)
  next p hread =>
  refine ⟨p, hread, ?_⟩
  obtain ⟨hz, ht⟩ := readPublish_qos2 hread
  rw [if_pos rfl] at he
  split at he
  next k hk =>
    -- a duplicate: the group is open already
    obtain ⟨hc, hp⟩ := sendIdentifier_eq he
    refine ⟨?_, hp⟩
    have h' := h.of_clients hc
    refine ⟨h'.ok, fun id => ?_⟩
    rw [h'.stored, Mark.pending_snoc]
    obtain ⟨hu, hid⟩ := findQos_some hk
    have hpend := h.stored p.identifier
    rw [h.ok.1.entry_eq_some.mpr ⟨k, rfl, hu, hid⟩] at hpend
    simp only [Mark.pend]
    split_ifs with hid'
    · rw [← hid', ← hpend]
      rfl
    · rfl
  next hnew =>
    split at he
    · cases he
    next k hk =>
    obtain ⟨hc, hp⟩ := sendIdentifier_eq he
    exact ⟨(h.store hz ht hnew hk).of_clients hc, hp⟩

theorem readOptionalReason_error_ok_level {limits : PropertyLimits} {level : UInt8}
    (h : readOptionalReason limits level reader = .error .ok) : level = 5 := by
  by_contra hlevel
  simp only [readOptionalReason, hlevel, false_and, if_false, true_and, not_false_eq_true,
    ne_eq] at h
  split at h
  · cases h
  · cases h

theorem readAcknowledgement_error_ok_level {limits : PropertyLimits} {level : UInt8}
    (h : readAcknowledgement limits level reader = .error .ok) : level = 5 := by
  unfold readAcknowledgement at h
  split at h
  · cases h
  split at h
  · cases h
  split at h
  next he =>
    cases h
    exact readOptionalReason_error_ok_level he
  · cases h

/-- A PUBREL closes its group and publishes what was pending, unless its property
section is rejected while nothing is pending. -/
theorem handleClientPubrel_qos2 (h : Receiving b i log) (ht : packet.type = .pubrel)
    (hs : (b.clients.get i).protocolLevel = 5 → SectionRejected cfg.properties packet →
      Mark.pending (packetIdentifier packet) log = none)
    (he : b.handleClientPubrel i ⟨packet.body, .ok⟩ = (.ok, b')) :
    Receiving b' i (log ++ [.closes (packetIdentifier packet)]) ∧
      publications b'.trace =
        publications b.trace ++ (Mark.pending (packetIdentifier packet) log).toList := by
  have hnone (hp : Mark.pending (packetIdentifier packet) log = none) :
      Receiving b i (log ++ [.closes (packetIdentifier packet)]) := by
    refine ⟨h.ok, fun id => ?_⟩
    rw [h.stored, Mark.pending_snoc]
    simp only [Mark.pend]
    split_ifs with hid
    · rw [← hid, hp]
    · rfl
  unfold handleClientPubrel at he
  split at he
  next status hread =>
    -- the handler gives up on a rejected section and still answers `ok`
    cases he
    have hlevel := readAcknowledgement_error_ok_level hread
    rw [hlevel] at hread
    have hp := hs hlevel (readAcknowledgement_error_ok (by simp [ht]) hread)
    exact ⟨hnone hp, by simp [hp]⟩
  next id reason hread =>
  obtain rfl := readAcknowledgement_identifier hread
  obtain ⟨hc, hpub⟩ := sendIdentifier_eq he
  rw [hpub]
  have hpend := h.stored (packetIdentifier packet)
  split at hc
  next hk =>
    have hp : Mark.pending (packetIdentifier packet) log = none := by
      rw [← hpend, Table.entry_eq_none.mpr (findQos_none.mp hk)]
      rfl
    exact ⟨(hnone hp).of_clients hc, by simp [hp]⟩
  next k hk =>
    obtain ⟨hu, hid⟩ := findQos_some hk
    rw [h.ok.1.entry_eq_some.mpr ⟨k, rfl, hu, hid⟩] at hpend
    have hd := b.publishMessage_delivers (((b.clients.get i).incomingQos2.get k).publication)
    obtain ⟨outgoing, next, hclient, -⟩ := hd.client i
    have h₁ := @Receiving.congr _ _ (b.publishMessage _) _ _ h (by rw [hclient])
    have hk₁ : findQos ((b.publishMessage
        ((b.clients.get i).incomingQos2.get k).publication).clients.get i).incomingQos2
        (packetIdentifier packet) = some k := by rw [hclient, hk]
    refine ⟨(h₁.release hk₁).of_clients hc, ?_⟩
    · rw [← hpend]
      exact hd.published

def marks (cfg : BrokerConfig) (level : UInt8) (packets : List PacketView) :
    List (Mark UInt16 Publication) :=
  packets.filterMap (markOf cfg level)

theorem marks_snoc (level : UInt8) (packets : List PacketView) (packet : PacketView) : marks cfg
    level (packets ++ [packet]) = marks cfg level packets ++ (markOf cfg level packet).toList := by
  unfold marks
  rw [List.filterMap_append]
  cases h : markOf cfg level packet <;> simp [h]

theorem handleAll_append (b : Broker cfg) (packets packets' : List PacketView) : b.handleAll i
    (packets ++ packets') = (b.handleAll i packets).bind fun b => b.handleAll i packets' := by
  induction packets generalizing b with
  | nil => rfl
  | cons packet packets ih =>
    simp only [List.cons_append, handleAll]
    split
    · exact ih _
    · rfl

theorem handleAll_singleton :
    b.handleAll i [packet] = some b' ↔ b.handlePacket i packet = (.ok, b') := by
  simp only [handleAll]
  split
  next d he => simp [he]
  next status d hne he =>
    constructor
    · intro h
      cases h
    · intro h
      rw [he] at h
      cases h
      exact absurd rfl hne

/-- The broker does with `packet`, behind the packets `before`, what the groups ask
for, and its incoming entries stay in order. -/
def PublishesOnce (b : Broker cfg) (i : Fin cfg.maxClients) (before : List PacketView)
    (packet : PacketView) : Prop :=
  ∃ b₁ b₂, b.handleAll i before = some b₁ ∧ b₁.handlePacket i packet = (.ok, b₂) ∧
    IncomingOk b₁ i ∧ IncomingOk b₂ i ∧
    (packet.type = .publish → publications b₂.trace = publications b₁.trace) ∧
    (packet.type = .pubrel →
      (∀ m, Mark.Group (packetIdentifier packet) m
          (marks cfg (b.clients.get i).protocolLevel before) →
        publications b₂.trace = publications b₁.trace ++ [m]) ∧
      ((∀ m, ¬Mark.Group (packetIdentifier packet) m
          (marks cfg (b.clients.get i).protocolLevel before)) →
        publications b₂.trace = publications b₁.trace))

/-- A PUBREL that closes a group carries no property section that is rejected. -/
def ClosesReadably (b : Broker cfg) (i : Fin cfg.maxClients) (before : List PacketView)
    (packet : PacketView) : Prop :=
  packet.type = .pubrel → (b.clients.get i).protocolLevel = 5 →
    SectionRejected cfg.properties packet →
      ∀ m, ¬Mark.Group (packetIdentifier packet) m
        (marks cfg (b.clients.get i).protocolLevel before)

theorem pending_none_of_no_group {κ μ : Type} [DecidableEq κ] {k : κ} {log : List (Mark κ μ)}
    (h : ∀ m, ¬Mark.Group k m log) : Mark.pending k log = none := by
  cases hp : Mark.pending k log with
  | none => rfl
  | some m => exact absurd ((Mark.pending_eq_some k m log).mp hp) (h m)

theorem handlePacket_qos2 (h : Receiving b i log) (hq : IsQos2 packet)
    (hs : packet.type = .pubrel → (b.clients.get i).protocolLevel = 5 →
      SectionRejected cfg.properties packet → Mark.pending (packetIdentifier packet) log = none)
    (he : b.handlePacket i packet = (.ok, b')) :
    Receiving b' i (log ++ (markOf cfg (b.clients.get i).protocolLevel packet).toList) ∧
      (packet.type = .publish → publications b'.trace = publications b.trace) ∧
      (packet.type = .pubrel → publications b'.trace =
        publications b.trace ++ (Mark.pending (packetIdentifier packet) log).toList) := by
  unfold handlePacket at he
  dsimp only at he
  split at he
  · cases he
  rcases hq with ⟨ht, hqual⟩ | ht
  · simp only [ht] at he
    obtain ⟨p, hread, hrec, hpub⟩ := handlePublish_qos2 h hqual he
    refine ⟨?_, fun _ => hpub, fun h => absurd (ht.symm.trans h) (by decide)⟩
    simp only [markOf, ht, hread]
    exact hrec
  · simp only [ht] at he
    obtain ⟨hrec, hpub⟩ := handleClientPubrel_qos2 h ht (hs ht) he
    refine ⟨?_, fun h => absurd (ht.symm.trans h) (by decide), fun _ => hpub⟩
    simp only [markOf, ht]
    exact hrec

theorem handleAll_level {packets : List PacketView} (hq : ∀ p ∈ packets, IsQos2 p)
    (he : b.handleAll i packets = some b') :
    (b'.clients.get i).protocolLevel = (b.clients.get i).protocolLevel := by
  induction packets generalizing b with
  | nil =>
    cases he
    rfl
  | cons packet packets ih =>
    simp only [handleAll] at he
    split at he
    next b₁ hp =>
      have hserved := b.handlePacket_served i packet (hq packet (by simp)).ne_connect
      rw [hp] at hserved
      rw [ih (fun p hp => hq p (List.mem_cons_of_mem _ hp)) he, (hserved.client i).protocolLevel]
    · cases he

theorem handleAll_prefix {packets before : List PacketView} {p : PacketView}
    (he : b.handleAll i packets = some b') (hp : before ++ [p] <+: packets) :
    ∃ b₁ b₂, b.handleAll i before = some b₁ ∧ b₁.handlePacket i p = (.ok, b₂) := by
  obtain ⟨after, rfl⟩ := hp
  rw [handleAll_append, handleAll_append] at he
  obtain ⟨b₂, hb₂, -⟩ := Option.bind_eq_some_iff.mp he
  obtain ⟨b₁, hb₁, hp⟩ := Option.bind_eq_some_iff.mp hb₂
  exact ⟨b₁, b₂, hb₁, handleAll_singleton.mp hp⟩

/-- For QoS 2 packets of one connection that the broker all accepts: every packet is
handled as its group asks, if and only if no PUBREL that closes a group carries a
rejected property section. -/
theorem groups_published_once_iff {packets : List PacketView}
    (hfree : ∀ k, ((b.clients.get i).incomingQos2.get k).used = false)
    (hq : ∀ p ∈ packets, IsQos2 p) (he : b.handleAll i packets = some b') :
    AtEach packets (PublishesOnce b i) ↔ AtEach packets (ClosesReadably b i) := by
  have hmem {before : List PacketView} {p : PacketView} (hp : before ++ [p] <+: packets) :
      IsQos2 p ∧ ∀ q ∈ before, IsQos2 q :=
    ⟨hq p (hp.subset (by simp)), fun q hq' => hq q (hp.subset (by simp [hq']))⟩
  apply @AtEach.iff_of_invariant _ _ _ _ (fun before => ∀ b₁, b.handleAll i before = some b₁ →
    Receiving b₁ i (marks cfg (b.clients.get i).protocolLevel before))
  · intro b₁ hb₁
    cases hb₁
    refine ⟨⟨Table.distinct_of_free hfree, Table.not_holds_of_free hfree 0⟩, fun id => ?_⟩
    rw [Table.entry_eq_none.mpr (Table.not_holds_of_free hfree id)]
    rfl
  · intro before p hp hinv hclose b₂ hb₂
    rw [handleAll_append] at hb₂
    obtain ⟨b₁, hb₁, hb₂⟩ := Option.bind_eq_some_iff.mp hb₂
    have hlevel := handleAll_level (hmem hp).2 hb₁
    obtain ⟨hrec, -⟩ := handlePacket_qos2 (hinv b₁ hb₁) (hmem hp).1
      (fun ht h5 hrej => pending_none_of_no_group (hclose ht (hlevel ▸ h5) hrej))
      (handleAll_singleton.mp hb₂)
    rw [hlevel] at hrec
    rw [marks_snoc]
    exact hrec
  · intro before p hp hinv
    obtain ⟨b₁, b₂, hb₁, hb₂⟩ := handleAll_prefix he hp
    have hlevel := handleAll_level (hmem hp).2 hb₁
    constructor
    · -- a rejected section leaves the broker as it is, so nothing is published
      rintro ⟨b₁', b₂', hb₁', hb₂', -, -, -, hrel⟩ ht h5 hrej m hm
      have hpub := (hrel ht).1 m hm
      rw [← hlevel, hb₁.symm.trans hb₁' |> Option.some.inj] at h5
      have hread := readAcknowledgement_rejected (by simp [ht]) hrej
      rw [b₁'.handlePacket_unread i p h5 (by simp [ht, isAcknowledgement]) hread] at hb₂'
      rw [(Prod.mk.inj hb₂').2] at hpub
      simp at hpub
    · intro hclose
      have hrec := hinv b₁ hb₁
      obtain ⟨hrec', hpub, hrel⟩ := handlePacket_qos2 hrec (hmem hp).1
        (fun ht h5 hrej => pending_none_of_no_group (hclose ht (hlevel ▸ h5) hrej)) hb₂
      refine ⟨b₁, b₂, hb₁, hb₂, hrec.ok, hrec'.ok, hpub, fun ht => ⟨fun m hm => ?_, fun hn => ?_⟩⟩
      · rw [hrel ht, (Mark.pending_eq_some _ _ _).mpr hm]
        rfl
      · rw [hrel ht, pending_none_of_no_group hn]
        simp

/-- A QoS 2 PUBLISH with identifier 1, topic `t` and payload `x`, at level 5. -/
def qos2Publish : PacketView :=
  { type := .publish
    flags := 4
    remainingLength := 7
    headerSize := 2
    packetSize := 9
    body := [0, 1, 0x74, 0, 1, 0, 0x78] }

def goodPubrel : PacketView :=
  { type := .pubrel
    flags := 2
    remainingLength := 2
    headerSize := 2
    packetSize := 4
    body := [0, 1] }

theorem group_open : Mark.Group (packetIdentifier badPubrel) ⟨[0x74], [0x78], .exactlyOnce, false⟩
    (marks smallBroker (levelFiveBroker.clients.get 0).protocolLevel [qos2Publish]) :=
  (Mark.pending_eq_some _ _ _).mp (by decide)

/-- Both packets are accepted, and the message is never published. -/
theorem group_not_published : IsQos2 qos2Publish ∧ IsQos2 badPubrel ∧
    ((levelFiveBroker.handleAll 0 [qos2Publish, badPubrel]).map fun b => publications b.trace) =
    some [] ∧ ¬PublishesOnce levelFiveBroker 0 [qos2Publish] badPubrel := by
  have hnone : ((levelFiveBroker.handleAll 0 [qos2Publish, badPubrel]).map fun b =>
      publications b.trace) = some [] := by decide
  refine ⟨.inl (by decide), .inr rfl, hnone, ?_⟩
  rintro ⟨b₁, b₂, h₁, h₂, -, -, -, hrel⟩
  have hpub := (hrel rfl).1 _ group_open
  have hall : levelFiveBroker.handleAll 0 ([qos2Publish] ++ [badPubrel]) = some b₂ := by
    rw [handleAll_append, h₁]
    exact handleAll_singleton.mpr h₂
  rw [List.singleton_append] at hall
  rw [hall] at hnone
  have hempty : publications b₂.trace = [] := Option.some.inj hnone
  simp [hempty] at hpub

/-- Without a rejected section the group of a duplicated PUBLISH is published once. -/
theorem groups_published_once_iff_duplicate : AtEach
    [qos2Publish, qos2Publish, goodPubrel, goodPubrel] (PublishesOnce levelFiveBroker 0) := by
  obtain ⟨b', he⟩ : ∃ b', levelFiveBroker.handleAll 0
      [qos2Publish, qos2Publish, goodPubrel, goodPubrel] = some b' :=
    Option.isSome_iff_exists.mp (by decide)
  have hq : ∀ p ∈ [qos2Publish, qos2Publish, goodPubrel, goodPubrel], IsQos2 p := by
    unfold IsQos2
    decide
  refine (groups_published_once_iff (by decide) hq he).mpr ?_
  intro before p hp ht hlevel hrej
  have hread : ∀ p ∈ [qos2Publish, qos2Publish, goodPubrel, goodPubrel], p.type = .pubrel →
      propertySection p = [] := by decide
  exact absurd (hread p (hp.subset (by simp)) ht) hrej.1

end Broker
end Castle.Mqtt
