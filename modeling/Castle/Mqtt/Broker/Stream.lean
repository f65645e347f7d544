import Castle.Lib.Steps
import Castle.Mqtt.Framing
import Castle.Mqtt.Broker.Run

/-!
# The byte stream of a connection

`receive_bytes` drains the receive buffer: the packets it hands to `handle_packet`
and the bytes it keeps are those of the whole stream, in whatever chunks it arrives.
-/

namespace Castle.Mqtt

open Net

namespace Broker

variable {cfg : BrokerConfig} {b : Broker cfg} {i : Fin cfg.maxClients}

/-- The connection in slot `i` as a handler of packets. -/
def packetHandler (cfg : BrokerConfig) (i : Fin cfg.maxClients) :
    FrameHandler (Broker cfg) PacketView where
  handle b packet :=
    if (b.handlePacket i packet).1 ≠ .ok then (b.handlePacket i packet).2.markClose i
    else (b.handlePacket i packet).2
  fail b := b.markClose i
  stopped b := (b.clients.get i).closePending
  stopped_fail b := by simp [markClose]

/-- Handle the packets of the bytes `stream` in slot `i`. -/
def drainStream (b : Broker cfg) (i : Fin cfg.maxClients) (stream : Bytes) :
    Drained (Broker cfg) UInt8 PacketView :=
  (packetFraming cfg.maxPacketSize).drain (packetHandler cfg i) b stream

theorem verdict_nil (cfg : BrokerConfig) : verdict cfg.maxPacketSize [] = .more := by
  have hmin := cfg.packet_ge.1
  rw [verdict_more]
  unfold inspectPacket
  rw [if_neg (by omega)]

theorem receiveLoop_drain {rx : Bytes} {fuel consumed : ℕ} (hc : consumed ≤ rx.length)
    (hf : rx.length - consumed ≤ fuel) :
    (receiveLoop i rx fuel b consumed).1 = (drainStream b i (rx.drop consumed)).state ∧
      (receiveLoop i rx fuel b consumed).2.2 = (drainStream b i (rx.drop consumed)).frames ∧
      (((drainStream b i (rx.drop consumed)).state.clients.get i).closePending = false →
        rx.drop (receiveLoop i rx fuel b consumed).2.1 =
          (drainStream b i (rx.drop consumed)).rest) := by
  unfold drainStream
  induction fuel generalizing b consumed with
  | zero =>
    have hnil : rx.drop consumed = [] := List.drop_eq_nil_of_le (by omega)
    rw [hnil, Framing.drain_more (verdict_nil cfg)]
    simp [receiveLoop, hnil]
  | succ fuel ih =>
    unfold receiveLoop
    split
    next hgo =>
      have hs : (packetHandler cfg i).stopped b = false := hgo.2
      split
      next he =>
        rw [Framing.drain_more (verdict_more.mpr he)]
        exact ⟨rfl, rfl, fun _ => rfl⟩
      next status hne he =>
        have hbad : (packetFraming cfg.maxPacketSize).inspect (rx.drop consumed) = .bad :=
          verdict_bad.mpr ⟨status, he, hne⟩
        rw [Framing.drain_bad hs hbad]
        exact ⟨rfl, rfl, fun _ => rfl⟩
      next packet he =>
        have hframe : (packetFraming cfg.maxPacketSize).inspect (rx.drop consumed) =
            .frame packet := verdict_frame.mpr he
        obtain ⟨hmin, hlen, -⟩ := inspectPacket_ok he
        rw [List.length_drop] at hlen
        rw [Framing.drain_frame hs hframe]
        dsimp only
        split
        next hne =>
          have hhandle : (packetHandler cfg i).handle b packet =
              (b.handlePacket i packet).2.markClose i := if_pos hne
          have hstop : (packetHandler cfg i).stopped ((b.handlePacket i packet).2.markClose i) =
            true := (packetHandler cfg i).stopped_fail _
          rw [hhandle, Framing.drain_stopped hstop]
          exact ⟨rfl, rfl, fun ho => absurd (hstop.symm.trans ho) (by decide)⟩
        next hok =>
          have hhandle : (packetHandler cfg i).handle b packet = (b.handlePacket i packet).2 :=
            if_neg hok
          obtain ⟨h₁, h₂, h₃⟩ := @ih (b.handlePacket i packet).2
            (consumed + packet.packetSize) (by omega) (by omega)
          have hdrop : (rx.drop consumed).drop packet.packetSize =
              rx.drop (consumed + packet.packetSize) := List.drop_drop
          have hsize : (packetFraming cfg.maxPacketSize).size packet = packet.packetSize := rfl
          rw [hhandle, hsize, hdrop]
          exact ⟨h₁, congrArg _ h₂, h₃⟩
    next hstop =>
      rw [not_and_or] at hstop
      rcases hstop with hstop | hstop
      · have hnil : rx.drop consumed = [] := List.drop_eq_nil_of_le (by omega)
        rw [hnil, Framing.drain_more (verdict_nil cfg)]
        exact ⟨rfl, rfl, fun _ => rfl⟩
      · have hs : (packetHandler cfg i).stopped b = true := Bool.eq_true_of_not_eq_false hstop
        rw [Framing.drain_stopped hs]
        exact ⟨rfl, rfl, fun _ => rfl⟩

theorem receiveBytes_drain {rx data : Bytes}
    (h : ¬cfg.maxPacketSize + cfg.receiveBufferSize - rx.length < data.length) :
    (b.receiveBytes i rx data).1 = (drainStream b i (rx ++ data)).state ∧
      (b.receiveBytes i rx data).2.2 = (drainStream b i (rx ++ data)).frames ∧
      (((drainStream b i (rx ++ data)).state.clients.get i).closePending = false →
        (b.receiveBytes i rx data).2.1 = (drainStream b i (rx ++ data)).rest) := by
  unfold receiveBytes
  rw [if_neg h]
  have hloop := @receiveLoop_drain _ b i (rx ++ data) ((rx ++ data).length) 0 (by omega) (by omega)
  simpa using hloop

/-- One receive in slot `i`, unless the connection is to be closed: the broker, the
buffer and the packets handed over so far. -/
def receiveChunk (i : Fin cfg.maxClients) (s : Broker cfg × Bytes × List PacketView)
    (chunk : Bytes) : Broker cfg × Bytes × List PacketView :=
  if (s.1.clients.get i).closePending then s
  else
    let (b, rx, handed) := s.1.receiveBytes i s.2.1 chunk
    (b, rx, s.2.2 ++ handed)

/-- A stream that arrives in chunks on a new connection. -/
def receiveChunks (b : Broker cfg) (i : Fin cfg.maxClients) (chunks : List Bytes) :
    Broker cfg × Bytes × List PacketView :=
  chunks.foldl (receiveChunk i) (b, [], [])

/-- The bytes are the beginning of one packet, and fewer than a packet may have. -/
def PartOfPacket (cfg : BrokerConfig) (rx : Bytes) : Prop :=
  rx.length < cfg.maxPacketSize ∧ ∃ more, more ≠ [] ∧ WirePacket (rx ++ more)

/-- `s` is what a drained stream leaves behind, up to the rest of a closed connection. -/
structure Leaves (i : Fin cfg.maxClients) (d : Drained (Broker cfg) UInt8 PacketView)
    (s : Broker cfg × Bytes × List PacketView) : Prop where
  broker : s.1 = d.state
  handed : s.2.2 = d.frames
  rest : (d.state.clients.get i).closePending = false → s.2.1 = d.rest

theorem room_of_more {rx chunk : Bytes} (hm : verdict cfg.maxPacketSize rx = .more)
    (hsize : chunk.length ≤ cfg.receiveBufferSize) :
    ¬cfg.maxPacketSize + cfg.receiveBufferSize - rx.length < chunk.length := by
  have hlen := (inspectPacket_empty (verdict_more.mp hm) cfg.packet_ge.1).1
  omega

theorem Leaves.receiveChunk {d : Drained (Broker cfg) UInt8 PacketView}
    {s : Broker cfg × Bytes × List PacketView} (h : Leaves i d s) {chunk : Bytes}
    (hm : (d.state.clients.get i).closePending = false → verdict cfg.maxPacketSize d.rest = .more)
    (hsize : chunk.length ≤ cfg.receiveBufferSize) :
    Leaves i ((packetFraming cfg.maxPacketSize).feed (packetHandler cfg i) d chunk)
    (receiveChunk i s chunk) := by
  obtain ⟨b, rx, handed⟩ := s
  obtain ⟨rfl, rfl, hrest⟩ := h
  unfold Broker.receiveChunk Framing.feed
  cases hs : (d.state.clients.get i).closePending with
  | true =>
    have hs' : (packetHandler cfg i).stopped d.state = true := hs
    rw [if_pos hs', if_pos rfl]
    exact ⟨rfl, rfl, fun ho => absurd (hs.symm.trans ho) (by decide)⟩
  | false =>
    have hs' : ¬(packetHandler cfg i).stopped d.state = true := by
      simp only [packetHandler, hs]
      decide
    have hrx : rx = d.rest := hrest hs
    subst hrx
    obtain ⟨h₁, h₂, h₃⟩ := receiveBytes_drain (b := d.state) (i := i) (room_of_more (hm hs) hsize)
    rw [if_neg hs', if_neg (by simp)]
    exact ⟨h₁, congrArg _ h₂, h₃⟩

theorem receiveChunks_leaves (b : Broker cfg) (i : Fin cfg.maxClients) {chunks : List Bytes}
    (h : ∀ chunk ∈ chunks, chunk.length ≤ cfg.receiveBufferSize) :
    Leaves i (drainStream b i chunks.flatten) (b.receiveChunks i chunks) := by
  have hstart : (packetFraming cfg.maxPacketSize).drain (packetHandler cfg i) b [] = ⟨b, [], []⟩ :=
    Framing.drain_more (verdict_nil cfg)
  have hfeed (l : List Bytes) := @Framing.foldl_feed _ _ _ (packetFraming cfg.maxPacketSize) (packetHandler cfg i) b [] l
  rw [hstart] at hfeed
  have hleaves : Leaves i (chunks.foldl ((packetFraming cfg.maxPacketSize).feed
      (packetHandler cfg i)) ⟨b, [], []⟩) (b.receiveChunks i chunks) := by
    induction chunks using List.reverseRecOn with
    | nil => exact ⟨rfl, rfl, fun _ => rfl⟩
    | append_singleton chunks chunk ih =>
      have hprev := ih fun c hc => h c (by simp [hc])
      rw [List.foldl_append, receiveChunks, List.foldl_append]
      refine hprev.receiveChunk (fun ho => ?_) (h chunk (by simp))
      obtain ⟨hst, -, hre⟩ := hfeed chunks
      rw [hst] at ho
      rw [hre ho]
      exact @Framing.drain_needs_more _ _ _ (packetFraming cfg.maxPacketSize) _ _ _ ho
  obtain ⟨hst, hfr, hre⟩ := hfeed chunks
  refine ⟨hleaves.broker.trans hst, hleaves.handed.trans hfr, fun ho => ?_⟩
  refine (hleaves.rest ?_).trans (hre ho)
  rw [hst]
  exact ho

/-- Between receives of an open connection the buffer is the unconsumed tail of the
stream, and part of one packet. -/
theorem receiveChunks_tail (b : Broker cfg) (i : Fin cfg.maxClients) {chunks : List Bytes}
    (h : ∀ chunk ∈ chunks, chunk.length ≤ cfg.receiveBufferSize)
    (ho : ((b.receiveChunks i chunks).1.clients.get i).closePending = false) :
    (b.receiveChunks i chunks).2.1 = chunks.flatten.drop
        (((b.receiveChunks i chunks).2.2.map PacketView.packetSize).sum) ∧
      verdict cfg.maxPacketSize (b.receiveChunks i chunks).2.1 = .more := by
  obtain ⟨hb, hh, hr⟩ := receiveChunks_leaves b i h
  rw [hb] at ho
  rw [hh, hr ho]
  exact ⟨Framing.drain_rest _ _,
    @Framing.drain_needs_more _ _ _ (packetFraming cfg.maxPacketSize) _ _ _ ho⟩

theorem partOfPacket_of_more {rx : Bytes} (h : verdict cfg.maxPacketSize rx = .more) :
    PartOfPacket cfg rx :=
  inspectPacket_empty (verdict_more.mp h) cfg.packet_ge.1

end Broker

namespace PolledBroker

open Broker

variable {cfg : BrokerConfig} {p : PolledBroker cfg}

/-- Every open connection has part of one packet in its buffer. -/
def BuffersOk (p : PolledBroker cfg) : Prop :=
  ∀ i, (p.broker.clients.get i).closePending = false →
    verdict cfg.maxPacketSize (p.rx.get i) = .more

section

variable (h : p.BuffersOk)
include h

theorem BuffersOk.of_closing {q : PolledBroker cfg} (hrx : q.rx = p.rx)
    (hc : ∀ i, (p.broker.clients.get i).closePending = true →
      (q.broker.clients.get i).closePending = true) : q.BuffersOk := by
  intro i ho
  rw [hrx]
  refine h i ?_
  by_contra hp
  rw [hc i (by simpa using hp)] at ho
  cases ho

theorem BuffersOk.marked (i : Fin cfg.maxClients) (will : Bool → Bool) :
    BuffersOk { p with broker := p.broker.modifyClient i fun s =>
      { s with closePending := true, willPending := will s.willPending } } :=
  h.of_closing rfl fun j hj => p.broker.forall_modifyClient
    (R := fun s s' => s.closePending = true → s'.closePending = true) (fun _ => id)
    (fun _ => rfl) j hj

theorem BuffersOk.openClient (i : Fin cfg.maxClients) (handle : ClientHandle) :
    (p.openClient i handle).BuffersOk := by
  intro j ho
  by_cases hji : j = i
  · subst hji
    simpa [PolledBroker.openClient] using verdict_nil cfg
  · have hsame : (p.openClient i handle).rx.get j = p.rx.get j := Table.get_set_ne _ _ hji
    rw [hsame]
    refine h j ?_
    simpa [PolledBroker.openClient, hji] using ho

theorem BuffersOk.accept (accepted : Status) : (p.accept accepted).2.BuffersOk := by
  unfold PolledBroker.accept
  split
  · exact h
  · exact BuffersOk.openClient (p := { p with broker := { p.broker with server := _ } }) h _ _

theorem BuffersOk.adopt (i : Fin cfg.maxClients) : (p.adopt i).BuffersOk := by
  unfold PolledBroker.adopt
  dsimp only
  split
  · exact h
  split
  · exact h.openClient i _
  · exact h

theorem BuffersOk.keepAlive (i : Fin cfg.maxClients) :
    (p.checkKeepAlive i).BuffersOk := by
  unfold checkKeepAlive
  dsimp only
  split
  · exact h.marked i fun _ => true
  · exact h

theorem BuffersOk.receiveBytes (handle : ClientHandle) {data : Bytes}
    (hsize : data.length ≤ cfg.receiveBufferSize) : (p.receiveBytes handle data).BuffersOk := by
  unfold PolledBroker.receiveBytes
  split
  · exact h
  next i _ =>
  have hh := p.broker.receiveBytes_handled i (p.rx.get i) data
  intro j ho
  have hopen : (p.broker.clients.get j).closePending = false := by
    by_contra hp
    rw [(hh.client j).closePending (by simpa using hp)] at ho
    cases ho
  by_cases hji : j = i
  · subst hji
    obtain ⟨h₁, -, h₃⟩ := receiveBytes_drain (b := p.broker) (i := j)
      (room_of_more (h j hopen) hsize)
    have hdrained : ((drainStream p.broker j (p.rx.get j ++ data)).state.clients.get
        j).closePending = false := by
      rw [← h₁]
      exact ho
    have hrx : (p.rx.set j (p.broker.receiveBytes j (p.rx.get j) data).2.1).get j =
        (drainStream p.broker j (p.rx.get j ++ data)).rest := by
      rw [Table.get_set_self, h₃ hdrained]
    exact (congrArg _ hrx).trans (Framing.drain_needs_more (h := packetHandler cfg j) _ _ hdrained)
  · have hrx : (p.rx.set i (p.broker.receiveBytes i (p.rx.get i) data).2.1).get j = p.rx.get j :=
      Table.get_set_ne _ _ hji
    exact (congrArg _ hrx).trans (h j hopen)

theorem BuffersOk.pollReceive (i : Fin cfg.maxClients) (handle : ClientHandle)
    (received : Receive) : (p.pollReceive i handle received).BuffersOk := by
  unfold PolledBroker.pollReceive
  split
  · exact h
  have hp : (p.processClient i handle received).2.BuffersOk := by
    unfold PolledBroker.processClient
    split
    · exact h
    · exact h
    · exact h
    · exact h
    · split <;> exact h
    · exact h.receiveBytes handle (List.length_take_le _ _)
  generalize p.processClient i handle received = r at hp ⊢
  obtain ⟨result, q⟩ := r
  dsimp only at hp ⊢
  split
  · exact hp.marked i
      (fun w => if result = .notConfigured ∨ result = .systemCallError then true else w)
  · exact hp

theorem BuffersOk.pollClose (i : Fin cfg.maxClients) (handle : ClientHandle) :
    (p.pollClose i handle).BuffersOk := by
  unfold PolledBroker.pollClose
  split
  · have hwill := (p.broker.publishPendingWill_served i).trans
      (Broker.publishPendingWill_served _ i)
    have hend := hwill.handled.trans (Broker.endSession_handled _ p.nowMs i)
    refine h.of_closing rfl fun j hj => ?_
    exact forall_modifyClient _ (R := fun s s' => s.closePending = true → s'.closePending = true)
      (fun _ => id) id j ((hend.client j).closePending hj)
  · exact h

end

theorem BuffersOk.act (h : p.BuffersOk) (a : Act cfg) : (p.act a).BuffersOk := by
  cases a with
  | openListener opened => exact h
  | closeAll => exact h.of_closing rfl fun i hi => by simpa [PolledBroker.act, close] using hi
  | setAuthentication username password =>
    unfold PolledBroker.act setAuthentication
    dsimp only
    split <;> exact h
  | prune now =>
    exact h.of_closing rfl fun i hi => ((p.broker.pruneSessions_handled now).client i).closePending hi
  | accept accepted => exact h.accept accepted
  | adopt i => exact h.adopt i
  | keepAlive i => exact h.keepAlive i
  | receive i received => exact h.pollReceive i _ received
  | close i => exact h.pollClose i _

theorem buffersOk_runActs (sendResults : List Status) (acts : List (Act cfg)) :
    (runActs sendResults acts).BuffersOk :=
  List.foldlRecOn acts PolledBroker.act (motive := BuffersOk)
    (fun i _ => by simpa [runActs] using verdict_nil cfg) fun _ h a _ => h.act a

end PolledBroker

/-- The chunks in which a stream arrives make no difference to the packets that are
handled and to the broker after them. Between the receives of an open connection the
buffer is the unconsumed tail of the stream, which is the beginning of one packet, and
the next chunk fits into it; and in every run the buffer of every open connection is
the beginning of one packet. -/
theorem stream_framing (cfg : BrokerConfig) :
    (∀ (b : Broker cfg) (i : Fin cfg.maxClients) (chunks : List Bytes),
      (∀ chunk ∈ chunks, chunk.length ≤ cfg.receiveBufferSize) →
      (∀ chunks' : List Bytes, (∀ chunk ∈ chunks', chunk.length ≤ cfg.receiveBufferSize) →
        chunks'.flatten = chunks.flatten →
        (b.receiveChunks i chunks').1 = (b.receiveChunks i chunks).1 ∧
          (b.receiveChunks i chunks').2.2 = (b.receiveChunks i chunks).2.2) ∧
      (((b.receiveChunks i chunks).1.clients.get i).closePending = false →
        (b.receiveChunks i chunks).2.1 = chunks.flatten.drop
            (((b.receiveChunks i chunks).2.2.map PacketView.packetSize).sum) ∧
          Broker.PartOfPacket cfg (b.receiveChunks i chunks).2.1 ∧
          ∀ chunk : Bytes, chunk.length ≤ cfg.receiveBufferSize →
            ¬cfg.maxPacketSize + cfg.receiveBufferSize - (b.receiveChunks i chunks).2.1.length <
              chunk.length)) ∧
    ∀ (sendResults : List Status) (acts : List (Act cfg)) (i : Fin cfg.maxClients),
      ((PolledBroker.runActs sendResults acts).broker.clients.get i).closePending = false →
        Broker.PartOfPacket cfg ((PolledBroker.runActs sendResults acts).rx.get i) := by
  refine ⟨fun b i chunks h => ⟨fun chunks' h' he => ?_, fun ho => ?_⟩, fun sendResults acts i ho => ?_⟩
  · have hleaves := Broker.receiveChunks_leaves b i h
    have hleaves' := Broker.receiveChunks_leaves b i h'
    rw [he] at hleaves'
    exact ⟨hleaves'.broker.trans hleaves.broker.symm, hleaves'.handed.trans hleaves.handed.symm⟩
  · obtain ⟨htail, hmore⟩ := b.receiveChunks_tail i h ho
    exact ⟨htail, Broker.partOfPacket_of_more hmore, fun chunk hc => Broker.room_of_more hmore hc⟩
  · exact Broker.partOfPacket_of_more (PolledBroker.buffersOk_runActs sendResults acts i ho)

/-- A broker with a new connection in slot 0. -/
def openedBroker : Broker smallBroker :=
  (PolledBroker.run [] [.openListener .ok, .poll { now := 0, accepted := .ok }]).broker

/-- A PINGREQ behind a CONNECT, cut inside both packets, is handled as in one chunk. -/
theorem stream_framing_cut :
    (openedBroker.receiveChunks 0 [[0x10, 13, 0, 4], [0x4D, 0x51, 0x54, 0x54, 4, 2, 0, 0, 0, 1,
        0x58, 0xC0], [0]]).2.2.map PacketView.type = [.connect, .pingreq] ∧
      (openedBroker.receiveChunks 0 [[0x10, 13, 0, 4], [0x4D, 0x51, 0x54, 0x54, 4, 2, 0, 0, 0, 1,
        0x58, 0xC0], [0]]).2.2 =
      (openedBroker.receiveChunks 0 [[0x10, 13, 0, 4, 0x4D, 0x51, 0x54, 0x54, 4, 2, 0, 0, 0, 1,
        0x58, 0xC0, 0]]).2.2 :=
  ⟨by decide,
    (((stream_framing smallBroker).1 openedBroker 0 [[0x10, 13, 0, 4, 0x4D, 0x51, 0x54, 0x54, 4,
      2, 0, 0, 0, 1, 0x58, 0xC0, 0]] (by decide)).1 _ (by decide) rfl).2⟩

end Castle.Mqtt
