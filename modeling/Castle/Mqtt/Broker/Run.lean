import Castle.Mqtt.Broker.Frame

/-!
# Runs of the broker, step by step

`poll` is cut into the steps it makes: pruning, accepting, and for each slot adopting the
connection, the keep-alive check, one receive and the closing step.
-/

namespace Castle.Mqtt

open Net

namespace Broker

variable {cfg : BrokerConfig} (b : Broker cfg)

theorem markClose_served (i : Fin cfg.maxClients) : Served b (b.markClose i) :=
  b.served_modifyClient ⟨⟨rfl, rfl, fun ho => ho, fun _ => rfl⟩, rfl, rfl⟩

theorem receiveLoop_handled (i : Fin cfg.maxClients) (rx : Bytes) (fuel consumed : ℕ) :
    Handled b (receiveLoop i rx fuel b consumed).1 := by
  induction fuel generalizing b consumed with
  | zero => exact Handled.refl b
  | succ fuel ih =>
    unfold receiveLoop
    dsimp only
    split
    · split
      · exact Handled.refl b
      · exact (b.markClose_served i).handled
      next packet _ =>
      have hp := b.handlePacket_handled i packet
      split
      · exact hp.trans (markClose_served _ i).handled
      · exact hp.trans (ih _ _)
    · exact Handled.refl b

theorem receiveBytes_handled (i : Fin cfg.maxClients) (rx data : Bytes) :
    Handled b (b.receiveBytes i rx data).1 := by
  unfold receiveBytes
  split
  · exact (b.markClose_served i).handled
  · exact b.receiveLoop_handled i _ _ 0

end Broker

/-- A small configuration, for runs on concrete bytes. -/
def smallBroker : BrokerConfig :=
  { maxClients := 3, receiveBufferSize := 64, maxPacketSize := 64, maxSubscriptions := 4
    maxRetained := 2, maxOutstanding := 2, maxTopicLength := 16, maxPayloadSize := 16 }

/-- The steps that the calls of the broker are made of. -/
inductive Act (cfg : BrokerConfig) where
  | openListener (opened : Status)
  | closeAll
  | setAuthentication (username password : Bytes)
  | prune (now : UInt32)
  | accept (accepted : Status)
  | adopt (i : Fin cfg.maxClients)
  | keepAlive (i : Fin cfg.maxClients)
  | receive (i : Fin cfg.maxClients) (received : Receive)
  | close (i : Fin cfg.maxClients)

namespace PolledBroker

variable {cfg : BrokerConfig} (p : PolledBroker cfg)

def prune (now : UInt32) : PolledBroker cfg :=
  { p with nowMs := now, broker := p.broker.pruneSessions now }

/-- A slot whose client state is not that of the connected peer is reset. -/
def adopt (i : Fin cfg.maxClients) : PolledBroker cfg :=
  let h := p.broker.server.clientAt i
  let s := p.broker.clients.get i
  if !h.isValid then p else if !s.used || s.handle ≠ h then p.openClient i h else p

def act (p : PolledBroker cfg) : Act cfg → PolledBroker cfg
  | .openListener opened => (p.openListener opened).2
  | .closeAll => p.close
  | .setAuthentication username password => (p.setAuthentication username password).2
  | .prune now => p.prune now
  | .accept accepted => (p.accept accepted).2
  | .adopt i => p.adopt i
  | .keepAlive i => p.checkKeepAlive i
  | .receive i received => p.pollReceive i (p.broker.clients.get i).handle received
  | .close i => p.pollClose i (p.broker.clients.get i).handle

/-- The broker after a sequence of steps on a newly constructed one. -/
def runActs (sendResults : List Status) (acts : List (Act cfg)) : PolledBroker cfg :=
  acts.foldl act { broker := { sendResults } }

/-- `P` is kept by what every step but pruning and closing is made of. -/
structure Kept (P : Broker cfg → Prop) : Prop where
  server : ∀ b server, P b → P { b with server }
  authentication : ∀ b expectedUsername expectedPassword authenticationEnabled, P b →
    P { b with expectedUsername, expectedPassword, authenticationEnabled }
  fresh : ∀ b i h, P b → P (b.modifyClient i fun _ => freshClient h)
  marked : ∀ b i (will : Bool → Bool), P b →
    P (b.modifyClient i fun s =>
      { s with closePending := true, willPending := will s.willPending })
  unused : ∀ b : Broker cfg, P b → P { b with clients := b.clients.map fun s => { s with used := false } }
  packet : ∀ b i packet, P b → P (b.handlePacket i packet).2

namespace Kept

variable {P : Broker cfg → Prop} (h : Kept P)
include h

theorem receiveLoop {b : Broker cfg} (hb : P b) (i : Fin cfg.maxClients) (rx : Bytes)
    (fuel consumed : ℕ) : P (Broker.receiveLoop i rx fuel b consumed).1 := by
  induction fuel generalizing b consumed with
  | zero => exact hb
  | succ fuel ih =>
    unfold Broker.receiveLoop
    dsimp only
    split
    · split
      · exact hb
      · exact h.marked b i id hb
      next packet _ =>
      have hp := h.packet b i packet hb
      split
      · exact h.marked _ i id hp
      · exact ih hp _
    · exact hb

theorem receiveBytes {b : Broker cfg} (hb : P b) (i : Fin cfg.maxClients) (rx data : Bytes) :
    P (b.receiveBytes i rx data).1 := by
  unfold Broker.receiveBytes
  split
  · exact h.marked b i id hb
  · exact h.receiveLoop hb i _ _ 0

theorem accept {p : PolledBroker cfg} (hp : P p.broker) (accepted : Status) :
    P (p.accept accepted).2.broker := by
  unfold PolledBroker.accept
  split
  · exact h.server _ _ hp
  · exact h.fresh _ _ _ (h.server _ _ hp)

theorem adopt {p : PolledBroker cfg} (hp : P p.broker) (i : Fin cfg.maxClients) :
    P (p.adopt i).broker := by
  unfold PolledBroker.adopt
  dsimp only
  split
  · exact hp
  split
  · exact h.fresh _ i _ hp
  · exact hp

theorem keepAlive {p : PolledBroker cfg} (hp : P p.broker) (i : Fin cfg.maxClients) :
    P (p.checkKeepAlive i).broker := by
  unfold checkKeepAlive
  dsimp only
  split
  · exact h.marked _ i (fun _ => true) hp
  · exact hp

theorem processClient {p : PolledBroker cfg} (hp : P p.broker) (i : Fin cfg.maxClients)
    (handle : ClientHandle) (received : Receive) :
    P (p.processClient i handle received).2.broker := by
  unfold PolledBroker.processClient
  split
  · exact hp
  · exact hp
  · exact hp
  · exact h.server _ _ hp
  · dsimp only
    split
    · exact h.server _ _ hp
    · exact hp
  · unfold PolledBroker.receiveBytes
    split
    · exact hp
    · exact h.receiveBytes hp ..

theorem pollReceive {p : PolledBroker cfg} (hp : P p.broker) (i : Fin cfg.maxClients)
    (handle : ClientHandle) (received : Receive) : P (p.pollReceive i handle received).broker := by
  unfold PolledBroker.pollReceive
  split
  · exact hp
  have hr := h.processClient hp i handle received
  generalize p.processClient i handle received = r at hr ⊢
  obtain ⟨result, q⟩ := r
  dsimp only at hr ⊢
  split
  · exact h.marked _ i
      (fun w => if result = .notConfigured ∨ result = .systemCallError then true else w) hr
  · exact hr

theorem act {p : PolledBroker cfg} (hp : P p.broker) (a : Act cfg)
    (hprune : ∀ now, a = .prune now → P (p.broker.pruneSessions now))
    (hclose : ∀ i, a = .close i → P (p.pollClose i (p.broker.clients.get i).handle).broker) :
    P (p.act a).broker := by
  cases a with
  | openListener opened => exact h.server _ _ hp
  | closeAll => exact h.server _ _ (h.unused _ hp)
  | setAuthentication username password =>
    unfold PolledBroker.act setAuthentication
    dsimp only
    split
    · exact hp
    · exact h.authentication _ _ _ _ hp
  | prune now => exact hprune now rfl
  | accept accepted => exact h.accept hp accepted
  | adopt i => exact h.adopt hp i
  | keepAlive i => exact h.keepAlive hp i
  | receive i received => exact h.pollReceive hp i _ received
  | close i => exact hclose i rfl

end Kept
end PolledBroker
end Castle.Mqtt

/-!
## Packet identifiers in use at the broker
-/

namespace Castle.Mqtt
namespace PolledBroker

open Net

variable {cfg : BrokerConfig}

/-- The used outgoing entries of every client carry nonzero, pairwise distinct identifiers. -/
def OutgoingOk (b : Broker cfg) : Prop := ∀ i, (b.clients.get i).OutgoingOk

def IdentifiersOk (p : PolledBroker cfg) : Prop := OutgoingOk p.broker

theorem outgoingOk_fresh (h : ClientHandle) : (freshClient h : ClientState cfg).OutgoingOk :=
  ⟨Table.distinct_of_free fun i => by simp [freshClient, Slot.used],
    Table.not_holds_of_free (fun i => by simp [freshClient, Slot.used]) 0⟩

theorem OutgoingOk.modifyClient {b : Broker cfg} (h : OutgoingOk b) (i : Fin cfg.maxClients)
    (f : ClientState cfg → ClientState cfg) (hf : ∀ s, s.OutgoingOk → (f s).OutgoingOk) :
    OutgoingOk (b.modifyClient i f) := fun j =>
  b.forall_modifyClient (R := fun s s' => s.OutgoingOk → s'.OutgoingOk) (fun _ => id)
    (hf _) j (h j)

theorem outgoingOk_kept : Kept (@OutgoingOk cfg) where
  server _ _ h := h
  authentication _ _ _ _ h := h
  fresh _ i handle h := h.modifyClient i _ fun _ _ => outgoingOk_fresh handle
  marked _ i _ h := h.modifyClient i _ fun _ ho => ho
  unused _ h i := by simpa [ClientState.OutgoingOk] using h i
  packet b i packet h j := ((b.handlePacket_handled i packet).client j).outgoing (h j)

theorem pollClose_outgoingOk {p : PolledBroker cfg} (h : OutgoingOk p.broker)
    (i : Fin cfg.maxClients) (handle : ClientHandle) : OutgoingOk (p.pollClose i handle).broker := by
  unfold PolledBroker.pollClose
  split
  · have hwill := (p.broker.publishPendingWill_served i).trans
      (Broker.publishPendingWill_served _ i)
    have hend := hwill.handled.trans (Broker.endSession_handled _ p.nowMs i)
    exact OutgoingOk.modifyClient (fun j => (hend.client j).outgoing (h j)) i _ fun _ ho => ho
  · exact h

theorem identifiersOk_runActs (sendResults : List Status) (acts : List (Act cfg)) :
    (runActs sendResults acts).IdentifiersOk :=
  List.foldlRecOn acts PolledBroker.act (motive := IdentifiersOk)
    (fun i => ⟨Table.distinct_of_free fun j => by simp [Slot.used],
      Table.not_holds_of_free (fun j => by simp [Slot.used]) 0⟩)
    fun _ h a _ => outgoingOk_kept.act h a
      (fun now _ j => ((Broker.pruneSessions_handled _ now).client j).outgoing (h j))
      (fun i _ => pollClose_outgoingOk h i _)

end PolledBroker
end Castle.Mqtt
