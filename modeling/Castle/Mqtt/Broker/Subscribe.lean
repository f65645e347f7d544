import Castle.Mqtt.Broker.Run

/-!
# SUBSCRIBE packets with a fault (`broker.hpp`)

`handle_subscribe` adds a subscription as soon as its filter and options are read, so what stands in
front of the first fault of a packet stays in the table.
-/

namespace Castle.Mqtt
namespace Broker

variable {cfg : BrokerConfig}

/-- A filter with its options. -/
def readSubscription (cfg : BrokerConfig) (level : UInt8) (reader : PacketReader) :
    Option ((Bytes × Qos) × PacketReader) :=
  match readFilter cfg reader with
  | none => none
  | some (filter, reader) =>
    match reader.getU8.ok? with
    | none => none
    | some (options, reader) =>
      (subscribeOptions level options).map fun requested => ((filter, requested), reader)

/-- The filters in front of the first fault and that fault, with `count` filters read before. -/
def readSubscriptions (cfg : BrokerConfig) (level : UInt8) :
    ℕ → PacketReader → ℕ → List (Bytes × Qos) × Option Status
  | 0, _, _ => ([], none)
  | fuel + 1, reader, count =>
    if reader.remaining = 0 then ([], none)
    else if cfg.maxSubscriptions ≤ count then ([], some .full)
    else
      match readSubscription cfg level reader with
      | none => ([], some .invalidArgument)
      | some (wanted, reader) =>
        let rest := readSubscriptions cfg level fuel reader (count + 1)
        (wanted :: rest.1, rest.2)

/-- The subscriptions that a SUBSCRIBE body asks for in front of its first fault. -/
def wantedSubscriptions (cfg : BrokerConfig) (level : UInt8) (reader : PacketReader) : List (Bytes × Qos) :=
  match readFilterHeader cfg level reader with
  | .error _ => []
  | .ok (_, reader) => (readSubscriptions cfg level reader.remaining reader 0).1

/-- The fault of a SUBSCRIBE body: in the identifier or the properties, no filter at all, too many
filters, a filter or options that are invalid or cut off. -/
def subscribeFault (cfg : BrokerConfig) (level : UInt8) (reader : PacketReader) : Option Status :=
  match readFilterHeader cfg level reader with
  | .error status => some status
  | .ok (_, reader) =>
    let read := readSubscriptions cfg level reader.remaining reader 0
    if read.2 = none ∧ read.1 = [] then some .invalidArgument else read.2

/-- The subscriptions of one client, added in order. -/
def subscribeAll (clientId : Bytes) (b : Broker cfg) (wanted : List (Bytes × Qos)) : Broker cfg :=
  wanted.foldl (fun b w => (b.addSubscription clientId w.1 w.2).2) b

theorem addSubscription_clients (b : Broker cfg) (clientId filter : Bytes) (quality : Qos) :
    (b.addSubscription clientId filter quality).2.clients = b.clients := by
  unfold addSubscription
  split
  · rfl
  split
  · rfl
  · rfl

theorem subscribeFilters_eq (i : Fin cfg.maxClients) (fuel : ℕ) (b : Broker cfg) (reader : PacketReader)
    (results : List FilterResult) :
    (subscribeFilters i fuel b reader results).2 =
        subscribeAll (b.clients.get i).clientId b
          (readSubscriptions cfg (b.clients.get i).protocolLevel fuel reader results.length).1 ∧
      match (readSubscriptions cfg (b.clients.get i).protocolLevel fuel reader results.length).2 with
      | some status => (subscribeFilters i fuel b reader results).1 = .error status
      | none => ∃ added, (subscribeFilters i fuel b reader results).1 = .ok (results ++ added) ∧
        added.length =
          (readSubscriptions cfg (b.clients.get i).protocolLevel fuel reader results.length).1.length := by
  induction fuel generalizing b reader results with
  | zero => exact ⟨rfl, [], by rw [List.append_nil]; rfl, rfl⟩
  | succ fuel ih =>
    unfold subscribeFilters readSubscriptions
    by_cases hdone : reader.remaining = 0
    · rw [if_pos hdone, if_pos hdone]
      exact ⟨rfl, [], by rw [List.append_nil], rfl⟩
    rw [if_neg hdone, if_neg hdone]
    by_cases hfull : cfg.maxSubscriptions ≤ results.length
    · rw [if_pos hfull, if_pos hfull]
      exact ⟨rfl, rfl⟩
    rw [if_neg hfull, if_neg hfull]
    unfold readSubscription
    cases readFilter cfg reader with
    | none => exact ⟨rfl, rfl⟩
    | some filter =>
      obtain ⟨filter, reader⟩ := filter
      dsimp only
      cases reader.getU8.ok? with
      | none => exact ⟨rfl, rfl⟩
      | some options =>
        obtain ⟨options, reader⟩ := options
        dsimp only
        cases subscribeOptions (b.clients.get i).protocolLevel options with
        | none => exact ⟨rfl, rfl⟩
        | some requested =>
          dsimp only [Option.map_some]
          -- the table alone has changed, so the rest is read for the same client
          have hclients := b.addSubscription_clients (b.clients.get i).clientId filter requested
          have hrest := ih (b.addSubscription (b.clients.get i).clientId filter requested).2 reader
            (results ++ [⟨filter, requested,
              if (b.addSubscription (b.clients.get i).clientId filter requested).1 then
                UInt8.ofNat requested.toNat
              else if (b.clients.get i).protocolLevel = 5 then 0x97 else 0x80⟩])
          rw [hclients, List.length_append, List.length_singleton] at hrest
          obtain ⟨htable, hend⟩ := hrest
          refine ⟨htable, ?_⟩
          cases hfault : (readSubscriptions cfg (b.clients.get i).protocolLevel fuel reader
              (results.length + 1)).2 with
          | some status =>
            rw [hfault] at hend
            exact hend
          | none =>
            rw [hfault] at hend
            obtain ⟨added, hok, hlength⟩ := hend
            rw [List.append_assoc] at hok
            exact ⟨_, hok, by rw [List.singleton_append, List.length_cons, List.length_cons, hlength]⟩

theorem readFilterHeader_error {level : UInt8} {reader : PacketReader} {status : Status}
    (h : readFilterHeader cfg level reader = .error status) : status ≠ .ok := by
  unfold readFilterHeader readProperties at h
  split at h
  · cases h
    decide
  split at h
  · cases h
    decide
  split at h
  next hproperties =>
    cases h
    split at hproperties
    · dsimp only at hproperties
      split at hproperties
      · cases hproperties
      next hne =>
        cases hproperties
        exact hne
    · cases hproperties
  · cases h

theorem readSubscriptions_fault {level : UInt8} {fuel count : ℕ} {reader : PacketReader} {status : Status}
    (h : (readSubscriptions cfg level fuel reader count).2 = some status) : status ≠ .ok := by
  induction fuel generalizing reader count with
  | zero => cases h
  | succ fuel ih =>
    unfold readSubscriptions at h
    split at h
    · cases h
    split at h
    · cases h
      decide
    split at h
    · cases h
      decide
    · exact ih h

/-- A SUBSCRIBE packet with a fault fails with it, and the table has the subscriptions in front of it. -/
theorem handleSubscribe_fault (b : Broker cfg) (i : Fin cfg.maxClients) (reader : PacketReader) {status : Status}
    (h : subscribeFault cfg (b.clients.get i).protocolLevel reader = some status) :
    status ≠ .ok ∧ b.handleSubscribe i reader = (status, subscribeAll (b.clients.get i).clientId b
      (wantedSubscriptions cfg (b.clients.get i).protocolLevel reader)) := by
  unfold subscribeFault at h
  unfold handleSubscribe wantedSubscriptions
  dsimp only
  cases hheader : readFilterHeader cfg (b.clients.get i).protocolLevel reader with
  | error failed =>
    rw [hheader] at h
    cases h
    exact ⟨readFilterHeader_error hheader, rfl⟩
  | ok header =>
    obtain ⟨identifier, reader⟩ := header
    rw [hheader] at h
    dsimp only at h ⊢
    have hloop := subscribeFilters_eq i reader.remaining b reader []
    rw [List.length_nil] at hloop
    generalize subscribeFilters i reader.remaining b reader [] = outcome at hloop ⊢
    obtain ⟨result, after⟩ := outcome
    obtain ⟨rfl, hend⟩ := hloop
    split at h
    next hnone =>
      -- no filter at all
      cases h
      rw [hnone.1] at hend
      obtain ⟨added, rfl, hlength⟩ := hend
      rw [hnone.2, List.length_nil] at hlength
      obtain rfl := List.length_eq_zero_iff.mp hlength
      exact ⟨by decide, rfl⟩
    next hnone =>
      rw [h] at hend
      obtain rfl : result = .error status := hend
      exact ⟨readSubscriptions_fault h, rfl⟩

/-- A connected client of level 4 with the identifier `X`. -/
def connectedClient : Broker smallBroker :=
  (PolledBroker.run []
    [.openListener .ok,
      .poll
        { now := 0, accepted := .ok
          received := [.data [0x10, 13, 0, 4, 0x4D, 0x51, 0x54, 0x54, 4, 2, 0, 0, 0, 1, 0x58]] }]).broker

/-- A subscription to `t` and one to `#x`, which is no topic filter. -/
def faultySubscribe : PacketReader := ⟨[0, 1, 0, 1, 0x74, 0, 0, 2, 0x23, 0x78, 0], .ok⟩

theorem handleSubscribe_fault_second :
    subscribeFault smallBroker (connectedClient.clients.get 0).protocolLevel faultySubscribe = some .invalidArgument ∧
      connectedClient.handleSubscribe 0 faultySubscribe = (.invalidArgument,
        subscribeAll (connectedClient.clients.get 0).clientId connectedClient
          (wantedSubscriptions smallBroker (connectedClient.clients.get 0).protocolLevel faultySubscribe)) := by
  have hfault : subscribeFault smallBroker (connectedClient.clients.get 0).protocolLevel faultySubscribe =
      some .invalidArgument := by
    decide
  exact ⟨hfault, (handleSubscribe_fault connectedClient 0 faultySubscribe hfault).2⟩

/-- The subscription to `t` is added although the packet is refused. -/
theorem handleSubscribe_partial :
    subscribeFault smallBroker (connectedClient.clients.get 0).protocolLevel faultySubscribe = some .invalidArgument ∧
      (connectedClient.handleSubscribe 0 faultySubscribe).1 = .invalidArgument ∧
      ¬connectedClient.subscriptions.Holds ([0x58], [0x74]) ∧
      (connectedClient.handleSubscribe 0 faultySubscribe).2.subscriptions.Holds ([0x58], [0x74]) := by
  simp only [← Table.lookup_isSome]
  decide

end Broker
end Castle.Mqtt
