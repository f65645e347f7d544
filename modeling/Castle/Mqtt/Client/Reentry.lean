import Castle.Mqtt.Framing
import Castle.Mqtt.Client.Run

/-!
# Re-entering the client from its message callback

`receive_bytes` keeps its offset into `rx_` while the callback runs.
-/

namespace Castle.Mqtt

open Net

namespace Client

variable {cfg : ClientConfig} {c : Client cfg}

/-- The calls that set `rx_size_` to 0. -/
def emptiesRx (c : Client cfg) : ApiCall → Bool
  | .forceClose => true
  | .disconnect _ => c.transportOpen
  | .connect options _ => !c.transportOpen && validateConnectOptions cfg options = .ok
  | .poll _ => c.transportOpen && c.fatal
  | _ => false

/-- One of the calls that a callback makes in turn empties the receive buffer. -/
def someEmptiesRx : Client cfg → List ApiCall → Bool
  | _, [] => false
  | c, call :: calls => c.emptiesRx call || (c.runCall call).someEmptiesRx calls

/-- `c'` has the receive buffer of `c`, or an empty one. -/
structure RxAfter (c c' : Client cfg) (emptied : Bool) : Prop where
  rx : c'.rx = c.rx
  rxSize : c'.rxSize = if emptied then 0 else c.rxSize

theorem Talks.rxAfter {c c' : Client cfg} (h : Talks c c') : RxAfter c c' false :=
  ⟨h.rx, h.rxSize⟩

theorem RxAfter.trans {c₁ c₂ c₃ : Client cfg} {e e' : Bool} (h : RxAfter c₁ c₂ e)
    (h' : RxAfter c₂ c₃ e') : RxAfter c₁ c₃ (e || e') := by
  refine ⟨h'.rx.trans h.rx, ?_⟩
  rw [h'.rxSize, h.rxSize]
  cases e <;> cases e' <;> rfl

theorem nestedPoll_rx (c : Client cfg) (now : UInt32) :
    RxAfter c (c.nestedPoll now) (c.transportOpen && c.fatal) := by
  have hbegin : (c.pollBegin now).rx = c.rx ∧ (c.pollBegin now).rxSize = c.rxSize ∧
      (c.pollBegin now).fatal = c.fatal := by
    unfold pollBegin
    dsimp only
    split <;> exact ⟨rfl, rfl, rfl⟩
  obtain ⟨hrx, hsize, hfatal⟩ := hbegin
  unfold nestedPoll
  cases ho : c.transportOpen with
  | false => exact ⟨rfl, rfl⟩
  | true =>
    simp only [Bool.not_true, Bool.false_eq_true, if_false, Bool.true_and]
    unfold pollEnd
    rw [hfatal]
    cases c.fatal with
    | true => exact ⟨hrx, rfl⟩
    | false => exact ⟨hrx, hsize⟩

theorem connectTurn_rx (c : Client cfg) (result : Status) : (c.connectTurn result).2.rx =
    c.rx ∧ ((c.connectTurn result).2.rxSize = 0 ∨ (c.connectTurn result).2.rxSize = c.rxSize) := by
  unfold connectTurn
  split
  · exact ⟨rfl, .inl rfl⟩
  split
  · exact ⟨rfl, .inl rfl⟩
  split
  · exact ⟨rfl, .inl rfl⟩
  · exact ⟨rfl, .inr rfl⟩

/-- `connect` empties the buffer once it has checked its options, and only then goes on
to its receive loop. -/
theorem connectBegin_rx (c : Client cfg) (options : ConnectOptions) (tcp : Status) :
    RxAfter c (c.connectBegin options tcp).2
        (!c.transportOpen && validateConnectOptions cfg options = .ok) ∧
      ((c.connectBegin options tcp).1 = none →
        (!c.transportOpen && validateConnectOptions cfg options = .ok) = true) := by
  unfold connectBegin
  cases ho : c.transportOpen with
  | true => exact ⟨⟨rfl, rfl⟩, fun h => by cases h⟩
  | false =>
    simp only [Bool.false_eq_true, if_false, Bool.not_false, Bool.true_and]
    by_cases hv : validateConnectOptions cfg options = .ok
    · have hstart : (c.startConnecting options).rx = c.rx ∧
          (c.startConnecting options).rxSize = 0 := by
        unfold startConnecting
        dsimp only
        split <;> exact ⟨rfl, rfl⟩
      simp only [hv, ne_eq, not_true_eq_false, if_false, decide_true, implies_true, and_true]
      by_cases htcp : tcp = .ok
      · simp only [htcp, not_true_eq_false, if_false]
        have hsent := (c.startConnecting options).openTransport.sendConnect_sendsOnly.talks
        generalize (c.startConnecting options).openTransport.sendConnect = sent at hsent
        obtain ⟨result, c₁⟩ := sent
        have hrx : c₁.rx = c.rx := hsent.rx.trans hstart.1
        have hsize : c₁.rxSize = 0 := hsent.rxSize.trans hstart.2
        split
        · exact ⟨hrx, rfl⟩
        · exact ⟨hrx, hsize⟩
      · simp only [htcp, not_false_eq_true, if_true]
        exact ⟨hstart.1, hstart.2⟩
    · simp only [hv, ne_eq, not_false_eq_true, if_true, decide_false]
      exact ⟨⟨rfl, rfl⟩, fun h => by cases h⟩

theorem nestedConnect_rx (c : Client cfg) (options : ConnectOptions) (tcp : Status) :
    RxAfter c (c.nestedConnect options tcp)
      (!c.transportOpen && validateConnectOptions cfg options = .ok) := by
  obtain ⟨⟨hrx, hsize⟩, hnone⟩ := c.connectBegin_rx options tcp
  unfold nestedConnect
  split
  next c₁ he =>
    rw [he] at hrx hsize hnone
    have hzero : c₁.rxSize = 0 := by simpa only [hnone rfl, if_true] using hsize
    obtain ⟨hrx₂, hsize₂⟩ := c₁.connectTurn_rx .invalidConfig
    refine ⟨hrx₂.trans hrx, ?_⟩
    rw [hnone rfl, if_pos rfl]
    exact hsize₂.elim id fun h => h.trans hzero
  next status c₁ he =>
    rw [he] at hrx hsize
    exact ⟨hrx, hsize⟩

theorem runCall_rx (c : Client cfg) (call : ApiCall) :
    RxAfter c (c.runCall call) (c.emptiesRx call) := by
  cases call with
  | publish topic payload quality retain => exact (c.publish_talks ..).rxAfter
  | subscribe filters => exact (c.sendRequest_talks ..).rxAfter
  | unsubscribe filters => exact (c.sendRequest_talks ..).rxAfter
  | poll now => exact c.nestedPoll_rx now
  | disconnect reason =>
    have hsent := (c.sendDisconnect_sendsOnly reason).talks
    simp only [runCall, Client.disconnect, emptiesRx]
    cases ho : c.transportOpen with
    | false => exact ⟨rfl, rfl⟩
    | true => exact ⟨hsent.rx, rfl⟩
  | forceClose => exact ⟨rfl, rfl⟩
  | connect options tcp => exact c.nestedConnect_rx options tcp
  | setMessageCallback => exact ⟨rfl, rfl⟩
  | clearMessageCallback => exact ⟨rfl, rfl⟩
  | transportOpen value => exact ⟨rfl, rfl⟩

theorem runCalls_rx (c : Client cfg) (calls : List ApiCall) :
    RxAfter c (calls.foldl runCall c) (c.someEmptiesRx calls) := by
  induction calls generalizing c with
  | nil => exact ⟨rfl, rfl⟩
  | cons call calls ih => exact (c.runCall_rx call).trans (ih _)

/-- The callback empties the receive buffer when it gets this message. -/
def callbackEmptiesRx (c : Client cfg) (message : MessageView) : Bool :=
  c.hasCallback && (c.enterCallback message).someEmptiesRx (c.callbackScript.headD [])

theorem invokeCallback_rx (c : Client cfg) (message : MessageView) :
    RxAfter c (c.invokeCallback message) (c.callbackEmptiesRx message) := by
  unfold invokeCallback callbackEmptiesRx
  cases c.hasCallback with
  | false => exact ⟨rfl, rfl⟩
  | true =>
    have h := runCalls_rx (c.enterCallback message) (c.callbackScript.headD [])
    exact ⟨h.rx, h.rxSize⟩

/-- The message that a PUBLISH gives to the callback. -/
def publishDelivers (c : Client cfg) (packet : PacketView) : Option MessageView :=
  match Qos.ofNat? ((packet.flags >>> 1) &&& 0x03).toNat with
  | none => none
  | some quality =>
    match readPublish cfg c.options.protocolVersion quality ⟨packet.body, .ok⟩ with
    | .error _ => none
    | .ok (topic, identifier, payload) =>
      if quality = .exactlyOnce then none
      else some
        { topic, payload, quality
          duplicate := packet.flags &&& 0x08 ≠ 0
          retain := packet.flags &&& 0x01 ≠ 0
          packetIdentifier := identifier }

/-- The stored message that a PUBREL gives to the callback. -/
def pubrelDelivers (c : Client cfg) (packet : PacketView) : Option MessageView :=
  match readAcknowledgement cfg.properties c.options.protocolVersion ⟨packet.body, .ok⟩ with
  | .error _ => none
  | .ok (identifier, _) =>
    (c.findIncoming identifier).map fun k =>
      { topic := (c.incoming.get k).topic
        payload := (c.incoming.get k).payload
        quality := .exactlyOnce
        retain := (c.incoming.get k).retain
        packetIdentifier := identifier }

def deliveredBy (c : Client cfg) (packet : PacketView) : Option MessageView :=
  match packet.type with
  | .publish => c.publishDelivers packet
  | .pubrel => c.pubrelDelivers packet
  | _ => none

/-- The handler of a message goes on after the callback: there is nothing to
acknowledge, or the socket is open again and takes the acknowledgement. -/
def goesOn (c : Client cfg) (message : MessageView) : Bool :=
  message.quality = .atMostOnce ||
    ((c.invokeCallback message).transportOpen &&
      (c.invokeCallback message).sendResults.headD .ok = .ok)

/-- The packet loop goes on with a buffer that the callback of this packet emptied. -/
def hazard (c : Client cfg) (packet : PacketView) : Bool :=
  match c.deliveredBy packet with
  | none => false
  | some message => c.callbackEmptiesRx message && c.goesOn message

theorem encode_identifier {type : PacketType} (ht : validFixedHeader type 0 = true) (id : UInt16)
    {capacity : ℕ} (hcap : 8 ≤ capacity) : encodePacket type 0 (writeBe16 id) capacity =
    .ok ((UInt8.ofNat (type.code * 16) ||| 0) :: (remainingLengthDigits 4 2 ++ writeBe16 id)) := by
  have hlen : (writeBe16 id).length = 2 := rfl
  have hdigits : (remainingLengthDigits 4 2).length = 1 := rfl
  unfold encodePacket encodeRemainingLength
  rw [if_neg (by simp [ht]), hlen, if_neg (by decide), if_neg (by decide)]
  dsimp only
  rw [hdigits, if_neg (by omega)]

theorem sendIdentifier_ok (c : Client cfg) {type : PacketType} (hr : type ≠ .pubrel)
    (ht : validFixedHeader type 0 = true) (id : UInt16) : (c.sendIdentifier type id false).1 =
    .ok ↔ c.transportOpen = true ∧ c.sendResults.headD .ok = .ok := by
  have hcap := cfg.buffers_ge.2
  unfold sendIdentifier
  simp only [hr, and_false, if_false, PacketWriter.putU16_data hcap]
  unfold sendBody
  rw [encode_identifier ht id hcap]
  dsimp only
  cases c.transportOpen with
  | false => simp
  | true =>
    simp only [Bool.not_true, Bool.false_eq_true, if_false, true_and]
    split
    next hs => exact iff_of_true rfl hs
    next hs => exact iff_of_false hs hs

/-- What a handler does to the receive buffer: it is emptied behind the back of the
packet loop exactly when the packet is a hazard. -/
structure BufferAfter (c : Client cfg) (packet : PacketView) (result : Status × Client cfg) :
    Prop where
  rx : result.2.rx = c.rx
  size_le : result.2.rxSize ≤ c.rxSize
  ok : result.1 = .ok → result.2.rxSize = if c.hazard packet then 0 else c.rxSize
  hazard_ok : c.hazard packet = true → result.1 = .ok

theorem BufferAfter.of_undelivered {packet : PacketView} {result : Status × Client cfg}
    (hd : c.deliveredBy packet = none) (hrx : result.2.rx = c.rx)
    (hsize : result.2.rxSize = c.rxSize) : BufferAfter c packet result := by
  have hh : c.hazard packet = false := by
    unfold hazard
    rw [hd]
  refine ⟨hrx, hsize.le, fun _ => ?_, fun h => ?_⟩
  · rw [hh]
    exact hsize
  · rw [hh] at h
    cases h

theorem BufferAfter.of_delivered {packet : PacketView} {message : MessageView}
    {result : Status × Client cfg} (hd : c.deliveredBy packet = some message)
    (ht : Talks (c.invokeCallback message) result.2)
    (hgo : result.1 = .ok ↔ c.goesOn message = true) : BufferAfter c packet result := by
  obtain ⟨hrx, hsize⟩ := c.invokeCallback_rx message
  have hh : c.hazard packet = (c.callbackEmptiesRx message && c.goesOn message) := by
    unfold hazard
    rw [hd]
  refine ⟨ht.rx.trans hrx, ?_, fun hok => ?_, fun h => ?_⟩
  · rw [ht.rxSize, hsize]
    split
    · exact Nat.zero_le _
    · exact Nat.le_refl _
  · rw [ht.rxSize, hsize, hh, hgo.mp hok, Bool.and_true]
  · rw [hh] at h
    exact hgo.mpr (Bool.and_eq_true_iff.mp h).2

theorem handlePublish_buffer (c : Client cfg) {packet : PacketView}
    (ht : packet.type = .publish) : BufferAfter c packet (c.handlePublish packet) := by
  have hd : c.deliveredBy packet = c.publishDelivers packet := by simp only [deliveredBy, ht]
  unfold publishDelivers at hd
  unfold handlePublish
  split
  next hq =>
    rw [hq] at hd
    exact .of_undelivered hd rfl rfl
  next quality hq =>
  rw [hq] at hd
  dsimp only at hd
  split
  next status he =>
    rw [he] at hd
    exact .of_undelivered hd rfl rfl
  next topic identifier payload he =>
  rw [he] at hd
  dsimp only at hd ⊢
  cases quality with
  | atMostOnce =>
    simp only [reduceCtorEq, if_false] at hd ⊢
    exact .of_delivered hd (.refl _) (by simp [goesOn])
  | atLeastOnce =>
    simp only [reduceCtorEq, if_false, if_true] at hd ⊢
    refine .of_delivered hd (sendIdentifier_sendsOnly ..).talks ?_
    rw [sendIdentifier_ok _ (by decide) (by decide)]
    simp [goesOn]
  | exactlyOnce =>
    simp only [if_true] at hd ⊢
    have hsent (d : Client cfg) : (d.sendIdentifier .pubrec identifier false).2.rx = d.rx ∧
        (d.sendIdentifier .pubrec identifier false).2.rxSize = d.rxSize :=
      ⟨(d.sendIdentifier_sendsOnly ..).talks.rx, (d.sendIdentifier_sendsOnly ..).talks.rxSize⟩
    split
    · exact .of_undelivered hd (hsent c).1 (hsent c).2
    split
    · exact .of_undelivered hd rfl rfl
    · exact .of_undelivered hd (hsent _).1 (hsent _).2

theorem handlePubrel_buffer (c : Client cfg) {packet : PacketView} (ht : packet.type = .pubrel) :
    BufferAfter c packet (c.handlePubrel ⟨packet.body, .ok⟩) := by
  have hd : c.deliveredBy packet = c.pubrelDelivers packet := by simp only [deliveredBy, ht]
  unfold pubrelDelivers at hd
  unfold handlePubrel
  split
  next status he =>
    rw [he] at hd
    exact .of_undelivered hd rfl rfl
  next identifier reason he =>
  rw [he] at hd
  dsimp only at hd ⊢
  split
  next hk =>
    rw [hk, Option.map_none] at hd
    have hsent := (c.sendIdentifier_sendsOnly .pubcomp identifier false).talks
    exact .of_undelivered hd hsent.rx hsent.rxSize
  next k hk =>
    rw [hk, Option.map_some] at hd
    have hrel (d : Client cfg) : Talks d (d.releaseIncoming k) := .tables d _ _ _ _ _ _ _
    refine .of_delivered hd ((hrel _).trans (sendIdentifier_sendsOnly ..).talks) ?_
    rw [sendIdentifier_ok _ (by decide) (by decide)]
    simp [goesOn, releaseIncoming]

theorem handlePacket_buffer (c : Client cfg) (packet : PacketView) :
    BufferAfter c packet (c.handlePacket packet) := by
  by_cases hpub : packet.type = .publish
  · simpa only [handlePacket, hpub] using c.handlePublish_buffer hpub
  by_cases hrel : packet.type = .pubrel
  · simpa only [handlePacket, hrel] using c.handlePubrel_buffer hrel
  have hd : c.deliveredBy packet = none := by
    unfold deliveredBy
    split
    next h => exact absurd h hpub
    next h => exact absurd h hrel
    · rfl
  have hsame : (c.handlePacket packet).2.rx = c.rx ∧
      (c.handlePacket packet).2.rxSize = c.rxSize := by
    cases ht : onlyTalks packet.type with
    | true => exact ⟨(c.handlePacket_talks ht).rx, (c.handlePacket_talks ht).rxSize⟩
    | false =>
      unfold handlePacket
      cases hp : packet.type
      case connack =>
        dsimp only
        unfold handleConnack
        split
        · exact ⟨rfl, rfl⟩
        dsimp only
        split
        · exact ⟨rfl, rfl⟩
        split
        · exact ⟨rfl, rfl⟩
        split <;> exact ⟨rfl, rfl⟩
      case publish => exact absurd hp hpub
      case pubrel => exact absurd hp hrel
      case disconnect =>
        dsimp only
        unfold handleDisconnect
        split
        · exact ⟨rfl, rfl⟩
        dsimp only
        split <;> exact ⟨rfl, rfl⟩
      all_goals
        rw [hp] at ht
        cases ht
  exact .of_undelivered hd hsame.1 hsame.2

abbrev rxCapacity (cfg : ClientConfig) : ℕ := cfg.maxPacketSize + cfg.receiveBufferSize

/-- The packets of a stream, each with the client that meets it, up to one that is
refused. -/
def replay : ℕ → Client cfg → Bytes → List (Client cfg × PacketView)
  | 0, _, _ => []
  | fuel + 1, c, stream =>
    match inspectPacket stream cfg.maxPacketSize with
    | .error _ => []
    | .ok packet =>
      let (status, c') := c.handlePacket packet
      (c, packet) :: if status = .ok then
        replay fuel { c' with lastRxMs := c'.nowMs } (stream.drop packet.packetSize) else []

def SomeHazard (packets : List (Client cfg × PacketView)) : Prop :=
  ∃ q ∈ packets, q.1.hazard q.2 = true

theorem someHazard_cons {c : Client cfg} {packet : PacketView}
    {packets : List (Client cfg × PacketView)} :
    SomeHazard ((c, packet) :: packets) ↔ c.hazard packet = true ∨ SomeHazard packets := by
  simp [SomeHazard]

theorem not_someHazard_nil : ¬SomeHazard ([] : List (Client cfg × PacketView)) := by
  simp [SomeHazard]

/-- The offset at which the packet loop stopped lies behind the buffered bytes. -/
def Overran (stop : Option ℕ) (c : Client cfg) : Prop := ∃ n, stop = some n ∧ c.rxSize < n

theorem rxFrom_length (hsize : c.rxSize ≤ rxCapacity cfg) (consumed : ℕ) :
    (c.rxFrom consumed).length = c.rxSize - consumed := by
  have hcells : c.rx.cells.length = rxCapacity cfg := c.rx.size_eq
  unfold rxFrom
  rw [List.length_drop, List.length_take, hcells]
  omega

theorem replay_end (fuel : ℕ) (c : Client cfg) : replay fuel c [] = [] := by
  cases fuel with
  | zero => rfl
  | succ fuel =>
    have hcap := cfg.buffers_ge.2
    unfold replay inspectPacket
    rw [if_neg (by omega)]

theorem receiveLoop_end (fuel : ℕ) (c : Client cfg) {consumed : ℕ} (h : c.rxSize ≤ consumed) :
    receiveLoop fuel c consumed = .ok (some consumed, c, []) := by
  cases fuel with
  | zero =>
    unfold receiveLoop
    rw [if_pos h]
  | succ fuel =>
    unfold receiveLoop
    rw [if_pos h]

/-- The packet loop stops within the buffer, and behind its bytes exactly when a packet
was a hazard. -/
theorem receiveLoop_overran {fuel consumed : ℕ} (hsize : c.rxSize ≤ rxCapacity cfg)
    (hc : consumed ≤ c.rxSize) (hf : c.rxSize - consumed ≤ fuel) :
    ∃ stop c' handed, receiveLoop fuel c consumed = .ok (stop, c', handed) ∧ c'.rxSize ≤
    rxCapacity cfg ∧ (Overran stop c' ↔ SomeHazard (replay fuel c (c.rxFrom consumed))) := by
  have hin {n : ℕ} {d : Client cfg} (h : n ≤ d.rxSize) : ¬Overran (some n) d := by
    rintro ⟨m, hm, hlt⟩
    cases hm
    omega
  have hnone {d : Client cfg} : ¬Overran none d := by
    rintro ⟨m, hm, -⟩
    cases hm
  induction fuel generalizing c consumed with
  | zero =>
    refine ⟨_, _, _, receiveLoop_end 0 c (by omega), hsize, iff_of_false (hin hc) ?_⟩
    exact not_someHazard_nil
  | succ fuel ih =>
    by_cases hend : c.rxSize ≤ consumed
    · have hnil : c.rxFrom consumed = [] := by
        apply List.eq_nil_of_length_eq_zero
        rw [rxFrom_length hsize]
        omega
      refine ⟨_, _, _, receiveLoop_end _ c hend, hsize, iff_of_false (hin hc) ?_⟩
      rw [hnil, replay_end]
      exact not_someHazard_nil
    have hin' : ¬cfg.maxPacketSize + cfg.receiveBufferSize < c.rxSize := Nat.not_lt.mpr hsize
    unfold receiveLoop replay
    rw [if_neg hend, if_neg hin']
    cases hi : inspectPacket (c.rxFrom consumed) cfg.maxPacketSize with
    | error status =>
      by_cases hempty : status = .empty
      · subst hempty
        exact ⟨_, _, _, rfl, hsize, iff_of_false (hin hc) not_someHazard_nil⟩
      · refine ⟨none, c.setFatal status, [], ?_, hsize, iff_of_false hnone not_someHazard_nil⟩
        split
        next h => exact absurd (Except.error.inj h) hempty
        next h => rw [Except.error.inj h]
        next h => cases h
    | ok packet =>
      obtain ⟨hmin, hlen, -⟩ := inspectPacket_ok hi
      rw [rxFrom_length hsize] at hlen
      have hb := c.handlePacket_buffer packet
      rcases hres : c.handlePacket packet with ⟨status, c₁⟩
      rw [hres] at hb
      dsimp only
      rw [hres]
      obtain ⟨hrx, hle, hok, hhok⟩ := hb
      dsimp only at hrx hle hok hhok ⊢
      by_cases hs : status = .ok
      · subst hs
        simp only [if_true, someHazard_cons]
        generalize hnext : ({ c₁ with lastRxMs := c₁.nowMs } : Client cfg) = next
        have hnrx : next.rx = c.rx := hnext ▸ hrx
        have hnsize : next.rxSize = if c.hazard packet then 0 else c.rxSize := hnext ▸ hok rfl
        cases hh : c.hazard packet with
        | true =>
          -- the callback emptied the buffer: the loop ends behind it
          have hzero : next.rxSize = 0 := by simpa [hh] using hnsize
          rw [receiveLoop_end fuel next (by omega)]
          refine ⟨_, _, _, rfl, by omega, iff_of_true ⟨_, rfl, ?_⟩ (.inl rfl)⟩
          omega
        | false =>
          have hsame : next.rxSize = c.rxSize := by simpa [hh] using hnsize
          have hrest : (c.rxFrom consumed).drop packet.packetSize =
              next.rxFrom (consumed + packet.packetSize) := by
            unfold rxFrom
            rw [hnrx, hsame, List.drop_drop]
          obtain ⟨stop, c₂, handed, hloop, hsize₂, hiff⟩ :=
            @ih next (consumed + packet.packetSize) (by omega) (by omega)
              (by omega)
          rw [hloop, hrest]
          refine ⟨stop, c₂, _, rfl, hsize₂, ?_⟩
          simpa using hiff
      · have hh : c.hazard packet = false := by
          by_contra hh
          exact hs (hhok (by simpa using hh))
        refine ⟨none, c₁.setFatal status, [(c, packet)], ?_, hle.trans hsize, iff_of_false hnone ?_⟩
        · split
          next h => exact absurd (Prod.mk.inj h).1 hs
          next h =>
            obtain ⟨rfl, rfl⟩ := Prod.mk.inj h
            rfl
        · rw [if_neg hs, someHazard_cons, hh]
          simp [not_someHazard_nil]

theorem pushRx_room {data : Bytes} (h : c.rxSize + data.length ≤ rxCapacity cfg) :
    ∃ c', data.foldlM pushRx c = .ok c' ∧ c'.rxSize = c.rxSize + data.length := by
  induction data generalizing c with
  | nil => exact ⟨c, rfl, rfl⟩
  | cons value data ih =>
    rw [List.length_cons] at h
    have hlt : c.rxSize < rxCapacity cfg := by omega
    have hpush : c.pushRx value =
        .ok { c with rx := c.rx.set ⟨c.rxSize, hlt⟩ value, rxSize := c.rxSize + 1 } := dif_pos hlt
    obtain ⟨c', hc', hsize⟩ := ih
      (c := { c with rx := c.rx.set ⟨c.rxSize, hlt⟩ value, rxSize := c.rxSize + 1 })
      (by dsimp only; omega)
    refine ⟨c', ?_, by rw [hsize, List.length_cons]; dsimp only; omega⟩
    rw [List.foldlM_cons, hpush]
    exact hc'

theorem compactRx_underflow {consumed : ℕ} (h : c.rxSize < consumed) :
    c.compactRx consumed = .error .rxUnderflow := by
  unfold compactRx
  rw [if_pos h]

theorem compactRx_ok (hsize : c.rxSize ≤ rxCapacity cfg) {consumed : ℕ} (h : consumed ≤ c.rxSize) :
    ∃ c', c.compactRx consumed = .ok c' ∧ c'.rxSize ≤ rxCapacity cfg := by
  unfold compactRx
  rw [if_neg (by omega), if_neg (Nat.not_lt.mpr hsize)]
  exact ⟨_, rfl, (Nat.sub_le _ _).trans hsize⟩

/-- The packets that `receive_bytes` handles, each with the client that meets it. -/
def handledPackets (c : Client cfg) (data : Bytes) : List (Client cfg × PacketView) :=
  if c.fatal || rxCapacity cfg - c.rxSize < data.length then []
  else
    match data.foldlM pushRx c with
    | .error _ => []
    | .ok c => replay c.rxSize c (c.rxFrom 0)

/-- `receive_bytes` returns, with a receive buffer within its bounds. -/
def ReceivesSafely (c : Client cfg) (data : Bytes) : Prop :=
  ∃ c' handed, c.receiveBytes data = .ok (c', handed) ∧ c'.rxSize ≤ rxCapacity cfg

theorem receiveBytes_safe_iff (hsize : c.rxSize ≤ rxCapacity cfg) (data : Bytes) :
    c.ReceivesSafely data ↔ ¬SomeHazard (c.handledPackets data) := by
  unfold ReceivesSafely receiveBytes handledPackets
  by_cases hskip : (c.fatal || rxCapacity cfg - c.rxSize < data.length) = true
  · rw [if_pos hskip, if_pos hskip]
    exact iff_of_true ⟨_, _, rfl, hsize⟩ not_someHazard_nil
  rw [if_neg hskip, if_neg hskip]
  have hroom : c.rxSize + data.length ≤ rxCapacity cfg := by
    have hlen : ¬rxCapacity cfg - c.rxSize < data.length := by simp_all
    omega
  obtain ⟨c₁, hpush, hsize₁⟩ := pushRx_room hroom
  obtain ⟨stop, c₂, handed, hloop, hsize₂, hiff⟩ :=
    @receiveLoop_overran _ c₁ c₁.rxSize 0 (by omega) (by omega)
      (by omega)
  rw [hpush]
  dsimp only
  rw [← hiff]
  simp only [bind, Except.bind, hloop]
  match stop with
  | none => exact iff_of_true ⟨_, _, rfl, hsize₂⟩ (by rintro ⟨n, hn, -⟩; cases hn)
  | some 0 => exact iff_of_true ⟨_, _, rfl, hsize₂⟩ (by rintro ⟨n, hn, hlt⟩; cases hn; omega)
  | some (n + 1) =>
    show (∃ c' handed', (c₂.compactRx (n + 1) >>= fun c => .ok (c, handed)) =
      .ok (c', handed') ∧ _) ↔ _
    by_cases hover : c₂.rxSize < n + 1
    · rw [compactRx_underflow hover]
      refine iff_of_false ?_ (not_not.mpr ⟨n + 1, rfl, hover⟩)
      rintro ⟨c', handed', he, -⟩
      cases he
    · obtain ⟨c₃, hc₃, hsize₃⟩ := compactRx_ok hsize₂ (by omega : n + 1 ≤ c₂.rxSize)
      rw [hc₃]
      refine iff_of_true ⟨_, _, rfl, hsize₃⟩ ?_
      rintro ⟨m, hm, hlt⟩
      cases hm
      exact hover hlt

theorem RxAfter.size_le {c c' : Client cfg} {emptied : Bool} (h : RxAfter c c' emptied) :
    c'.rxSize ≤ c.rxSize := by
  rw [h.rxSize]
  split
  · exact Nat.zero_le _
  · exact Nat.le_refl _

theorem checkKeepAlive_size (c : Client cfg) (result : Status) :
    (c.checkKeepAlive result).2.rxSize ≤ c.rxSize := by
  unfold checkKeepAlive
  dsimp only
  split
  · split
    · have hping := (c.sendBody_sendsOnly .pingreq 0 []).talks
      generalize c.sendBody .pingreq 0 [] = r at hping ⊢
      obtain ⟨ping, c₁⟩ := r
      dsimp only at hping ⊢
      split <;> exact hping.rxSize.le
    split
    · exact Nat.zero_le _
    · exact Nat.le_refl _
  · exact Nat.le_refl _

theorem pollEnd_size (c : Client cfg) (result : Status) :
    (c.pollEnd result).2.rxSize ≤ c.rxSize := by
  unfold pollEnd
  split
  · exact Nat.zero_le _
  split
  · exact Nat.le_refl _
  split
  · exact Nat.le_refl _
  · exact c.checkKeepAlive_size _

theorem connectEnd_size (c : Client cfg) (options : ConnectOptions) :
    (c.connectEnd options).2.rxSize ≤ c.rxSize := by
  unfold connectEnd
  split
  · exact Nat.zero_le _
  split
  · exact c.resendOutgoing_sendsOnly.talks.rxSize.le
  · exact Nat.le_refl _

theorem connectTurn_size (c : Client cfg) (result : Status) :
    (c.connectTurn result).2.rxSize ≤ c.rxSize := by
  obtain ⟨-, h | h⟩ := c.connectTurn_rx result
  · rw [h]
    exact Nat.zero_le _
  · exact h.le

theorem bounded_kept :
    @Kept cfg (fun c => c.rxSize ≤ rxCapacity cfg) fun _ _ => True where
  receives := by
    rintro c c' ⟨_, _, _, _, _, rfl, hle⟩ h
    exact hle h
  handlePacket c packet h _ := (c.handlePacket_buffer packet).size_le.trans h
  connectBegin c options tcp h := (c.connectBegin_rx options tcp).1.size_le.trans h
  connectTurn c result h := (c.connectTurn_size result).trans h
  connectEnd c options h := (c.connectEnd_size options).trans h
  pollBegin c now h := by
    unfold pollBegin
    dsimp only
    split <;> exact h
  pollEnd c result h := (c.pollEnd_size result).trans h
  runCall c call h := (c.runCall_rx call).size_le.trans h
  callback _ _ h := h

theorem Reachable.bounded (h : Reachable c) : c.rxSize ≤ rxCapacity cfg := by
  induction h with
  | initial => exact Nat.zero_le _
  | call _ hr ih => exact bounded_kept.call hr ih fun _ _ => trivial
  | receives _ hr ih => exact bounded_kept.receives _ _ hr ih
  | handlePacket packet _ ih => exact bounded_kept.handlePacket _ packet ih trivial
  | callback message _ _ ih => exact (runCalls_rx _ _).size_le.trans ih

/-- Whatever arrives at a reachable client and whatever its callback does,
`receive_bytes` returns with a receive buffer within its bounds exactly when no packet
it handles is a hazard. -/
theorem receive_bytes_safe_iff (h : Reachable c) (data : Bytes) :
    c.ReceivesSafely data ↔ ∀ q ∈ c.handledPackets data, q.1.hazard q.2 = false := by
  rw [receiveBytes_safe_iff h.bounded data]
  simp [SomeHazard]

/-- A callback that closes the client on a QoS 1 message: the PUBACK is not sent, and
`receive_bytes` returns before it looks at the buffer again. -/
theorem receive_bytes_safe_iff_forceClose : ∃ c : Client smallClient, c.connected =
    true ∧ c.ReceivesSafely [0x32, 6, 0, 1, 0x74, 0, 1, 0x78, 0xD0, 0] := by
  have hrun : (((initial [] [[.forceClose]] : Client smallClient).runCalls [.setMessageCallback,
      .connect {} .ok [.data [0x20, 2, 0, 0]]]).toOption.map fun r =>
        (r.1.connected, (r.1.handledPackets [0x32, 6, 0, 1, 0x74, 0, 1, 0x78, 0xD0, 0]).map
          fun q => q.1.hazard q.2)) = some (true, [false]) := by decide
  cases hr : (initial [] [[.forceClose]] : Client smallClient).runCalls [.setMessageCallback,
      .connect {} .ok [.data [0x20, 2, 0, 0]]] with
  | error fault =>
    rw [hr] at hrun
    cases hrun
  | ok r =>
    rw [hr] at hrun
    obtain ⟨c, handed⟩ := r
    obtain ⟨hconn, hall⟩ := Prod.mk.inj (Option.some.inj hrun)
    have hreach : Reachable c := (Reachable.initial [] [[.forceClose]]).runCalls hr
    refine ⟨c, hconn, (receive_bytes_safe_iff hreach _).mpr fun q hq => ?_⟩
    have hmem := List.mem_map_of_mem (f := fun q => q.1.hazard q.2) hq
    rw [hall] at hmem
    exact List.mem_singleton.mp hmem

/-- A callback that closes the client on a QoS 0 message: the bytes that are left are
counted below zero. -/
theorem force_close_underflows :
    (initial [] [[.forceClose]] : Client smallClient).runCalls [.setMessageCallback,
        .connect {} .ok [.data [0x20, 2, 0, 0]],
        .poll 1 (.data [0x30, 4, 0, 1, 0x74, 0x78])] = .error .rxUnderflow := by
  decide

end Client
end Castle.Mqtt
