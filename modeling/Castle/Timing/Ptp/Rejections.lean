import Castle.Timing.Ptp.Provenance

/-!
# Packets that are refused

A timestamp that is not valid is never read, and of an exchange that is not pending nothing is.
-/

namespace Castle.Timing.Ptp

/-- What a caller sees of a call -/
structure Observation where
  status : Status
  action : SlaveAction
  pending : Bool
  lastMeasurement : Measurement
  deriving DecidableEq

namespace Slave

/-- What a caller sees of the calls that come next -/
def future (s : Slave) : List Call → List Observation
  | [] => []
  | call :: calls =>
    let outcome := (s.step call).value
    ⟨outcome.status, outcome.action, outcome.slave.pending, outcome.slave.lastMeasurement⟩ ::
      outcome.slave.future calls

/-- Neither the accessors nor any calls tell the slaves apart. -/
structure Indistinguishable (s s' : Slave) : Prop where
  localPort : s.localPort = s'.localPort
  domainNumber : s.config.domainNumber = s'.config.domainNumber
  pending : s.pending = s'.pending
  lastMeasurement : s.lastMeasurement = s'.lastMeasurement
  future : ∀ calls, s.future calls = s'.future calls

/-- A refusal that is not one of `try_complete` -/
def Rejects (s : Slave) (call : Call) : Prop :=
  ∃ outcome, s.handle call = .error outcome ∧ (outcome.status = .notFound ∨ outcome.status = .invalidArgument)

/-- The call brings a one-step Sync without a valid timestamp while an exchange is pending. -/
def drops (s : Slave) (call : Call) : Bool :=
  s.pending && (s.admitted call).any fun message =>
    message.is .sync && !message.header.isTwoStep && !(readMessageTimestamp message s.t1).1

/-- The slaves differ in nothing that is read. -/
inductive Alike (s : Slave) : Slave → Prop
  | pending (t1 t3 t4 : Timestamp) (h1 : s.t1Valid = true → t1 = s.t1) (h3 : s.t3Valid = true → t3 = s.t3)
      (h4 : s.t4Valid = true → t4 = s.t4) : Alike s { s with t1 := t1, t3 := t3, t4 := t4 }
  | idle {s' : Slave} (hport : s.localPort = s'.localPort) (hconfig : s.config = s'.config)
      (hnext : s.nextDelaySequence = s'.nextDelaySequence) (hlast : s.lastMeasurement = s'.lastMeasurement)
      (h : s.pending = false) (h' : s'.pending = false) : Alike s s'

/-- Two ways to go on that only differ in slaves that are alike -/
inductive Consumed : Except Outcome (SlaveAction × Slave) → Except Outcome (SlaveAction × Slave) → Prop
  | error {s s' : Slave} {status : Status} {action : SlaveAction} (h : Alike s s') :
      Consumed (.error ⟨status, action, s⟩) (.error ⟨status, action, s'⟩)
  | ok {held held' : Slave} {action : SlaveAction} (h : Alike held held') :
      Consumed (.ok (action, held)) (.ok (action, held'))

variable {s s' held held' : Slave}

theorem Alike.refl (s : Slave) : Alike s s := .pending s.t1 s.t3 s.t4 (fun _ => rfl) (fun _ => rfl) fun _ => rfl

theorem Alike.kept (h : Alike s s') : s.localPort = s'.localPort ∧ s.config = s'.config ∧
    s.nextDelaySequence = s'.nextDelaySequence ∧ s.lastMeasurement = s'.lastMeasurement ∧ s.pending = s'.pending := by
  cases h with
  | pending => exact ⟨rfl, rfl, rfl, rfl, rfl⟩
  | idle hport hconfig hnext hlast h h' => exact ⟨hport, hconfig, hnext, hlast, h.trans h'.symm⟩

theorem tryComplete_incomplete (h : held.complete = false) (action : SlaveAction) :
    held.tryComplete action = pure ⟨.ok, action, held⟩ := by
  rw [Slave.tryComplete, h]
  rfl

theorem Alike.tryComplete (h : Alike held held') (action : SlaveAction) :
    ∃ status action' s s', (held.tryComplete action).value = ⟨status, action', s⟩ ∧
      (held'.tryComplete action).value = ⟨status, action', s'⟩ ∧ Alike s s' := by
  cases h with
  | pending t1 t3 t4 h1 h3 h4 =>
    cases hcomplete : held.complete with
    | false =>
      refine ⟨.ok, action, held, _, ?_, ?_, .pending t1 t3 t4 h1 h3 h4⟩
      · rw [tryComplete_incomplete hcomplete]
        rfl
      · rw [tryComplete_incomplete]
        · rfl
        · exact hcomplete
    | true =>
      simp only [complete, Bool.and_eq_true] at hcomplete
      rw [h1 hcomplete.1.1.1.2, h3 hcomplete.1.2, h4 hcomplete.2]
      exact ⟨_, _, _, _, rfl, rfl, .refl _⟩
  | idle hport hconfig hnext hlast h h' =>
    rw [tryComplete_incomplete (by rw [complete, h]; rfl), tryComplete_incomplete (by rw [complete, h']; rfl)]
    exact ⟨.ok, action, held, held', rfl, rfl, .idle hport hconfig hnext hlast h h'⟩

theorem readMessageTimestamp_cases (message : MessageView) :
    (∀ output, readMessageTimestamp message output = (false, output)) ∨
      ∃ read, ∀ output, readMessageTimestamp message output = read := by
  unfold readMessageTimestamp
  split
  · exact Or.inr ⟨_, fun _ => rfl⟩
  · exact Or.inl fun _ => rfl

theorem Alike.consumeSync (h : Alike s s') (message : MessageView) (received : Timestamp) :
    Consumed (s.consumeSync message received {}) (s'.consumeSync message received {}) := by
  obtain ⟨hport, hconfig, hnext, hlast, -⟩ := h.kept
  obtain ⟨bytes, hbytes⟩ := encodeDelayRequest_fits s.config.domainNumber s.localPort s.nextDelaySequence
    s.config.transportSpecific
  cases s
  cases s'
  dsimp only at hport hconfig hnext hlast hbytes
  subst hport hconfig hnext hlast
  rw [Slave.consumeSync, Slave.consumeSync]
  split_ifs with htwo
  · simp only [requestDelay, Slave.start, hbytes]
    exact .ok (.pending _ _ _ (fun hvalid => absurd hvalid Bool.false_ne_true)
      (fun hvalid => absurd hvalid Bool.false_ne_true) fun hvalid => absurd hvalid Bool.false_ne_true)
  · obtain hread | ⟨⟨_ | _, t⟩, hread⟩ := readMessageTimestamp_cases message
    · rw [hread, hread]
      exact .error (.idle rfl rfl rfl rfl rfl rfl)
    · rw [hread, hread]
      exact .error (.idle rfl rfl rfl rfl rfl rfl)
    · simp only [hread, requestDelay, Slave.start, hbytes]
      exact .ok (.pending _ _ _ (fun _ => rfl) (fun hvalid => absurd hvalid Bool.false_ne_true)
        fun hvalid => absurd hvalid Bool.false_ne_true)

theorem Alike.consumeFollowUp (h : Alike s s') (message : MessageView) :
    Consumed (s.consumeFollowUp message {}) (s'.consumeFollowUp message {}) := by
  cases h with
  | pending t1 t3 t4 h1 h3 h4 =>
    rw [Slave.consumeFollowUp, Slave.consumeFollowUp]
    dsimp only
    split_ifs
    · exact .error (.pending t1 t3 t4 h1 h3 h4)
    · obtain hread | ⟨⟨_ | _, t⟩, hread⟩ := readMessageTimestamp_cases message
      · rw [hread, hread]
        exact .error (.pending t1 t3 t4 h1 h3 h4)
      · rw [hread, hread]
        exact .error (.pending t t3 t4 (fun _ => rfl) h3 h4)
      · rw [hread, hread]
        exact .ok (.pending t t3 t4 (fun _ => rfl) h3 h4)
  | idle hport hconfig hnext hlast h h' =>
    rw [Slave.consumeFollowUp, Slave.consumeFollowUp, h, h']
    exact .error (.idle hport hconfig hnext hlast h h')

theorem Alike.consumeDelayResponse (h : Alike s s') (message : MessageView) :
    Consumed (s.consumeDelayResponse message {}) (s'.consumeDelayResponse message {}) := by
  cases h with
  | pending t1 t3 t4 h1 h3 h4 =>
    rw [Slave.consumeDelayResponse, Slave.consumeDelayResponse]
    dsimp only
    split_ifs
    · exact .error (.pending t1 t3 t4 h1 h3 h4)
    · exact .error (.pending t1 t3 t4 h1 h3 h4)
    · exact .error (.pending t1 t3 t4 h1 h3 h4)
    · rcases readTimestamp message.payload with ⟨_ | _, t⟩
      · exact .error (.pending t1 t3 t h1 h3 fun _ => rfl)
      · exact .ok (.pending t1 t3 t h1 h3 fun _ => rfl)
  | idle hport hconfig hnext hlast h h' =>
    rw [Slave.consumeDelayResponse, Slave.consumeDelayResponse, h, h']
    exact .error (.idle hport hconfig hnext hlast h h')

theorem Alike.handle (h : Alike s s') (call : Call) : Consumed (s.handle call) (s'.handle call) := by
  cases call with
  | receive packet received =>
    have haccepts : ∀ header, s.accepts header = s'.accepts header := fun header => by
      rw [accepts, accepts, h.kept.2.1]
    rw [Slave.handle, Slave.handle, receive, receive]
    split_ifs
    · exact .error h
    · cases decodeMessage packet with
      | none => exact .error h
      | some message =>
        dsimp only
        rw [← haccepts]
        split_ifs
        · exact .error h
        · cases message.header.type with
          | sync => exact h.consumeSync message received
          | followUp => exact h.consumeFollowUp message
          | delayResponse => exact h.consumeDelayResponse message
          | _ => exact .error h
  | delayRequestTransmitted time =>
    rw [Slave.handle, Slave.handle, delayRequestTransmitted, delayRequestTransmitted, ← h.kept.2.2.2.2]
    split_ifs with hpending
    · exact .error h
    · exact .error h
    · cases h with
      | pending t1 t3 t4 h1 h3 h4 => exact .ok (.pending t1 time t4 h1 (fun _ => rfl) h4)
      | idle _ _ _ _ h h' => exact absurd (congrArg not h) hpending
  | reset =>
    obtain ⟨hport, hconfig, hnext, -, -⟩ := h.kept
    exact .error (.idle hport hconfig hnext rfl rfl rfl)

theorem Alike.future (h : Alike s s') (calls : List Call) : s.future calls = s'.future calls := by
  induction calls generalizing s s' with
  | nil => rfl
  | cons call calls ih =>
    obtain ⟨status, action, t, t', ht, ht', halike⟩ : ∃ status action t t', (s.step call).value = ⟨status, action, t⟩ ∧
        (s'.step call).value = ⟨status, action, t'⟩ ∧ Alike t t' := by
      rw [Slave.step, Slave.step]
      generalize hc : s.handle call = c
      generalize hc' : s'.handle call = c'
      have hconsumed : Consumed c c' := hc ▸ hc' ▸ h.handle call
      cases hconsumed with
      | error h => exact ⟨_, _, _, _, rfl, rfl, h⟩
      | ok h => exact h.tryComplete _
    rw [Slave.future, Slave.future, ht, ht']
    dsimp only
    rw [halike.kept.2.2.2.1, halike.kept.2.2.2.2, ih halike]

theorem Alike.indistinguishable (h : Alike s s') : s.Indistinguishable s' where
  localPort := h.kept.1
  domainNumber := congrArg SlaveConfig.domainNumber h.kept.2.1
  pending := h.kept.2.2.2.2
  lastMeasurement := h.kept.2.2.2.1
  future := h.future

/-- Without a Follow_Up that has been waited for there is no timestamp that it would bring. -/
def AwaitsTimestamp (s : Slave) : Prop := s.pending = true → s.awaitingFollowUp = true → s.t1Valid = false

theorem awaitsTimestamp_step (h : s.AwaitsTimestamp) (call : Call) : (s.step call).value.slave.AwaitsTimestamp := by
  have hok : ∀ {action held}, AwaitsTimestamp held → (held.tryComplete action).value.slave.AwaitsTimestamp := by
    intro action held hheld
    obtain ⟨-, heq⟩ | ⟨-, status, -, heq⟩ | ⟨-, sample, -, -, -, hpending, -⟩ := held.tryComplete_cases action
    · rw [heq]
      exact hheld
    · rw [heq]
      exact fun hpending => absurd hpending Bool.false_ne_true
    · exact fun hpending' => absurd (hpending.symm.trans hpending') Bool.false_ne_true
  rw [Slave.step]
  generalize hc : s.handle call = c
  have hhandled : Handled s call c := hc ▸ s.handled call
  cases hhandled with
  | refused | badFollowUp | badResponse => exact h
  | reset => exact fun hpending => absurd hpending Bool.false_ne_true
  | dropped _ hpending => exact fun hpending' => absurd (hpending.symm.trans hpending') Bool.false_ne_true
  | sync => exact hok fun _ htwo => congrArg not htwo
  | followUp => exact hok fun _ hawait => absurd hawait Bool.false_ne_true
  | response => exact hok h
  | transmitted => exact hok h

theorem awaitsTimestamp_after (localPort : PortIdentity) (config : SlaveConfig) (calls : List Call) :
    ((init localPort config).after calls).AwaitsTimestamp := by
  induction calls using List.reverseRecOn with
  | nil => exact fun hpending => absurd hpending Bool.false_ne_true
  | append_singleton calls call ih =>
    rw [after_snoc]
    exact awaitsTimestamp_step ih call

variable {outcome : Outcome} {message : MessageView} {received : Timestamp}

theorem alike_of_consumeSync {packet : Bytes} (h : s.consumeSync message received {} = .error outcome)
    (hadmitted : s.admitted (.receive packet received) = some message) (htype : message.header.type = .sync)
    (hdrops : s.drops (.receive packet received) = false) : Alike s outcome.slave := by
  obtain ⟨bytes, hbytes⟩ := encodeDelayRequest_fits s.config.domainNumber s.localPort s.nextDelaySequence
    s.config.transportSpecific
  rw [consumeSync] at h
  split_ifs at h with htwo
  · simp only [requestDelay, start, hbytes] at h
    cases h
  · rcases hread : readMessageTimestamp message s.t1 with ⟨_ | _, t⟩
    · rw [show (s.start message received).t1 = s.t1 from rfl, hread] at h
      cases h
      refine .idle rfl rfl rfl rfl ?_ rfl
      simpa [drops, hadmitted, MessageView.is, htype, htwo, hread] using hdrops
    · simp only [start, hread, requestDelay, hbytes] at h
      cases h

theorem alike_of_consumeFollowUp (h : s.consumeFollowUp message {} = .error outcome) (hs : s.AwaitsTimestamp) :
    Alike s outcome.slave := by
  rw [consumeFollowUp] at h
  split_ifs at h with hmatch
  · cases h
    exact .refl s
  · simp only [Bool.or_eq_true, Bool.not_eq_true', not_or, Bool.not_eq_false] at hmatch
    rcases hread : readMessageTimestamp message s.t1 with ⟨_ | _, t⟩
    · rw [hread] at h
      cases h
      exact .pending t s.t3 s.t4
        (fun hvalid => absurd ((hs hmatch.1.1.1 hmatch.1.1.2).symm.trans hvalid) Bool.false_ne_true)
        (fun _ => rfl) fun _ => rfl
    · rw [hread] at h
      cases h

theorem alike_of_consumeDelayResponse {packet : Bytes} (h : s.consumeDelayResponse message {} = .error outcome)
    (hadmitted : s.admitted (.receive packet received) = some message)
    (htype : message.header.type = .delayResponse) (hspoils : s.spoils (.receive packet received) = false) :
    Alike s outcome.slave := by
  rw [consumeDelayResponse] at h
  split_ifs at h with hmatch hshort hrequesting
  · cases h
    exact .refl s
  · cases h
    exact .refl s
  · cases h
    exact .refl s
  · rcases hread : readTimestamp message.payload with ⟨_ | _, t⟩
    · rw [hread] at h
      cases h
      refine .pending s.t1 s.t3 t (fun _ => rfl) (fun _ => rfl) fun hvalid => absurd hspoils ?_
      simp only [Bool.or_eq_true, Bool.not_eq_true', bne_iff_ne, not_or, Bool.not_eq_false, not_not] at hmatch hrequesting
      simp [spoils, hvalid, hadmitted, MessageView.is, htype, answers, hmatch, hrequesting, hread, not_lt.mp hshort]
    · rw [hread] at h
      cases h

theorem alike_of_rejects {call : Call} (h : s.handle call = .error outcome) (hok : outcome.status ≠ .ok)
    (hs : s.AwaitsTimestamp) (hdrops : s.drops call = false) (hspoils : s.spoils call = false) :
    Alike s outcome.slave := by
  cases call with
  | receive packet received =>
    rw [handle, receive] at h
    split_ifs at h with hreceived
    · cases h
      exact .refl s
    · rw [Bool.not_eq_true', Bool.not_eq_false] at hreceived
      cases hdecode : decodeMessage packet with
      | none =>
        rw [hdecode] at h
        cases h
        exact .refl s
      | some message =>
        rw [hdecode] at h
        dsimp only at h
        split_ifs at h with haccepts
        · cases h
          exact .refl s
        · rw [Bool.not_eq_true', Bool.not_eq_false] at haccepts
          have hadmitted := admitted_eq hreceived hdecode haccepts
          cases htype : message.header.type with
          | sync =>
            rw [htype] at h
            exact alike_of_consumeSync h hadmitted htype hdrops
          | followUp =>
            rw [htype] at h
            exact alike_of_consumeFollowUp h hs
          | delayResponse =>
            rw [htype] at h
            exact alike_of_consumeDelayResponse h hadmitted htype hspoils
          | _ =>
            rw [htype] at h
            cases h
            exact .refl s
  | delayRequestTransmitted time =>
    rw [handle, delayRequestTransmitted] at h
    split_ifs at h <;> cases h <;> exact .refl s
  | reset =>
    cases h
    exact absurd rfl hok

/-- In every run, a packet that is refused leaves no trace, unless it is a one-step Sync without a
valid timestamp while an exchange is pending, or a Delay_Resp without one where one is held. -/
theorem rejects_without_trace (localPort : PortIdentity) (config : SlaveConfig) (calls : List Call)
    (h : AtEach calls fun before call => Rejects ((init localPort config).after before) call →
      ((init localPort config).after before).drops call = false ∧
        ((init localPort config).after before).spoils call = false) :
    AtEach calls fun before call => Rejects ((init localPort config).after before) call →
      Indistinguishable ((init localPort config).after before)
        ((init localPort config).after (before ++ [call])) := by
  intro before call hb hrejects
  obtain ⟨hdrops, hspoils⟩ := h before call hb hrejects
  obtain ⟨outcome, houtcome, hstatus⟩ := hrejects
  rw [after_snoc, step_error houtcome]
  refine (alike_of_rejects houtcome (fun hok => ?_) (awaitsTimestamp_after _ _ _) hdrops hspoils).indistinguishable
  rw [hok] at hstatus
  cases hstatus <;> contradiction

/-- A two-step Sync, and a Follow_Up with another number -/
def strayRun : List Call :=
  [.receive (packet 0x0 0x02 7 noCorrection []) ⟨1, 500⟩,
    .receive (packet 0x8 0 8 noCorrection [0, 0, 0, 0, 0, 1, 0, 0, 0, 0]) ⟨2, 200⟩]

theorem rejects_without_trace_strayRun :
    Indistinguishable ((init {} {}).after (strayRun.take 1)) ((init {} {}).after strayRun) := by
  have hsteps : AtEach strayRun fun before call => ((init {} {}).after before).drops call = false ∧
      ((init {} {}).after before).spoils call = false := by decide
  exact rejects_without_trace {} {} strayRun (fun before call hb _ => hsteps before call hb) (strayRun.take 1) _
    (List.prefix_refl strayRun) ⟨⟨.notFound, {}, (init {} {}).after (strayRun.take 1)⟩, by decide, Or.inl rfl⟩

/-- A Sync and a malformed Sync that ends the exchange -/
def droppedRun : List Call :=
  [.receive (packet 0x0 0x02 7 noCorrection []) ⟨1, 500⟩, .receive (packet 0x0 0 8 noCorrection []) ⟨1, 600⟩]

theorem refusal_leaves_trace :
    (Rejects ((init {} {}).after (droppedRun.take 1)) (.receive (packet 0x0 0 8 noCorrection []) ⟨1, 600⟩) ∧
      ¬Indistinguishable ((init {} {}).after (droppedRun.take 1)) ((init {} {}).after droppedRun)) ∧
    Rejects ((init {} {}).after (spoiledRun.take 3))
        (.receive (packet 0x9 0 0 noCorrection (responsePayload 2 0xff)) ⟨2, 150⟩) ∧
      ¬Indistinguishable ((init {} {}).after (spoiledRun.take 3)) ((init {} {}).after (spoiledRun.take 4)) := by
  refine ⟨⟨⟨⟨.invalidArgument, {}, (init {} {}).after droppedRun⟩, by decide, Or.inr rfl⟩, fun h => ?_⟩,
    ⟨⟨.invalidArgument, {}, (init {} {}).after (spoiledRun.take 4)⟩, by decide, Or.inr rfl⟩, fun h => ?_⟩
  · exact absurd h.pending (by decide)
  · exact absurd (h.future (spoiledRun.drop 4)) (by decide)

end Slave
end Castle.Timing.Ptp
