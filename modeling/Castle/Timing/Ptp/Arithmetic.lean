import Castle.Timing.Ptp.Provenance

/-!
# The arithmetic of a sample

Timestamps and corrections are read as exact integers. The checked difference is exact where it
gives a result; the two subtractions of the corrections after it are not checked, and the
correction of a Follow_Up is not subtracted at all.
-/

namespace Castle.Timing.Ptp

def Timestamp.toNanoseconds (time : Timestamp) : ℤ :=
  time.seconds.toNat * 1000000000 + time.nanoseconds.toNat

theorem correctionToNanoseconds_bounds (correctionField : Int64) :
    -140737488355328 ≤ correctionToNanoseconds correctionField ∧
      correctionToNanoseconds correctionField ≤ 140737488355328 := by
  have hlo := Int64.le_toInt correctionField
  have hhi := Int64.toInt_lt correctionField
  rw [correctionToNanoseconds, ptpCorrectionScale]
  rcases Int.le_total 0 correctionField.toInt with hpos | hneg
  · rw [Int.tdiv_eq_ediv_of_nonneg hpos]
    omega
  · have hnonneg : 0 ≤ -correctionField.toInt := by omega
    rw [← neg_neg correctionField.toInt, Int.neg_tdiv, Int.tdiv_eq_ediv_of_nonneg hnonneg]
    omega

theorem toInt_toInt64_of_lt {seconds : UInt64} (h : seconds.toNat < 2 ^ 63) :
    seconds.toInt64.toInt = seconds.toNat := by
  have hmod : seconds.toInt64.toInt = (seconds.toNat : ℤ).bmod (2 ^ 64) := BitVec.toInt_eq_toNat_bmod _
  rw [hmod]
  apply Int.bmod_eq_of_le_mul_two <;> omega

theorem bounds_of_valid {time : Timestamp} (h : validTimestamp time = true) :
    time.seconds.toNat < 281474976710656 ∧ time.nanoseconds.toNat < 1000000000 := by
  simp only [validTimestamp, Bool.and_eq_true, decide_eq_true_eq, ptpMaxSeconds,
    ptpNanosecondsPerSecond, UInt64.le_iff_toNat_le, UInt32.lt_iff_toNat_lt] at h
  obtain ⟨hseconds, hnanoseconds⟩ := h
  have hmax : (0x0000ffffffffffff : UInt64).toNat = 281474976710655 := rfl
  have hscale : (1000000000 : UInt32).toNat = 1000000000 := rfl
  omega

/-- On valid timestamps no operation of the function overflows. A result is the exact difference,
and where the difference is no 64-bit number there is no result. -/
theorem timestampDifferenceChecked_spec {left right : Timestamp}
    (hleft : validTimestamp left = true) (hright : validTimestamp right = true) :
    ∃ result, timestampDifferenceChecked left right = pure result ∧
    (∀ v, result = some v → v = left.toNanoseconds - right.toNanoseconds ∧ SignedFits 64 v) ∧
    (¬SignedFits 64 (left.toNanoseconds - right.toNanoseconds) → result = none) := by
  obtain ⟨hls, hln⟩ := bounds_of_valid hleft
  obtain ⟨hrs, hrn⟩ := bounds_of_valid hright
  have hmax : Int64.maxValue.toInt.tdiv scale = 9223372036 := by decide
  have hmin : Int64.minValue.toInt.tdiv scale = -9223372036 := by decide
  have hscale : scale = 1000000000 := rfl
  have hw : 0 < 64 := by decide
  have htotal : left.toNanoseconds - right.toNanoseconds =
      ((left.seconds.toNat : ℤ) - right.seconds.toNat) * 1000000000 +
        ((left.nanoseconds.toNat : ℤ) - right.nanoseconds.toNat) := by
    rw [Timestamp.toNanoseconds, Timestamp.toNanoseconds]
    ring
  rw [timestampDifferenceChecked, toInt_toInt64_of_lt (by omega), toInt_toInt64_of_lt (by omega), htotal,
    hmax, hmin, hscale]
  generalize hsec : (left.seconds.toNat : ℤ) - right.seconds.toNat = seconds
  generalize hnano : (left.nanoseconds.toNat : ℤ) - right.nanoseconds.toNat = nanoseconds
  have hseconds : SignedFits 64 seconds := by rw [signedFits_64]; omega
  have hnanoseconds : SignedFits 64 nanoseconds := by rw [signedFits_64]; omega
  rw [Tracked.bind_of_eq_pure (signed_eq_pure hw hseconds),
    Tracked.bind_of_eq_pure (signed_eq_pure hw hnanoseconds)]
  split_ifs with hrange
  · refine ⟨none, rfl, by simp, fun _ => rfl⟩
  · have hwhole : SignedFits 64 (seconds * 1000000000) := by rw [signedFits_64]; omega
    rw [Tracked.bind_of_eq_pure (signed_eq_pure hw hwhole),
      Tracked.bind_of_eq_pure (sumOverflows_eq hw hwhole hnanoseconds)]
    by_cases hsum : SignedFits 64 (seconds * 1000000000 + nanoseconds)
    · rw [decide_eq_true hsum, Bool.not_true, if_neg (by decide),
        Tracked.bind_of_eq_pure (signed_eq_pure hw hsum)]
      refine ⟨_, rfl, ?_, fun h => absurd hsum h⟩
      intro v hv
      rw [← Option.some.inj hv]
      exact ⟨rfl, hsum⟩
    · rw [decide_eq_false hsum, Bool.not_false, if_pos rfl]
      exact ⟨none, rfl, by simp, fun _ => rfl⟩

namespace Slave

/-- The two intervals after the corrections, when the checked differences give a result, are
64-bit numbers. -/
def intervalsFit (held : Slave) : Bool :=
  match (timestampDifferenceChecked held.t2 held.t1).value,
    (timestampDifferenceChecked held.t4 held.t3).value with
  | some syncInterval, some delayInterval =>
    decide (SignedFits 64 (syncInterval - held.syncCorrection)) &&
      decide (SignedFits 64 (delayInterval - held.delayCorrection))
  | _, _ => true

theorem calculateFrom_eq {held : Slave} {v w a b : ℤ} (hv : v - held.syncCorrection = a)
    (hw : w - held.delayCorrection = b) (ha : SignedFits 64 a) (hb : SignedFits 64 b)
    (hcorrection : SignedFits 64 (held.syncCorrection + held.delayCorrection)) :
    held.calculateFrom v w = pure
      (if ¬SignedFits 64 (a + b) then .error .outOfRange
      else if a + b < 0 then .error .invalidArgument
      else .ok (held.sampleOf (a - (a + b) / 2) ((a + b) / 2)
        (held.syncCorrection + held.delayCorrection))) := by
  have h64 : 0 < 64 := by decide
  rw [calculateFrom, hv, hw, Tracked.bind_of_eq_pure (signed_eq_pure h64 ha),
    Tracked.bind_of_eq_pure (signed_eq_pure h64 hb), Tracked.bind_of_eq_pure (sumOverflows_eq h64 ha hb)]
  by_cases hsum : SignedFits 64 (a + b)
  · rw [decide_eq_true hsum, Bool.not_true, if_neg (by decide), if_neg (not_not_intro hsum),
      Tracked.bind_of_eq_pure (signed_eq_pure h64 hsum)]
    by_cases hneg : a + b < 0
    · rw [if_pos hneg, if_pos hneg]
    · rw [if_neg hneg, if_neg hneg, Int.tdiv_eq_ediv_of_nonneg (by omega)]
      rw [signedFits_64] at ha hb hsum
      have hhalf : SignedFits 64 ((a + b) / 2) := by rw [signedFits_64]; omega
      have hoffset : SignedFits 64 (a - (a + b) / 2) := by rw [signedFits_64]; omega
      rw [Tracked.bind_of_eq_pure (signed_eq_pure h64 hhalf),
        Tracked.bind_of_eq_pure (signed_eq_pure h64 hoffset),
        Tracked.bind_of_eq_pure (signed_eq_pure h64 hcorrection)]
  · rw [decide_eq_false hsum, Bool.not_false, if_pos rfl, if_pos hsum]

/-- The four valid timestamps and the corrections of the messages -/
structure Measured (held : Slave) : Prop where
  t1 : validTimestamp held.t1 = true
  t2 : validTimestamp held.t2 = true
  t3 : validTimestamp held.t3 = true
  t4 : validTimestamp held.t4 = true
  syncCorrection : ∃ field, held.syncCorrection = correctionToNanoseconds field
  delayCorrection : ∃ field, held.delayCorrection = correctionToNanoseconds field

/-- `t2 - t1` less the correction that `try_complete` subtracts -/
def syncInterval (held : Slave) : ℤ :=
  held.t2.toNanoseconds - held.t1.toNanoseconds - held.syncCorrection

/-- `t4 - t3` less the correction that `try_complete` subtracts -/
def delayInterval (held : Slave) : ℤ :=
  held.t4.toNanoseconds - held.t3.toNanoseconds - held.delayCorrection

/-- Some number on the way to the sample is no 64-bit number. -/
def Unrepresentable (held : Slave) : Prop :=
  ¬SignedFits 64 (held.t2.toNanoseconds - held.t1.toNanoseconds) ∨
    ¬SignedFits 64 (held.t4.toNanoseconds - held.t3.toNanoseconds) ∨
    ¬SignedFits 64 (held.syncInterval + held.delayInterval)

theorem Measured.calculate {held : Slave} (h : held.Measured) (hfit : held.intervalsFit = true) :
    held.calculate.exact = true ∧
      (∀ sample, held.calculate.value = .ok sample →
        sample.pathDelayNanoseconds = (held.syncInterval + held.delayInterval) / 2 ∧
          sample.offsetNanoseconds = held.syncInterval - sample.pathDelayNanoseconds) ∧
      (held.Unrepresentable → held.calculate.value = .error .outOfRange) := by
  obtain ⟨v, hv, hvexact, hvnone⟩ := timestampDifferenceChecked_spec h.t2 h.t1
  obtain ⟨w, hw, hwexact, hwnone⟩ := timestampDifferenceChecked_spec h.t4 h.t3
  obtain ⟨syncField, hsync⟩ := h.syncCorrection
  obtain ⟨delayField, hdelay⟩ := h.delayCorrection
  have hcorrection : SignedFits 64 (held.syncCorrection + held.delayCorrection) := by
    have := correctionToNanoseconds_bounds syncField
    have := correctionToNanoseconds_bounds delayField
    rw [signedFits_64]
    omega
  rw [Slave.calculate, Tracked.bind_of_eq_pure hv]
  cases v with
  | none =>
    refine ⟨rfl, fun sample hs => ?_, fun _ => rfl⟩
    cases hs
  | some v =>
    simp only
    rw [Tracked.bind_of_eq_pure hw]
    cases w with
    | none =>
      refine ⟨rfl, fun sample hs => ?_, fun _ => rfl⟩
      cases hs
    | some w =>
      obtain ⟨hva, hvfits⟩ := hvexact v rfl
      obtain ⟨hwa, hwfits⟩ := hwexact w rfl
      rw [intervalsFit, hv, hw] at hfit
      simp only [Tracked.pure_value, Bool.and_eq_true, decide_eq_true_eq] at hfit
      have ha : v - held.syncCorrection = held.syncInterval := by rw [hva]; rfl
      have hb : w - held.delayCorrection = held.delayInterval := by rw [hwa]; rfl
      rw [ha, hb] at hfit
      simp only
      rw [calculateFrom_eq ha hb hfit.1 hfit.2 hcorrection]
      refine ⟨rfl, ?_, ?_⟩
      · intro sample hsample
        rw [Tracked.pure_value] at hsample
        split_ifs at hsample
        rw [← Except.ok.inj hsample]
        exact ⟨rfl, rfl⟩
      · rintro (hno | hno | hno)
        · exact absurd (hva ▸ hvfits) hno
        · exact absurd (hwa ▸ hwfits) hno
        · rw [if_pos hno]
          rfl

end Slave

namespace Exchange

variable (x : Exchange)

/-- The correction of the Follow_Up, which only a two-step exchange has -/
def followUpCorrection : ℤ :=
  if x.sync.header.isTwoStep then
    match x.followUp with
    | none => 0
    | some message => correctionToNanoseconds message.header.correctionField
  else 0

/-- `t2 - t1` less the corrections of the Sync and the Follow_Up -/
def syncPath (sample : Measurement) : ℤ :=
  sample.slaveSync.toNanoseconds - sample.masterSync.toNanoseconds - x.syncCorrection - x.followUpCorrection

/-- `t4 - t3` less the correction of the Delay_Resp -/
def responsePath (sample : Measurement) : ℤ :=
  sample.masterDelayRequest.toNanoseconds - sample.slaveDelayRequest.toNanoseconds - x.responseCorrection

/-- The end-to-end formulas for the path delay and the offset -/
structure Computes (sample : Measurement) : Prop where
  pathDelay : sample.pathDelayNanoseconds = (x.syncPath sample + x.responsePath sample) / 2
  offset : sample.offsetNanoseconds = x.syncPath sample - sample.pathDelayNanoseconds

end Exchange

namespace Slave

/-- The slave takes a Follow_Up whose correction is a nanosecond or more. -/
def corrects (s : Slave) (call : Call) : Bool :=
  s.pending && s.awaitingFollowUp && (s.admitted call).any fun message =>
    message.is .followUp && samePort message.header.sourcePort s.master &&
      message.header.sequenceId == s.sequenceId && (readMessageTimestamp message s.t1).1 &&
      correctionToNanoseconds message.header.correctionField != 0

/-- The intervals of the exchange that the call completes, if it does, fit. -/
def completesFit (s : Slave) (call : Call) : Bool :=
  match s.handle call with
  | .error _ => true
  | .ok (_, held) => !held.complete || held.intervalsFit

variable {localPort : PortIdentity} {s : Slave} {x : Option Exchange} {call : Call}

theorem follow_correction {action : SlaveAction} {held : Slave} (hs : Follows localPort s x)
    (hcorrects : s.corrects call = false) (h : Handled s call (.ok (action, held)))
    (hx : ∀ y, x = some y → y.followUpCorrection = 0) (status : Status) (delaySequence : UInt16)
    {y : Exchange} (hy : Exchange.follow x call status delaySequence = some y) :
    y.followUpCorrection = 0 := by
  by_cases hstatus : status = .ok
  swap
  · rw [Exchange.follow_refused hstatus] at hy
    exact hx y hy
  subst hstatus
  cases h with
  | @sync packet received message _ _ hdecode htype =>
    rw [Exchange.follow_receive hdecode, Exchange.takeIn, htype] at hy
    rw [← Option.some.inj hy, Exchange.followUpCorrection]
    exact ite_self 0
  | @followUp packet received message _ hdecode hadmitted htype hpending hawait hport hsequence ht1 =>
    obtain ⟨z, rfl, _⟩ := hs.holds hpending
    rw [Exchange.follow_receive hdecode, Exchange.takeIn, htype] at hy
    rw [← Option.some.inj hy, Exchange.followUpCorrection]
    have hzero : correctionToNanoseconds message.header.correctionField = 0 := by
      rw [corrects, hadmitted, hpending, hawait, Option.any_some, MessageView.is, htype, hport, ht1,
        hsequence, samePort_iff.mpr rfl] at hcorrects
      simpa using hcorrects
    simp only [hzero, ite_self]
  | response t4 hdecode htype =>
    rw [Exchange.follow_receive hdecode, Exchange.takeIn, htype] at hy
    obtain ⟨z, hz, rfl⟩ := Option.map_eq_some_iff.mp hy
    exact hx z hz
  | transmitted hpending =>
    obtain ⟨z, hz, rfl⟩ := Option.map_eq_some_iff.mp hy
    exact hx z hz

theorem early_return_correction {outcome : Outcome} (h : Handled s call (.error outcome))
    (hx : ∀ y, x = some y → y.followUpCorrection = 0) (delaySequence : UInt16) {y : Exchange}
    (hy : Exchange.follow x call outcome.status delaySequence = some y) : y.followUpCorrection = 0 := by
  cases h with
  | refused hstatus =>
    rw [Exchange.follow_refused hstatus] at hy
    exact hx y hy
  | reset => cases hy
  | _ =>
    rw [@Exchange.follow_refused .invalidArgument (by decide)] at hy
    exact hx y hy

theorem Holds.measured {held : Slave}
    {y : Exchange} (h : held.Holds y) (hcomplete : held.complete = true) : held.Measured := by
  simp only [complete, Bool.and_eq_true] at hcomplete
  obtain ⟨⟨⟨⟨_, h1⟩, _⟩, h3⟩, h4⟩ := hcomplete
  obtain ⟨hrequest, hcorrection⟩ := h.t4 h4
  obtain ⟨message, hresponse, _⟩ := hrequest
  exact {
    t1 := (h.t1 h1).valid
    t2 := h.t2_valid
    t3 := (h.t3 h3).2
    t4 := (h.t4 h4).1.valid
    syncCorrection := ⟨_, h.syncCorrection⟩
    delayCorrection := ⟨message.header.correctionField, by
      rw [hcorrection, Exchange.responseCorrection, hresponse]⟩ }

theorem tryComplete_exact (held : Slave) (action : SlaveAction) :
    (held.tryComplete action).exact = (!held.complete || held.calculate.exact) := by
  rw [tryComplete]
  cases held.complete with
  | false => rfl
  | true =>
    rw [Bool.not_true, if_neg (by decide), Tracked.bind_exact]
    cases held.calculate.value <;> simp

theorem corrections_after {config : SlaveConfig} {calls before : List Call}
    (h : AtEach calls fun before call => ((init localPort config).after before).spoils call = false ∧
      ((init localPort config).after before).corrects call = false)
    (hb : before <+: calls) : Follows localPort ((init localPort config).after before)
      ((init localPort config).exchange before) ∧
      ∀ y, (init localPort config).exchange before = some y → y.followUpCorrection = 0 := by
  refine @AtEach.invariant _ _ _ (fun before => Follows localPort ((init localPort config).after before)
    ((init localPort config).exchange before) ∧
      ∀ y, (init localPort config).exchange before = some y → y.followUpCorrection = 0) h
    ⟨follows_init localPort config, fun y hy => (nomatch hy)⟩ ?_ before hb
  rintro before call _ ⟨hfollows, hzero⟩ ⟨hspoils, hcorrects⟩
  rw [after_snoc, exchange_snoc]
  refine ⟨hfollows.step hspoils, fun y hy => ?_⟩
  have hhandled := handled ((init localPort config).after before) call
  rcases hhandle : ((init localPort config).after before).handle call with outcome | ⟨action, held⟩
  · rw [step_error hhandle] at hy
    exact early_return_correction (hhandle ▸ hhandled) hzero _ hy
  · exact follow_correction hfollows hcorrects (hhandle ▸ hhandled) hzero _ _ hy

/-- No operation of the call overflows, a sample that it reports satisfies the formulas of its
exchange, and what is no 64-bit number is refused with `out_of_range`. -/
def ComputesExchange (localPort : PortIdentity) (config : SlaveConfig) (before : List Call)
    (call : Call) :
    Prop :=
  (((init localPort config).after before).step call).exact = true ∧
  ((((init localPort config).after before).step call).value.action.measurementReady = true →
    ∃ x, (init localPort config).exchange (before ++ [call]) = some x ∧
      x.Provides localPort (((init localPort config).after before).step call).value.action.sample ∧
      x.Computes (((init localPort config).after before).step call).value.action.sample) ∧
  ∀ action held, ((init localPort config).after before).handle call = .ok (action, held) →
    held.complete = true → held.Unrepresentable →
      (((init localPort config).after before).step call).value.status = .outOfRange

/-- Samples are exact in a run without spoiled timestamps and corrected Follow_Ups, as long as the
intervals of each exchange that completes fit. -/
theorem samples_computed (localPort : PortIdentity) (config : SlaveConfig) (calls : List Call)
    (h : AtEach calls fun before call => ((init localPort config).after before).spoils call = false ∧
      ((init localPort config).after before).corrects call = false ∧
      ((init localPort config).after before).completesFit call = true) :
    AtEach calls (ComputesExchange localPort config) := by
  have hmarks : AtEach calls fun before call => ((init localPort config).after before).spoils call =
    false ∧ ((init localPort config).after before).corrects call =
    false := fun before call hb => ⟨(h before call hb).1, (h before call hb).2.1⟩
  intro before call hb
  obtain ⟨hspoils, _, hcompletes⟩ := h before call hb
  obtain ⟨hfollows, _⟩ := corrections_after hmarks ((List.prefix_append before [call]).trans hb)
  obtain ⟨_, hzero⟩ := corrections_after hmarks hb
  have hhandled := handled ((init localPort config).after before) call
  have hmeasured : ∀ action held, ((init localPort config).after before).handle call =
      .ok (action, held) → held.complete = true → held.Measured ∧ held.intervalsFit = true := by
    intro action held hhandle hcomplete
    obtain ⟨_, _, y, _, hh⟩ := hfollows.go_on (hhandle ▸ hhandled)
    rw [completesFit, hhandle] at hcompletes
    simp only [hcomplete, Bool.not_true, Bool.false_or] at hcompletes
    exact ⟨hh.measured hcomplete, hcompletes⟩
  refine ⟨?_, ?_, ?_⟩
  · rcases hhandle : ((init localPort config).after before).handle call with outcome | ⟨action, held⟩
    · rw [step_error hhandle, Tracked.pure_exact]
    · rw [step_ok hhandle, tryComplete_exact]
      cases hcomplete : held.complete with
      | false => rfl
      | true =>
        obtain ⟨hm, hfit⟩ := hmeasured action held hhandle hcomplete
        exact (hm.calculate hfit).1
  · intro hready
    obtain ⟨action, held, y, hhandle, hport, hcomplete, hvalue, hh, hy⟩ :=
      reported_of_ready hfollows hspoils rfl hready
    rw [← exchange_snoc] at hy
    obtain ⟨hm, hfit⟩ := hmeasured action held hhandle hcomplete
    obtain ⟨hpath, hoffset⟩ := (hm.calculate hfit).2.1 _ hvalue
    obtain ⟨offset, pathDelay, correction, hsample⟩ := calculate_sample hvalue
    have hprovides := hh.provides hcomplete offset pathDelay correction
    rw [← hsample, hport] at hprovides
    have hA : y.syncPath (((init localPort config).after before).step call).value.action.sample =
        held.syncInterval := by
      rw [Exchange.syncPath, hzero y hy, hsample, sub_zero, syncInterval, hh.syncCorrection]
      rfl
    have hB : y.responsePath (((init localPort config).after before).step call).value.action.sample =
        held.delayInterval := by
      simp only [complete, Bool.and_eq_true] at hcomplete
      rw [Exchange.responsePath, hsample, delayInterval, (hh.t4 hcomplete.2).2]
      rfl
    exact ⟨y, hy, hprovides, ⟨by rw [hA, hB]; exact hpath, by rw [hA]; exact hoffset⟩⟩
  · intro action held hhandle hcomplete hno
    obtain ⟨hm, hfit⟩ := hmeasured action held hhandle hcomplete
    have hvalue := (hm.calculate hfit).2.2 hno
    rw [step_ok hhandle]
    rcases tryComplete_cases held action with ⟨hnot, _⟩ | ⟨_, status, hstatus, heq⟩ | ⟨_, sample, hsample, _⟩
    · exact absurd (hnot.symm.trans hcomplete) (by decide)
    · rw [heq]
      exact Except.error.inj (hstatus.symm.trans hvalue)
    · cases hsample.symm.trans hvalue

theorem samples_computed_twoStepRun : AtEach twoStepRun (ComputesExchange {} {}) :=
  samples_computed {} {} twoStepRun (by decide)

/-- A two-step exchange whose Follow_Up carries a correction of one nanosecond -/
def correctedRun : List Call :=
  twoStepRun.take 3 ++
    [.receive (packet 0x8 0 7 [0, 0, 0, 0, 0, 1, 0, 0] [0, 0, 0, 0, 0, 1, 0, 0, 0, 0]) ⟨2, 200⟩]

/-- A one-step Sync received `INT64_MAX` nanoseconds after its timestamp, with a correction of
one nanosecond less -/
def distantRun : List Call :=
  [.receive (packet 0x0 0 7 [0xff, 0xff, 0xff, 0xff, 0xff, 0xff, 0, 0] (List.replicate 10 0))
      ⟨9223372036, 854775807⟩,
    .delayRequestTransmitted ⟨2, 0⟩,
    .receive (packet 0x9 0 0 noCorrection (responsePayload 2 0)) ⟨2, 100⟩]

theorem correction_lost_and_overflow :
    ¬AtEach correctedRun (ComputesExchange {} {}) ∧ ¬AtEach distantRun (ComputesExchange {} {}) := by
  constructor
  · intro h
    obtain ⟨_, hreported, _⟩ := h (correctedRun.take 3) _ (List.prefix_refl correctedRun)
    obtain ⟨x, hx, _, hcomputes⟩ := hreported (by decide)
    obtain rfl := Option.some.inj hx
    exact absurd hcomputes.offset (by decide)
  · intro h
    obtain ⟨hexact, _⟩ := h (distantRun.take 2) _ (List.prefix_refl distantRun)
    exact absurd hexact (by decide)

end Slave
end Castle.Timing.Ptp
