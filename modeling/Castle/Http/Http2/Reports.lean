import Castle.Http.Http2.Runs

/-!
# Reports of streams

How often the response callback is invoked for a stream.
-/

namespace Castle.Http.Http2

def Event.reports (streamId : ℕ) : Event → Bool
  | .response _ view => view.streamId = streamId
  | _ => false

def reports (streamId : ℕ) (log : List Event) : ℕ := log.countP (Event.reports streamId)

def Event.Silent (event : Event) : Prop := ∀ streamId, event.reports streamId = false

/-- A log that goes on with events of that kind. -/
def Silent (log log' : List Event) : Prop :=
  ∃ events : List Event, log' = log ++ events ∧ ∀ event ∈ events, event.Silent

theorem Silent.refl (log : List Event) : Silent log log := ⟨[], by simp, by simp⟩

theorem Silent.single (log : List Event) {event : Event} (h : event.Silent) :
    Silent log (log ++ [event]) := ⟨[event], rfl, by simpa using h⟩

theorem Silent.reports {log log' : List Event} (h : Silent log log') (streamId : ℕ) :
    reports streamId log' = reports streamId log := by
  obtain ⟨events, rfl, hevents⟩ := h
  have hzero : events.countP (Event.reports streamId) = 0 :=
    List.countP_eq_zero.mpr fun event he => by simp [hevents event he streamId]
  rw [Http2.reports, List.countP_append, hzero]
  rfl

namespace StreamRecord

def finished (stream : StreamRecord) : Bool := stream.responseComplete || stream.reset

end StreamRecord

namespace Session

variable {cap : Capacity} {p : Prop}

/-- How often a stream that was issued is reported when it is finished. -/
def reportCount (s : Session cap) : ℕ := if s.responseCallback then 1 else 0

/-- The streams that were issued and released are reported, and those that have a slot when they are
finished. -/
structure Reported (s : Session cap) : Prop where
  unissued : ∀ streamId, s.isIssuedStream streamId = false → reports streamId s.log = 0
  held : ∀ i, (s.streams.get i).used = true → reports (s.streams.get i).id s.log =
    if (s.streams.get i).finished then s.reportCount else 0
  released : ∀ streamId, s.isIssuedStream streamId = true →
    (∀ i, (s.streams.get i).used = true → (s.streams.get i).id ≠ streamId) →
      reports streamId s.log = s.reportCount

/-- A change that reports nothing. A slot keeps its stream, or loses one that is finished. -/
structure SameReports (s s' : Session cap) : Prop where
  callback : s'.responseCallback = s.responseCallback
  nextStreamId : s'.nextStreamId = s.nextStreamId
  kept : ∀ i, (s'.streams.get i).used = true → (s.streams.get i).used = true ∧
    (s'.streams.get i).id = (s.streams.get i).id ∧
    (s'.streams.get i).finished = (s.streams.get i).finished
  lost : ∀ i, (s.streams.get i).used = true →
    (s'.streams.get i).used = true ∨ (s.streams.get i).finished = true
  log : Silent s.log s'.log

theorem Reported.same {s s' : Session cap} (h : s.Reported) (hs : SameReports s s') :
    s'.Reported := by
  have hcount : s'.reportCount = s.reportCount := by rw [reportCount, reportCount, hs.callback]
  have hissued (streamId) : s'.isIssuedStream streamId = s.isIssuedStream streamId := by
    rw [isIssuedStream, isIssuedStream, hs.nextStreamId]
  exact {
    unissued := by
      intro streamId hi
      rw [hissued] at hi
      rw [hs.log.reports, h.unissued streamId hi]
    held := by
      intro i hi
      obtain ⟨hused, hid, hfinished⟩ := hs.kept i hi
      rw [hs.log.reports, hid, hfinished, hcount, h.held i hused]
    released := by
      intro streamId hi hnone
      rw [hissued] at hi
      rw [hs.log.reports, hcount]
      by_cases hheld : ∃ i, (s.streams.get i).used = true ∧ (s.streams.get i).id = streamId
      · obtain ⟨i, hused, rfl⟩ := hheld
        have hlost : (s.streams.get i).finished = true := by
          refine (hs.lost i hused).resolve_left fun hused' => ?_
          exact hnone i hused' (hs.kept i hused').2.1
        rw [h.held i hused, hlost, if_pos rfl]
      · exact h.released streamId hi fun i hused hid => hheld ⟨i, hused, hid⟩ }

namespace SameReports

variable (s : Session cap)

theorem refl : SameReports s s :=
  ⟨rfl, rfl, fun _ h => ⟨h, rfl, rfl⟩, fun _ h => .inl h, Silent.refl _⟩

theorem record {event : Event} (h : event.Silent) : SameReports s (s.record event) :=
  { refl s with log := Silent.single _ h }

theorem modify (i : Fin cap.maxConcurrentStreams) {f : StreamRecord → StreamRecord}
    (hkept : (f (s.streams.get i)).used = true → (s.streams.get i).used = true ∧
      (f (s.streams.get i)).id = (s.streams.get i).id ∧
      (f (s.streams.get i)).finished = (s.streams.get i).finished)
    (hlost : (s.streams.get i).used = true →
      (f (s.streams.get i)).used = true ∨ (s.streams.get i).finished = true) :
    SameReports s (s.modifyStream i f) :=
  { refl s with
    kept := by
      intro j hj
      by_cases hji : j = i
      · subst hji
        rw [modifyStream_get_self] at hj ⊢
        exact hkept hj
      · rw [modifyStream_get_ne s f hji] at hj ⊢
        exact ⟨hj, rfl, rfl⟩
    lost := by
      intro j hj
      by_cases hji : j = i
      · subst hji
        rw [modifyStream_get_self]
        exact hlost hj
      · rw [modifyStream_get_ne s f hji]
        exact .inl hj }

variable {s}

theorem quiet {s' : Session cap} (h : Quiet s s') : SameReports s s' where
  callback := h.responseCallback
  nextStreamId := h.nextStreamId
  kept := by
    intro i hi
    have hused := congrArg StreamCore.used (h.streams i)
    have hcomplete := congrArg StreamCore.responseComplete (h.streams i)
    have hreset := congrArg StreamCore.reset (h.streams i)
    dsimp only [StreamRecord.core] at hused hcomplete hreset
    refine ⟨hused.symm.trans hi, congrArg StreamCore.id (h.streams i), ?_⟩
    rw [StreamRecord.finished, StreamRecord.finished, hcomplete, hreset]
  lost := fun i hi => .inl ((congrArg StreamCore.used (h.streams i)).trans hi)
  log := by
    rw [h.log]
    exact Silent.refl _

theorem enqueueFrame {s' : Session cap} {frame : Frame} (h : s.enqueueFrame frame = some s') :
    SameReports s s' := by
  rw [(enqueueFrame_eq h).2]
  have hsilent : (Event.queued frame).Silent := fun _ => rfl
  exact { record s hsilent with }

theorem slots {t : Table cap.maxConcurrentStreams StreamRecord}
    (ht : ∀ i, (t.get i).used = (s.streams.get i).used ∧ (t.get i).id = (s.streams.get i).id ∧
      (t.get i).finished = (s.streams.get i).finished) : SameReports s { s with streams := t } :=
  { refl s with
    kept := fun i hi => ⟨(ht i).1.symm.trans hi, (ht i).2⟩
    lost := fun i hi => .inl ((ht i).1.trans hi) }

theorem chunk {i : Fin cap.maxConcurrentStreams} {s' : Session cap} {stop : Bool}
    (h : s.sendChunk i = some (stop, s')) : SameReports s s' := by
  obtain ⟨-, rfl⟩ | ⟨-, -, -, t, hqueue, rfl⟩ := sendChunk_cases h
  · exact refl _
  · have hlog := (enqueueFrame hqueue).log
    obtain ⟨-, rfl⟩ := enqueueFrame_eq hqueue
    have hcount : SameReports s (s.countChunk i (s.chunkSize (s.streams.get i))) :=
      { modify s i (f := counted (s.chunkSize (s.streams.get i)))
          (fun h => ⟨h, rfl, rfl⟩) .inl with }
    exact { hcount with log := hlog }

theorem replenishConnection (s : Session cap) : SameReports s s.replenishConnection := by
  rw [Session.replenishConnection]
  split
  · split
    · exact refl s
    next s' hqueue => exact { enqueueFrame hqueue with }
  · exact refl s

theorem replenishStream (s : Session cap) (i : Fin cap.maxConcurrentStreams) :
    SameReports s (s.replenishStream i) := by
  rw [Session.replenishStream]
  split
  · split
    · exact refl s
    next s' hqueue =>
      have hlog := (enqueueFrame hqueue).log
      obtain ⟨-, rfl⟩ := enqueueFrame_eq hqueue
      have hmodify : SameReports s (s.modifyStream i fun stream => { stream with
          receiveWindow := stream.receiveWindow + stream.receiveCredit
          receiveCredit := 0 }) := modify s i (fun h => ⟨h, rfl, rfl⟩) .inl
      exact { hmodify with log := hlog }
  · exact refl s

end SameReports

theorem unfinished_fields {stream : StreamRecord} (h : stream.unfinished = true) :
    stream.used = true ∧ stream.finished = false := by
  rw [StreamRecord.unfinished, Bool.and_assoc, ← Bool.not_or, Bool.and_eq_true,
    Bool.not_eq_true'] at h
  exact h

theorem Reported.finish {s : Session cap} (h : s.Reported) (hsound : s.Sound)
    {i : Fin cap.maxConcurrentStreams} (hi : (s.streams.get i).unfinished = true)
    {f : StreamRecord → StreamRecord} (hf : (f (s.streams.get i)).used = true ∧
      (f (s.streams.get i)).id = (s.streams.get i).id ∧ (f (s.streams.get i)).finished = true)
    (result : Status) : ((s.modifyStream i f).notifyStream i result).Reported := by
  obtain ⟨hused, hopen⟩ := unfinished_fields hi
  have hissued : s.isIssuedStream (s.streams.get i).id = true := by
    have hbounds := hsound.issued i hused
    simp [isIssuedStream, hbounds.1, hbounds.2]
  have hnone := h.held i hused
  rw [hopen] at hnone
  -- what the log says after the report
  have hlog (streamId) : reports streamId ((s.modifyStream i f).notifyStream i result).log =
      reports streamId s.log + if (s.streams.get i).id = streamId then s.reportCount else 0 := by
    rw [notifyStream, reportCount]
    have hcallback : (s.modifyStream i f).responseCallback = s.responseCallback := rfl
    rw [hcallback]
    split
    · show reports streamId (s.log ++ [_]) = _
      rw [reports, reports, List.countP_append, List.countP_singleton, Event.reports, makeResponse,
        modifyStream_get_self, hf.2.1]
      simp only [decide_eq_true_eq]
    · show reports streamId s.log = _
      simp
  have hsame (j : Fin cap.maxConcurrentStreams) :
      ((s.modifyStream i f).notifyStream i result).streams.get j = (s.modifyStream i f).streams.get j := by
    rw [notifyStream]
    split <;> rfl
  have hcount : ((s.modifyStream i f).notifyStream i result).reportCount = s.reportCount := by
    rw [notifyStream]
    split <;> rfl
  have hissued' (streamId) : ((s.modifyStream i f).notifyStream i result).isIssuedStream streamId =
      s.isIssuedStream streamId := by
    rw [notifyStream]
    split <;> rfl
  have hkeeps (j) : ((s.modifyStream i f).streams.get j).used = (s.streams.get j).used ∧
      ((s.modifyStream i f).streams.get j).id = (s.streams.get j).id := by
    by_cases hj : j = i
    · subst hj
      rw [modifyStream_get_self, hf.1, hf.2.1, hused]
      exact ⟨rfl, rfl⟩
    · rw [modifyStream_get_ne s f hj]
      exact ⟨rfl, rfl⟩
  exact {
    unissued := by
      intro streamId hunissued
      rw [hissued'] at hunissued
      have hne : (s.streams.get i).id ≠ streamId := by
        rintro rfl
        rw [hissued] at hunissued
        cases hunissued
      rw [hlog, if_neg hne, h.unissued streamId hunissued]
    held := by
      intro j hj
      rw [hsame] at hj ⊢
      rw [(hkeeps j).1] at hj
      rw [hlog, (hkeeps j).2, hcount]
      by_cases hji : j = i
      · subst hji
        rw [modifyStream_get_self, hf.2.2, if_pos rfl, if_pos rfl, hnone]
        simp
      · have hne : (s.streams.get i).id ≠ (s.streams.get j).id :=
          fun heq => hji (hsound.distinct j i hj hused heq.symm)
        rw [if_neg hne, modifyStream_get_ne s f hji, h.held j hj, Nat.add_zero]
    released := by
      intro streamId hstream hreleased
      rw [hissued'] at hstream
      rw [hlog, hcount]
      have hreleased' (j) (hj : (s.streams.get j).used = true) : (s.streams.get j).id ≠ streamId := by
        have hne := hreleased j
        rw [hsame, (hkeeps j).1, (hkeeps j).2] at hne
        exact hne hj
      rw [if_neg (hreleased' i hused), h.released streamId hstream hreleased', Nat.add_zero] }

theorem Reported.claim {s : Session cap} (h : s.Reported) (hsound : s.Sound)
    {i : Fin cap.maxConcurrentStreams} (hfree : (s.streams.get i).used = false)
    (request : Request) (block : Bytes) : (s.claimStream i request block).Reported := by
  have hodd := hsound.next_odd
  have hlog (streamId) : reports streamId (s.claimStream i request block).log =
      reports streamId s.log := (Silent.single s.log fun _ => rfl).reports streamId
  have hnew : s.isIssuedStream s.nextStreamId = false := by simp [isIssuedStream]
  have hissued (streamId) (hne : streamId ≠ s.nextStreamId) :
      (s.claimStream i request block).isIssuedStream streamId = s.isIssuedStream streamId := by
    have hnext : (s.claimStream i request block).nextStreamId = s.nextStreamId + 2 := rfl
    rw [isIssuedStream, isIssuedStream, hnext]
    by_cases hparity : streamId % 2 = 0
    · simp [hparity]
    · have hiff : streamId < s.nextStreamId + 2 ↔ streamId < s.nextStreamId := by omega
      rw [decide_eq_decide.mpr hiff]
  have hget (j) : (s.claimStream i request block).streams.get j = if j = i then
      { StreamRecord.initialized s.nextStreamId s.peerInitialWindow (request.verb = .head) with
        requestBody := request.body, requestBodySent := request.body.isEmpty }
      else s.streams.get j := Table.get_set _ _ _ _
  exact {
    unissued := by
      intro streamId hunissued
      by_cases hne : streamId = s.nextStreamId
      · subst hne
        rw [hlog, h.unissued _ hnew]
      · rw [hissued _ hne] at hunissued
        rw [hlog, h.unissued _ hunissued]
    held := by
      intro j hj
      rw [hget] at hj ⊢
      rw [hlog]
      split
      · exact h.unissued _ hnew
      next hne =>
        rw [if_neg hne] at hj
        exact h.held j hj
    released := by
      intro streamId hstream hreleased
      have hne : streamId ≠ s.nextStreamId := by
        rintro rfl
        refine hreleased i ?_ ?_
        · rw [hget, if_pos rfl]
          rfl
        · rw [hget, if_pos rfl]
          rfl
      rw [hissued _ hne] at hstream
      rw [hlog]
      refine h.released streamId hstream fun j hj => ?_
      have hji : j ≠ i := by
        rintro rfl
        rw [hfree] at hj
        cases hj
      have hstill := hreleased j
      rw [hget, if_neg hji] at hstill
      exact hstill hj }

theorem Reported.step {s s' : Session cap} (h : s.Reported) (hsound : s.Sound)
    (hstep : Step True s s') : s'.Reported := by
  have hreceived (frame : Frame) : (Event.received frame).Silent := fun _ => rfl
  cases hstep with
  | quiet hquiet => exact h.same (SameReports.quiet hquiet)
  | received => exact h.same (SameReports.record s (hreceived _))
  | refused => exact h.same { SameReports.record s (hreceived _) with }
  | discarded => exact h.same { SameReports.record s (hreceived _) with }
  | @delivered frame i =>
    have hmodify : SameReports s (s.modifyStream i (consumeStreamWindow frame.length)) :=
      SameReports.modify s i (fun h => ⟨h, rfl, rfl⟩) .inl
    exact h.same { hmodify with log := (SameReports.record s (hreceived frame)).log }
  | overrun frame update i hupdate =>
    have hmodify : SameReports s (s.modifyStream i update) := by
      obtain rfl | rfl := hupdate
      · exact SameReports.modify s i (fun h => ⟨h, rfl, rfl⟩) .inl
      · exact SameReports.modify s i (fun h => ⟨h, rfl, rfl⟩) .inl
    exact h.same { hmodify with log := (SameReports.record s (hreceived frame)).log }
  | body => exact h.same (SameReports.record s fun _ => rfl)
  | connectionCredit => exact h.same { SameReports.record s (hreceived _) with }
  | @streamCredit frame i =>
    refine h.same { SameReports.modify s i ?_ .inl with
      log := (SameReports.record s (hreceived frame)).log }
    exact fun h => ⟨h, rfl, rfl⟩
  | lateCredit => exact h.same (SameReports.record s (hreceived _))
  | initialWindow value =>
    have hslots : SameReports s { s with
        streams := s.streams.map (StreamRecord.adjustWindow (value - s.peerInitialWindow)) } := by
      refine SameReports.slots fun i => ?_
      rw [Table.get_map, StreamRecord.adjustWindow]
      split <;> exact ⟨rfl, rfl, rfl⟩
    exact h.same { hslots with }
  | windowFailure shift =>
    have hslots : SameReports s { s with
        streams := s.streams.mapIdx fun i stream => stream.shiftWindow (shift i) } := by
      refine SameReports.slots fun i => ?_
      rw [Table.get_mapIdx]
      exact ⟨rfl, rfl, rfl⟩
    exact h.same { hslots with }
  | maxFrameSize => exact h.same { SameReports.refl s with }
  | control _ hqueue => exact h.same (SameReports.enqueueFrame hqueue)
  | chunk _ hchunk => exact h.same (SameReports.chunk hchunk)
  | replenishConnection => exact h.same (SameReports.replenishConnection s)
  | replenishStream _ i => exact h.same (SameReports.replenishStream s i)
  | reset result hi =>
    exact h.finish hsound hi ⟨(unfinished_fields hi).1, rfl, by simp [StreamRecord.finished]⟩ result
  | headerFailure result hused hcomplete hreset =>
    refine h.finish hsound ?_ ⟨hused, rfl, by simp [StreamRecord.finished]⟩ result
    simp [StreamRecord.unfinished, hused, hcomplete, hreset trivial]
  | complete hi =>
    exact h.finish hsound hi ⟨(unfinished_fields hi).1, rfl, by simp [StreamRecord.finished]⟩ .ok
  | continuation => exact h.same { SameReports.refl s with }
  | @opened i request block _ _ hfree _ _ _ _ _ _ hqueue =>
    have hclaim := hsound.claim hfree request block
    obtain ⟨output, -, -, rfl⟩ := enqueueFrames_some hqueue hclaim.output
    refine (h.claim hsound hfree request block).same
      { SameReports.refl _ with log := ⟨_, rfl, ?_⟩ }
    rw [List.forall_mem_map]
    exact fun frame _ _ => rfl
  | @release i hused hfinished =>
    refine h.same (SameReports.modify s i (fun h => absurd h (by decide)) fun _ => .inr ?_)
    rw [StreamRecord.finished, Bool.or_eq_true]
    exact hfinished
  | dequeue => exact h.same { SameReports.refl s with }

theorem Reported.steps {s s' : Session cap} (h : s.Reported) (hsound : s.Sound)
    (hsteps : Steps True s s') : s'.Reported := by
  induction hsteps with
  | refl => exact h
  | tail hbefore hstep ih => exact ih.step (hsound.steps hbefore) hstep

theorem notifyStream_callback (s : Session cap) (i : Fin cap.maxConcurrentStreams)
    (result : Status) : (s.notifyStream i result).responseCallback = s.responseCallback := by
  rw [notifyStream]
  split <;> rfl

theorem Step.callback {s s' : Session cap} (hsound : s.Sound) (h : Step p s s') :
    s'.responseCallback = s.responseCallback := by
  cases h with
  | quiet hquiet => exact hquiet.responseCallback
  | control _ hqueue => exact (SameReports.enqueueFrame hqueue).callback
  | chunk _ hchunk => exact (SameReports.chunk hchunk).callback
  | replenishConnection => exact (SameReports.replenishConnection s).callback
  | replenishStream _ i => exact (SameReports.replenishStream s i).callback
  | reset | headerFailure | complete => exact notifyStream_callback _ _ _
  | @opened i request block _ _ hfree _ _ _ _ _ _ hqueue =>
    obtain ⟨output, -, -, rfl⟩ := enqueueFrames_some hqueue (hsound.claim hfree request block).output
    rfl
  | received | refused | discarded | delivered | overrun | body | connectionCredit | streamCredit
  | lateCredit | initialWindow | windowFailure | maxFrameSize | continuation | release
  | dequeue => rfl

theorem Steps.callback {s s' : Session cap} (hsound : s.Sound) (h : Steps p s s') :
    s'.responseCallback = s.responseCallback := by
  induction h with
  | refl => rfl
  | tail hbefore hstep ih => exact (hstep.callback (hsound.steps hbefore)).trans ih

theorem reported_start (s : Session cap) : s.start.2.Reported := by
  obtain ⟨output, -, -, hstart⟩ := start_eq s
  have hfree (i : Fin cap.maxConcurrentStreams) :
      ((Table.replicate cap.maxConcurrentStreams StreamRecord.free).get i) = StreamRecord.free :=
    Table.get_replicate _ _
  rw [hstart]
  exact {
    unissued := fun _ _ => rfl
    held := by
      intro i hi
      have hi' : ((Table.replicate cap.maxConcurrentStreams StreamRecord.free).get i).used = true := hi
      rw [hfree] at hi'
      cases hi'
    released := by
      intro streamId hissued
      have hissued' : (streamId % 2 ≠ 0 && decide (streamId < 1)) = true := hissued
      rw [Bool.and_eq_true, decide_eq_true_eq, decide_eq_true_eq] at hissued'
      omega }

/-- When no header block fails on a stream that is reset, every stream that was opened is reported
once when it is completed or reset, and not before and not again. -/
theorem reports_once (s₀ : Session cap) (calls : List Call)
    (haccepted : ∀ x ∈ s₀.start.2.runFrames calls, x.2.failsOnReset x.1 = false) :
    let s := s₀.start.2.run calls
    (∀ i, (s.streams.get i).used = true → reports (s.streams.get i).id s.log =
      if (s.streams.get i).responseComplete || (s.streams.get i).reset then
        (if s₀.responseCallback then 1 else 0) else 0) ∧
    (∀ streamId, s.isIssuedStream streamId = true →
      (∀ i, (s.streams.get i).used = true → (s.streams.get i).id ≠ streamId) →
        reports streamId s.log = if s₀.responseCallback then 1 else 0) ∧
    ∀ streamId, reports streamId s.log ≤ 1 := by
  intro s
  have hsound := s₀.sound_start
  have hsteps := run_steps (p := True) _ calls hsound fun _ => haccepted
  have hreported : s.Reported := s₀.reported_start.steps hsound hsteps
  have hcallback : s.responseCallback = s₀.responseCallback := by
    obtain ⟨output, -, -, hstart⟩ := start_eq s₀
    refine (hsteps.callback hsound).trans ?_
    rw [hstart]
    rfl
  have hcount : s.reportCount = if s₀.responseCallback then 1 else 0 := by
    rw [reportCount, hcallback]
  have hle : s.reportCount ≤ 1 := by
    rw [hcount]
    split <;> decide
  refine ⟨fun i hi => ?_, fun streamId hissued hreleased => ?_, fun streamId => ?_⟩
  · rw [← hcount]
    exact hreported.held i hi
  · rw [← hcount]
    exact hreported.released streamId hissued hreleased
  · cases hissued : s.isIssuedStream streamId with
    | false =>
      rw [hreported.unissued streamId hissued]
      exact Nat.zero_le _
    | true =>
      by_cases hheld : ∃ i, (s.streams.get i).used = true ∧ (s.streams.get i).id = streamId
      · obtain ⟨i, hused, rfl⟩ := hheld
        rw [hreported.held i hused]
        split
        · exact hle
        · exact Nat.zero_le _
      · rw [hreported.released streamId hissued fun i hused hid => hheld ⟨i, hused, hid⟩]
        exact hle

/-- RST_STREAM on stream 1. -/
def resetFrame : Bytes := [0, 0, 4, 3, 0, 0, 0, 0, 1, 0, 0, 0, 8]

/-- HEADERS on stream 1, of one byte that no header block starts with. -/
def malformedHeaders : Bytes := [0, 0, 1, 1, 4, 0, 0, 0, 1, 0x80]

theorem reports_once_reset : reports 1 ((init smallCapacity true false).start.2.run
    [.openStream smallRequest, .feed (some resetFrame) false, .releaseStream 1]).log = 1 :=
  (reports_once (init smallCapacity true false) [.openStream smallRequest,
    .feed (some resetFrame) false, .releaseStream 1] (by decide)).2.1 1 (by decide)
      (by decide)

/-- The stream is reported when it is reset, and again when its header block is malformed. -/
theorem reported_again : ¬∀ (cap : Capacity) (s₀ : Session cap) (calls : List Call) (streamId : ℕ),
    reports streamId (s₀.start.2.run calls).log ≤ 1 := by
  intro h
  have htwice : reports 1 ((init smallCapacity true false).start.2.run [.openStream smallRequest,
      .feed (some resetFrame) false, .feed (some malformedHeaders) false]).log = 2 := by
    decide
  have honce := h smallCapacity (init smallCapacity true false) [.openStream smallRequest,
    .feed (some resetFrame) false, .feed (some malformedHeaders) false] 1
  omega

end Session
end Castle.Http.Http2
