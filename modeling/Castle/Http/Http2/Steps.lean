import Mathlib.Logic.Relation
import Castle.Lib.Table
import Castle.Http.Http2.Api

/-!
# The steps that a session is made of

Every call is a sequence of the steps below.
-/

namespace Castle.Http.Http2

open Relation

instance : Slot StreamRecord ℕ := ⟨StreamRecord.used, StreamRecord.id⟩

/-- What does not belong to the assembly of the response. -/
structure StreamCore where
  id : ℕ
  used : Bool
  responseComplete : Bool
  reset : Bool
  sendWindow : ℤ
  receiveWindow : ℤ
  receiveCredit : ℕ
  requestBody : Bytes
  requestBodySentBytes : ℕ
  requestBodySent : Bool

def StreamRecord.core (stream : StreamRecord) : StreamCore :=
  ⟨stream.id, stream.used, stream.responseComplete, stream.reset, stream.sendWindow,
    stream.receiveWindow, stream.receiveCredit, stream.requestBody, stream.requestBodySentBytes,
    stream.requestBodySent⟩

def StreamRecord.shiftWindow (delta : ℤ) (stream : StreamRecord) : StreamRecord :=
  { stream with sendWindow := stream.sendWindow + delta }

/-- The effect of SETTINGS_INITIAL_WINDOW_SIZE on a stream. -/
def StreamRecord.adjustWindow (delta : ℤ) (stream : StreamRecord) : StreamRecord :=
  if stream.unfinished then stream.shiftWindow delta else stream

namespace Session

variable {cap : Capacity}

structure Quiet (s s' : Session cap) : Prop where
  streams : ∀ i, (s'.streams.get i).core = (s.streams.get i).core
  responseCallback : s'.responseCallback = s.responseCallback
  bodyCallback : s'.bodyCallback = s.bodyCallback
  output : s'.output = s.output
  nextStreamId : s'.nextStreamId = s.nextStreamId
  peerInitialWindow : s'.peerInitialWindow = s.peerInitialWindow
  peerMaxFrameSize : s'.peerMaxFrameSize = s.peerMaxFrameSize
  continuationStreamId : s'.continuationStreamId = s.continuationStreamId ∨ s'.continuationStreamId = 0
  connectionReceiveCredit : s'.connectionReceiveCredit = s.connectionReceiveCredit
  connectionSendWindow : s'.connectionSendWindow = s.connectionSendWindow
  connectionReceiveWindow : s'.connectionReceiveWindow = s.connectionReceiveWindow
  started : s'.started = s.started
  failed : s'.failed = false → s.failed = false
  log : s'.log = s.log

/-- A step of a session. Under `p`, no stream that is reset is reported for its header block. -/
inductive Step (p : Prop) (s : Session cap) : Session cap → Prop
  | quiet {s' : Session cap} (h : Quiet s s') : Step p s s'
  | received {frame : Frame} (hdata : frame.type ≠ .data) (hcredit : frame.type ≠ .windowUpdate) :
    Step p s (s.record (.received frame))
  /-- The connection fails before the frame has any effect. -/
  | refused {frame : Frame} (error : ErrorCode) :
    Step p s { s.record (.received frame) with error := error, failed := true }
  | discarded {frame : Frame} (hdata : frame.type = .data)
    (hissued : s.findStream frame.streamId = none → s.isIssuedStream frame.streamId = true)
    (h : ∀ i, s.findStream frame.streamId = some i → (s.streams.get i).reset = true)
    (hroom : (frame.length : ℤ) ≤ s.connectionReceiveWindow) :
    Step p s ((s.record (.received frame)).consumeWindow frame)
  | delivered {frame : Frame} {i : Fin cap.maxConcurrentStreams} (hdata : frame.type = .data)
    (hi : s.findStream frame.streamId = some i) (h : (s.streams.get i).unfinished = true)
    (hroom : (frame.length : ℤ) ≤ s.connectionReceiveWindow)
    (hroom' : (frame.length : ℤ) ≤ (s.streams.get i).receiveWindow) :
    Step p s (((s.record (.received frame)).consumeWindow frame).modifyStream i
      (consumeStreamWindow frame.length))
  /-- A DATA frame exceeds a window. -/
  | overrun (frame : Frame) (update : StreamRecord → StreamRecord) (i : Fin cap.maxConcurrentStreams)
    (h : update = id ∨ update = consumeStreamWindow frame.length) :
    Step p s { ((s.record (.received frame)).consumeWindow frame).modifyStream i update with
      error := .flowControlError
      failed := true }
  | body (streamId : ℕ) (chunk : Bytes) : Step p s (s.record (.body streamId chunk))
  | connectionCredit {frame : Frame} (htype : frame.type = .windowUpdate) (hid : frame.streamId = 0) :
    Step p s { s.record (.received frame) with
      connectionSendWindow :=
        s.connectionSendWindow + ((readU32 frame.payload % 2 ^ 31 : ℕ) : ℤ) }
  | streamCredit {frame : Frame} {i : Fin cap.maxConcurrentStreams}
    (htype : frame.type = .windowUpdate) (hid : frame.streamId ≠ 0)
    (hi : s.findStream frame.streamId = some i) :
    Step p s ((s.record (.received frame)).modifyStream i fun stream =>
      { stream with sendWindow := stream.sendWindow + ((readU32 frame.payload % 2 ^ 31 : ℕ) : ℤ) })
  | lateCredit {frame : Frame} (htype : frame.type = .windowUpdate) (hid : frame.streamId ≠ 0)
    (hi : s.findStream frame.streamId = none) : Step p s (s.record (.received frame))
  | initialWindow (value : ℕ) (hvalue : value ≤ 0x7fffffff) :
    Step p s { s with
      streams := s.streams.map (StreamRecord.adjustWindow (value - s.peerInitialWindow))
      peerInitialWindow := value }
  /-- A window overflows while the windows are adjusted. -/
  | windowFailure (shift : Fin cap.maxConcurrentStreams → ℤ) :
    Step p s { s with
      streams := s.streams.mapIdx fun i stream => stream.shiftWindow (shift i)
      error := .flowControlError
      failed := true }
  | maxFrameSize (value : ℕ) (hle : 16384 ≤ value) (hge : value ≤ 16777215) :
    Step p s { s with peerMaxFrameSize := value }
  | control {frame : Frame} {s' : Session cap}
    (htype : frame.type = .settings ∨ frame.type = .ping ∨ frame.type = .rstStream)
    (h : s.enqueueFrame frame = some s') : Step p s s'
  | chunk {i : Fin cap.maxConcurrentStreams} {s' : Session cap} (hfailed : s.failed = false)
    (h : s.sendChunk i = some (false, s')) : Step p s s'
  | replenishConnection (hfailed : s.failed = false) : Step p s s.replenishConnection
  | replenishStream (hfailed : s.failed = false) (i : Fin cap.maxConcurrentStreams) :
    Step p s (s.replenishStream i)
  | reset {i : Fin cap.maxConcurrentStreams} (result : Status)
    (h : (s.streams.get i).unfinished = true) : Step p s (s.resetStream i result)
  | headerFailure {i : Fin cap.maxConcurrentStreams} (result : Status)
    (hused : (s.streams.get i).used = true) (hcomplete : (s.streams.get i).responseComplete = false)
    (hreset : p → (s.streams.get i).reset = false) : Step p s (s.resetStream i result)
  | complete {i : Fin cap.maxConcurrentStreams} (h : (s.streams.get i).unfinished = true)
    (hcontinuation : s.continuationStreamId = 0) :
    Step p s ((s.modifyStream i fun stream => { stream with responseComplete := true }).notifyStream
      i .ok)
  | continuation {i : Fin cap.maxConcurrentStreams} (hused : (s.streams.get i).used = true)
    (hcomplete : (s.streams.get i).responseComplete = false) :
    Step p s { s with continuationStreamId := (s.streams.get i).id }
  | opened {i : Fin cap.maxConcurrentStreams} {request : Request} {block : Bytes} {fragments : ℕ}
    {s' : Session cap} (hfree : (s.streams.get i).used = false) (hstarted : s.started = true)
    (hfailed : s.failed = false) (hgoaway : s.goawayReceived = false)
    (hnext : s.nextStreamId ≤ 0x7fffffff)
    (hfragments : fragments = (block.length + s.peerMaxFrameSize - 1) / s.peerMaxFrameSize)
    (hblock : block ≠ [])
    (h : enqueueFrames (headerFrames s.nextStreamId s.peerMaxFrameSize fragments
      request.body.isEmpty fragments 0 block) (s.claimStream i request block) = some s') : Step p s s'
  | release {i : Fin cap.maxConcurrentStreams} (hused : (s.streams.get i).used = true)
    (h : (s.streams.get i).responseComplete = true ∨ (s.streams.get i).reset = true) :
    Step p s (s.modifyStream i fun _ => .free)
  | dequeue {count : ℕ} (hcount : count ≤ s.pendingOutputSize) :
    Step p s { s with output := s.output.dequeue count }

abbrev Steps (p : Prop) : Session cap → Session cap → Prop := ReflTransGen (Step p)

@[simp] theorem modifyStream_get_self (s : Session cap) (i : Fin cap.maxConcurrentStreams)
    (f : StreamRecord → StreamRecord) : (s.modifyStream i f).streams.get i = f (s.streams.get i) :=
  Table.get_modify_self _ _ _

@[simp] theorem modifyStream_get_ne (s : Session cap) {i j : Fin cap.maxConcurrentStreams}
    (f : StreamRecord → StreamRecord) (h : j ≠ i) :
    (s.modifyStream i f).streams.get j = s.streams.get j :=
  Table.get_modify_ne _ _ h

namespace Quiet

variable (s : Session cap)

theorem refl : Quiet s s :=
  ⟨fun _ => rfl, rfl, rfl, rfl, rfl, rfl, rfl, .inl rfl, rfl, rfl, rfl, rfl, id, rfl⟩

theorem modify (i : Fin cap.maxConcurrentStreams) {f : StreamRecord → StreamRecord}
    (hf : (f (s.streams.get i)).core = (s.streams.get i).core) : Quiet s (s.modifyStream i f) :=
  { refl s with
    streams := by
      intro j
      by_cases hj : j = i
      · rw [hj, modifyStream_get_self, hf]
      · rw [modifyStream_get_ne s f hj] }

theorem error (value : ErrorCode) : Quiet s { s with error := value } := { refl s with }

theorem fail (value : ErrorCode) : Quiet s { s with error := value, failed := true } :=
  { refl s with failed := fun h => absurd h (by simp) }

theorem parser (frameParser : FrameParser) : Quiet s { s with frameParser := frameParser } :=
  { refl s with }

theorem goaway (value : ErrorCode) (last : ℕ) :
    Quiet s { s with goawayReceived := true, error := value, lastStreamId := last } :=
  { refl s with }

theorem maxConcurrentStreams (value : ℕ) :
    Quiet s { s with peerMaxConcurrentStreams := value } :=
  { refl s with }

theorem noContinuation : Quiet s { s with continuationStreamId := 0 } :=
  { refl s with continuationStreamId := .inr rfl }

end Quiet

section Functions

variable {p : Prop}

theorem Step.steps {s s' : Session cap} (h : Step p s s') : Steps p s s' := ReflTransGen.single h

theorem Quiet.steps {s s' : Session cap} (h : Quiet s s') : Steps p s s' := (Step.quiet h).steps

variable (s : Session cap)

theorem resetStreams_steps (q : StreamRecord → Bool) (result : Status) :
    Steps p s (s.resetStreams q result) := by
  rw [resetStreams]
  generalize List.finRange cap.maxConcurrentStreams = l
  induction l generalizing s with
  | nil => exact ReflTransGen.refl
  | cons i l ih =>
    rw [List.foldl_cons]
    split
    next h =>
      rw [Bool.and_eq_true] at h
      exact (Step.reset result h.1).steps.trans (ih _)
    · exact ih s

theorem failConnection_steps (value : ErrorCode) : Steps p s (s.failConnection value).2 :=
  (Quiet.fail s value).steps.trans (resetStreams_steps _ (fun _ => true) (toStatus value))

theorem refuse_steps (frame : Frame) (value : ErrorCode) :
    Steps p s ((s.record (.received frame)).failConnection value).2 :=
  (Step.refused value).steps.trans (resetStreams_steps _ (fun _ => true) (toStatus value))

theorem control_steps {s s' : Session cap} {frame : Frame}
    (htype : frame.type = .settings ∨ frame.type = .ping ∨ frame.type = .rstStream)
    (h : s.enqueueFrame frame = some s') : Steps p s s' :=
  (Step.control htype h).steps

theorem enqueueFrame_eq {s s' : Session cap} {frame : Frame} (h : s.enqueueFrame frame = some s') :
    frame.length + 9 ≤ s.outputFree ∧ s' = (s.enqueueBytes frame.bytes).record (.queued frame) := by
  rw [enqueueFrame] at h
  split at h
  · cases h
  next hroom =>
    cases h
    exact ⟨not_lt.mp hroom, rfl⟩

variable {i : Fin cap.maxConcurrentStreams}

theorem abortStream_steps (reason : ErrorCode) (h : (s.streams.get i).unfinished = true) :
    Steps p s (s.abortStream i reason).2 := by
  rw [abortStream]
  split
  · exact failConnection_steps s _
  next s' hqueue =>
    have hs := (enqueueFrame_eq hqueue).2
    refine (control_steps (Or.inr (Or.inr rfl)) hqueue).trans ?_
    refine (Quiet.error s' reason).steps.trans (Step.steps ?_)
    refine Step.reset (toStatus reason) ?_
    rw [hs]
    exact h

/-- What `countChunk` makes of a stream -/
def counted (size : ℕ) (stream : StreamRecord) : StreamRecord :=
  { stream with
    requestBodySentBytes := stream.requestBodySentBytes + size
    sendWindow := stream.sendWindow - size
    requestBodySent := stream.requestBodySent || isLastChunk stream size }

theorem sendChunk_cases {s s' : Session cap} {stop : Bool} (h : s.sendChunk i = some (stop, s')) :
    (stop = true ∧ s' = s) ∨ (stop = false ∧ s.wantsChunk (s.streams.get i) = true ∧
      s.chunkSize (s.streams.get i) ≠ 0 ∧
      ∃ t, s.enqueueFrame (chunkFrame (s.streams.get i) (s.chunkSize (s.streams.get i))) = some t ∧
        s' = t.countChunk i (s.chunkSize (s.streams.get i))) := by
  rw [sendChunk] at h
  split at h
  · cases h
  next hwants =>
    split at h
    · cases h
      exact Or.inl ⟨rfl, rfl⟩
    · split at h
      · cases h
        exact Or.inl ⟨rfl, rfl⟩
      next hsize =>
        split at h
        · cases h
          exact Or.inl ⟨rfl, rfl⟩
        next t hqueue =>
          cases h
          exact Or.inr ⟨rfl, by simpa using hwants, hsize, t, hqueue, rfl⟩

theorem sendChunk_failed {s s' : Session cap} {stop : Bool} (h : s.sendChunk i = some (stop, s')) :
    s'.failed = s.failed := by
  obtain ⟨-, rfl⟩ | ⟨-, -, -, t, hqueue, rfl⟩ := sendChunk_cases h
  · rfl
  · rw [(enqueueFrame_eq hqueue).2]
    rfl

theorem pumpStream_keeps {P : Session cap → Prop}
    (h : ∀ s i s', P s → s.sendChunk i = some (false, s') → P s') (i : Fin cap.maxConcurrentStreams)
    (fuel : ℕ) {s : Session cap} (hs : P s) : P (pumpStream i fuel s).2 := by
  induction fuel generalizing s with
  | zero => exact hs
  | succ fuel ih =>
    rw [pumpStream]
    split
    · exact hs
    next s' hstop =>
      obtain ⟨-, rfl⟩ | ⟨hfalse, -⟩ := sendChunk_cases hstop
      · exact hs
      · cases hfalse
    next s' hchunk => exact ih (h s i s' hs hchunk)

theorem pumpStreams_keeps {P : Session cap → Prop}
    (h : ∀ s i s', P s → s.sendChunk i = some (false, s') → P s')
    (l : List (Fin cap.maxConcurrentStreams)) {s : Session cap} (hs : P s) :
    P (pumpStreams l s) := by
  induction l generalizing s with
  | nil => exact hs
  | cons i l ih =>
    have hpump := pumpStream_keeps h i (s.streams.get i).requestBody.length hs
    rw [pumpStreams]
    generalize pumpStream i (s.streams.get i).requestBody.length s = pumped at hpump
    obtain ⟨stop, s'⟩ := pumped
    cases stop with
    | true => exact hpump
    | false => exact ih hpump

theorem pumpRequestBodies_steps : Steps p s s.pumpRequestBodies.2 := by
  rw [pumpRequestBodies]
  split
  · exact ReflTransGen.refl
  next hfailed =>
    have hpump : Steps p s (pumpStreams (List.finRange _) s) ∧
        (pumpStreams (List.finRange _) s).failed = false := by
      refine pumpStreams_keeps (P := fun t => Steps p s t ∧ t.failed = false) ?_ _
        ⟨ReflTransGen.refl, by simpa using hfailed⟩
      rintro t i t' ⟨hsteps, hfailed⟩ hchunk
      exact ⟨hsteps.tail (Step.chunk hfailed hchunk), (sendChunk_failed hchunk).trans hfailed⟩
    exact hpump.1

theorem replenishConnection_failed : s.replenishConnection.failed = s.failed := by
  rw [replenishConnection]
  split
  · split
    · rfl
    next s' hqueue =>
      rw [(enqueueFrame_eq hqueue).2]
      rfl
  · rfl

theorem replenishStream_failed (i : Fin cap.maxConcurrentStreams) :
    (s.replenishStream i).failed = s.failed := by
  rw [replenishStream]
  split
  · split
    · rfl
    next s' hqueue =>
      rw [(enqueueFrame_eq hqueue).2]
      rfl
  · rfl

theorem replenishReceiveWindows_steps (hfailed : s.failed = false) :
    Steps p s s.replenishReceiveWindows := by
  rw [replenishReceiveWindows]
  have hstart := s.replenishConnection_failed.trans hfailed
  refine (Step.replenishConnection hfailed).steps.trans ?_
  generalize s.replenishConnection = t at hstart
  generalize List.finRange cap.maxConcurrentStreams = l
  induction l generalizing t with
  | nil => exact ReflTransGen.refl
  | cons i l ih =>
    rw [List.foldl_cons]
    exact (Step.replenishStream hstart i).steps.trans
      (ih _ ((t.replenishStream_failed i).trans hstart))

theorem pump_steps : Steps p s s.pump.2 := by
  rw [pump]
  split
  next hfailed =>
    exact (replenishReceiveWindows_steps s (by simpa using hfailed)).trans (pumpRequestBodies_steps _)
  · exact pumpRequestBodies_steps s

theorem failConnection_ne_ok {value : ErrorCode} (h : value ≠ .ok) :
    (s.failConnection value).1 ≠ .ok := fun hok => h (toStatus_eq_ok_iff.mp hok)

def adjusted (delta : ℤ) (l : List (Fin cap.maxConcurrentStreams)) (s : Session cap) : Session cap :=
  { s with streams :=
    s.streams.mapIdx fun i stream => if i ∈ l then stream.adjustWindow delta else stream }

def shifted (shift : Fin cap.maxConcurrentStreams → ℤ) (s : Session cap) : Session cap :=
  { s with streams := s.streams.mapIdx fun i stream => stream.shiftWindow (shift i) }

theorem streams_ext {t u : Table cap.maxConcurrentStreams StreamRecord} (h : ∀ i, t.get i = u.get i)
    : { s with streams := t } = { s with streams := u } := by
  rw [Table.ext_get h]

theorem modify_shift (i : Fin cap.maxConcurrentStreams) (delta : ℤ) :
    (s.modifyStream i fun stream => stream.shiftWindow delta) =
      shifted (fun j => if j = i then delta else 0) s := by
  refine streams_ext s fun j => ?_
  rw [Table.get_modify, Table.get_mapIdx]
  dsimp only
  split
  · rfl
  · simp [StreamRecord.shiftWindow]

theorem shifted_shifted (shift shift' : Fin cap.maxConcurrentStreams → ℤ) (s : Session cap) :
    shifted shift' (shifted shift s) = shifted (fun j => shift j + shift' j) s := by
  refine streams_ext s fun j => ?_
  simp [shifted, StreamRecord.shiftWindow, add_assoc]

theorem adjustWindows_cases (delta : ℤ) {l : List (Fin cap.maxConcurrentStreams)}
    (hl : l.Nodup) (s : Session cap) : adjustWindows delta l s = (.ok, adjusted delta l s) ∨
    ∃ shift, adjustWindows delta l s = (shifted shift s).failConnection .flowControlError := by
  induction l generalizing s with
  | nil =>
    left
    refine Prod.ext rfl (streams_ext s fun j => ?_)
    simp
  | cons i l ih =>
    obtain ⟨hi, hl⟩ := List.nodup_cons.mp hl
    rw [adjustWindows]
    split
    next hunfinished =>
      have hshift := modify_shift s i delta
      dsimp only [StreamRecord.shiftWindow] at hshift
      dsimp only
      rw [hshift]
      split
      · exact Or.inr ⟨_, rfl⟩
      · split
        · exact Or.inr ⟨_, rfl⟩
        · obtain hok | ⟨shift, hfail⟩ := ih hl (shifted (fun j => if j = i then delta else 0) s)
          · left
            rw [hok]
            refine Prod.ext rfl (streams_ext s fun j => ?_)
            simp only [shifted, Table.get_mapIdx, List.mem_cons]
            by_cases hj : j = i
            · subst hj
              simp [hi, StreamRecord.adjustWindow, hunfinished]
            · simp [hj, StreamRecord.shiftWindow]
          · exact Or.inr ⟨_, hfail.trans (by rw [shifted_shifted])⟩
    next hfinished =>
      obtain hok | hfail := ih hl s
      · left
        rw [hok]
        refine Prod.ext rfl (streams_ext s fun j => ?_)
        simp only [Table.get_mapIdx, List.mem_cons]
        by_cases hj : j = i
        · subst hj
          simp [hi, StreamRecord.adjustWindow, hfinished]
        · simp [hj]
      · exact Or.inr hfail

theorem applySetting_steps (id value : ℕ) : Steps p s (s.applySetting id value).2 := by
  rw [applySetting]
  split
  · exact failConnection_steps s _
  · split
    · exact (Quiet.maxConcurrentStreams s value).steps
    · split
      · split
        · exact failConnection_steps s _
        next hvalue =>
          obtain hok | ⟨shift, hfail⟩ := adjustWindows_cases (value - s.peerInitialWindow)
            (List.nodup_finRange cap.maxConcurrentStreams) s
          · have hall : adjusted (value - s.peerInitialWindow) (List.finRange _) s =
                { s with streams :=
                  s.streams.map (StreamRecord.adjustWindow (value - s.peerInitialWindow)) } :=
              streams_ext s fun j => by simp
            rw [hok, hall]
            exact (Step.initialWindow value (not_lt.mp hvalue)).steps
          · rw [hfail]
            have hne := failConnection_ne_ok (shifted shift s)
              (show ErrorCode.flowControlError ≠ .ok by decide)
            dsimp only
            rw [if_pos hne]
            exact (Step.windowFailure shift).steps.trans
              (resetStreams_steps _ (fun _ => true) (toStatus .flowControlError))
      · split
        · split
          · exact failConnection_steps s _
          next hvalue =>
            rw [not_or, not_lt, not_lt] at hvalue
            exact (Step.maxFrameSize value hvalue.1 hvalue.2).steps
        · exact ReflTransGen.refl

theorem applySettings_steps (payload : Bytes) (s : Session cap) :
    Steps p s (applySettings payload s).2 := by
  induction payload, s using applySettings.induct with
  | case1 a b c d e f payload s result s' hresult hne =>
    rw [applySettings, hresult]
    dsimp only
    rw [if_pos hne]
    have hsteps := applySetting_steps (p := p) s (a.toNat * 2 ^ 8 + b.toNat) (readU32 [c, d, e, f])
    rw [hresult] at hsteps
    exact hsteps
  | case2 a b c d e f payload s result s' hresult hok ih =>
    rw [applySettings, hresult]
    dsimp only
    rw [if_neg hok]
    have hsteps := applySetting_steps (p := p) s (a.toNat * 2 ^ 8 + b.toNat) (readU32 [c, d, e, f])
    rw [hresult] at hsteps
    exact hsteps.trans ih
  | case3 payload s hshort =>
    rw [applySettings.eq_def]
    split
    · exact absurd rfl (hshort _ _ _ _ _ _ _)
    · exact ReflTransGen.refl

theorem handleSettings_steps (frame : Frame) : Steps p s (s.handleSettings frame).2 := by
  rw [handleSettings]
  split
  · exact ReflTransGen.refl
  · have hsteps := applySettings_steps (p := p) frame.payload s
    generalize applySettings frame.payload s = applied at hsteps
    obtain ⟨result, t⟩ := applied
    dsimp only
    split
    · exact hsteps
    · refine hsteps.trans ?_
      split
      · exact failConnection_steps t _
      next t' hqueue =>
        exact (control_steps (Or.inl rfl) hqueue).trans (pumpRequestBodies_steps t')

theorem handlePing_steps (frame : Frame) : Steps p s (s.handlePing frame).2 := by
  rw [handlePing]
  split
  · split
    · exact failConnection_steps s _
    next s' hqueue => exact control_steps (Or.inr (Or.inl rfl)) hqueue
  · exact ReflTransGen.refl

theorem handleGoaway_steps (frame : Frame) : Steps p s (s.handleGoaway frame).2 :=
  (Quiet.goaway s .goawayReceived (readU32 frame.payload % 2 ^ 31)).steps.trans
    (resetStreams_steps _ (fun stream => stream.id > readU32 frame.payload % 2 ^ 31) .dataLoss)

theorem handleWindowUpdate_steps {frame : Frame} (htype : frame.type = .windowUpdate) :
    Steps p s ((s.record (.received frame)).handleWindowUpdate frame).2 := by
  rw [handleWindowUpdate]
  dsimp only
  split
  · exact refuse_steps s frame _
  · split
    next hid =>
      refine (Step.connectionCredit htype hid).steps.trans ?_
      split
      · exact failConnection_steps _ _
      · exact pumpRequestBodies_steps _
    next hid =>
      split
      next hi =>
        have hnone : s.findStream frame.streamId = none := hi
        exact (Step.lateCredit htype hid hnone).steps
      next i hi =>
        have hsome : s.findStream frame.streamId = some i := hi
        refine (Step.streamCredit htype hid hsome).steps.trans ?_
        split
        · exact failConnection_steps _ _
        · exact pumpRequestBodies_steps _

theorem findStream_some {s : Session cap} {id : ℕ} (h : s.findStream id = some i) :
    (s.streams.get i).used = true ∧ (s.streams.get i).id = id := by
  have hp := Table.firstIdx_some h
  simpa using hp

theorem handleRstStream_steps (frame : Frame) : Steps p s (s.handleRstStream frame).2 := by
  rw [handleRstStream]
  split
  · exact ReflTransGen.refl
  next i hi =>
    split
    · exact ReflTransGen.refl
    next hopen =>
      refine (Quiet.error s .streamReset).steps.trans (Step.reset .dataLoss ?_).steps
      have hused := (findStream_some hi).1
      simp only [Bool.or_eq_true, not_or, Bool.not_eq_true] at hopen
      simp [StreamRecord.unfinished, hused, hopen]

theorem appendHeaderFragment_steps {data : Bytes} (hused : (s.streams.get i).used = true)
    (hcomplete : (s.streams.get i).responseComplete = false)
    (hp : p → (s.streams.get i).reset = true →
      data.length ≤ cap.maxHeaderBlockSize - (s.streams.get i).headerBlock.length) :
    Steps p s (s.appendHeaderFragment i data).2 := by
  rw [appendHeaderFragment]
  split
  next hlong =>
    have hreset : p → (s.streams.get i).reset = false := by
      intro h
      by_contra hreset
      have hfits := hp h (by simpa using hreset)
      omega
    refine (Quiet.error s .headerLimit).steps.trans (Step.steps ?_)
    exact Step.headerFailure _ hused hcomplete hreset
  · exact (Quiet.modify s i rfl).steps

theorem finishResponse_steps (h : (s.streams.get i).unfinished = true)
    (hcontinuation : s.continuationStreamId = 0) : Steps p s (s.finishResponse i).2 := by
  rw [finishResponse]
  split
  · exact failConnection_steps s _
  · exact (Step.complete h hcontinuation).steps

variable (trailerBlock : Bool)

theorem checkField_stream (check : FieldCheck) (field : Field) :
    ∃ statusCode seen length, (checkField trailerBlock check field).stream =
      { check.stream with
        statusCode := statusCode
        contentLengthSeen := seen
        expectedBodyLength := length } := by
  rw [checkField]
  split
  · split
    · exact ⟨_, _, _, rfl⟩
    · split <;> exact ⟨_, _, _, rfl⟩
  · dsimp only
    split
    · exact ⟨_, _, _, rfl⟩
    · split
      · split
        · exact ⟨_, _, _, rfl⟩
        · split <;> exact ⟨_, _, _, rfl⟩
      · exact ⟨_, _, _, rfl⟩

theorem checkFields_stream (fields : List Field) (check : FieldCheck) :
    ∃ statusCode seen length, (checkFields trailerBlock fields check).stream =
      { check.stream with
        statusCode := statusCode
        contentLengthSeen := seen
        expectedBodyLength := length } := by
  induction fields generalizing check with
  | nil => exact ⟨_, _, _, rfl⟩
  | cons field fields ih =>
    rw [checkFields]
    have hfirst := checkField_stream trailerBlock check field
    split
    · obtain ⟨_, _, _, hfirst⟩ := hfirst
      obtain ⟨_, _, _, hrest⟩ := ih (checkField trailerBlock check field)
      exact ⟨_, _, _, hrest.trans (by rw [hfirst])⟩
    · exact hfirst

theorem core_unfinished {r r' : StreamRecord} (h : r'.core = r.core) : r'.unfinished = r.unfinished := by
  have hused := congrArg StreamCore.used h
  have hcomplete := congrArg StreamCore.responseComplete h
  have hreset := congrArg StreamCore.reset h
  dsimp only [StreamRecord.core] at hused hcomplete hreset
  rw [StreamRecord.unfinished, StreamRecord.unfinished, hused, hcomplete, hreset]

/-- A stream that takes a header block or data, outside of a header block. -/
structure Takes (s : Session cap) (i : Fin cap.maxConcurrentStreams) : Prop where
  unfinished : (s.streams.get i).unfinished = true
  continuation : s.continuationStreamId = 0

theorem Takes.quiet {s s' : Session cap} (h : s.Takes i) (hs : Quiet s s') : s'.Takes i where
  unfinished := (core_unfinished (hs.streams i)).trans h.unfinished
  continuation := hs.continuationStreamId.elim (fun heq => heq.trans h.continuation) id

theorem finishFields_steps (firstField : ℕ) (h : s.Takes i) :
    Steps p s (s.finishFields i trailerBlock firstField).2 := by
  rw [finishFields]
  dsimp only
  generalize hcheck : checkFields trailerBlock ((s.streams.get i).headers.drop firstField)
    ⟨true, false, false, s.streams.get i⟩ = check
  have hcore : check.stream.core = (s.streams.get i).core := by
    obtain ⟨_, _, _, hstream⟩ := checkFields_stream _ _ _
    rw [← hcheck, hstream]
    rfl
  have hchecked : Quiet s (s.modifyStream i fun _ => check.stream) := Quiet.modify s i hcore
  refine hchecked.steps.trans ?_
  replace h := h.quiet hchecked
  generalize (s.modifyStream i fun _ => check.stream) = t at h
  split
  · exact failConnection_steps t _
  · split
    · exact failConnection_steps t _
    · have hviews : Quiet t (t.modifyStream i fun stream =>
          buildHeaderViews cap.maxHeaders { stream with headersReceived := true }) :=
        Quiet.modify t i rfl
      refine hviews.steps.trans ?_
      replace h := h.quiet hviews
      generalize (t.modifyStream i fun stream =>
        buildHeaderViews cap.maxHeaders { stream with headersReceived := true }) = u at h
      split
      · split
        · exact failConnection_steps u _
        · exact (Quiet.modify u i rfl).steps
      · split
        · have hend : Quiet u (u.modifyStream i fun stream =>
              { stream with endStreamAfterHeaders := false }) := Quiet.modify u i rfl
          exact hend.steps.trans (finishResponse_steps _ (h.quiet hend).unfinished
            (h.quiet hend).continuation)
        · exact ReflTransGen.refl

/-- A block that ends is refused before it is decoded, or it is decoded. -/
def blockAccepted (s : Session cap) (stream : StreamRecord) : Bool :=
  (stream.headersReceived && !stream.endStreamAfterHeaders) ||
    (s.hpack.decodeBlock (Headers.add cap.headers) stream.headerBlock stream.headers).1 = .ok

/-- A fragment fits, and the block that ends with it is accepted. -/
def fragmentAccepted (s : Session cap) (stream : StreamRecord) (fragment : Bytes)
    (endHeaders : Bool) : Bool :=
  fragment.length ≤ cap.maxHeaderBlockSize - stream.headerBlock.length &&
    (!endHeaders || s.blockAccepted { stream with headerBlock := stream.headerBlock ++ fragment })

theorem fragmentAccepted_iff {s : Session cap} {stream : StreamRecord} {fragment : Bytes} {endHeaders : Bool} :
    s.fragmentAccepted stream fragment endHeaders = true ↔
      fragment.length ≤ cap.maxHeaderBlockSize - stream.headerBlock.length ∧ (endHeaders = true →
        s.blockAccepted { stream with headerBlock := stream.headerBlock ++ fragment } = true) := by
  rw [fragmentAccepted, Bool.and_eq_true, decide_eq_true_eq, Bool.or_eq_true, Bool.not_eq_true', imp_iff_not_or,
    Bool.not_eq_true]

/-- A frame is part of a header block that fails on a stream that is reset. -/
def failsOnReset (s : Session cap) (frame : Frame) : Bool :=
  match s.findStream frame.streamId with
  | none => false
  | some i =>
    let stream := s.streams.get i
    let endHeaders : Bool := frame.flags &&& 0x04 ≠ 0
    stream.reset &&
      if frame.type = .headers then
        s.continuationStreamId = 0 && !stream.responseComplete &&
          match unpad (frame.flags &&& 0x08 ≠ 0) (frame.flags &&& 0x20 ≠ 0) frame.payload with
          | none => false
          | some fragment =>
            !s.fragmentAccepted { stream with endStreamAfterHeaders := frame.flags &&& 0x01 ≠ 0 }
              fragment endHeaders
      else
        frame.type = .continuation && s.continuationStreamId ≠ 0 &&
          frame.streamId = s.continuationStreamId &&
          !s.fragmentAccepted stream frame.payload endHeaders

theorem finishHeaderBlock_steps (hused : (s.streams.get i).used = true)
    (hcomplete : (s.streams.get i).responseComplete = false)
    (hcontinuation : s.continuationStreamId = 0)
    (hp : p → (s.streams.get i).reset = true → s.blockAccepted (s.streams.get i) = true) :
    Steps p s (s.finishHeaderBlock i).2 := by
  rw [finishHeaderBlock]
  dsimp only
  split
  · exact failConnection_steps s _
  next htrailer =>
    rw [blockAccepted] at hp
    generalize hdecode : s.hpack.decodeBlock (Headers.add cap.headers) (s.streams.get i).headerBlock
      (s.streams.get i).headers = decode at hp
    obtain ⟨decoded, hpack, headers⟩ := decode
    dsimp only at hp ⊢
    have hquiet : Quiet s ({ s with hpack := hpack }.modifyStream i fun stream =>
        { stream with headers := headers, headerBlock := [] }) :=
      { Quiet.modify s i (f := fun stream =>
          { stream with headers := headers, headerBlock := [] }) rfl with }
    refine hquiet.steps.trans ?_
    split
    next hfail =>
      have hreset : p → (s.streams.get i).reset = false := by
        intro h
        by_contra hreset
        have haccepted := hp h (by simpa using hreset)
        rw [Bool.or_eq_true, decide_eq_true_eq] at haccepted
        exact haccepted.elim htrailer hfail
      refine (Quiet.error _ (Hpack.Decoder.blockError decoded)).steps.trans (Step.steps ?_)
      exact Step.headerFailure _ (by simpa using hused) (by simpa using hcomplete)
        (by simpa using hreset)
    · split
      · exact (Quiet.modify _ i rfl).steps
      next hreset =>
        have htakes : s.Takes i :=
          ⟨by simp [StreamRecord.unfinished, hused, hcomplete, hreset], hcontinuation⟩
        exact finishFields_steps _ _ _ (htakes.quiet hquiet)

theorem appendHeaderFragment_cases (i : Fin cap.maxConcurrentStreams) (data : Bytes) :
    (s.appendHeaderFragment i data).1 ≠ .ok ∨
      s.appendHeaderFragment i data = (.ok, s.modifyStream i fun stream =>
        { stream with headerBlock := stream.headerBlock ++ data }) := by
  rw [appendHeaderFragment]
  split
  · left
    show toStatus .headerLimit ≠ .ok
    decide
  · exact Or.inr rfl

theorem handleHeaders_steps {frame : Frame} (htype : frame.type = .headers)
    (hcontinuation : s.continuationStreamId = 0) (hp : p → s.failsOnReset frame = false) :
    Steps p s (s.handleHeaders frame).2 := by
  rw [handleHeaders]
  rw [failsOnReset] at hp
  split
  · exact failConnection_steps s _
  next i hi =>
    have hused := (findStream_some hi).1
    split
    · exact failConnection_steps s _
    next hcomplete =>
      rw [Bool.not_eq_true] at hcomplete
      split
      · exact failConnection_steps s _
      next fragment hfragment =>
        have haccepted : p → (s.streams.get i).reset = true → s.fragmentAccepted
            { s.streams.get i with endStreamAfterHeaders := frame.flags &&& 0x01 ≠ 0 } fragment
            (decide (frame.flags &&& 0x04 ≠ 0)) = true := by
          intro h hreset
          have hfails := hp h
          rw [hi, Bool.and_eq_false_iff] at hfails
          have hfails' := hfails.resolve_left (by rw [hreset]; decide)
          rw [if_pos htype, hfragment] at hfails'
          simpa [hcontinuation, hcomplete] using hfails'
        refine (appendHeaderFragment_steps s hused hcomplete fun h hreset =>
          (fragmentAccepted_iff.mp (haccepted h hreset)).1).trans ?_
        obtain hfail | hok := appendHeaderFragment_cases s i fragment
        · dsimp only
          rw [if_pos hfail]
        · rw [hok]
          dsimp only
          rw [if_neg (not_not.mpr rfl)]
          generalize ht : (s.modifyStream i fun stream =>
            { stream with headerBlock := stream.headerBlock ++ fragment }) = t
          have hend : Quiet t (t.modifyStream i fun stream =>
              { stream with endStreamAfterHeaders := frame.flags &&& 0x01 ≠ 0 }) :=
            Quiet.modify t i rfl
          refine hend.steps.trans ?_
          subst ht
          split
          next hflag =>
            refine finishHeaderBlock_steps _ (by simpa using hused) (by simpa using hcomplete)
              hcontinuation ?_
            intro h hreset
            rw [modifyStream_get_self, modifyStream_get_self]
            exact (fragmentAccepted_iff.mp (haccepted h (by simpa using hreset))).2 (decide_eq_true hflag)
          · exact (Step.continuation (by simpa using hused) (by simpa using hcomplete)).steps

theorem handleContinuation_steps {frame : Frame} (htype : frame.type = .continuation)
    (hopen : ∀ i, s.continuationStreamId ≠ 0 → s.findStream s.continuationStreamId = some i →
      (s.streams.get i).responseComplete = false) (hp : p → s.failsOnReset frame = false) :
    Steps p s (s.handleContinuation frame).2 := by
  rw [handleContinuation]
  rw [failsOnReset] at hp
  split
  · exact failConnection_steps s _
  next hid =>
    rw [not_or, not_not] at hid
    split
    · exact failConnection_steps s _
    next i hi =>
      have hused := (findStream_some hi).1
      have hcomplete := hopen i hid.1 (hid.2 ▸ hi)
      have haccepted : p → (s.streams.get i).reset = true → s.fragmentAccepted
          (s.streams.get i) frame.payload (decide (frame.flags &&& 0x04 ≠ 0)) = true := by
        intro h hreset
        have hfails := hp h
        rw [hi, Bool.and_eq_false_iff] at hfails
        have hfails' := hfails.resolve_left (by rw [hreset]; decide)
        rw [if_neg (by rw [htype]; decide)] at hfails'
        simpa [htype, hid.1, hid.2] using hfails'
      refine (appendHeaderFragment_steps s hused hcomplete fun h hreset =>
        (fragmentAccepted_iff.mp (haccepted h hreset)).1).trans ?_
      obtain hfail | hok := appendHeaderFragment_cases s i frame.payload
      · dsimp only
        rw [if_pos hfail]
      · rw [hok]
        dsimp only
        rw [if_neg (not_not.mpr rfl)]
        split
        next hflag =>
          refine (Quiet.noContinuation _).steps.trans ?_
          refine finishHeaderBlock_steps _ (by simpa using hused) (by simpa using hcomplete) rfl ?_
          intro h hreset
          have hget := modifyStream_get_self s i fun stream =>
            { stream with headerBlock := stream.headerBlock ++ frame.payload }
          dsimp only
          rw [hget]
          exact (fragmentAccepted_iff.mp (haccepted h (by simpa using hreset))).2 (decide_eq_true hflag)
        · exact ReflTransGen.refl

theorem endData_steps (frame : Frame) (h : s.Takes i) : Steps p s (s.endData i frame).2 := by
  rw [endData]
  split
  · exact finishResponse_steps s h.unfinished h.continuation
  · exact ReflTransGen.refl

theorem handleBody_steps (frame : Frame) (h : s.Takes i) : Steps p s (s.handleBody i frame).2 := by
  rw [handleBody]
  split
  · exact failConnection_steps s _
  next chunk hchunk =>
    dsimp only
    split
    · exact failConnection_steps s _
    · split
      · exact failConnection_steps s _
      · split
        · generalize ht : (if s.bodyCallback then
            s.record (.body (s.streams.get i).id chunk) else s) = t
          have hreport : Steps p s t ∧ t.Takes i := by
            rw [← ht]
            split
            · exact ⟨(Step.body _ _).steps, h.unfinished, h.continuation⟩
            · exact ⟨ReflTransGen.refl, h⟩
          have hkeep : Quiet t (t.modifyStream i (keepChunk cap.maxBodySize chunk)) :=
            Quiet.modify t i rfl
          refine hreport.1.trans (hkeep.steps.trans ?_)
          have htakes := hreport.2.quiet hkeep
          generalize t.modifyStream i (keepChunk cap.maxBodySize chunk) = u at htakes
          split
          · exact abortStream_steps u _ htakes.unfinished
          · have hcount : Quiet u (u.modifyStream i fun stream => { stream with
                bodyStreamed := stream.bodyStreamed ||
                  min (cap.maxBodySize - (s.streams.get i).body.length) chunk.length ≠ chunk.length
                bodyReceived := stream.bodyReceived + chunk.length }) := Quiet.modify u i rfl
            exact hcount.steps.trans (endData_steps _ frame (htakes.quiet hcount))
        · exact endData_steps s frame h

theorem modifyStream_id (i : Fin cap.maxConcurrentStreams) : s.modifyStream i id = s := by
  refine (streams_ext s fun j => ?_).trans (rfl : { s with streams := s.streams } = s)
  rw [Table.get_modify]
  split <;> rfl

theorem discard_steps {frame : Frame} (htype : frame.type = .data)
    (hissued : s.findStream frame.streamId = none → s.isIssuedStream frame.streamId = true)
    (h : ∀ i, s.findStream frame.streamId = some i → (s.streams.get i).reset = true) :
    Steps p s (if ((s.record (.received frame)).consumeWindow frame).connectionReceiveWindow < 0 then
      ((s.record (.received frame)).consumeWindow frame).failConnection .flowControlError
      else (.ok, (s.record (.received frame)).consumeWindow frame)).2 := by
  have hwindow : ((s.record (.received frame)).consumeWindow frame).connectionReceiveWindow =
      s.connectionReceiveWindow - frame.length := rfl
  split
  · have hstep : Step p s _ := Step.overrun frame id ⟨0, cap.maxConcurrentStreams_pos⟩ (Or.inl rfl)
    rw [modifyStream_id] at hstep
    exact hstep.steps.trans (resetStreams_steps _ (fun _ => true) (toStatus .flowControlError))
  next hroom =>
    rw [hwindow] at hroom
    exact (Step.discarded htype hissued h (by omega)).steps

theorem handleData_steps {frame : Frame} (htype : frame.type = .data)
    (hcontinuation : s.continuationStreamId = 0) :
    Steps p s ((s.record (.received frame)).handleData frame).2 := by
  have hfind : (s.record (.received frame)).findStream frame.streamId =
      s.findStream frame.streamId := rfl
  rw [handleData, hfind]
  split
  next hnone =>
    split
    · exact refuse_steps s frame _
    next hissued =>
      have hissued' : ¬(!s.isIssuedStream frame.streamId) = true := hissued
      rw [Bool.not_eq_true, Bool.not_eq_false'] at hissued'
      exact discard_steps s htype (fun _ => hissued') (by simp [hnone])
  next i hi =>
    dsimp only
    split
    next hreset =>
      refine discard_steps s htype (by simp [hi]) ?_
      intro j hj
      rw [hi] at hj
      cases hj
      exact hreset
    next hreset =>
      split
      · exact refuse_steps s frame _
      next hopen =>
        have hunfinished : (s.streams.get i).unfinished = true := by
          have hused := (findStream_some hi).1
          have hopen' : ¬(!(s.streams.get i).headersReceived ||
            (s.streams.get i).responseComplete) = true := hopen
          have hreset' : ¬(s.streams.get i).reset = true := hreset
          simp only [Bool.or_eq_true, not_or, Bool.not_eq_true] at hopen' hreset'
          simp [StreamRecord.unfinished, hused, hopen'.2, hreset']
        split
        · exact (Step.overrun frame (consumeStreamWindow frame.length) i (Or.inr rfl)).steps.trans
            (resetStreams_steps _ (fun _ => true) (toStatus .flowControlError))
        next hroom =>
          rw [modifyStream_get_self, Bool.or_eq_true, decide_eq_true_eq, decide_eq_true_eq, not_or,
            not_lt, not_lt] at hroom
          obtain ⟨hroom, hroom'⟩ := hroom
          have hroom₁ : (0 : ℤ) ≤ s.connectionReceiveWindow - frame.length := hroom
          have hroom₂ : (0 : ℤ) ≤ (s.streams.get i).receiveWindow - frame.length := hroom'
          have hstep : Step p s _ := Step.delivered htype hi hunfinished (by omega) (by omega)
          refine hstep.steps.trans (handleBody_steps _ frame ⟨?_, hcontinuation⟩)
          rw [modifyStream_get_self]
          exact hunfinished

/-- The stream of an unfinished header block has not completed its response. -/
def ContinuationOpen (s : Session cap) : Prop :=
  ∀ i, s.continuationStreamId ≠ 0 → s.findStream s.continuationStreamId = some i →
    (s.streams.get i).responseComplete = false

theorem receive_steps (frame : Frame) (hopen : s.ContinuationOpen)
    (hp : p → s.failsOnReset frame = false) : Steps p s (receive frame s).2 := by
  rw [receive, handleFrame]
  split
  · exact refuse_steps s frame _
  next hcontinuation =>
    have hcont : frame.type ≠ .continuation → s.continuationStreamId = 0 := by
      intro hne
      by_contra h
      exact hcontinuation ⟨h, hne⟩
    have hreceived (hdata : frame.type ≠ .data) (hcredit : frame.type ≠ .windowUpdate) :
        Steps p s (s.record (.received frame)) := (Step.received hdata hcredit).steps
    split
    next h => exact handleData_steps s h (hcont (by simp [h]))
    next h =>
      refine (hreceived (by simp [h]) (by simp [h])).trans ?_
      exact handleHeaders_steps _ h (hcont (by simp [h])) hp
    next h => exact hreceived (by simp [h]) (by simp [h])
    next h => exact (hreceived (by simp [h]) (by simp [h])).trans (handleRstStream_steps _ frame)
    next h => exact (hreceived (by simp [h]) (by simp [h])).trans (handleSettings_steps _ frame)
    next h => exact refuse_steps s frame _
    next h => exact (hreceived (by simp [h]) (by simp [h])).trans (handlePing_steps _ frame)
    next h => exact (hreceived (by simp [h]) (by simp [h])).trans (handleGoaway_steps _ frame)
    next h => exact handleWindowUpdate_steps s h
    next h =>
      refine (hreceived (by simp [h]) (by simp [h])).trans ?_
      exact handleContinuation_steps _ h hopen hp
    next h => exact hreceived (by simp [h]) (by simp [h])

theorem frame_bytes_length (frame : Frame) : frame.bytes.length = frame.length + 9 := by
  simp [Frame.bytes, writeU32, Frame.length]

/-- What the frames of a list take in the queue. -/
def framesSize (frames : List Frame) : ℕ := (frames.map fun frame => frame.length + 9).sum

theorem enqueueFrames_eq {frames : List Frame} {s : Session cap}
    (hsize : s.output.size ≤ cap.maxOutputSize)
    (hroom : framesSize frames ≤ s.outputFree) : ∃ output, enqueueFrames frames s =
      some { s with output := output, log := s.log ++ frames.map .queued } := by
  induction frames generalizing s with
  | nil => exact ⟨s.output, by simp [enqueueFrames]⟩
  | cons frame frames ih =>
    have hfree : s.outputFree = cap.maxOutputSize - s.output.size := rfl
    rw [framesSize, List.map_cons, List.sum_cons, hfree] at hroom
    have hfirst : s.enqueueFrame frame = some ((s.enqueueBytes frame.bytes).record (.queued frame)) := by
      rw [enqueueFrame, if_neg (by rw [hfree]; omega)]
    have hsize' : ((s.enqueueBytes frame.bytes).record (.queued frame)).output.size =
        s.output.size + (frame.length + 9) := by
      rw [← frame_bytes_length]
      rfl
    obtain ⟨output, hrest⟩ := ih (s := (s.enqueueBytes frame.bytes).record (.queued frame))
      (by rw [hsize']; omega) (by
        show framesSize frames ≤ cap.maxOutputSize - _
        rw [hsize', framesSize]
        omega)
    refine ⟨output, ?_⟩
    rw [enqueueFrames, hfirst, Option.bind_eq_bind, Option.bind_some, hrest]
    simp [record, enqueueBytes]

theorem headerFrames_size (streamId maxFrameSize fragments : ℕ) (endStream : Bool) (count index : ℕ)
    (block : Bytes) :
    framesSize (headerFrames streamId maxFrameSize fragments endStream count index block) ≤
      block.length + count * 9 := by
  induction count generalizing index block with
  | zero => exact Nat.zero_le _
  | succ count ih =>
    have hrest := ih (index + 1) (block.drop maxFrameSize)
    rw [framesSize] at hrest
    rw [headerFrames, framesSize, List.map_cons, List.sum_cons, Frame.length, List.length_take]
    rw [List.length_drop] at hrest
    omega

/-- How many frames a header block takes. -/
def fragmentCount (s : Session cap) (block : Bytes) : ℕ :=
  (block.length + s.peerMaxFrameSize - 1) / s.peerMaxFrameSize

theorem fragmentCount_pos {s : Session cap} {block : Bytes} (hblock : block ≠ [])
    (hmax : 0 < s.peerMaxFrameSize) : 0 < s.fragmentCount block := by
  have hlen := List.length_pos_of_ne_nil hblock
  exact Nat.div_pos (by omega) hmax

theorem sendRequest_cases (request : Request) {block : Bytes} (hblock : block ≠ [])
    (hsize : s.output.size ≤ cap.maxOutputSize) (hmax : 0 < s.peerMaxFrameSize) :
    (∃ value, s.sendRequest request block = (.full, 0, { s with error := value })) ∨
      ∃ i t, (s.streams.get i).used = false ∧
        enqueueFrames (headerFrames s.nextStreamId s.peerMaxFrameSize (s.fragmentCount block)
          request.body.isEmpty (s.fragmentCount block) 0 block) (s.claimStream i request block) =
            some t ∧
        s.sendRequest request block =
          (t.pumpRequestBodies.1, s.nextStreamId, t.pumpRequestBodies.2) := by
  have hpos := fragmentCount_pos hblock hmax
  rw [fragmentCount] at hpos ⊢
  rw [sendRequest]
  generalize (block.length + s.peerMaxFrameSize - 1) / s.peerMaxFrameSize = fragments at hpos
  have hne : (if fragments = 0 then 1 else fragments) = fragments := if_neg (by omega)
  dsimp only
  rw [hne]
  split
  · exact Or.inl ⟨_, rfl⟩
  next hroom =>
    split
    · exact Or.inl ⟨_, rfl⟩
    next i hi =>
      have hfree := Table.firstIdx_some hi
      have hfits : framesSize (headerFrames s.nextStreamId s.peerMaxFrameSize fragments
          request.body.isEmpty fragments 0 block) ≤ (s.claimStream i request block).outputFree :=
        (headerFrames_size _ _ _ _ _ _ _).trans (not_lt.mp hroom)
      obtain ⟨output, hqueue⟩ := enqueueFrames_eq (s := s.claimStream i request block) hsize hfits
      refine Or.inr ⟨i, _, by simpa using hfree, hqueue, ?_⟩
      rw [hqueue]

theorem sendRequest_steps (request : Request) {block : Bytes} (hblock : block ≠ [])
    (hstarted : s.started = true) (hfailed : s.failed = false) (hgoaway : s.goawayReceived = false)
    (hnext : s.nextStreamId ≤ 0x7fffffff) (hsize : s.output.size ≤ cap.maxOutputSize)
    (hmax : 0 < s.peerMaxFrameSize) : Steps p s (s.sendRequest request block).2.2 := by
  obtain ⟨value, hrefused⟩ | ⟨i, t, hfree, hqueue, hsent⟩ := sendRequest_cases s request hblock hsize
    hmax
  · rw [hrefused]
    exact (Quiet.error s value).steps
  · rw [hsent]
    exact (Step.opened hfree hstarted hfailed hgoaway hnext rfl hblock hqueue).steps.trans
      (pumpRequestBodies_steps t)

end Functions
end Session
end Castle.Http.Http2
