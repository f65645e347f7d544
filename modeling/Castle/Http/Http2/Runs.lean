import Castle.Http.Hpack.RoundTrip
import Castle.Http.Http2.Steps

/-!
# Runs of a session

What holds of the slots and the queue of a session that is started, whatever calls follow, and
the calls as sequences of steps.
-/

namespace Castle.Http.Http2

/-- A field, as the encoder writes it. -/
def fieldEncoding (field : Field) : Bytes := Hpack.fieldBytes field.name field.value

variable {max : ℕ}

theorem encodeHeader_eq {block block' : Bytes} {field : Field}
    (h : encodeHeader max block field = .ok block') : block' = block ++ fieldEncoding field := by
  rw [encodeHeader] at h
  split at h
  · cases h
  next hok =>
    rw [not_not] at hok
    cases h
    rw [(Hpack.encodeField_ok hok).2.1]
    rfl

theorem encodeHeaders_eq {fields : List Field} {block block' : Bytes}
    (h : encodeHeaders max fields block = .ok block') :
    block' = block ++ fields.flatMap fieldEncoding := by
  induction fields generalizing block with
  | nil =>
    cases h
    simp
  | cons field fields ih =>
    rw [encodeHeaders] at h
    split at h
    · cases h
    · cases hfirst : encodeHeader max block field with
      | error result =>
        rw [hfirst] at h
        cases h
      | ok next =>
        rw [hfirst] at h
        rw [ih h, encodeHeader_eq hfirst, List.flatMap_cons, List.append_assoc]

theorem foldlM_encodeHeader_eq {fields : List Field} {block block' : Bytes}
    (h : fields.foldlM (encodeHeader max) block = .ok block') :
    block' = block ++ fields.flatMap fieldEncoding := by
  induction fields generalizing block with
  | nil =>
    cases h
    simp
  | cons field fields ih =>
    rw [List.foldlM_cons] at h
    cases hfirst : encodeHeader max block field with
    | error result =>
      rw [hfirst] at h
      cases h
    | ok next =>
      rw [hfirst] at h
      rw [ih h, encodeHeader_eq hfirst, List.flatMap_cons, List.append_assoc]

theorem Request.headerBlock_eq (request : Request) {block : Bytes}
    (h : request.headerBlock max = .ok block) :
    block = (request.pseudoHeaders ++ request.headers).flatMap fieldEncoding := by
  rw [headerBlock] at h
  cases hpseudo : request.pseudoHeaders.foldlM (encodeHeader max) [] with
  | error result =>
    rw [hpseudo] at h
    cases h
  | ok first =>
    rw [hpseudo] at h
    rw [encodeHeaders_eq h, foldlM_encodeHeader_eq hpseudo, List.nil_append, List.flatMap_append]

theorem Request.headerBlock_ne_nil (request : Request) {block : Bytes}
    (h : request.headerBlock max = .ok block) : block ≠ [] := by
  rw [request.headerBlock_eq h, pseudoHeaders, List.cons_append, List.flatMap_cons]
  exact List.append_ne_nil_of_left_ne_nil (Hpack.fieldBytes_ne_nil _ _) _

namespace Session

open Relation

variable {cap : Capacity} {p : Prop}

/-- The identifiers are odd and issued in order, each is in one slot, and the queue is within its
array. -/
structure Sound (s : Session cap) : Prop where
  output : s.output.Valid
  next_odd : s.nextStreamId % 2 = 1
  issued : ∀ i, (s.streams.get i).used = true →
    (s.streams.get i).id % 2 = 1 ∧ (s.streams.get i).id < s.nextStreamId
  distinct : s.streams.Distinct
  continuation_lt : s.continuationStreamId < s.nextStreamId
  continuation_open : ∀ i, s.continuationStreamId ≠ 0 → (s.streams.get i).used = true →
    (s.streams.get i).id = s.continuationStreamId → (s.streams.get i).responseComplete = false
  maxFrameSize_ge : 16384 ≤ s.peerMaxFrameSize
  maxFrameSize_le : s.peerMaxFrameSize ≤ 16777215
  initialWindow_le : s.peerInitialWindow ≤ 0x7fffffff

/-- A change that issues nothing: slots are only released, and responses are only completed
outside of a header block. -/
structure Keeps (s s' : Session cap) : Prop where
  output : s.output.Valid → s'.output.Valid
  nextStreamId : s'.nextStreamId = s.nextStreamId
  streams : ∀ i, (s'.streams.get i).used = true → (s.streams.get i).used = true ∧
    (s'.streams.get i).id = (s.streams.get i).id ∧
    ((s'.streams.get i).responseComplete = (s.streams.get i).responseComplete ∨
      s.continuationStreamId = 0)
  continuation : s'.continuationStreamId = s.continuationStreamId ∨ s'.continuationStreamId = 0
  maxFrameSize : s'.peerMaxFrameSize = s.peerMaxFrameSize ∨
    16384 ≤ s'.peerMaxFrameSize ∧ s'.peerMaxFrameSize ≤ 16777215
  initialWindow : s'.peerInitialWindow = s.peerInitialWindow ∨ s'.peerInitialWindow ≤ 0x7fffffff

variable (s : Session cap)

theorem Keeps.refl : Keeps s s :=
  ⟨id, rfl, fun _ h => ⟨h, rfl, .inl rfl⟩, .inl rfl, .inl rfl, .inl rfl⟩

theorem Sound.keep {s s' : Session cap} (h : s.Sound) (hk : Keeps s s') : s'.Sound where
  output := hk.output h.output
  next_odd := by rw [hk.nextStreamId, h.next_odd]
  issued := by
    intro i hi
    obtain ⟨hused, hid, -⟩ := hk.streams i hi
    rw [hid, hk.nextStreamId]
    exact h.issued i hused
  distinct := by
    refine Table.Within.distinct (fun i hi => ?_) h.distinct
    obtain ⟨hused, hid, -⟩ := hk.streams i hi
    exact ⟨hused, hid⟩
  continuation_lt := by
    have hlt := h.continuation_lt
    rw [hk.nextStreamId]
    obtain heq | heq := hk.continuation
    · omega
    · omega
  continuation_open := by
    intro i hne hi hid
    obtain ⟨hused, hid', hcomplete⟩ := hk.streams i hi
    have heq := hk.continuation.resolve_right hne
    rw [heq] at hne hid
    rw [hcomplete.resolve_right hne]
    exact h.continuation_open i hne hused (hid'.symm.trans hid)
  maxFrameSize_ge := by
    obtain heq | hbounds := hk.maxFrameSize
    · rw [heq]
      exact h.maxFrameSize_ge
    · exact hbounds.1
  maxFrameSize_le := by
    obtain heq | hbounds := hk.maxFrameSize
    · rw [heq]
      exact h.maxFrameSize_le
    · exact hbounds.2
  initialWindow_le := by
    obtain heq | hbound := hk.initialWindow
    · rw [heq]
      exact h.initialWindow_le
    · exact hbound

namespace Keeps

variable (s : Session cap)

theorem modify (i : Fin cap.maxConcurrentStreams) {f : StreamRecord → StreamRecord}
    (hf : (f (s.streams.get i)).used = true → (s.streams.get i).used = true ∧
      (f (s.streams.get i)).id = (s.streams.get i).id ∧
      ((f (s.streams.get i)).responseComplete = (s.streams.get i).responseComplete ∨
        s.continuationStreamId = 0)) : Keeps s (s.modifyStream i f) :=
  { refl s with
    streams := by
      intro j hj
      by_cases hji : j = i
      · subst hji
        rw [modifyStream_get_self] at hj ⊢
        exact hf hj
      · rw [modifyStream_get_ne s f hji] at hj ⊢
        exact ⟨hj, rfl, .inl rfl⟩ }

theorem record (event : Event) : Keeps s (s.record event) := { refl s with }

variable {s}

theorem enqueueBytes {data : Bytes} (hroom : data.length ≤ s.outputFree) :
    Keeps s (s.enqueueBytes data) :=
  { refl s with output := fun h => h.enqueue hroom }

variable {s' : Session cap}

theorem enqueueFrame {frame : Frame} (h : s.enqueueFrame frame = some s') : Keeps s s' := by
  obtain ⟨hroom, rfl⟩ := enqueueFrame_eq h
  rw [← frame_bytes_length] at hroom
  exact { enqueueBytes hroom with }

theorem quiet (h : Quiet s s') : Keeps s s' where
  output := by
    rw [h.output]
    exact id
  nextStreamId := h.nextStreamId
  streams := by
    intro i hi
    have hused := congrArg StreamCore.used (h.streams i)
    have hid := congrArg StreamCore.id (h.streams i)
    have hcomplete := congrArg StreamCore.responseComplete (h.streams i)
    exact ⟨hused.symm.trans hi, hid, .inl hcomplete⟩
  continuation := h.continuationStreamId
  maxFrameSize := .inl h.peerMaxFrameSize
  initialWindow := .inl h.peerInitialWindow

theorem slots {t : Table cap.maxConcurrentStreams StreamRecord}
    (ht : ∀ i, (t.get i).used = (s.streams.get i).used ∧ (t.get i).id = (s.streams.get i).id ∧
      (t.get i).responseComplete = (s.streams.get i).responseComplete) :
    Keeps s { s with streams := t } :=
  { refl s with
    streams := by
      intro i hi
      obtain ⟨hused, hid, hcomplete⟩ := ht i
      exact ⟨hused.symm.trans hi, hid, .inl hcomplete⟩ }

theorem resetStream (s : Session cap) (i : Fin cap.maxConcurrentStreams) (result : Status) :
    Keeps s (s.resetStream i result) := by
  rw [Session.resetStream, notifyStream]
  have hreset : Keeps s (s.modifyStream i fun stream => { stream with reset := true }) :=
    modify s i fun h => ⟨h, rfl, .inl rfl⟩
  split
  · exact { hreset with }
  · exact hreset

variable {i : Fin cap.maxConcurrentStreams}

theorem complete (result : Status) (h : s.continuationStreamId = 0) :
    Keeps s ((s.modifyStream i fun stream =>
      { stream with responseComplete := true }).notifyStream i result) := by
  rw [notifyStream]
  have hcomplete : Keeps s (s.modifyStream i fun stream =>
      { stream with responseComplete := true }) := modify s i fun hused => ⟨hused, rfl, .inr h⟩
  split
  · exact { hcomplete with }
  · exact hcomplete

theorem chunk {stop : Bool} (h : s.sendChunk i = some (stop, s')) : Keeps s s' := by
  obtain ⟨-, rfl⟩ | ⟨-, -, -, t, hqueue, rfl⟩ := sendChunk_cases h
  · exact refl _
  · have hkeeps := enqueueFrame hqueue
    obtain ⟨-, rfl⟩ := enqueueFrame_eq hqueue
    have hcount : Keeps s (s.countChunk i (s.chunkSize (s.streams.get i))) :=
      { modify s i (f := counted (s.chunkSize (s.streams.get i)))
          fun h => ⟨h, rfl, .inl rfl⟩ with }
    exact { hcount with output := hkeeps.output }

theorem replenishConnection (s : Session cap) : Keeps s s.replenishConnection := by
  rw [Session.replenishConnection]
  split
  · split
    · exact refl s
    next s' hqueue => exact { enqueueFrame hqueue with }
  · exact refl s

theorem replenishStream (s : Session cap) (i : Fin cap.maxConcurrentStreams) :
    Keeps s (s.replenishStream i) := by
  rw [Session.replenishStream]
  split
  · split
    · exact refl s
    next s' hqueue =>
      have hkeeps := enqueueFrame hqueue
      obtain ⟨-, rfl⟩ := enqueueFrame_eq hqueue
      have hmodify : Keeps s (s.modifyStream i fun stream => { stream with
          receiveWindow := stream.receiveWindow + stream.receiveCredit
          receiveCredit := 0 }) := modify s i fun h => ⟨h, rfl, .inl rfl⟩
      exact { hmodify with output := hkeeps.output }
  · exact refl s

end Keeps

theorem enqueueFrames_some {frames : List Frame} {s s' : Session cap}
    (h : enqueueFrames frames s = some s') (hvalid : s.output.Valid) :
    ∃ output : CircularQueue cap.maxOutputSize UInt8, output.Valid ∧
      output.elements = s.output.elements ++ frames.flatMap Frame.bytes ∧
      s' = { s with output := output, log := s.log ++ frames.map .queued } := by
  induction frames generalizing s with
  | nil =>
    cases h
    exact ⟨s'.output, hvalid, by simp, by simp⟩
  | cons frame frames ih =>
    rw [enqueueFrames, Option.bind_eq_bind, Option.bind_eq_some_iff] at h
    obtain ⟨t, hqueue, hrest⟩ := h
    obtain ⟨hroom, rfl⟩ := enqueueFrame_eq hqueue
    rw [← frame_bytes_length] at hroom
    obtain ⟨output, hvalid', helements, rfl⟩ := ih hrest (hvalid.enqueue hroom)
    refine ⟨output, hvalid', ?_, ?_⟩
    · rw [helements, List.flatMap_cons, ← List.append_assoc]
      exact congrArg (· ++ _) (CircularQueue.elements_enqueue hvalid hroom)
    · simp [Session.record, Session.enqueueBytes]

theorem Sound.claim {s : Session cap} (h : s.Sound) {i : Fin cap.maxConcurrentStreams}
    (hfree : (s.streams.get i).used = false) (request : Request) (block : Bytes) :
    (s.claimStream i request block).Sound := by
  have hget (j) : ((s.claimStream i request block).streams.get j).used = true →
      j = i ∧ ((s.claimStream i request block).streams.get j).id = s.nextStreamId ∧
          ((s.claimStream i request block).streams.get j).responseComplete = false ∨
        j ≠ i ∧ (s.claimStream i request block).streams.get j = s.streams.get j := by
    intro _
    by_cases hj : j = i
    · subst hj
      left
      simp [claimStream, Session.record, StreamRecord.initialized]
    · right
      exact ⟨hj, Table.get_set_ne _ _ hj⟩
  have hodd := h.next_odd
  exact {
    output := h.output
    next_odd := by
      show (s.nextStreamId + 2) % 2 = 1
      omega
    issued := by
      intro j hj
      show _ ∧ _ < s.nextStreamId + 2
      obtain ⟨-, hid, -⟩ | ⟨-, hsame⟩ := hget j hj
      · rw [hid]
        omega
      · rw [hsame] at hj ⊢
        have hissued := h.issued j hj
        omega
    distinct := by
      refine h.distinct.set i ?_
      rintro ⟨j, hj, hkey⟩
      have hissued := (h.issued j hj).2
      have hid : (s.streams.get j).id = s.nextStreamId := hkey
      omega
    continuation_lt := by
      have hlt := h.continuation_lt
      show s.continuationStreamId < s.nextStreamId + 2
      omega
    continuation_open := by
      intro j hne hj hid
      obtain ⟨-, -, hcomplete⟩ | ⟨-, hsame⟩ := hget j hj
      · exact hcomplete
      · rw [hsame] at hj hid ⊢
        exact h.continuation_open j hne hj hid
    maxFrameSize_ge := h.maxFrameSize_ge
    maxFrameSize_le := h.maxFrameSize_le
    initialWindow_le := h.initialWindow_le }

theorem Sound.step {s s' : Session cap} (h : s.Sound) (hstep : Step p s s') : s'.Sound := by
  cases hstep with
  | quiet hquiet => exact h.keep (Keeps.quiet hquiet)
  | received => exact h.keep (Keeps.record s _)
  | refused => exact h.keep { Keeps.refl s with }
  | discarded => exact h.keep { Keeps.refl s with }
  | delivered =>
    exact h.keep { Keeps.modify s _ fun h => ⟨h, rfl, .inl rfl⟩ with }
  | overrun frame update i hupdate =>
    have hkeeps : Keeps s (s.modifyStream i update) := by
      obtain rfl | rfl := hupdate
      · exact Keeps.modify s i fun h => ⟨h, rfl, .inl rfl⟩
      · exact Keeps.modify s i fun h => ⟨h, rfl, .inl rfl⟩
    exact h.keep { hkeeps with }
  | body => exact h.keep (Keeps.record s _)
  | connectionCredit => exact h.keep { Keeps.refl s with }
  | streamCredit =>
    exact h.keep { Keeps.modify s _ fun h => ⟨h, rfl, .inl rfl⟩ with }
  | lateCredit => exact h.keep (Keeps.record s _)
  | initialWindow value hvalue =>
    have hkeeps : Keeps s { s with
        streams := s.streams.map (StreamRecord.adjustWindow (value - s.peerInitialWindow)) } := by
      refine Keeps.slots fun i => ?_
      rw [Table.get_map, StreamRecord.adjustWindow]
      split <;> exact ⟨rfl, rfl, rfl⟩
    exact h.keep { hkeeps with initialWindow := .inr hvalue }
  | windowFailure shift =>
    have hkeeps : Keeps s { s with
        streams := s.streams.mapIdx fun i stream => stream.shiftWindow (shift i) } := by
      refine Keeps.slots fun i => ?_
      rw [Table.get_mapIdx]
      exact ⟨rfl, rfl, rfl⟩
    exact h.keep { hkeeps with }
  | maxFrameSize value hle hge =>
    exact h.keep { Keeps.refl s with maxFrameSize := .inr ⟨hle, hge⟩ }
  | control _ hqueue => exact h.keep (Keeps.enqueueFrame hqueue)
  | chunk _ hchunk => exact h.keep (Keeps.chunk hchunk)
  | replenishConnection => exact h.keep (Keeps.replenishConnection s)
  | replenishStream _ i => exact h.keep (Keeps.replenishStream s i)
  | reset => exact h.keep (Keeps.resetStream s _ _)
  | headerFailure => exact h.keep (Keeps.resetStream s _ _)
  | complete _ hcontinuation => exact h.keep (Keeps.complete _ hcontinuation)
  | @continuation i hused hcomplete =>
    exact { h with
      continuation_lt := (h.issued i hused).2
      continuation_open := by
        intro j _ hj hid
        rw [h.distinct j i hj hused hid]
        exact hcomplete }
  | @opened i request block _ _ hfree _ _ _ _ _ _ hqueue =>
    have hclaim := h.claim hfree request block
    obtain ⟨output, hvalid, -, rfl⟩ := enqueueFrames_some hqueue hclaim.output
    exact { hclaim with output := hvalid }
  | release => exact h.keep (Keeps.modify s _ fun h => absurd h (by decide))
  | dequeue => exact h.keep { Keeps.refl s with output := fun h => h.dequeue _ }

theorem Sound.steps {s s' : Session cap} (h : s.Sound) (hsteps : Steps p s s') : s'.Sound := by
  induction hsteps with
  | refl => exact h
  | tail _ hstep ih => exact ih.step hstep

theorem Sound.continuationOpen {s : Session cap} (h : s.Sound) : s.ContinuationOpen := by
  intro i hne hi
  obtain ⟨hused, hid⟩ := findStream_some hi
  exact h.continuation_open i hne hused hid

theorem openStream_cases (request : Request) :
    ((s.openStream request).2.1 = 0 ∧
      ((∃ value, (s.openStream request).2.2 = { s with error := value }) ∨
        ∃ value, (s.openStream request).2.2 = (s.failConnection value).2)) ∨
    ∃ block, block ≠ [] ∧ s.started = true ∧ s.failed = false ∧ s.goawayReceived = false ∧
      s.activeStreamCount < s.peerMaxConcurrentStreams ∧ s.nextStreamId ≤ 0x7fffffff ∧
      s.openStream request = s.sendRequest request block := by
  rw [openStream]
  split
  · exact Or.inl ⟨rfl, Or.inl ⟨_, rfl⟩⟩
  next hstarted =>
    rw [Bool.or_eq_true, not_or] at hstarted
    split
    · exact Or.inl ⟨rfl, Or.inl ⟨_, rfl⟩⟩
    next hgoaway =>
      split
      · exact Or.inl ⟨rfl, Or.inl ⟨_, rfl⟩⟩
      next hlimit =>
        rw [Bool.or_eq_true, not_or, decide_eq_true_eq, decide_eq_true_eq, not_le, not_le] at hlimit
        split
        · exact Or.inl ⟨rfl, Or.inr ⟨_, rfl⟩⟩
        next hnext =>
          split
          · exact Or.inl ⟨rfl, Or.inl ⟨_, rfl⟩⟩
          · split
            · exact Or.inl ⟨rfl, Or.inl ⟨_, rfl⟩⟩
            next block hblock =>
              exact Or.inr ⟨block, request.headerBlock_ne_nil hblock, by simpa using hstarted.1,
                by simpa using hstarted.2, by simpa using hgoaway, hlimit.2, not_lt.mp hnext, rfl⟩

theorem openStream_steps (request : Request) (h : s.Sound) :
    Steps p s (s.openStream request).2.2 := by
  obtain ⟨-, ⟨value, herror⟩ | ⟨value, hfail⟩⟩ | ⟨block, hblock, hstarted, hfailed, hgoaway, -, hnext,
    hsent⟩ := openStream_cases s request
  · rw [herror]
    exact (Quiet.error s value).steps
  · rw [hfail]
    exact failConnection_steps s value
  · rw [hsent]
    have hmax := h.maxFrameSize_ge
    exact sendRequest_steps s request hblock hstarted hfailed hgoaway hnext h.output.size_le (by omega)

theorem consumeOutput_steps (count : ℕ) : Steps p s (s.consumeOutput count).2 := by
  rw [consumeOutput]
  split
  · exact ReflTransGen.refl
  next hcount => exact (Step.dequeue (not_lt.mp hcount)).steps.trans (pump_steps _)

theorem releaseStream_steps (streamId : ℕ) : Steps p s (s.releaseStream streamId).2 := by
  rw [releaseStream]
  split
  · exact ReflTransGen.refl
  next i hi =>
    split
    · exact ReflTransGen.refl
    next hfinished =>
      refine (Step.release (findStream_some hi).1 ?_).steps
      rw [Bool.and_eq_true, not_and] at hfinished
      cases hcomplete : (s.streams.get i).responseComplete with
      | true => exact Or.inl rfl
      | false => exact Or.inr (by simpa [hcomplete] using hfinished)

/-- The frames that a call of `feed` handles, each with the session before it. -/
def feedFrames (s : Session cap) (data : Option Bytes) : List (Frame × Session cap) :=
  if !s.started || s.failed then [] else s.frameParser.handled cap.maxFrameSize receive s data

theorem feed_steps (data : Option Bytes) (peerClosed : Bool) (h : s.Sound)
    (hp : p → ∀ x ∈ s.feedFrames data, x.2.failsOnReset x.1 = false) :
    Steps p s (s.feed data peerClosed).2 := by
  rw [feed]
  split
  · exact ReflTransGen.refl
  next hstarted =>
    split
    · exact ReflTransGen.refl
    next hfailed =>
      rw [feedFrames, if_neg (by simpa using ⟨by simpa using hstarted, by simpa using hfailed⟩)] at hp
      have hloop : Steps p s (s.frameParser.feed cap.maxFrameSize receive s data).2.2.2 ∧
          (s.frameParser.feed cap.maxFrameSize receive s data).2.2.2.Sound := by
        refine FrameParser.feed_keeps (P := fun t => Steps p s t ∧ t.Sound)
          (Q := fun x => p → x.2.failsOnReset x.1 = false) ?_ ⟨ReflTransGen.refl, h⟩
          fun x hx hp' => hp hp' x hx
        intro frame t ht hframe
        have hsteps := receive_steps t frame ht.2.continuationOpen hframe
        exact ⟨ht.1.trans hsteps, ht.2.steps hsteps⟩
      generalize s.frameParser.feed cap.maxFrameSize receive s data = fed at hloop
      obtain ⟨result, count, frameParser, t⟩ := fed
      refine hloop.1.trans ((Quiet.parser t frameParser).steps.trans ?_)
      dsimp only
      split
      · refine Relation.ReflTransGen.trans ?_ (failConnection_steps _ _)
        split
        · exact (Quiet.error _ _).steps
        · exact ReflTransGen.refl
      · split
        · exact failConnection_steps _ _
        · exact pump_steps _

theorem start_eq : ∃ output : CircularQueue cap.maxOutputSize UInt8,
    output.Valid ∧ output.elements = clientPreface ++
        (⟨.settings, 0, 0, settingsPayload cap⟩ : Frame).bytes ∧
      s.start = (.ok, { s.resetSession with
        output := output
        started := true
        log := [.queued ⟨.settings, 0, 0, settingsPayload cap⟩] }) := by
  have hcap := cap.maxOutputSize_ge
  have hclear : (s.output.clear).Valid :=
    ⟨show 0 < cap.maxOutputSize by omega, Nat.zero_le cap.maxOutputSize⟩
  have hpreface : clientPreface.length = 24 := by decide
  have hroom : clientPreface.length ≤ s.output.clear.free := by
    show clientPreface.length ≤ cap.maxOutputSize - 0
    omega
  have hvalid := hclear.enqueue hroom
  have hfits : (⟨.settings, 0, 0, settingsPayload cap⟩ : Frame).length + 9 ≤
      (s.output.clear.enqueue clientPreface).free := by
    show 18 + 9 ≤ cap.maxOutputSize - (0 + clientPreface.length)
    omega
  have hroom' := hfits
  rw [← frame_bytes_length] at hroom'
  refine ⟨_, hvalid.enqueue hroom', ?_, ?_⟩
  · have hempty : s.output.clear.elements = [] := CircularQueue.elements_of_size_zero rfl
    have hfirst := CircularQueue.elements_enqueue hclear hroom
    rw [hempty, List.nil_append] at hfirst
    rw [CircularQueue.elements_enqueue hvalid hroom', hfirst]
  · have hqueue : (s.resetSession.enqueueBytes clientPreface).enqueueFrame
        ⟨.settings, 0, 0, settingsPayload cap⟩ =
          some (((s.resetSession.enqueueBytes clientPreface).enqueueBytes
            (⟨.settings, 0, 0, settingsPayload cap⟩ : Frame).bytes).record
              (.queued ⟨.settings, 0, 0, settingsPayload cap⟩)) := if_neg (not_lt.mpr hfits)
    delta start
    dsimp only
    rw [hqueue]
    rfl

theorem sound_start : s.start.2.Sound := by
  obtain ⟨output, hvalid, -, hstart⟩ := start_eq s
  have hfree (i : Fin cap.maxConcurrentStreams) :
      ((Table.replicate cap.maxConcurrentStreams StreamRecord.free).get i).used = false := by
    rw [Table.get_replicate]
    rfl
  rw [hstart]
  exact {
    output := hvalid
    next_odd := rfl
    issued := fun i hi => absurd ((hfree i).symm.trans hi) (by decide)
    distinct := Table.distinct_of_free hfree
    continuation_lt := Nat.one_pos
    continuation_open := fun i hne => absurd rfl hne
    maxFrameSize_ge := Nat.le_refl _
    maxFrameSize_le := by
      show 16384 ≤ 16777215
      decide
    initialWindow_le := by
      show 65535 ≤ 0x7fffffff
      decide }

end Session

/-- The calls that follow `start`. -/
inductive Call where
  | openStream (request : Request)
  | feed (data : Option Bytes) (peerClosed : Bool)
  | consumeOutput (count : ℕ)
  | releaseStream (streamId : ℕ)

/-- A small session and a request, for the runs below. -/
def smallCapacity : Capacity where
  maxConcurrentStreams := 2
  maxHeaderBlockSize := 64
  maxFrameSize := 16384
  maxBodySize := 4
  maxHeaders := 4
  maxHeaderNameSize := 16
  maxHeaderValueSize := 16
  maxDynamicTableBytes := 0
  maxOutputSize := 128
  maxConcurrentStreams_pos := Nat.succ_pos (nat_lit 1)
  maxHeaderBlockSize_pos := Nat.succ_pos (nat_lit 63)
  maxFrameSize_ge := Nat.le_refl (nat_lit 16384)
  maxFrameSize_le := Nat.le_of_ble_eq_true rfl
  maxBodySize_pos := Nat.succ_pos (nat_lit 3)
  maxHeaders_pos := Nat.succ_pos (nat_lit 3)
  maxHeaderNameSize_pos := Nat.succ_pos (nat_lit 15)
  maxHeaderValueSize_pos := Nat.succ_pos (nat_lit 15)
  maxDynamicTableBytes_le := Nat.le_of_ble_eq_true rfl
  maxOutputSize_ge := Nat.le_of_ble_eq_true rfl

def smallRequest : Request := ⟨.get, octets "/", octets "h", [], [], []⟩

namespace Session

variable {cap : Capacity} {p : Prop}

def call (s : Session cap) : Call → Session cap
  | .openStream request => (s.openStream request).2.2
  | .feed data peerClosed => (s.feed data peerClosed).2
  | .consumeOutput count => (s.consumeOutput count).2
  | .releaseStream streamId => (s.releaseStream streamId).2

def run (s : Session cap) (calls : List Call) : Session cap := calls.foldl call s

def callFrames (s : Session cap) : Call → List (Frame × Session cap)
  | .feed data _ => s.feedFrames data
  | _ => []

def runFrames (s : Session cap) : List Call → List (Frame × Session cap)
  | [] => []
  | c :: calls => s.callFrames c ++ (s.call c).runFrames calls

variable (s : Session cap)

theorem call_steps (c : Call) (h : s.Sound)
    (hp : p → ∀ x ∈ s.callFrames c, x.2.failsOnReset x.1 = false) : Steps p s (s.call c) := by
  cases c with
  | openStream request => exact openStream_steps s request h
  | feed data peerClosed => exact feed_steps s data peerClosed h hp
  | consumeOutput count => exact consumeOutput_steps s count
  | releaseStream streamId => exact releaseStream_steps s streamId

theorem run_steps (calls : List Call) (h : s.Sound)
    (hp : p → ∀ x ∈ s.runFrames calls, x.2.failsOnReset x.1 = false) : Steps p s (s.run calls) := by
  induction calls generalizing s with
  | nil => exact Relation.ReflTransGen.refl
  | cons c calls ih =>
    have hfirst := call_steps s c h fun hp' x hx => hp hp' x (List.mem_append_left _ hx)
    exact hfirst.trans (ih _ (h.steps hfirst) fun hp' x hx => hp hp' x (List.mem_append_right _ hx))

theorem Sound.run {s : Session cap} (h : s.Sound) (calls : List Call) : (s.run calls).Sound :=
  h.steps (run_steps (p := False) s calls h fun hp => hp.elim)

theorem runFrames_steps (calls : List Call) (h : s.Sound) :
    ∀ x ∈ s.runFrames calls, Steps False s x.2 := by
  induction calls generalizing s with
  | nil => simp [runFrames]
  | cons c calls ih =>
    have hfirst := call_steps (p := False) s c h fun hp => hp.elim
    rw [runFrames, List.forall_mem_append]
    refine ⟨?_, fun x hx => hfirst.trans (ih _ (h.steps hfirst) x hx)⟩
    cases c with
    | feed data peerClosed =>
      rw [callFrames, feedFrames]
      split
      · simp
      · have hreceive : ∀ frame t, Steps False s t ∧ t.Sound →
            Steps False s (receive frame t).2 ∧ (receive frame t).2.Sound := by
          intro frame t ht
          have hsteps := receive_steps (p := False) t frame ht.2.continuationOpen fun hp => hp.elim
          exact ⟨ht.1.trans hsteps, ht.2.steps hsteps⟩
        intro x hx
        exact (FrameParser.handled_keeps hreceive ⟨Relation.ReflTransGen.refl, h⟩ x hx).1
    | openStream | consumeOutput | releaseStream => simp [callFrames]

end Session

/-!
## What the assembly of responses depends on

Flow control and the output queue leave the assembly of the responses as it is.
-/

/-- A stream without its windows and its request. -/
def StreamRecord.assembly (stream : StreamRecord) : StreamRecord :=
  { stream with
    sendWindow := 0
    receiveWindow := 0
    receiveCredit := 0
    requestBodySentBytes := 0
    requestBodySent := false }

namespace Session

variable {cap : Capacity}

/-- A change that leaves the assembly of the responses as it is. -/
structure SameAssembly (s s' : Session cap) : Prop where
  streams : ∀ i, (s'.streams.get i).assembly = (s.streams.get i).assembly
  hpack : s'.hpack = s.hpack
  continuationStreamId : s'.continuationStreamId = s.continuationStreamId
  nextStreamId : s'.nextStreamId = s.nextStreamId
  failed : s'.failed = s.failed
  responseCallback : s'.responseCallback = s.responseCallback
  bodyCallback : s'.bodyCallback = s.bodyCallback
  log : ∃ frames : List Frame, s'.log = s.log ++ frames.map .queued

theorem findStream_congr {s s' : Session cap}
    (h : ∀ i, (s'.streams.get i).used = (s.streams.get i).used ∧
      (s'.streams.get i).id = (s.streams.get i).id) (streamId : ℕ) :
    s'.findStream streamId = s.findStream streamId := by
  refine Table.firstIdx_congr fun i => ?_
  rw [(h i).1, (h i).2]

namespace SameAssembly

variable {s s' s'' : Session cap}

theorem refl (s : Session cap) : SameAssembly s s :=
  ⟨fun _ => rfl, rfl, rfl, rfl, rfl, rfl, rfl, [], by simp⟩

theorem trans (h : SameAssembly s s') (h' : SameAssembly s' s'') : SameAssembly s s'' where
  streams := fun i => (h'.streams i).trans (h.streams i)
  hpack := h'.hpack.trans h.hpack
  continuationStreamId := h'.continuationStreamId.trans h.continuationStreamId
  nextStreamId := h'.nextStreamId.trans h.nextStreamId
  failed := h'.failed.trans h.failed
  responseCallback := h'.responseCallback.trans h.responseCallback
  bodyCallback := h'.bodyCallback.trans h.bodyCallback
  log := by
    obtain ⟨frames, hlog⟩ := h.log
    obtain ⟨frames', hlog'⟩ := h'.log
    exact ⟨frames ++ frames', by rw [hlog', hlog, List.map_append, List.append_assoc]⟩

theorem modify (s : Session cap) (i : Fin cap.maxConcurrentStreams) {f : StreamRecord → StreamRecord}
    (hf : (f (s.streams.get i)).assembly = (s.streams.get i).assembly) :
    SameAssembly s (s.modifyStream i f) :=
  { refl s with
    streams := by
      intro j
      by_cases hj : j = i
      · rw [hj, modifyStream_get_self, hf]
      · rw [modifyStream_get_ne s f hj] }

theorem enqueueFrame {frame : Frame} (h : s.enqueueFrame frame = some s') : SameAssembly s s' := by
  rw [(enqueueFrame_eq h).2]
  exact { refl s with log := ⟨[frame], rfl⟩ }

theorem chunk {i : Fin cap.maxConcurrentStreams} {stop : Bool}
    (h : s.sendChunk i = some (stop, s')) : SameAssembly s s' := by
  obtain ⟨-, rfl⟩ | ⟨-, -, -, t, hqueue, rfl⟩ := sendChunk_cases h
  · exact refl _
  · have hcount : SameAssembly t (t.countChunk i (s.chunkSize (s.streams.get i))) :=
      { modify t i (f := counted (s.chunkSize (s.streams.get i))) rfl with }
    exact (enqueueFrame hqueue).trans hcount

theorem pumpRequestBodies (s : Session cap) : SameAssembly s s.pumpRequestBodies.2 := by
  rw [Session.pumpRequestBodies]
  split
  · exact refl s
  · exact pumpStreams_keeps (fun t i t' ht hchunk => ht.trans (chunk hchunk)) _ (refl s)

theorem findStream (h : SameAssembly s s') (streamId : ℕ) :
    s'.findStream streamId = s.findStream streamId := by
  refine findStream_congr (fun i => ?_) streamId
  have hused : (s'.streams.get i).assembly.used = (s.streams.get i).assembly.used := by
    rw [h.streams i]
  have hid : (s'.streams.get i).assembly.id = (s.streams.get i).assembly.id := by rw [h.streams i]
  exact ⟨hused, hid⟩

end SameAssembly
end Session
end Castle.Http.Http2
