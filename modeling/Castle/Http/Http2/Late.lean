import Castle.Http.Http2.Runs

/-!
# Frames on a stream that was cancelled

A server that has not seen the cancel of a stream yet goes on to send on it.
-/

namespace Castle.Http.Http2

open Hpack (Block TableDecoder)

namespace Frame

variable (frame : Frame)

def isHeaderBlock : Bool := frame.type = .headers || frame.type = .continuation

def endHeaders : Bool := frame.flags &&& 0x04 ≠ 0

/-- The part of a header block in a frame. -/
def fragment : Bytes :=
  if frame.type = .headers then
    (Session.unpad (frame.flags &&& 0x08 ≠ 0) (frame.flags &&& 0x20 ≠ 0) frame.payload).getD []
  else frame.payload

end Frame

/-- What happens to a stream that was cancelled: a frame of the server, or the release. -/
inductive Late where
  | frame (frame : Frame)
  | release

/-- The header blocks that the server ends, when it has sent some bytes of the first one. -/
def blocksOf (pending : Bytes) : List Late → List Bytes
  | [] => []
  | .release :: rest => blocksOf pending rest
  | .frame frame :: rest =>
    if !frame.isHeaderBlock then blocksOf pending rest
    else if frame.endHeaders then (pending ++ frame.fragment) :: blocksOf [] rest
    else blocksOf (pending ++ frame.fragment) rest

/-- A decoder holds the table of an encoder that held `t` and wrote some header blocks. -/
def InStep {cap : Hpack.DecoderCapacity} (t : Hpack.Table) (blocks : List Bytes)
    (d : TableDecoder cap) : Prop :=
  ∃ reps t' fields, List.Forall₂ Block blocks reps ∧
    t.run cap.maxDynamicTableBytes reps.flatten = some (t', fields) ∧ d.decoder.Agrees t'

namespace Session

variable {cap : Capacity}

/-- The session takes frames until one of them fails. -/
def takeLate (streamId : ℕ) : List Late → Session cap → Status × Session cap
  | [], s => (.ok, s)
  | .release :: rest, s => takeLate streamId rest (s.releaseStream streamId).2
  | .frame frame :: rest, s =>
    match receive frame s with
    | (result, s) => if result ≠ .ok then (result, s) else takeLate streamId rest s

/-- A frame that a conforming server can send on a stream whose response body it was sending. -/
def Conforms (s : Session cap) (streamId : ℕ) (frame : Frame) : Prop :=
  frame.streamId = streamId ∧
  (s.continuationStreamId = if frame.type = .continuation then streamId else 0) ∧
  match frame.type with
  | .data => (frame.length : ℤ) ≤ s.connectionReceiveWindow
  | .headers => frame.flags &&& 0x01 ≠ 0 ∧
    unpad (frame.flags &&& 0x08 ≠ 0) (frame.flags &&& 0x20 ≠ 0) frame.payload ≠ none
  | .continuation => True
  | .rstStream => True
  | .windowUpdate => readU32 frame.payload % 2 ^ 31 ≠ 0 ∧ ∀ i, s.findStream streamId = some i →
      (s.streams.get i).sendWindow + ((readU32 frame.payload % 2 ^ 31 : ℕ) : ℤ) ≤ 0x7fffffff
  | _ => False

def AllConform (streamId : ℕ) : List Late → Session cap → Prop
  | [], _ => True
  | .release :: rest, s => AllConform streamId rest (s.releaseStream streamId).2
  | .frame frame :: rest, s => s.Conforms streamId frame ∧
      ((receive frame s).1 = .ok → AllConform streamId rest (receive frame s).2)

/-- A part of a header block after the release, or one whose block is not accepted. -/
def failsLate (s : Session cap) (frame : Frame) : Bool :=
  match s.findStream frame.streamId with
  | none => frame.isHeaderBlock
  | some _ => s.failsOnReset frame

def NoneFails (streamId : ℕ) : List Late → Session cap → Prop
  | [], _ => True
  | .release :: rest, s => NoneFails streamId rest (s.releaseStream streamId).2
  | .frame frame :: rest, s => s.failsLate frame = false ∧
      NoneFails streamId rest (receive frame s).2

/-- A stream that was cancelled, and perhaps released. -/
structure Gone (s : Session cap) (streamId : ℕ) : Prop where
  sound : s.Sound
  failed : s.failed = false
  issued : s.isIssuedStream streamId = true
  cancelled : ∀ i, s.findStream streamId = some i →
    (s.streams.get i).reset = true ∧ (s.streams.get i).responseComplete = false
  trailer : ∀ i, s.findStream streamId = some i → s.continuationStreamId = streamId →
    (s.streams.get i).endStreamAfterHeaders = true

/-- The bytes of the header block that the server has not ended. -/
def pendingBlock (s : Session cap) (streamId : ℕ) : Bytes :=
  match s.findStream streamId with
  | none => []
  | some i => (s.streams.get i).headerBlock

/-- What a frame that does not fail does to the cancelled stream and to the decoder. -/
structure Taken (s s' : Session cap) (streamId : ℕ) (frame : Frame) : Prop where
  gone : s'.Gone streamId
  found : s'.findStream streamId = s.findStream streamId
  pending : s'.pendingBlock streamId =
    if !frame.isHeaderBlock then s.pendingBlock streamId
    else if frame.endHeaders then [] else s.pendingBlock streamId ++ frame.fragment
  decoder : (frame.isHeaderBlock && frame.endHeaders) = false → s'.hpack = s.hpack
  decoded : (frame.isHeaderBlock && frame.endHeaders) = true →
    ∀ t, s.hpack.decoder.Agrees t → ∃ reps t' fields,
      Block (s.pendingBlock streamId ++ frame.fragment) reps ∧
        t.run cap.hpack.maxDynamicTableBytes reps = some (t', fields) ∧ s'.hpack.decoder.Agrees t'

variable {s : Session cap} {streamId : ℕ}

theorem Gone.odd (h : s.Gone streamId) : streamId ≠ 0 := by
  have hissued := h.issued
  rw [isIssuedStream, Bool.and_eq_true, decide_eq_true_eq] at hissued
  omega

/-- A frame that is no part of a header block leaves the assembly of the responses as it is. -/
theorem Taken.same {s' : Session cap} {frame : Frame} (h : s.Gone streamId)
    (hframe : frame.isHeaderBlock = false) (hsame : SameAssembly (s.record (.received frame)) s')
    (hsound : s'.Sound) : Taken s s' streamId frame := by
  have hfind : s'.findStream streamId = s.findStream streamId := hsame.findStream streamId
  have hstreams (i) : (s'.streams.get i).assembly = (s.streams.get i).assembly := hsame.streams i
  have hreset (i) : (s'.streams.get i).reset = (s.streams.get i).reset :=
    (congrArg StreamRecord.reset (hstreams i) :)
  have hcomplete (i) : (s'.streams.get i).responseComplete = (s.streams.get i).responseComplete :=
    (congrArg StreamRecord.responseComplete (hstreams i) :)
  have hend (i) : (s'.streams.get i).endStreamAfterHeaders = (s.streams.get i).endStreamAfterHeaders
    := (congrArg StreamRecord.endStreamAfterHeaders (hstreams i) :)
  have hblock (i) : (s'.streams.get i).headerBlock = (s.streams.get i).headerBlock :=
    (congrArg StreamRecord.headerBlock (hstreams i) :)
  refine ⟨⟨hsound, hsame.failed.trans h.failed, ?_, ?_, ?_⟩, hfind, ?_, fun _ => hsame.hpack, ?_⟩
  · rw [isIssuedStream, hsame.nextStreamId]
    exact h.issued
  · intro i hi
    rw [hfind] at hi
    rw [hreset, hcomplete]
    exact h.cancelled i hi
  · intro i hi hcontinuation
    rw [hfind] at hi
    rw [hsame.continuationStreamId] at hcontinuation
    rw [hend]
    exact h.trailer i hi hcontinuation
  · rw [hframe, pendingBlock, pendingBlock, hfind]
    simp only [hblock, Bool.not_false, if_true]
  · rw [hframe]
    intro hfalse
    cases hfalse

/-- A stream that takes a fragment of its last header block. -/
structure Grown (s s' : Session cap) (i : Fin cap.maxConcurrentStreams) (fragment : Bytes) :
    Prop where
  stream : s'.streams.get i = { s.streams.get i with
    headerBlock := (s.streams.get i).headerBlock ++ fragment
    endStreamAfterHeaders := true }
  others : ∀ j ≠ i, s'.streams.get j = s.streams.get j
  hpack : s'.hpack = s.hpack
  nextStreamId : s'.nextStreamId = s.nextStreamId
  failed : s'.failed = s.failed

variable {i : Fin cap.maxConcurrentStreams}

theorem Grown.findStream {s' : Session cap} {fragment : Bytes} (h : Grown s s' i fragment)
    (streamId : ℕ) : s'.findStream streamId = s.findStream streamId := by
  refine findStream_congr (fun j => ?_) streamId
  by_cases hj : j = i
  · rw [hj, h.stream]
    exact ⟨rfl, rfl⟩
  · rw [h.others j hj]
    exact ⟨rfl, rfl⟩

theorem Taken.goes_on {s' : Session cap} {frame : Frame} (h : s.Gone streamId)
    (hi : s.findStream streamId = some i) (hframe : frame.isHeaderBlock = true)
    (hend : frame.endHeaders = false) (hgrown : Grown s s' i frame.fragment) (hsound : s'.Sound) :
    Taken s s' streamId frame := by
  have hfind := hgrown.findStream streamId
  have hcancelled := h.cancelled i hi
  refine ⟨⟨hsound, hgrown.failed.trans h.failed, ?_, ?_, ?_⟩, hfind, ?_, fun _ => hgrown.hpack, ?_⟩
  · rw [isIssuedStream, hgrown.nextStreamId]
    exact h.issued
  · intro j hj
    rw [hfind, hi] at hj
    cases hj
    rw [hgrown.stream]
    exact hcancelled
  · intro j hj _
    rw [hfind, hi] at hj
    cases hj
    rw [hgrown.stream]
  · rw [hframe, hend, pendingBlock, pendingBlock, hfind, hi]
    dsimp only
    rw [hgrown.stream]
    rfl
  · rw [hend, Bool.and_false]
    intro hfalse
    cases hfalse

theorem finishHeaderBlock_late
    {s' : Session cap} {frame : Frame} (h : s.Gone streamId) (hi : s.findStream streamId = some i)
    (hframe : frame.isHeaderBlock = true) (hend : frame.endHeaders = true)
    (hgrown : Grown s s' i frame.fragment) (hcontinuation : s'.continuationStreamId = 0)
    (haccepted : s'.blockAccepted (s'.streams.get i) = true) : (s'.finishHeaderBlock i).1 = .ok ∧
    ((s'.finishHeaderBlock i).2.Sound → Taken s (s'.finishHeaderBlock i).2 streamId frame) := by
  have hcancelled := h.cancelled i hi
  have hstream := hgrown.stream
  have hlast : (s'.streams.get i).endStreamAfterHeaders = true := by rw [hstream]
  have hreset : (s'.streams.get i).reset = true := by
    rw [hstream]
    exact hcancelled.1
  have hcomplete : (s'.streams.get i).responseComplete = false := by
    rw [hstream]
    exact hcancelled.2
  rw [blockAccepted, hlast, Bool.not_true, Bool.and_false, Bool.false_or, decide_eq_true_eq]
    at haccepted
  have hdecoded (t) (ht : s'.hpack.decoder.Agrees t) := Hpack.TableDecoder.decodeBlock_agrees ht
    (Headers.add cap.headers) (s'.streams.get i).headerBlock (s'.streams.get i).headers haccepted
  rw [finishHeaderBlock]
  dsimp only
  rw [hlast, Bool.not_true, Bool.and_false, if_neg Bool.false_ne_true]
  generalize s'.hpack.decodeBlock (Headers.add cap.headers) (s'.streams.get i).headerBlock
    (s'.streams.get i).headers = decode at haccepted hdecoded
  obtain ⟨decoded, hpack, headers⟩ := decode
  dsimp only at haccepted hdecoded ⊢
  rw [if_neg (not_not.mpr haccepted), if_pos hreset]
  refine ⟨rfl, fun hsound => ?_⟩
  generalize hu : (({ s' with hpack := hpack }.modifyStream i fun stream =>
      { stream with headers := headers, headerBlock := [] }).modifyStream i fun stream =>
      { stream with headers := [] }) = u at hsound ⊢
  have hself : u.streams.get i =
      { s'.streams.get i with headers := [], headerBlock := [] } := by
    rw [← hu, modifyStream_get_self, modifyStream_get_self]
  have hothers (j) (hj : j ≠ i) : u.streams.get j = s'.streams.get j := by
    rw [← hu, modifyStream_get_ne _ _ hj, modifyStream_get_ne _ _ hj]
  have hfind : u.findStream streamId = s.findStream streamId := by
    refine Eq.trans (findStream_congr (fun j => ?_) streamId) (hgrown.findStream streamId)
    by_cases hj : j = i
    · rw [hj, hself]
      exact ⟨rfl, rfl⟩
    · rw [hothers j hj]
      exact ⟨rfl, rfl⟩
  have hfailed : u.failed = s'.failed := by rw [← hu]; rfl
  have hnext : u.nextStreamId = s'.nextStreamId := by rw [← hu]; rfl
  have hcont : u.continuationStreamId = s'.continuationStreamId := by rw [← hu]; rfl
  have hpack' : u.hpack = hpack := by rw [← hu]; rfl
  refine ⟨⟨hsound, ?_, ?_, ?_, ?_⟩, hfind, ?_, ?_, ?_⟩
  · rw [hfailed, hgrown.failed, h.failed]
  · rw [isIssuedStream, hnext, hgrown.nextStreamId]
    exact h.issued
  · intro j hj
    rw [hfind, hi] at hj
    cases hj
    rw [hself]
    exact ⟨hreset, hcomplete⟩
  · intro j _ hzero
    rw [hcont, hcontinuation] at hzero
    exact absurd hzero.symm h.odd
  · rw [hframe, hend, pendingBlock, hfind, hi]
    dsimp only
    rw [hself]
    rfl
  · rw [hframe, hend]
    intro hfalse
    cases hfalse
  · intro _ t ht
    rw [← hgrown.hpack] at ht
    obtain ⟨reps, t', fields, hblock, hrun, hagrees, -⟩ := hdecoded t ht
    rw [hstream] at hblock
    refine ⟨reps, t', fields, ?_, hrun, ?_⟩
    · rw [pendingBlock, hi]
      exact hblock
    · rw [hpack']
      exact hagrees

theorem appendHeaderFragment_late {frame : Frame} {fragment : Bytes} {stream : StreamRecord}
    (haccepted : s.fragmentAccepted stream fragment frame.endHeaders = true)
    (hblock : stream.headerBlock = (s.streams.get i).headerBlock) :
    (s.record (.received frame)).appendHeaderFragment i fragment =
      (.ok, (s.record (.received frame)).modifyStream i fun stream =>
        { stream with headerBlock := stream.headerBlock ++ fragment }) := by
  rw [appendHeaderFragment]
  exact if_neg (not_lt.mpr (hblock ▸ (fragmentAccepted_iff.mp haccepted).1))

theorem receive_headers_late {frame : Frame} {fragment : Bytes} (h : s.Gone streamId)
    (hi : s.findStream streamId = some i) (htype : frame.type = .headers)
    (hid : frame.streamId = streamId) (hcontinuation : s.continuationStreamId = 0)
    (hstream : frame.flags &&& 0x01 ≠ 0)
    (hfragment : unpad (frame.flags &&& 0x08 ≠ 0) (frame.flags &&& 0x20 ≠ 0) frame.payload =
      some fragment)
    (haccepted : s.fragmentAccepted { s.streams.get i with endStreamAfterHeaders := true } fragment
      frame.endHeaders = true) :
    (receive frame s).1 = .ok ∧
      ((receive frame s).2.Sound → Taken s (receive frame s).2 streamId frame) := by
  have hcancelled := h.cancelled i hi
  have hfound : (s.record (.received frame)).findStream frame.streamId = some i := by
    rw [hid]
    exact hi
  have hframe : frame.isHeaderBlock = true := by
    rw [Frame.isHeaderBlock, htype]
    rfl
  have hfrag : frame.fragment = fragment := by
    rw [Frame.fragment, if_pos htype, hfragment]
    rfl
  have hnot : ¬((s.record (.received frame)).continuationStreamId ≠ 0 ∧
      frame.type ≠ .continuation) := fun hboth => hboth.1 hcontinuation
  have hcomplete : ¬((s.record (.received frame)).streams.get i).responseComplete = true := by
    show ¬(s.streams.get i).responseComplete = true
    rw [hcancelled.2]
    exact Bool.false_ne_true
  rw [receive, handleFrame, if_neg hnot, htype]
  dsimp only
  rw [handleHeaders, hfound]
  dsimp only
  rw [if_neg hcomplete, hfragment]
  dsimp only
  rw [appendHeaderFragment_late haccepted rfl]
  dsimp only
  rw [if_neg (not_not.mpr rfl)]
  generalize hu : (((s.record (.received frame)).modifyStream i fun stream =>
      { stream with headerBlock := stream.headerBlock ++ fragment }).modifyStream i fun stream =>
      { stream with endStreamAfterHeaders := frame.flags &&& 0x01 ≠ 0 }) = u
  have hgrown : Grown s u i frame.fragment := by
    rw [hfrag, ← hu]
    refine ⟨?_, fun j hj => ?_, rfl, rfl, rfl⟩
    · rw [modifyStream_get_self, modifyStream_get_self, decide_eq_true hstream]
      rfl
    · rw [modifyStream_get_ne _ _ hj, modifyStream_get_ne _ _ hj]
      rfl
  have hzero : u.continuationStreamId = 0 := by
    rw [← hu]
    exact hcontinuation
  by_cases hend : frame.endHeaders = true
  · have hflag : frame.flags &&& 0x04 ≠ 0 := of_decide_eq_true hend
    rw [if_pos hflag]
    refine finishHeaderBlock_late h hi hframe hend hgrown hzero ?_
    rw [hgrown.stream, hfrag, blockAccepted, hgrown.hpack]
    exact (fragmentAccepted_iff.mp haccepted).2 hend
  · rw [Bool.not_eq_true] at hend
    have hflag : ¬frame.flags &&& 0x04 ≠ 0 := of_decide_eq_false hend
    rw [if_neg hflag]
    refine ⟨rfl, fun hsound => Taken.goes_on h hi hframe hend ?_ hsound⟩
    exact ⟨hgrown.stream, hgrown.others, hgrown.hpack, hgrown.nextStreamId, hgrown.failed⟩

theorem receive_continuation_late {frame : Frame} (h : s.Gone streamId)
    (hi : s.findStream streamId = some i) (htype : frame.type = .continuation)
    (hid : frame.streamId = streamId) (hcontinuation : s.continuationStreamId = streamId)
    (haccepted : s.fragmentAccepted (s.streams.get i) frame.payload frame.endHeaders = true) :
    (receive frame s).1 = .ok ∧
      ((receive frame s).2.Sound → Taken s (receive frame s).2 streamId frame) := by
  have hlast := h.trailer i hi hcontinuation
  have hfound : (s.record (.received frame)).findStream frame.streamId = some i := by
    rw [hid]
    exact hi
  have hframe : frame.isHeaderBlock = true := by
    rw [Frame.isHeaderBlock, htype]
    rfl
  have hfrag : frame.fragment = frame.payload := by
    rw [Frame.fragment, if_neg (by rw [htype]; decide)]
  have hnot : ¬((s.record (.received frame)).continuationStreamId ≠ 0 ∧
      frame.type ≠ .continuation) := fun hboth => hboth.2 htype
  have hopen : ¬((s.record (.received frame)).continuationStreamId = 0 ∨
      frame.streamId ≠ (s.record (.received frame)).continuationStreamId) := by
    show ¬(s.continuationStreamId = 0 ∨ frame.streamId ≠ s.continuationStreamId)
    rw [hid, hcontinuation, not_or, not_not]
    exact ⟨h.odd, rfl⟩
  rw [receive, handleFrame, if_neg hnot, htype]
  dsimp only
  rw [handleContinuation, if_neg hopen, hfound]
  dsimp only
  rw [appendHeaderFragment_late haccepted rfl]
  dsimp only
  rw [if_neg (not_not.mpr rfl)]
  generalize hu : ((s.record (.received frame)).modifyStream i fun stream =>
      { stream with headerBlock := stream.headerBlock ++ frame.payload }) = u
  have hgrown : Grown s u i frame.fragment := by
    rw [hfrag, ← hu]
    refine ⟨?_, fun j hj => ?_, rfl, rfl, rfl⟩
    · rw [modifyStream_get_self, ← hlast]
      rfl
    · rw [modifyStream_get_ne _ _ hj]
      rfl
  by_cases hend : frame.endHeaders = true
  · have hflag : frame.flags &&& 0x04 ≠ 0 := of_decide_eq_true hend
    rw [if_pos hflag]
    have hcleared : Grown s { u with continuationStreamId := 0 } i frame.fragment :=
      ⟨hgrown.stream, hgrown.others, hgrown.hpack, hgrown.nextStreamId, hgrown.failed⟩
    refine finishHeaderBlock_late h hi hframe hend hcleared rfl ?_
    have hstream : u.streams.get i = { s.streams.get i with
        headerBlock := (s.streams.get i).headerBlock ++ frame.payload } := by
      rw [← hu, modifyStream_get_self]
      rfl
    dsimp only
    rw [hstream, blockAccepted, hgrown.hpack]
    exact (fragmentAccepted_iff.mp haccepted).2 hend
  · rw [Bool.not_eq_true] at hend
    have hflag : ¬frame.flags &&& 0x04 ≠ 0 := of_decide_eq_false hend
    rw [if_neg hflag]
    exact ⟨rfl, fun hsound => Taken.goes_on h hi hframe hend hgrown hsound⟩

theorem finishHeaderBlock_fails (h : s.blockAccepted (s.streams.get i) = false) :
    (s.finishHeaderBlock i).1 ≠ .ok := by
  rw [blockAccepted, Bool.or_eq_false_iff] at h
  obtain ⟨htrailer, hdecode⟩ := h
  rw [decide_eq_false_iff_not] at hdecode
  rw [finishHeaderBlock]
  dsimp only
  rw [htrailer, if_neg Bool.false_ne_true]
  generalize s.hpack.decodeBlock (Headers.add cap.headers) (s.streams.get i).headerBlock
    (s.streams.get i).headers = decode at hdecode
  obtain ⟨decoded, hpack, headers⟩ := decode
  dsimp only at hdecode ⊢
  rw [if_pos hdecode]
  exact Hpack.Decoder.toStatus_blockError_ne_ok decoded

theorem fragment_fails {t : Session cap} {stream : StreamRecord} {fragment : Bytes}
    {endHeaders : Bool} (h : s.fragmentAccepted stream fragment endHeaders = false)
    (hblock : (t.streams.get i).headerBlock = stream.headerBlock) :
    (t.appendHeaderFragment i fragment).1 ≠ .ok ∨
      t.appendHeaderFragment i fragment = (.ok, t.modifyStream i fun stream =>
        { stream with headerBlock := stream.headerBlock ++ fragment }) ∧ endHeaders = true ∧
      s.blockAccepted { stream with headerBlock := stream.headerBlock ++ fragment } = false := by
  rw [fragmentAccepted, Bool.and_eq_false_iff, decide_eq_false_iff_not, Bool.or_eq_false_iff,
    Bool.not_eq_false'] at h
  obtain hfail | hok := appendHeaderFragment_cases t i fragment
  · exact Or.inl hfail
  · right
    refine ⟨hok, h.resolve_left fun hlong => ?_⟩
    rw [appendHeaderFragment, hblock, if_pos (not_le.mp hlong)] at hok
    cases hok

/-- A part of a header block fails when the stream is released, or its block is not accepted. -/
theorem receive_fails {frame : Frame} (h : s.failsLate frame = true) :
    (receive frame s).1 ≠ .ok := by
  rw [receive, handleFrame]
  split
  · exact failConnection_ne_ok _ (by decide)
  next hnot =>
    have hfind : (s.record (.received frame)).findStream frame.streamId =
        s.findStream frame.streamId := rfl
    rw [failsLate] at h
    cases hi : s.findStream frame.streamId with
    | none =>
      rw [hi] at h
      have hframe : frame.isHeaderBlock = true := h
      rw [Frame.isHeaderBlock, Bool.or_eq_true, decide_eq_true_eq, decide_eq_true_eq] at hframe
      obtain htype | htype := hframe
      · rw [htype]
        dsimp only
        rw [handleHeaders, hfind, hi]
        exact failConnection_ne_ok _ (by decide)
      · rw [htype]
        dsimp only
        rw [handleContinuation, hfind, hi]
        split
        · exact failConnection_ne_ok _ (by decide)
        · exact failConnection_ne_ok _ (by decide)
    | some i =>
      rw [hi] at h
      have hfails : s.failsOnReset frame = true := h
      rw [failsOnReset, hi] at hfails
      dsimp only at hfails
      rw [Bool.and_eq_true] at hfails
      obtain ⟨-, hfails⟩ := hfails
      by_cases htype : frame.type = .headers
      · rw [if_pos htype, Bool.and_eq_true, Bool.and_eq_true, Bool.not_eq_true'] at hfails
        obtain ⟨⟨-, hcomplete⟩, hfragment⟩ := hfails
        have hcomplete' : ¬((s.record (.received frame)).streams.get i).responseComplete = true := by
          show ¬(s.streams.get i).responseComplete = true
          rw [hcomplete]
          exact Bool.false_ne_true
        rw [htype]
        dsimp only
        rw [handleHeaders, hfind, hi]
        dsimp only
        rw [if_neg hcomplete']
        cases hunpad : unpad (frame.flags &&& 0x08 ≠ 0) (frame.flags &&& 0x20 ≠ 0)
            frame.payload with
        | none => exact failConnection_ne_ok _ (by decide)
        | some fragment =>
          rw [hunpad] at hfragment
          dsimp only at hfragment ⊢
          rw [Bool.not_eq_true'] at hfragment
          obtain hfail | ⟨hok, hend, hblock⟩ :=
            fragment_fails (t := s.record (.received frame)) (i := i) hfragment rfl
          · rw [if_pos hfail]
            exact hfail
          · rw [hok]
            dsimp only
            rw [if_neg (not_not.mpr rfl), if_pos (of_decide_eq_true hend)]
            apply finishHeaderBlock_fails
            rw [modifyStream_get_self, modifyStream_get_self]
            exact hblock
      · rw [if_neg htype, Bool.and_eq_true, Bool.and_eq_true, Bool.and_eq_true, decide_eq_true_eq,
          decide_eq_true_eq, decide_eq_true_eq, Bool.not_eq_true'] at hfails
        obtain ⟨⟨⟨htype, hopen⟩, hid⟩, hfragment⟩ := hfails
        rw [htype]
        dsimp only
        rw [handleContinuation, hfind, hi]
        split
        · exact failConnection_ne_ok _ (by decide)
        · dsimp only
          obtain hfail | ⟨hok, hend, hblock⟩ :=
            fragment_fails (t := s.record (.received frame)) (i := i) hfragment rfl
          · rw [if_pos hfail]
            exact hfail
          · rw [hok]
            dsimp only
            rw [if_neg (not_not.mpr rfl), if_pos (of_decide_eq_true hend)]
            apply finishHeaderBlock_fails
            dsimp only
            rw [modifyStream_get_self]
            exact hblock

theorem receive_late {frame : Frame} (h : s.Gone streamId) (hconforms : s.Conforms streamId frame)
    (hfails : s.failsLate frame = false) :
    (receive frame s).1 = .ok ∧ Taken s (receive frame s).2 streamId frame := by
  suffices hlate : (receive frame s).1 = .ok ∧
      ((receive frame s).2.Sound → Taken s (receive frame s).2 streamId frame) by
    have hsteps := receive_steps (p := False) s frame h.sound.continuationOpen fun hp => hp.elim
    exact ⟨hlate.1, hlate.2 (h.sound.steps hsteps)⟩
  obtain ⟨hid, hcontinuation, hkind⟩ := hconforms
  have hfind : (s.record (.received frame)).findStream frame.streamId = s.findStream streamId := by
    rw [hid]
    rfl
  rw [failsLate, hid] at hfails
  cases htype : frame.type with
  | headers =>
    rw [htype] at hkind hcontinuation
    obtain ⟨hstream, hfragment⟩ := hkind
    obtain ⟨fragment, hfragment⟩ := Option.ne_none_iff_exists'.mp hfragment
    cases hi : s.findStream streamId with
    | none =>
      rw [hi] at hfails
      have hframe : frame.isHeaderBlock = false := hfails
      rw [Frame.isHeaderBlock, htype] at hframe
      exact absurd hframe (by decide)
    | some i =>
      refine receive_headers_late h hi htype hid hcontinuation hstream hfragment ?_
      have hcancelled := h.cancelled i hi
      have hzero : s.continuationStreamId = 0 := hcontinuation
      rw [hi] at hfails
      have hreset : s.failsOnReset frame = false := hfails
      rw [failsOnReset, hid, hi] at hreset
      dsimp only at hreset
      rw [if_pos htype, hfragment, Bool.and_eq_false_iff, Bool.and_eq_false_iff,
        Bool.and_eq_false_iff] at hreset
      obtain hfalse | (hfalse | hfalse) | haccepted := hreset
      · rw [hcancelled.1] at hfalse
        cases hfalse
      · exact absurd hzero (of_decide_eq_false hfalse)
      · rw [hcancelled.2] at hfalse
        cases hfalse
      · dsimp only at haccepted
        rw [Bool.not_eq_false', decide_eq_true hstream] at haccepted
        exact haccepted
  | continuation =>
    rw [htype, if_pos rfl] at hcontinuation
    cases hi : s.findStream streamId with
    | none =>
      rw [hi] at hfails
      have hframe : frame.isHeaderBlock = false := hfails
      rw [Frame.isHeaderBlock, htype] at hframe
      exact absurd hframe (by decide)
    | some i =>
      refine receive_continuation_late h hi htype hid hcontinuation ?_
      rw [hi] at hfails
      have hreset : s.failsOnReset frame = false := hfails
      rw [failsOnReset, hid, hi] at hreset
      dsimp only at hreset
      rw [if_neg (by rw [htype]; decide), Bool.and_eq_false_iff, Bool.and_eq_false_iff,
        Bool.and_eq_false_iff, Bool.and_eq_false_iff] at hreset
      obtain hfalse | ((hfalse | hfalse) | hfalse) | haccepted := hreset
      · rw [(h.cancelled i hi).1] at hfalse
        cases hfalse
      · exact absurd htype (of_decide_eq_false hfalse)
      · exact absurd (hcontinuation ▸ h.odd) (of_decide_eq_false hfalse)
      · exact absurd hcontinuation.symm (of_decide_eq_false hfalse)
      · rw [Bool.not_eq_false'] at haccepted
        exact haccepted
  | data =>
    rw [htype] at hkind hcontinuation
    have hnot : ¬((s.record (.received frame)).continuationStreamId ≠ 0 ∧
        frame.type ≠ .continuation) := fun hboth => hboth.1 hcontinuation
    have hissued : (s.record (.received frame)).isIssuedStream frame.streamId = true := by
      rw [hid]
      exact h.issued
    have hroom : (frame.length : ℤ) ≤ s.connectionReceiveWindow := hkind
    have hwindow : ¬((s.record (.received frame)).consumeWindow frame).connectionReceiveWindow <
        0 := by
      show ¬s.connectionReceiveWindow - frame.length < 0
      omega
    have hdiscard : receive frame s = (.ok, (s.record (.received frame)).consumeWindow frame) := by
      rw [receive, handleFrame, if_neg hnot, htype]
      dsimp only
      rw [handleData, hfind]
      cases hi : s.findStream streamId with
      | none =>
        dsimp only
        rw [hissued, if_neg (by decide), if_neg hwindow]
      | some i =>
        have hreset : ((s.record (.received frame)).streams.get i).reset = true :=
          (h.cancelled i hi).1
        dsimp only
        rw [if_pos hreset, if_neg hwindow]
    rw [hdiscard]
    refine ⟨rfl, Taken.same h ?_ { SameAssembly.refl (s.record (.received frame)) with }⟩
    rw [Frame.isHeaderBlock, htype]
    rfl
  | rstStream =>
    rw [htype] at hcontinuation
    have hnot : ¬((s.record (.received frame)).continuationStreamId ≠ 0 ∧
        frame.type ≠ .continuation) := fun hboth => hboth.1 hcontinuation
    have hignored : receive frame s = (.ok, s.record (.received frame)) := by
      rw [receive, handleFrame, if_neg hnot, htype]
      dsimp only
      rw [handleRstStream, hfind]
      cases hi : s.findStream streamId with
      | none => rfl
      | some i =>
        have hreset : ((s.record (.received frame)).streams.get i).reset = true :=
          (h.cancelled i hi).1
        dsimp only
        rw [hreset, Bool.or_true, if_pos rfl]
    rw [hignored]
    refine ⟨rfl, Taken.same h ?_ (SameAssembly.refl (s.record (.received frame)))⟩
    rw [Frame.isHeaderBlock, htype]
    rfl
  | windowUpdate =>
    rw [htype] at hkind hcontinuation
    obtain ⟨hincrement, hroom⟩ := hkind
    have hnot : ¬((s.record (.received frame)).continuationStreamId ≠ 0 ∧
        frame.type ≠ .continuation) := fun hboth => hboth.1 hcontinuation
    have hframe : frame.isHeaderBlock = false := by
      rw [Frame.isHeaderBlock, htype]
      rfl
    have hodd := h.odd
    rw [receive, handleFrame, if_neg hnot, htype]
    dsimp only
    rw [handleWindowUpdate]
    dsimp only
    rw [if_neg hincrement, if_neg (by rw [hid]; exact hodd), hfind]
    cases hi : s.findStream streamId with
    | none => exact ⟨rfl, Taken.same h hframe (SameAssembly.refl (s.record (.received frame)))⟩
    | some i =>
      dsimp only
      generalize hu : ((s.record (.received frame)).modifyStream i fun stream =>
        { stream with
          sendWindow := stream.sendWindow + ((readU32 frame.payload % 2 ^ 31 : ℕ) : ℤ) }) = u
      have hwindow : ¬(u.streams.get i).sendWindow > 0x7fffffff := by
        rw [← hu, modifyStream_get_self]
        exact not_lt.mpr (hroom i hi)
      have hsame : SameAssembly (s.record (.received frame)) u := by
        rw [← hu]
        exact SameAssembly.modify (s.record (.received frame)) i rfl
      have hopen : u.failed = false := hsame.failed.trans h.failed
      rw [if_neg hwindow]
      refine ⟨?_, Taken.same h hframe (hsame.trans (SameAssembly.pumpRequestBodies u))⟩
      rw [pumpRequestBodies, hopen, if_neg Bool.false_ne_true]
  | priority | settings | pushPromise | ping | goaway | extension =>
    rw [htype] at hkind
    exact hkind.elim

theorem Gone.release (h : s.Gone streamId) :
    (s.releaseStream streamId).2.Gone streamId ∧ (s.releaseStream streamId).2.findStream streamId =
    none ∧ (s.releaseStream streamId).2.hpack = s.hpack := by
  have hsound := h.sound.steps (releaseStream_steps (p := False) s streamId)
  rw [releaseStream] at hsound ⊢
  cases hi : s.findStream streamId with
  | none => exact ⟨h, hi, rfl⟩
  | some i =>
    have hcancelled := h.cancelled i hi
    have hfinished : ¬(!(s.streams.get i).responseComplete && !(s.streams.get i).reset) = true := by
      rw [hcancelled.1, Bool.not_true, Bool.and_false]
      exact Bool.false_ne_true
    rw [hi] at hsound
    dsimp only at hsound ⊢
    rw [if_neg hfinished] at hsound ⊢
    have hnone : (s.modifyStream i fun _ => .free).findStream streamId = none := by
      refine Table.firstIdx_eq_none_iff.mpr fun j => ?_
      by_cases hj : j = i
      · rw [hj, modifyStream_get_self]
        rfl
      · rw [modifyStream_get_ne _ _ hj, Bool.and_eq_false_iff]
        by_contra hboth
        rw [not_or, Bool.not_eq_false, Bool.not_eq_false, decide_eq_true_eq] at hboth
        obtain ⟨hused, hid⟩ := findStream_some hi
        exact hj (h.sound.distinct j i hboth.1 hused (hboth.2.trans hid.symm))
    refine ⟨⟨hsound, h.failed, h.issued, ?_, ?_⟩, hnone, rfl⟩
    · intro j hj
      rw [hnone] at hj
      cases hj
    · intro j hj
      rw [hnone] at hj
      cases hj

theorem takeLate_ok {events : List Late} {t : Hpack.Table} {pending : Bytes} (h : s.Gone streamId)
    (ht : s.hpack.decoder.Agrees t)
    (hpending : s.findStream streamId ≠ none → pending = s.pendingBlock streamId)
    (hconform : s.AllConform streamId events) (hnone : s.NoneFails streamId events) :
    (s.takeLate streamId events).1 = .ok ∧ (s.takeLate streamId events).2.failed = false ∧
      InStep t (blocksOf pending events) (s.takeLate streamId events).2.hpack := by
  induction events generalizing s t pending with
  | nil => exact ⟨rfl, h.failed, [], t, [], .nil, rfl, ht⟩
  | cons event rest ih =>
    cases event with
    | release =>
      obtain ⟨hgone, hreleased, hdecoder⟩ := h.release
      refine ih hgone ?_ (fun hheld => absurd hreleased hheld) hconform hnone
      rw [hdecoder]
      exact ht
    | frame frame =>
      obtain ⟨hframe, hrest⟩ := hconform
      obtain ⟨hfails, hnone⟩ := hnone
      obtain ⟨hok, htaken⟩ := receive_late h hframe hfails
      have hconform := hrest hok
      have htake : s.takeLate streamId (.frame frame :: rest) =
          (receive frame s).2.takeLate streamId rest := by
        rw [takeLate]
        dsimp only
        rw [hok, if_neg (not_not.mpr rfl)]
      rw [htake]
      -- a part of a header block is not accepted once the slot is free
      have hheld : frame.isHeaderBlock = true → s.findStream streamId ≠ none := by
        intro hheader hreleased
        rw [failsLate, hframe.1, hreleased] at hfails
        exact absurd (hheader.symm.trans hfails) (by decide)
      rw [blocksOf]
      cases hheader : frame.isHeaderBlock with
      | false =>
        rw [Bool.not_false, if_pos rfl]
        refine ih htaken.gone ?_ ?_ hconform hnone
        · rw [htaken.decoder (by rw [hheader]; rfl)]
          exact ht
        · rw [htaken.found, htaken.pending, hheader]
          exact hpending
      | true =>
        rw [Bool.not_true, if_neg Bool.false_ne_true]
        have hblock := hpending (hheld hheader)
        cases hend : frame.endHeaders with
        | false =>
          rw [if_neg Bool.false_ne_true]
          refine ih htaken.gone ?_ ?_ hconform hnone
          · rw [htaken.decoder (by rw [hend, Bool.and_false])]
            exact ht
          · rw [htaken.pending, hheader, hend, hblock]
            exact fun _ => rfl
        | true =>
          obtain ⟨reps, t', fields, hread, hrun, hagrees⟩ :=
            htaken.decoded (by rw [hheader, hend]; rfl) t ht
          rw [if_pos rfl, hblock]
          have hnext : (receive frame s).2.findStream streamId ≠ none →
              [] = (receive frame s).2.pendingBlock streamId := by
            rw [htaken.pending, hheader, hend]
            exact fun _ => rfl
          obtain ⟨hstatus, hfailed, repss, t'', fields', hreads, hruns, hagrees'⟩ :=
            ih htaken.gone hagrees hnext hconform hnone
          refine ⟨hstatus, hfailed, reps :: repss, t'', fields ++ fields', .cons hread hreads, ?_,
            hagrees'⟩
          rw [List.flatten_cons, Hpack.Table.run_append, hrun, Option.bind_some, hruns]
          rfl

theorem noneFails_of_ok {events : List Late} (h : s.Gone streamId)
    (hconform : s.AllConform streamId events) (hok : (s.takeLate streamId events).1 = .ok) :
    s.NoneFails streamId events := by
  induction events generalizing s with
  | nil => trivial
  | cons event rest ih =>
    cases event with
    | release => exact ih h.release.1 hconform hok
    | frame frame =>
      obtain ⟨hframe, hrest⟩ := hconform
      rw [takeLate] at hok
      dsimp only at hok
      cases hfails : s.failsLate frame with
      | true =>
        have hresult := receive_fails hfails
        rw [if_pos hresult] at hok
        exact absurd hok hresult
      | false =>
        obtain ⟨hresult, htaken⟩ := receive_late h hframe hfails
        rw [if_neg (not_not.mpr hresult)] at hok
        exact ⟨hfails, ih htaken.gone (hrest hresult) hok⟩

theorem gone_of_abort {t : Session cap} {reason : ErrorCode} (hsound : s.Sound)
    (hfailed : s.failed = false) (hcontinuation : s.continuationStreamId = 0)
    (hstream : (s.streams.get i).unfinished = true) (hcancel : s.abortStream i reason = (.ok, t)) :
    t.Gone (s.streams.get i).id := by
  have hsound' := hsound.steps (abortStream_steps (p := False) s reason hstream)
  rw [hcancel] at hsound'
  rw [StreamRecord.unfinished, Bool.and_eq_true, Bool.and_eq_true, Bool.not_eq_true'] at hstream
  obtain ⟨⟨hused, hcomplete⟩, -⟩ := hstream
  obtain ⟨hodd, hlt⟩ := hsound.issued i hused
  have ht : t.failed = s.failed ∧ t.nextStreamId = s.nextStreamId ∧
      t.continuationStreamId = s.continuationStreamId ∧
      t.streams.get i = { s.streams.get i with reset := true } ∧
      ∀ j ≠ i, t.streams.get j = s.streams.get j := by
    rw [abortStream] at hcancel
    split at hcancel
    · exact absurd (congrArg Prod.fst hcancel) (failConnection_ne_ok s (by decide))
    next u hqueue =>
      obtain ⟨-, rfl⟩ := enqueueFrame_eq hqueue
      have hself := modifyStream_get_self s i fun stream => { stream with reset := true }
      have hothers (j) (hj : j ≠ i) :=
        modifyStream_get_ne s (fun stream => { stream with reset := true }) hj
      cases hcancel
      rw [notifyStream]
      split
      · exact ⟨rfl, rfl, rfl, hself, hothers⟩
      · exact ⟨rfl, rfl, rfl, hself, hothers⟩
  obtain ⟨hfailed', hnext, hcontinuation', hself, hothers⟩ := ht
  have hused' : (t.streams.get i).used = true := by
    rw [hself]
    exact hused
  have hid : (t.streams.get i).id = (s.streams.get i).id := by rw [hself]
  refine ⟨hsound', hfailed'.trans hfailed, ?_, fun j hj => ?_, fun j _ hopen => ?_⟩
  · rw [isIssuedStream, hnext, Bool.and_eq_true, decide_eq_true_eq, decide_eq_true_eq]
    omega
  · obtain ⟨hjused, hjid⟩ := findStream_some hj
    rw [hsound'.distinct j i hjused hused' (hjid.trans hid.symm), hself]
    exact ⟨rfl, hcomplete⟩
  · omega

/-- A stream is cancelled and perhaps released. The session takes all frames that a conforming
server still sends on it, and its decoder holds the table of the encoder, exactly when no part of
a header block comes after the release and each block before is accepted. -/
theorem late_frames {s t : Session cap} {i : Fin cap.maxConcurrentStreams} (hsound : s.Sound)
    (hfailed : s.failed = false) (hcontinuation : s.continuationStreamId = 0)
    (hstream : (s.streams.get i).unfinished = true)
    (hcancel : s.abortStream i .bodyLimit = (.ok, t)) {table : Hpack.Table}
    (htable : t.hpack.decoder.Agrees table) (events : List Late)
    (hconform : t.AllConform (s.streams.get i).id events) :
    ((t.takeLate (s.streams.get i).id events).1 = .ok ∧
      (t.takeLate (s.streams.get i).id events).2.failed = false ∧
      InStep table (blocksOf (t.pendingBlock (s.streams.get i).id) events)
        (t.takeLate (s.streams.get i).id events).2.hpack) ↔
      t.NoneFails (s.streams.get i).id events := by
  have hgone := gone_of_abort hsound hfailed hcontinuation hstream hcancel
  constructor
  · intro h
    exact noneFails_of_ok hgone hconform h.1
  · intro h
    exact takeLate_ok hgone htable (fun _ => rfl) hconform h

/-- HEADERS on stream 1, with the status 200. -/
def headersFrame : Bytes := [0, 0, 1, 1, 4, 0, 0, 0, 1, 0x88]

/-- A session that waits for the body of stream 1, in its first slot. -/
def waiting : Session smallCapacity :=
  (init smallCapacity true false).start.2.run
    [.openStream smallRequest, .feed (some headersFrame) false]

def firstSlot : Fin smallCapacity.maxConcurrentStreams := ⟨0, smallCapacity.maxConcurrentStreams_pos⟩

def cancelled : Session smallCapacity := (waiting.abortStream firstSlot .bodyLimit).2

/-- The trailer of stream 1, with one field of the static table. -/
def trailerFrame : Frame := ⟨.headers, 0x05, 1, [0x90]⟩

theorem waiting_facts : waiting.failed = false ∧ waiting.continuationStreamId = 0 ∧
    (waiting.streams.get firstSlot).unfinished = true ∧ (waiting.streams.get firstSlot).id = 1 ∧
    waiting.abortStream firstSlot .bodyLimit = (.ok, cancelled) := by
  refine ⟨?_, ?_, ?_, ?_, Prod.ext ?_ rfl⟩ <;> decide

theorem cancelled_facts : cancelled.continuationStreamId = 0 ∧
    cancelled.failsLate trailerFrame = false ∧ (cancelled.releaseStream 1).2.continuationStreamId =
    0 ∧ (cancelled.takeLate 1 [.release, .frame trailerFrame]).2.failed = true := by
  decide

/-- The trailer is taken before the release. -/
theorem late_frames_before :
    (cancelled.takeLate (waiting.streams.get firstSlot).id [.frame trailerFrame, .release]).1 =
      .ok := by
  obtain ⟨hfailed, hcontinuation, hstream, hid, hcancelled⟩ := waiting_facts
  obtain ⟨hopen, haccepted, -, -⟩ := cancelled_facts
  obtain ⟨table, htable⟩ := cancelled.hpack.agrees
  have hsound : waiting.Sound := (sound_start _).run _
  have hconform : cancelled.AllConform (waiting.streams.get firstSlot).id
      [.frame trailerFrame, .release] := by
    rw [hid]
    exact ⟨⟨rfl, hopen, by decide, by decide⟩, fun _ => trivial⟩
  have hnone : cancelled.NoneFails (waiting.streams.get firstSlot).id
      [.frame trailerFrame, .release] := ⟨haccepted, trivial⟩
  exact ((late_frames hsound hfailed hcontinuation hstream hcancelled htable _ hconform).mpr
    hnone).1

/-- The trailer that comes after the release fails the connection. -/
theorem late_trailer_fails : ¬∀ (cap : Capacity) (s t : Session cap)
    (i : Fin cap.maxConcurrentStreams) (table : Hpack.Table) (events : List Late), s.Sound →
    s.failed = false → s.continuationStreamId = 0 → (s.streams.get i).unfinished =
    true → s.abortStream i .bodyLimit = (.ok, t) → t.hpack.decoder.Agrees table →
    t.AllConform (s.streams.get i).id events → (t.takeLate (s.streams.get i).id events).2.failed =
    false ∧ InStep table (blocksOf (t.pendingBlock (s.streams.get i).id) events)
    (t.takeLate (s.streams.get i).id events).2.hpack := by
  intro h
  obtain ⟨hfailed, hcontinuation, hstream, hid, hcancelled⟩ := waiting_facts
  obtain ⟨-, -, hopen, hfails⟩ := cancelled_facts
  obtain ⟨table, htable⟩ := cancelled.hpack.agrees
  have hsound : waiting.Sound := (sound_start _).run _
  have hconform : cancelled.AllConform (waiting.streams.get firstSlot).id
      [.release, .frame trailerFrame] := by
    rw [hid]
    exact ⟨⟨rfl, hopen, by decide, by decide⟩, fun _ => trivial⟩
  have hok := (h smallCapacity waiting cancelled firstSlot table [.release, .frame trailerFrame]
    hsound hfailed hcontinuation hstream hcancelled htable hconform).1
  rw [hid, hfails] at hok
  cases hok

end Session
end Castle.Http.Http2
