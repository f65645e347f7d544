import Castle.Http.Http2.Runs

/-!
# The receive windows

What the session granted to its peer and what the peer used of it: the windows and the credit
that is not returned yet add up to the initial windows, and the log tells the windows.
-/

namespace Castle.Http.Http2

/-- The increment of a WINDOW_UPDATE frame on a stream, or on the connection (stream 0). -/
def Frame.creditOn (streamId : ℕ) (frame : Frame) : ℕ :=
  if frame.type = .windowUpdate ∧ frame.streamId = streamId then readU32 frame.payload % 2 ^ 31 else 0

/-- The flow-controlled size of a DATA frame. -/
def Frame.dataLength (frame : Frame) : ℕ := if frame.type = .data then frame.length else 0

def Frame.dataLengthOn (streamId : ℕ) (frame : Frame) : ℕ :=
  if frame.streamId = streamId then frame.dataLength else 0

namespace Event

def granted (streamId : ℕ) : Event → ℕ
  | .queued frame => frame.creditOn streamId
  | _ => 0

def used : Event → ℕ
  | .received frame => frame.dataLength
  | _ => 0

def usedOn (streamId : ℕ) : Event → ℕ
  | .received frame => frame.dataLengthOn streamId
  | _ => 0

end Event

def granted (streamId : ℕ) (log : List Event) : ℕ := (log.map (Event.granted streamId)).sum

def used (log : List Event) : ℕ := (log.map Event.used).sum

def usedOn (streamId : ℕ) (log : List Event) : ℕ := (log.map (Event.usedOn streamId)).sum

@[simp] theorem granted_append (streamId : ℕ) (log log' : List Event) :
    granted streamId (log ++ log') = granted streamId log + granted streamId log' := by
  simp [granted]

@[simp] theorem used_append (log log' : List Event) : used (log ++ log') = used log + used log' := by
  simp [used]

@[simp] theorem usedOn_append (streamId : ℕ) (log log' : List Event) :
    usedOn streamId (log ++ log') = usedOn streamId log + usedOn streamId log' := by
  simp [usedOn]

theorem readU32_writeU32 {value : ℕ} (h : value < 2 ^ 32) : readU32 (writeU32 value) = value := by
  simp [readU32, writeU32]
  omega

section Sums

variable (streamId : ℕ) (log : List Event) (frame : Frame)

theorem granted_received : granted streamId (log ++ [.received frame]) = granted streamId log := by
  simp [granted, Event.granted]

theorem used_received (hdata : frame.type = .data) :
    used (log ++ [.received frame]) = used log + frame.length := by
  simp [used, Event.used, Frame.dataLength, hdata]

theorem usedOn_received (hdata : frame.type = .data) : usedOn streamId (log ++ [.received frame]) =
    usedOn streamId log + if frame.streamId = streamId then frame.length else 0 := by
  simp [usedOn, Event.usedOn, Frame.dataLengthOn, Frame.dataLength, hdata]

theorem granted_queued (credited : ℕ) {increment : ℕ} (h : increment < 2 ^ 31) :
    granted streamId (log ++ [.queued ⟨.windowUpdate, 0, credited, writeU32 increment⟩]) =
      granted streamId log + if credited = streamId then increment else 0 := by
  simp only [granted, List.map_append, List.sum_append, List.map_cons, List.map_nil,
    List.sum_singleton, Event.granted, Frame.creditOn, true_and]
  rw [readU32_writeU32 (by omega), Nat.mod_eq_of_lt h]

theorem used_queued : used (log ++ [.queued frame]) = used log := by simp [used, Event.used]

theorem usedOn_queued : usedOn streamId (log ++ [.queued frame]) = usedOn streamId log := by
  simp [usedOn, Event.usedOn]

end Sums

/-- Events that neither grant nor use a receive window. -/
def Event.Unmetered (event : Event) : Prop :=
  (∀ streamId, event.granted streamId = 0) ∧ event.used = 0 ∧ ∀ streamId, event.usedOn streamId = 0

theorem received_unmetered {frame : Frame} (h : frame.type ≠ .data) :
    (Event.received frame).Unmetered :=
  ⟨fun _ => rfl, if_neg h, fun streamId => by
    simp [Event.usedOn, Frame.dataLengthOn, Frame.dataLength, h]⟩

theorem queued_unmetered {frame : Frame} (h : frame.type ≠ .windowUpdate) :
    (Event.queued frame).Unmetered :=
  ⟨fun _ => if_neg fun hc => h hc.1, rfl, fun _ => rfl⟩

/-- A log that goes on with events of that kind. -/
def Unmetered (log log' : List Event) : Prop :=
  ∃ events : List Event, log' = log ++ events ∧ ∀ event ∈ events, event.Unmetered

theorem Unmetered.refl (log : List Event) : Unmetered log log := ⟨[], by simp, by simp⟩

theorem Unmetered.single (log : List Event) {event : Event} (h : event.Unmetered) :
    Unmetered log (log ++ [event]) := ⟨[event], rfl, by simpa using h⟩

theorem Unmetered.sums {log log' : List Event} (h : Unmetered log log') :
    (∀ streamId, granted streamId log' = granted streamId log) ∧ used log' = used log ∧
      ∀ streamId, usedOn streamId log' = usedOn streamId log := by
  obtain ⟨events, rfl, hevents⟩ := h
  have hzero : ∀ f : Event → ℕ, (∀ event ∈ events, f event = 0) → (events.map f).sum = 0 := by
    intro f hf
    rw [List.sum_eq_zero]
    simpa using hf
  refine ⟨fun streamId => ?_, ?_, fun streamId => ?_⟩
  · rw [granted_append, granted, granted, hzero _ fun event he => (hevents event he).1 streamId,
      Nat.add_zero]
  · rw [used_append, used, used, hzero _ fun event he => (hevents event he).2.1, Nat.add_zero]
  · rw [usedOn_append, usedOn, usedOn, hzero _ fun event he => (hevents event he).2.2 streamId,
      Nat.add_zero]

namespace Session

variable {cap : Capacity} {p : Prop}

structure Balanced (s : Session cap) : Prop where
  connection : s.connectionReceiveWindow + s.connectionReceiveCredit = 65535
  connection_nonneg : 0 ≤ s.connectionReceiveWindow
  connection_log : s.connectionReceiveWindow = 65535 + granted 0 s.log - used s.log
  stream : ∀ i, (s.streams.get i).used = true →
    (s.streams.get i).receiveWindow + (s.streams.get i).receiveCredit = 65535 ∧
      0 ≤ (s.streams.get i).receiveWindow
  stream_log : ∀ i, (s.streams.get i).unfinished = true →
    (s.streams.get i).receiveWindow =
      65535 + granted (s.streams.get i).id s.log - usedOn (s.streams.get i).id s.log
  fresh : ∀ streamId, s.nextStreamId ≤ streamId →
    granted streamId s.log = 0 ∧ usedOn streamId s.log = 0

/-- A change that meters nothing. -/
structure SameWindows (s s' : Session cap) : Prop where
  window : s'.connectionReceiveWindow = s.connectionReceiveWindow
  credit : s'.connectionReceiveCredit = s.connectionReceiveCredit
  nextStreamId : s'.nextStreamId = s.nextStreamId
  streams : ∀ i, (s'.streams.get i).used = true → (s.streams.get i).used = true ∧
    (s'.streams.get i).id = (s.streams.get i).id ∧
    (s'.streams.get i).receiveWindow = (s.streams.get i).receiveWindow ∧
    (s'.streams.get i).receiveCredit = (s.streams.get i).receiveCredit ∧
    ((s'.streams.get i).unfinished = true → (s.streams.get i).unfinished = true)
  log : Unmetered s.log s'.log

theorem unfinished_used {stream : StreamRecord} (h : stream.unfinished = true) :
    stream.used = true := by
  rw [StreamRecord.unfinished, Bool.and_eq_true, Bool.and_eq_true] at h
  exact h.1.1

theorem Balanced.same {s s' : Session cap} (h : s.Balanced) (hs : SameWindows s s') :
    s'.Balanced := by
  obtain ⟨hgranted, hused, husedOn⟩ := hs.log.sums
  exact {
    connection := by
      rw [hs.window, hs.credit]
      exact h.connection
    connection_nonneg := by
      rw [hs.window]
      exact h.connection_nonneg
    connection_log := by
      rw [hs.window, hgranted, hused]
      exact h.connection_log
    stream := by
      intro i hi
      obtain ⟨hi', -, hwindow, hcredit, -⟩ := hs.streams i hi
      rw [hwindow, hcredit]
      exact h.stream i hi'
    stream_log := by
      intro i hi
      obtain ⟨-, hid, hwindow, -, hunfinished⟩ := hs.streams i (unfinished_used hi)
      rw [hwindow, hid, hgranted, husedOn]
      exact h.stream_log i (hunfinished hi)
    fresh := by
      intro streamId hle
      rw [hgranted, husedOn]
      exact h.fresh streamId (hs.nextStreamId ▸ hle) }

namespace SameWindows

variable (s : Session cap)

theorem refl : SameWindows s s :=
  ⟨rfl, rfl, rfl, fun _ h => ⟨h, rfl, rfl, rfl, id⟩, Unmetered.refl _⟩

theorem record {event : Event} (h : event.Unmetered) : SameWindows s (s.record event) :=
  { refl s with log := Unmetered.single _ h }

theorem modify (i : Fin cap.maxConcurrentStreams) {f : StreamRecord → StreamRecord}
    (hf : (f (s.streams.get i)).used = true → (s.streams.get i).used = true ∧
      (f (s.streams.get i)).id = (s.streams.get i).id ∧
      (f (s.streams.get i)).receiveWindow = (s.streams.get i).receiveWindow ∧
      (f (s.streams.get i)).receiveCredit = (s.streams.get i).receiveCredit ∧
      ((f (s.streams.get i)).unfinished = true → (s.streams.get i).unfinished = true)) :
    SameWindows s (s.modifyStream i f) :=
  { refl s with
    streams := by
      intro j hj
      by_cases hji : j = i
      · subst hji
        rw [modifyStream_get_self] at hj ⊢
        exact hf hj
      · rw [modifyStream_get_ne s f hji] at hj ⊢
        exact ⟨hj, rfl, rfl, rfl, id⟩ }

variable {s}

variable {s' : Session cap}

theorem quiet (h : Quiet s s') : SameWindows s s' where
  window := h.connectionReceiveWindow
  credit := h.connectionReceiveCredit
  nextStreamId := h.nextStreamId
  streams := by
    intro i hi
    have hused := congrArg StreamCore.used (h.streams i)
    have hunfinished := core_unfinished (h.streams i)
    refine ⟨hused.symm.trans hi, congrArg StreamCore.id (h.streams i),
      congrArg StreamCore.receiveWindow (h.streams i),
      congrArg StreamCore.receiveCredit (h.streams i), fun hi' => ?_⟩
    exact hunfinished.symm.trans hi'
  log := by
    rw [h.log]
    exact Unmetered.refl _

theorem enqueueFrame {frame : Frame} (h : s.enqueueFrame frame = some s')
    (htype : frame.type ≠ .windowUpdate) : SameWindows s s' := by
  rw [(enqueueFrame_eq h).2]
  exact { record s (queued_unmetered htype) with }

theorem notify (h : SameWindows s s') (i : Fin cap.maxConcurrentStreams) (result : Status) :
    SameWindows s (s'.notifyStream i result) := by
  rw [notifyStream]
  split
  · obtain ⟨events, hlog, hevents⟩ := h.log
    refine { h with log := ⟨events ++ [.response result (s'.makeResponse (s'.streams.get i))],
      ?_, ?_⟩ }
    · rw [← List.append_assoc, ← hlog]
      rfl
    · rw [List.forall_mem_append]
      exact ⟨hevents, by simpa using ⟨fun _ => rfl, rfl, fun _ => rfl⟩⟩
  · exact h

theorem resetStream (s : Session cap) (i : Fin cap.maxConcurrentStreams) (result : Status) :
    SameWindows s (s.resetStream i result) := by
  refine notify (modify s i fun h => ⟨h, rfl, rfl, rfl, ?_⟩) i result
  simp [StreamRecord.unfinished]

theorem chunk {i : Fin cap.maxConcurrentStreams} {stop : Bool} (h : s.sendChunk i = some (stop, s'))
    : SameWindows s s' := by
  obtain ⟨-, rfl⟩ | ⟨-, -, -, t, hqueue, rfl⟩ := sendChunk_cases h
  · exact refl _
  · have hlog := (enqueueFrame hqueue (by simp [chunkFrame])).log
    obtain ⟨-, rfl⟩ := enqueueFrame_eq hqueue
    have hcount : SameWindows s (s.countChunk i (s.chunkSize (s.streams.get i))) :=
      { modify s i (f := counted (s.chunkSize (s.streams.get i)))
          fun h => ⟨h, rfl, rfl, rfl, id⟩ with }
    exact { hcount with log := hlog }

theorem slots {t : Table cap.maxConcurrentStreams StreamRecord}
    (ht : ∀ i, (t.get i).used = (s.streams.get i).used ∧ (t.get i).id = (s.streams.get i).id ∧
      (t.get i).receiveWindow = (s.streams.get i).receiveWindow ∧
      (t.get i).receiveCredit = (s.streams.get i).receiveCredit ∧
      (t.get i).unfinished = (s.streams.get i).unfinished) :
    SameWindows s { s with streams := t } :=
  { refl s with
    streams := by
      intro i hi
      obtain ⟨hused, hid, hwindow, hcredit, hunfinished⟩ := ht i
      exact ⟨hused.symm.trans hi, hid, hwindow, hcredit, fun h => hunfinished.symm.trans h⟩ }

end SameWindows

theorem issued_lt {s : Session cap} (h : s.Sound) {streamId : ℕ}
    (hissued : s.findStream streamId = none → s.isIssuedStream streamId = true) :
    streamId < s.nextStreamId := by
  cases hfind : s.findStream streamId with
  | none =>
    have hboth := hissued hfind
    rw [isIssuedStream, Bool.and_eq_true, decide_eq_true_eq, decide_eq_true_eq] at hboth
    exact hboth.2
  | some i =>
    obtain ⟨hused, hid⟩ := findStream_some hfind
    exact hid ▸ (h.issued i hused).2

theorem findStream_eq {s : Session cap} (h : s.Sound) {i : Fin cap.maxConcurrentStreams}
    (hused : (s.streams.get i).used = true) : s.findStream (s.streams.get i).id = some i :=
  h.distinct.lookup_eq hused

/-- The windows of a slot agree with each other and with a log. -/
structure SlotBalanced (log : List Event) (stream : StreamRecord) : Prop where
  sum : stream.receiveWindow + stream.receiveCredit = 65535 ∧ 0 ≤ stream.receiveWindow
  log : stream.unfinished = true →
    stream.receiveWindow = 65535 + granted stream.id log - usedOn stream.id log

section Changes

variable {s s' : Session cap} {frame : Frame} {i : Fin cap.maxConcurrentStreams}

theorem Balanced.change (h : s.Balanced) (metered : ℕ → Prop)
    (hconnection : s'.connectionReceiveWindow + s'.connectionReceiveCredit = 65535 ∧
      0 ≤ s'.connectionReceiveWindow ∧
      s'.connectionReceiveWindow = 65535 + granted 0 s'.log - used s'.log)
    (hlog : ∀ streamId, ¬metered streamId → granted streamId s'.log = granted streamId s.log ∧
      usedOn streamId s'.log = usedOn streamId s.log)
    (hslot : ∀ j, (s'.streams.get j).used = true →
      s'.streams.get j = s.streams.get j ∧
        ((s.streams.get j).used = true → (s.streams.get j).unfinished = true →
          ¬metered (s.streams.get j).id) ∨
      SlotBalanced s'.log (s'.streams.get j))
    (hnext : s.nextStreamId ≤ s'.nextStreamId)
    (hmetered : ∀ streamId, metered streamId → streamId < s'.nextStreamId) : s'.Balanced where
  connection := hconnection.1
  connection_nonneg := hconnection.2.1
  connection_log := hconnection.2.2
  stream := by
    intro j hj
    rcases hslot j hj with ⟨hsame, -⟩ | hbalanced
    · rw [hsame] at hj ⊢
      exact h.stream j hj
    · exact hbalanced.sum
  stream_log := by
    intro j hj
    rcases hslot j (unfinished_used hj) with ⟨hsame, hother⟩ | hbalanced
    · rw [hsame] at hj ⊢
      obtain ⟨hgranted, hused⟩ := hlog _ (hother (unfinished_used hj) hj)
      rw [hgranted, hused]
      exact h.stream_log j hj
    · exact hbalanced.log hj
  fresh := by
    intro streamId hle
    obtain ⟨hgranted, hused⟩ := hlog streamId fun hm => absurd (hmetered _ hm) (not_lt.mpr hle)
    rw [hgranted, hused]
    exact h.fresh streamId (hnext.trans hle)

theorem other_id (hsound : s.Sound) (hused : (s.streams.get i).used = true)
    {j : Fin cap.maxConcurrentStreams} (hj : j ≠ i) (hused' : (s.streams.get j).used = true) :
    (s.streams.get j).id ≠ (s.streams.get i).id :=
  fun heq => hj (hsound.distinct j i hused' hused heq)

theorem Balanced.consumed (h : s.Balanced) (hdata : frame.type = .data)
    (hroom : (frame.length : ℤ) ≤ s.connectionReceiveWindow) : s.connectionReceiveWindow -
    frame.length + (((s.connectionReceiveCredit + frame.length) % 2 ^ 32 : ℕ) : ℤ) = 65535 ∧
    0 ≤ s.connectionReceiveWindow - frame.length ∧ s.connectionReceiveWindow - frame.length =
    65535 + granted 0 (s.log ++ [.received frame]) - used (s.log ++ [.received frame]) := by
  have hconnection := h.connection
  have hlog := h.connection_log
  rw [Nat.mod_eq_of_lt (by omega), used_received _ _ hdata, granted_received]
  omega

theorem received_elsewhere (s : Session cap) (hdata : frame.type = .data) {streamId : ℕ}
    (hne : ¬streamId = frame.streamId) : granted streamId (s.log ++ [.received frame]) = granted
    streamId s.log ∧ usedOn streamId (s.log ++ [.received frame]) = usedOn streamId s.log := by
  rw [granted_received, usedOn_received _ _ _ hdata, if_neg (Ne.symm hne)]
  exact ⟨rfl, rfl⟩

theorem Balanced.discarded (h : s.Balanced) (hsound : s.Sound) (hdata : frame.type = .data)
    (hissued : s.findStream frame.streamId = none → s.isIssuedStream frame.streamId = true)
    (hreset : ∀ i, s.findStream frame.streamId = some i → (s.streams.get i).reset = true)
    (hroom : (frame.length : ℤ) ≤ s.connectionReceiveWindow) :
    ((s.record (.received frame)).consumeWindow frame).Balanced := by
  refine h.change (· = frame.streamId) (h.consumed hdata hroom)
    (fun _ => received_elsewhere s hdata) (fun j _ => Or.inl ⟨rfl, fun hused hj heq => ?_⟩) le_rfl
    fun _ heq => heq ▸ issued_lt hsound hissued
  have hfound := hreset j (heq ▸ findStream_eq hsound hused)
  simp [StreamRecord.unfinished, hfound] at hj

theorem Balanced.delivered (h : s.Balanced) (hsound : s.Sound) (hdata : frame.type = .data)
    (hi : s.findStream frame.streamId = some i)
    (hroom : (frame.length : ℤ) ≤ s.connectionReceiveWindow)
    (hroom' : (frame.length : ℤ) ≤ (s.streams.get i).receiveWindow) :
    (((s.record (.received frame)).consumeWindow frame).modifyStream i
      (consumeStreamWindow frame.length)).Balanced := by
  obtain ⟨hused, hid⟩ := findStream_some hi
  refine h.change (· = frame.streamId) (h.consumed hdata hroom)
    (fun _ => received_elsewhere s hdata) (fun j hj => ?_) le_rfl
    fun _ heq => heq ▸ hid ▸ (hsound.issued i hused).2
  by_cases hji : j = i
  · subst hji
    right
    rw [modifyStream_get_self]
    obtain ⟨hsum, hnonneg⟩ := h.stream j hused
    refine ⟨?_, fun hunfinished => ?_⟩
    · show (s.streams.get j).receiveWindow - frame.length +
        ((((s.streams.get j).receiveCredit + frame.length) % 2 ^ 32 : ℕ) : ℤ) = 65535 ∧
          0 ≤ (s.streams.get j).receiveWindow - frame.length
      rw [Nat.mod_eq_of_lt (by omega)]
      omega
    · have hlog := h.stream_log j hunfinished
      show (s.streams.get j).receiveWindow - frame.length = 65535 + granted (s.streams.get j).id
        (s.log ++ [.received frame]) - usedOn (s.streams.get j).id (s.log ++ [.received frame])
      rw [granted_received, usedOn_received _ _ _ hdata, if_pos hid.symm]
      omega
  · rw [modifyStream_get_ne _ _ hji]
    exact Or.inl ⟨rfl, fun hused' _ heq => other_id hsound hused hji hused' (heq.trans hid.symm)⟩

theorem credited_elsewhere (s : Session cap) {increment credited streamId : ℕ}
    (h : increment < 2 ^ 31) (hne : ¬streamId = credited) : granted streamId
    (s.log ++ [.queued ⟨.windowUpdate, 0, credited, writeU32 increment⟩]) = granted streamId s.log ∧
    usedOn streamId (s.log ++ [.queued ⟨.windowUpdate, 0, credited, writeU32 increment⟩]) =
    usedOn streamId s.log := by
  rw [granted_queued _ _ _ h, usedOn_queued, if_neg (Ne.symm hne)]
  exact ⟨rfl, rfl⟩

theorem Balanced.replenishConnection (h : s.Balanced) (hsound : s.Sound) :
    s.replenishConnection.Balanced := by
  rw [Session.replenishConnection]
  split
  · split
    · exact h
    next s' hqueue =>
      obtain ⟨-, rfl⟩ := enqueueFrame_eq hqueue
      have hconnection := h.connection
      have hnonneg := h.connection_nonneg
      have hlog := h.connection_log
      have hcredit : s.connectionReceiveCredit < 2 ^ 31 := by omega
      have hodd := hsound.next_odd
      refine h.change (· = 0) ?_ (fun _ => credited_elsewhere s hcredit)
        (fun j _ => Or.inl ⟨rfl, fun hused _ heq => ?_⟩) le_rfl
        (fun _ heq => heq ▸ (by omega : 0 < s.nextStreamId))
      · show s.connectionReceiveWindow + s.connectionReceiveCredit + ((0 : ℕ) : ℤ) = 65535 ∧
          0 ≤ s.connectionReceiveWindow + s.connectionReceiveCredit ∧ s.connectionReceiveWindow +
          s.connectionReceiveCredit = 65535 + granted 0 (s.log ++ [_]) - used (s.log ++ [_])
        rw [granted_queued _ _ _ hcredit, used_queued, if_pos rfl]
        omega
      · have hodd := (hsound.issued j hused).1
        omega
  · exact h

theorem Balanced.replenishStream (h : s.Balanced) (hsound : s.Sound)
    (i : Fin cap.maxConcurrentStreams) : (s.replenishStream i).Balanced := by
  rw [Session.replenishStream]
  split
  next hcondition =>
    rw [Bool.and_eq_true] at hcondition
    have hused := unfinished_used hcondition.1
    split
    · exact h
    next s' hqueue =>
      obtain ⟨-, rfl⟩ := enqueueFrame_eq hqueue
      obtain ⟨hsum, hnonneg⟩ := h.stream i hused
      have hcredit : (s.streams.get i).receiveCredit < 2 ^ 31 := by omega
      have hissued := hsound.issued i hused
      refine h.change (· = (s.streams.get i).id) ⟨h.connection, h.connection_nonneg, ?_⟩
        (fun _ => credited_elsewhere s hcredit) (fun j _ => ?_) le_rfl (fun _ heq => heq ▸ hissued.2)
      · have hlog := h.connection_log
        show s.connectionReceiveWindow = 65535 + granted 0 (s.log ++ [_]) - used (s.log ++ [_])
        rw [granted_queued _ _ _ hcredit, used_queued, if_neg (by omega)]
        omega
      · by_cases hji : j = i
        · subst hji
          right
          rw [modifyStream_get_self]
          refine ⟨?_, fun hunfinished => ?_⟩
          · show (s.streams.get j).receiveWindow + (s.streams.get j).receiveCredit + ((0 : ℕ) : ℤ) =
              65535 ∧ 0 ≤ (s.streams.get j).receiveWindow + (s.streams.get j).receiveCredit
            omega
          · have hlog := h.stream_log j hcondition.1
            show (s.streams.get j).receiveWindow + (s.streams.get j).receiveCredit = 65535 +
              granted (s.streams.get j).id (s.log ++ [_]) - usedOn (s.streams.get j).id (s.log ++ [_])
            rw [granted_queued _ _ _ hcredit, usedOn_queued, if_pos rfl]
            omega
        · rw [modifyStream_get_ne _ _ hji]
          exact Or.inl ⟨rfl, fun hused' _ => other_id hsound hused hji hused'⟩
  · exact h

theorem Balanced.claim (h : s.Balanced) (i : Fin cap.maxConcurrentStreams)
    (request : Request) (block : Bytes) : (s.claimStream i request block).Balanced := by
  have hopened : (Event.opened s.nextStreamId block request.body).Unmetered :=
    ⟨fun _ => rfl, rfl, fun _ => rfl⟩
  obtain ⟨hgranted, hused, husedOn⟩ := (Unmetered.single s.log hopened).sums
  refine h.change (fun _ => False) ⟨h.connection, h.connection_nonneg, ?_⟩
    (fun streamId _ => ⟨hgranted streamId, husedOn streamId⟩) (fun j _ => ?_)
    (Nat.le_add_right _ 2) fun _ => False.elim
  · show s.connectionReceiveWindow = 65535 + granted 0 (s.log ++ [_]) - used (s.log ++ [_])
    rw [hgranted, hused]
    exact h.connection_log
  · by_cases hji : j = i
    · subst hji
      right
      obtain ⟨hnone, hnone'⟩ := h.fresh s.nextStreamId (Nat.le_refl _)
      show SlotBalanced _ ((s.streams.set j _).get j)
      rw [Table.get_set_self]
      refine ⟨show defaultWindow + ((0 : ℕ) : ℤ) = 65535 ∧ 0 ≤ defaultWindow by decide, fun _ => ?_⟩
      show defaultWindow = 65535 + granted s.nextStreamId (s.log ++ [_]) -
        usedOn s.nextStreamId (s.log ++ [_])
      rw [hgranted, husedOn, hnone, hnone']
      rfl
    · exact Or.inl ⟨Table.get_set_ne _ _ hji, fun _ _ => id⟩

end Changes

theorem headerFrames_type {streamId maxFrameSize fragments count index : ℕ} {endStream : Bool}
    {block : Bytes} {frame : Frame}
    (h : frame ∈ headerFrames streamId maxFrameSize fragments endStream count index block) :
    frame.type = .headers ∨ frame.type = .continuation := by
  induction count generalizing index block with
  | zero => cases h
  | succ count ih =>
    rw [headerFrames, List.mem_cons] at h
    obtain rfl | h := h
    · dsimp only
      split
      · exact Or.inl rfl
      · exact Or.inr rfl
    · exact ih h

theorem Balanced.step {s s' : Session cap} (h : s.Balanced) (hsound : s.Sound)
    (hstep : Step p s s') (hfailed : s'.failed = false) : s'.Balanced := by
  cases hstep with
  | quiet hquiet => exact h.same (SameWindows.quiet hquiet)
  | received hdata => exact h.same (SameWindows.record s (received_unmetered hdata))
  | refused => cases hfailed
  | discarded hdata hissued hreset hroom => exact h.discarded hsound hdata hissued hreset hroom
  | delivered hdata hi _ hroom hroom' => exact h.delivered hsound hdata hi hroom hroom'
  | overrun => cases hfailed
  | body => exact h.same (SameWindows.record s ⟨fun _ => rfl, rfl, fun _ => rfl⟩)
  | connectionCredit htype =>
    exact h.same { SameWindows.record s (received_unmetered (by simp [htype])) with }
  | streamCredit htype =>
    refine h.same { SameWindows.modify s _ ?_ with
      log := (SameWindows.record s (received_unmetered (by simp [htype]))).log }
    exact fun h => ⟨h, rfl, rfl, rfl, id⟩
  | lateCredit htype => exact h.same (SameWindows.record s (received_unmetered (by simp [htype])))
  | initialWindow value =>
    have hslots : SameWindows s { s with
        streams := s.streams.map (StreamRecord.adjustWindow (value - s.peerInitialWindow)) } := by
      refine SameWindows.slots fun i => ?_
      rw [Table.get_map, StreamRecord.adjustWindow]
      split <;> exact ⟨rfl, rfl, rfl, rfl, rfl⟩
    exact h.same { hslots with }
  | windowFailure => cases hfailed
  | maxFrameSize => exact h.same { SameWindows.refl s with }
  | control htype hqueue =>
    refine h.same (SameWindows.enqueueFrame hqueue ?_)
    obtain htype | htype | htype := htype
    · simp [htype]
    · simp [htype]
    · simp [htype]
  | chunk _ hchunk => exact h.same (SameWindows.chunk hchunk)
  | replenishConnection => exact h.replenishConnection hsound
  | replenishStream _ i => exact h.replenishStream hsound i
  | reset => exact h.same (SameWindows.resetStream s _ _)
  | headerFailure => exact h.same (SameWindows.resetStream s _ _)
  | complete =>
    refine h.same (SameWindows.notify (SameWindows.modify s _ fun h => ⟨h, rfl, rfl, rfl, ?_⟩) _ _)
    simp [StreamRecord.unfinished]
  | continuation => exact h.same { SameWindows.refl s with }
  | @opened i request block _ _ hfree _ _ _ _ _ _ hqueue =>
    have hclaim := hsound.claim hfree request block
    obtain ⟨output, -, -, rfl⟩ := enqueueFrames_some hqueue hclaim.output
    refine (h.claim i request block).same { SameWindows.refl _ with log := ⟨_, rfl, ?_⟩ }
    rw [List.forall_mem_map]
    intro frame hframe
    obtain htype | htype := headerFrames_type hframe
    · exact queued_unmetered (by simp [htype])
    · exact queued_unmetered (by simp [htype])
  | release => exact h.same (SameWindows.modify s _ fun h => absurd h (by decide))
  | dequeue => exact h.same { SameWindows.refl s with }

variable (s : Session cap) (i : Fin cap.maxConcurrentStreams)

theorem notifyStream_failed (result : Status) : (s.notifyStream i result).failed = s.failed := by
  rw [notifyStream]
  split <;> rfl

theorem Step.failed {s s' : Session cap} (h : Step p s s') (hfailed : s'.failed = false) :
    s.failed = false := by
  cases h with
  | quiet hquiet => exact hquiet.failed hfailed
  | refused | overrun | windowFailure => cases hfailed
  | control _ hqueue =>
    rw [(enqueueFrame_eq hqueue).2] at hfailed
    exact hfailed
  | chunk h | replenishConnection h | replenishStream h => exact h
  | reset | headerFailure =>
    rw [resetStream, notifyStream_failed] at hfailed
    exact hfailed
  | complete =>
    rw [notifyStream_failed] at hfailed
    exact hfailed
  | opened _ _ h => exact h
  | received | discarded | delivered | body | connectionCredit | streamCredit | lateCredit
  | initialWindow | maxFrameSize | continuation | release | dequeue => exact hfailed

theorem Steps.failed {s s' : Session cap} (h : Steps p s s') (hfailed : s'.failed = false) :
    s.failed = false := by
  induction h with
  | refl => exact hfailed
  | tail _ hstep ih => exact ih (hstep.failed hfailed)

theorem Balanced.steps {s s' : Session cap} (h : s.Balanced) (hsound : s.Sound)
    (hsteps : Steps p s s') (hfailed : s'.failed = false) : s'.Balanced := by
  induction hsteps with
  | refl => exact h
  | tail hbefore hstep ih =>
    exact (ih (hstep.failed hfailed)).step (hsound.steps hbefore) hstep hfailed

/-- The queue only grows, and the credit of the connection stays. -/
structure Grows (s s' : Session cap) : Prop where
  credit : s'.connectionReceiveCredit = s.connectionReceiveCredit
  output : s.output.size ≤ s'.output.size

theorem Grows.trans {s s' s'' : Session cap} (h : Grows s s') (h' : Grows s' s'') : Grows s s'' :=
  ⟨h'.credit.trans h.credit, h.output.trans h'.output⟩

theorem enqueueFrame_grows {s s' : Session cap} {frame : Frame} (h : s.enqueueFrame frame = some s') :
    Grows s s' := by
  rw [(enqueueFrame_eq h).2]
  exact ⟨rfl, Nat.le_add_right _ _⟩

theorem pumpRequestBodies_grows : Grows s s.pumpRequestBodies.2 := by
  rw [pumpRequestBodies]
  split
  · exact ⟨rfl, Nat.le_refl _⟩
  · refine pumpStreams_keeps (P := fun t => Grows s t) ?_ _ ⟨rfl, Nat.le_refl _⟩
    intro t i t' ht hchunk
    obtain ⟨hfalse, -⟩ | ⟨-, -, -, u, hqueue, rfl⟩ := sendChunk_cases hchunk
    · cases hfalse
    · obtain ⟨hcredit, houtput⟩ := ht.trans (enqueueFrame_grows hqueue)
      exact ⟨hcredit, houtput⟩

theorem replenishStream_grows : Grows s (s.replenishStream i) := by
  rw [replenishStream]
  split
  · split
    · exact ⟨rfl, Nat.le_refl _⟩
    next s' hqueue =>
      obtain ⟨hcredit, houtput⟩ := enqueueFrame_grows hqueue
      exact ⟨hcredit, houtput⟩
  · exact ⟨rfl, Nat.le_refl _⟩

/-- The credit of the connection is below the threshold, or no WINDOW_UPDATE frame fits. -/
def Returned (s : Session cap) : Prop :=
  s.connectionReceiveCredit < windowUpdateThreshold ∨ s.outputFree < 13

theorem Returned.grows {s s' : Session cap} (h : s.Returned) (hg : Grows s s') : s'.Returned := by
  have houtput := hg.output
  rw [Returned, hg.credit]
  refine h.imp_right fun hfull => ?_
  have hfull' : cap.maxOutputSize - s.output.size < 13 := hfull
  show cap.maxOutputSize - s'.output.size < 13
  omega

theorem replenishConnection_returned : s.replenishConnection.Returned := by
  rw [replenishConnection]
  split
  · split
    next hfull =>
      right
      rw [sendWindowUpdate, enqueueFrame] at hfull
      split at hfull
      next hsmall => exact hsmall
      · cases hfull
    · left
      show 0 < windowUpdateThreshold
      decide
  next hsmall => exact Or.inl (not_le.mp hsmall)

theorem pump_returned (hfailed : s.failed = false) : s.pump.2.Returned := by
  rw [pump, if_pos (by rw [hfailed]; rfl)]
  refine Returned.grows ?_ (pumpRequestBodies_grows _)
  rw [replenishReceiveWindows]
  have hstart := s.replenishConnection_returned
  generalize s.replenishConnection = t at hstart
  generalize List.finRange cap.maxConcurrentStreams = l
  induction l generalizing t with
  | nil => exact hstart
  | cons i l ih => exact ih _ (hstart.grows (t.replenishStream_grows i))

theorem resetStreams_failed (q : StreamRecord → Bool) (result : Status) :
    (s.resetStreams q result).failed = s.failed := by
  rw [resetStreams]
  generalize List.finRange cap.maxConcurrentStreams = l
  induction l generalizing s with
  | nil => rfl
  | cons i l ih =>
    rw [List.foldl_cons, ih]
    split
    · exact notifyStream_failed _ _ _
    · rfl

theorem failConnection_failed (value : ErrorCode) :
    (s.failConnection value).2.failed = true := resetStreams_failed _ _ _

theorem sendRequest_grows (request : Request) (block : Bytes) (hvalid : s.output.Valid) :
    (s.sendRequest request block).2.2.failed = false →
      Grows s (s.sendRequest request block).2.2 := by
  rw [sendRequest]
  dsimp only
  generalize (if (block.length + s.peerMaxFrameSize - 1) / s.peerMaxFrameSize = 0 then 1
    else (block.length + s.peerMaxFrameSize - 1) / s.peerMaxFrameSize) = fragments
  split
  · exact fun _ => ⟨rfl, Nat.le_refl _⟩
  · split
    · exact fun _ => ⟨rfl, Nat.le_refl _⟩
    next i _ =>
      split
      · exact fun hfailed => absurd hfailed (by simp [failConnection_failed])
      next s' hqueue =>
        intro _
        obtain ⟨output, -, helements, rfl⟩ := enqueueFrames_some hqueue hvalid
        dsimp only
        refine Grows.trans ?_ (pumpRequestBodies_grows _)
        refine ⟨rfl, ?_⟩
        have hlength := congrArg List.length helements
        rw [List.length_append, CircularQueue.length_elements,
          CircularQueue.length_elements] at hlength
        exact (Nat.le_add_right _ _).trans hlength.symm.le

theorem openStream_grows (request : Request) (hvalid : s.output.Valid)
    (hfailed : (s.openStream request).2.2.failed = false) : Grows s (s.openStream request).2.2 := by
  obtain ⟨-, ⟨value, herror⟩ | ⟨value, hfail⟩⟩ | ⟨block, -, -, -, -, -, -, hsent⟩ :=
    openStream_cases s request
  · rw [herror]
    exact ⟨rfl, Nat.le_refl _⟩
  · rw [hfail, failConnection_failed] at hfailed
    cases hfailed
  · rw [hsent] at hfailed ⊢
    exact sendRequest_grows s request block hvalid hfailed

theorem pump_failed (hfailed : s.pump.2.failed = false) : s.failed = false :=
  Steps.failed (pump_steps (p := True) s) hfailed

theorem feed_returned (data : Option Bytes) (peerClosed : Bool) (h : s.Returned) :
    (s.feed data peerClosed).2.failed = false → (s.feed data peerClosed).2.Returned := by
  rw [feed]
  split
  · exact fun _ => h
  · split
    · exact fun _ => h
    · generalize s.frameParser.feed cap.maxFrameSize receive s data = fed
      obtain ⟨result, count, frameParser, t⟩ := fed
      dsimp only
      split
      · exact fun hfailed => absurd hfailed (by simp [failConnection_failed])
      · split
        · exact fun hfailed => absurd hfailed (by simp [failConnection_failed])
        · exact fun hfailed => pump_returned _ (pump_failed _ hfailed)

theorem call_returned (c : Call) (h : s.Returned) (hsound : s.Sound) :
    (s.call c).failed = false → (s.call c).Returned := by
  cases c with
  | openStream request =>
    exact fun hfailed => h.grows (openStream_grows s request hsound.output hfailed)
  | feed data peerClosed => exact feed_returned s data peerClosed h
  | consumeOutput count =>
    rw [call, consumeOutput]
    split
    · exact fun _ => h
    · exact fun hfailed => pump_returned _ (pump_failed _ hfailed)
  | releaseStream streamId =>
    rw [call, releaseStream]
    split
    · exact fun _ => h
    · split <;> exact fun _ => h

theorem notifyStream_error (result : Status) : (s.notifyStream i result).error = s.error := by
  rw [notifyStream]
  split <;> rfl

theorem resetStreams_error (q : StreamRecord → Bool) (result : Status) :
    (s.resetStreams q result).error = s.error := by
  rw [resetStreams]
  generalize List.finRange cap.maxConcurrentStreams = l
  induction l generalizing s with
  | nil => rfl
  | cons i l ih =>
    rw [List.foldl_cons, ih]
    split
    · exact notifyStream_error _ _ _
    · rfl

theorem failConnection_error (value : ErrorCode) :
    (s.failConnection value).2.error = value := resetStreams_error _ _ _

/-- A function on sessions raises no error of flow control. -/
def FlowControlled (s s' : Session cap) : Prop :=
  s'.error = .flowControlError → s.error = .flowControlError

theorem failConnection_controlled (t : Session cap) {value : ErrorCode}
    (h : value ≠ .flowControlError) : FlowControlled t (s.failConnection value).2 := by
  intro herror
  rw [failConnection_error] at herror
  exact absurd herror h

theorem abortStream_controlled (t : Session cap) (i : Fin cap.maxConcurrentStreams) :
    FlowControlled t (s.abortStream i .bodyLimit).2 := by
  rw [abortStream]
  split
  · exact failConnection_controlled _ _ (by decide)
  · intro herror
    rw [notifyStream_error] at herror
    cases herror

theorem endData_controlled (frame : Frame) : FlowControlled s (s.endData i frame).2 := by
  rw [endData]
  split
  · rw [finishResponse]
    split
    · exact failConnection_controlled _ _ (by decide)
    · intro herror
      rw [notifyStream_error] at herror
      exact herror
  · exact id

theorem handleBody_controlled (frame : Frame) : FlowControlled s (s.handleBody i frame).2 := by
  rw [handleBody]
  split
  · exact failConnection_controlled _ _ (by decide)
  next chunk _ =>
    dsimp only
    split
    · exact failConnection_controlled _ _ (by decide)
    · split
      · exact failConnection_controlled _ _ (by decide)
      · split
        · generalize ht : (if s.bodyCallback then
            s.record (.body (s.streams.get i).id chunk) else s) = t
          have herror : t.error = s.error := by
            rw [← ht]
            split <;> rfl
          split
          · exact abortStream_controlled _ _ _
          · intro hlast
            have hbefore := endData_controlled _ i frame hlast
            exact herror.symm.trans hbefore
        · exact endData_controlled s i frame

theorem receive_controlled {frame : Frame} (hdata : frame.type = .data)
    (hroom : (frame.length : ℤ) ≤ s.connectionReceiveWindow)
    (hroom' : ∀ i, s.findStream frame.streamId = some i → (s.streams.get i).unfinished = true →
      (frame.length : ℤ) ≤ (s.streams.get i).receiveWindow) :
    FlowControlled s (receive frame s).2 := by
  have hconnection : ¬((s.record (.received frame)).consumeWindow frame).connectionReceiveWindow < 0 := by
    show ¬s.connectionReceiveWindow - frame.length < 0
    omega
  have hfind : (s.record (.received frame)).findStream frame.streamId =
      s.findStream frame.streamId := rfl
  rw [receive, handleFrame]
  split
  · exact failConnection_controlled _ _ (by decide)
  · rw [hdata]
    dsimp only
    rw [handleData, hfind]
    split
    · split
      · exact failConnection_controlled _ _ (by decide)
      · dsimp only
        rw [if_neg hconnection]
        exact id
    next i hi =>
      dsimp only
      split
      · exact id
      next hreset =>
        split
        · exact failConnection_controlled _ _ (by decide)
        next hopen =>
          have hunfinished : (s.streams.get i).unfinished = true := by
            have hopen' : ¬(!(s.streams.get i).headersReceived ||
              (s.streams.get i).responseComplete) = true := hopen
            have hreset' : ¬(s.streams.get i).reset = true := hreset
            simp only [Bool.or_eq_true, not_or, Bool.not_eq_true] at hopen' hreset'
            simp [StreamRecord.unfinished, (findStream_some hi).1, hopen'.2, hreset']
          have hstream := hroom' i hi hunfinished
          split
          next hover =>
            rw [modifyStream_get_self, Bool.or_eq_true, decide_eq_true_eq, decide_eq_true_eq] at hover
            have hover' : (s.streams.get i).receiveWindow - frame.length < 0 :=
              hover.resolve_left hconnection
            omega
          · exact handleBody_controlled _ i frame

theorem balanced_start : s.start.2.Balanced := by
  obtain ⟨output, -, -, hstart⟩ := start_eq s
  have hfree (i : Fin cap.maxConcurrentStreams) :
      ((Table.replicate cap.maxConcurrentStreams StreamRecord.free).get i) = StreamRecord.free :=
    Table.get_replicate _ _
  have hsettings : (Event.queued ⟨.settings, 0, 0, settingsPayload cap⟩).Unmetered :=
    queued_unmetered (by simp)
  obtain ⟨hgranted, hused, husedOn⟩ := (Unmetered.single [] hsettings).sums
  rw [hstart]
  exact {
    connection := rfl
    connection_nonneg := by
      show 0 ≤ defaultWindow
      decide
    connection_log := by
      show defaultWindow = 65535 + granted 0 ([] ++ [_]) - used ([] ++ [_])
      rw [hgranted, hused]
      rfl
    stream := by
      intro i hi
      have hi' : ((Table.replicate cap.maxConcurrentStreams StreamRecord.free).get i).used = true := hi
      rw [hfree] at hi'
      cases hi'
    stream_log := by
      intro i hi
      have hi' : ((Table.replicate cap.maxConcurrentStreams StreamRecord.free).get i).unfinished =
        true := hi
      rw [hfree] at hi'
      cases hi'
    fresh := by
      intro streamId _
      show granted streamId ([] ++ [_]) = 0 ∧ usedOn streamId ([] ++ [_]) = 0
      rw [hgranted, husedOn]
      exact ⟨rfl, rfl⟩ }

theorem Returned.run {s : Session cap} (h : s.failed = false → s.Returned) (hsound : s.Sound)
    (calls : List Call) (hfailed : (s.run calls).failed = false) : (s.run calls).Returned := by
  induction calls generalizing s with
  | nil => exact h hfailed
  | cons c calls ih =>
    have hcall := call_steps (p := False) s c hsound fun hp => hp.elim
    refine ih (fun hnext => ?_) (hsound.steps hcall) hfailed
    exact call_returned s c (h (hcall.failed hnext)) hsound hnext

/-- In every session that a run reaches and that has not failed, the receive windows and the credit
add up to the initial windows, the log tells the window of the connection, and at most half of it
waits for room in the queue; a DATA frame within the windows that the log tells is never refused
for them. -/
theorem receive_flow_control (s₀ : Session cap) (calls : List Call) :
    let s := s₀.start.2.run calls
    (s.failed = false →
      s.connectionReceiveWindow + s.connectionReceiveCredit = 65535 ∧
      s.connectionReceiveWindow = 65535 + granted 0 s.log - used s.log ∧
      0 ≤ s.connectionReceiveWindow ∧ s.connectionReceiveCredit ≤ 65535 ∧
      (∀ i, (s.streams.get i).used = true →
        (s.streams.get i).receiveWindow + (s.streams.get i).receiveCredit = 65535 ∧
        0 ≤ (s.streams.get i).receiveWindow ∧ (s.streams.get i).receiveCredit ≤ 65535) ∧
      (13 ≤ s.outputFree → 32768 ≤ s.connectionReceiveWindow)) ∧
    ∀ x ∈ s₀.start.2.runFrames calls, x.2.failed = false → x.1.type = .data →
      (x.1.length : ℤ) ≤ 65535 + granted 0 x.2.log - used x.2.log →
      (x.1.length : ℤ) ≤ 65535 + granted x.1.streamId x.2.log - usedOn x.1.streamId x.2.log →
      (receive x.1 x.2).2.error = .flowControlError → x.2.error = .flowControlError := by
  have hsound := s₀.sound_start
  intro s
  constructor
  · intro hfailed
    have hsteps := run_steps (p := False) _ calls hsound fun hp => hp.elim
    have hbalanced : s.Balanced := s₀.balanced_start.steps hsound hsteps hfailed
    have hstart : s₀.start.2.Returned := by
      obtain ⟨output, -, -, hstart⟩ := start_eq s₀
      rw [hstart]
      exact Or.inl (show 0 < windowUpdateThreshold by decide)
    have hreturned : s.Returned := Returned.run (fun _ => hstart) hsound calls hfailed
    have hconnection := hbalanced.connection
    have hnonneg := hbalanced.connection_nonneg
    refine ⟨hconnection, hbalanced.connection_log, hnonneg, by omega, ?_, ?_⟩
    · intro i hi
      obtain ⟨hsum, hnonneg⟩ := hbalanced.stream i hi
      exact ⟨hsum, hnonneg, by omega⟩
    · intro hroom
      have hcredit := hreturned.resolve_right (by omega)
      rw [windowUpdateThreshold] at hcredit
      omega
  · intro x hx hfailed hdata hroom hroom'
    have hsteps := runFrames_steps _ calls hsound x hx
    have hbalanced := s₀.balanced_start.steps hsound hsteps hfailed
    refine receive_controlled x.2 hdata (by rw [hbalanced.connection_log]; exact hroom) ?_
    intro i hi hunfinished
    rw [hbalanced.stream_log i hunfinished, (findStream_some hi).2]
    exact hroom'

theorem receive_flow_control_opened :
    let s := (init smallCapacity true true).start.2.run [.openStream smallRequest]
    s.connectionReceiveWindow + s.connectionReceiveCredit = 65535 :=
  ((receive_flow_control (init smallCapacity true true) [.openStream smallRequest]).1
    (by decide)).1

end Session
end Castle.Http.Http2
