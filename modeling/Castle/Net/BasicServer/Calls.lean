import Castle.Net.BasicServer.Peers

/-!
# What the calls do

Each call is a sequence of changes, and it may start a callback at the end.
-/

namespace Castle.Net.BasicServer

variable {n : ℕ} {γ : Type} {s s' : BasicServer n γ} {marks : Bool}

/-- The call asks that the peer of the slot be closed. -/
def closes (s : BasicServer n γ) (i : Fin n) : ServerCall n γ → Bool
  | .close _ _ => true
  | .closeClient handle _ => s.findSlot handle == some i
  | _ => false

/-- The call is one of those that close peers. -/
def closing : ServerCall n γ → Bool
  | .close _ _ => true
  | .closeClient _ _ => true
  | _ => false

theorem Change.running (h : Change marks s s') : s'.dispatcher.running = s.dispatcher.running := by
  cases h with
  | settings _ _ _ hrunning => exact hrunning
  | _ => rfl

theorem Changes.running (h : Changes marks s s') : s'.dispatcher.running = s.dispatcher.running := by
  induction h with
  | refl => rfl
  | tail _ hchange ih => exact hchange.running.trans ih

theorem Change.protocol (h : Change marks s s') : s'.protocol = s.protocol := by
  cases h with
  | settings _ hprotocol => exact hprotocol
  | _ => rfl

theorem Changes.protocol (h : Changes marks s s') : s'.protocol = s.protocol := by
  induction h with
  | refl => rfl
  | tail _ hchange ih => exact hchange.protocol.trans ih

variable {i : Fin n}

theorem Change.get_slot (hc : Consistent s) (h : Change marks s s') (hi : s.dispatcher.running = some i) :
    s'.slots.get i = s.slots.get i ∨
      marks = true ∧ ∃ closing, s'.slots.get i = { s.slots.get i with closing := closing } := by
  have hother : ∀ j, s.dispatcher.running ≠ some j → i ≠ j := fun j hj hij => hj (hij ▸ hi)
  cases h with
  | settings _ _ hslots => exact .inl (by rw [hslots])
  | activate j peer hfree =>
    have hij : i ≠ j := fun hij => absurd ((hc.running i hi).symm.trans (hij ▸ hfree)) (by decide)
    exact .inl (by rw [get_activateSlot, if_neg hij])
  | free j _ hrunning => exact .inl (by rw [get_free, if_neg (hother j hrunning)])
  | store j _ hrunning => exact .inl (by rw [get_storeCallback, if_neg (hother j hrunning)])
  | mark j hmarks =>
    rw [get_mark]
    split_ifs
    · exact .inr ⟨hmarks, _, rfl⟩
    · exact .inl rfl

theorem Change.slot (hc : Consistent s) (h : Change marks s s') (hi : s.dispatcher.running = some i) :
    s'.slots.get i = { s.slots.get i with closing := (s'.slots.get i).closing } := by
  obtain hsame | ⟨-, closing, hsame⟩ := h.get_slot hc hi <;> rw [hsame]

theorem Change.closing_eq (hc : Consistent s) (h : Change false s s')
    (hi : s.dispatcher.running = some i) : (s'.slots.get i).closing = (s.slots.get i).closing :=
  (h.get_slot hc hi).elim (congrArg _) fun hmarks => absurd hmarks.1 Bool.false_ne_true

theorem Changes.slot (hc : Consistent s) (h : Changes marks s s')
    (hi : s.dispatcher.running = some i) :
    s'.slots.get i = { s.slots.get i with closing := (s'.slots.get i).closing } := by
  induction h with
  | refl => rfl
  | tail hbefore hchange ih =>
    rw [hchange.slot (hc.changes hbefore) ((Changes.running hbefore).trans hi), ih]

theorem Changes.closing_eq (hc : Consistent s) (h : Changes false s s')
    (hi : s.dispatcher.running = some i) : (s'.slots.get i).closing = (s.slots.get i).closing := by
  induction h with
  | refl => rfl
  | tail hbefore hchange ih =>
    exact (hchange.closing_eq (hc.changes hbefore) ((Changes.running hbefore).trans hi)).trans ih

/-- The callback of the slot starts. -/
def begin (s : BasicServer n γ) (i : Fin n) : BasicServer n γ :=
  { s with dispatcher := { s.dispatcher with running := some i, action := .none } }

/-- The running callback of a slot, as `dispatch` calls it. -/
def runningOn (s : BasicServer n γ) (i : Fin n) (bytes : List UInt8) : Running n γ :=
  ⟨i, ⟨i, (s.slots.get i).generation⟩, (s.slots.get i).peer, bytes, (s.slots.get i).callback⟩

/-- The chunk that the call receives is one of the peer in the slot: it comes from the socket of
the slot, or it is a datagram from the peer. -/
inductive ChunkOf (s s' : BasicServer n γ) (i : Fin n) (bytes : List UInt8) : ServerCall n γ → Prop
  | stream (handle : ClientHandle) (hprotocol : s.protocol = .tcp) (hfound : s.findSlot handle = some i) :
      ChunkOf s s' i bytes (.processClient handle (.data bytes))
  | datagram (source : Endpoint) (hprotocol : s.protocol = .udp) (hopen : s.isOpen = true)
      (hused : (s'.slots.get i).used = true) (hpeer : (s'.slots.get i).peer = source) :
      ChunkOf s s' i bytes (.processDatagram (.datagram source bytes))

theorem dispatch_eq (hclosing : (s.slots.get i).closing = false) (bytes : List UInt8) :
    s.dispatch i ⟨i, (s.slots.get i).generation⟩ bytes =
      if (s.slots.get i).callback.callable.isSome then (s.begin i, [s.runningOn i bytes]) else (s, []) := by
  rw [dispatch]
  by_cases hsome : (s.slots.get i).callback.callable.isSome = true
  · rw [if_pos hsome]
    exact (if_pos hsome).symm
  · rw [if_neg hsome, hclosing, if_neg Bool.false_ne_true]
    exact (if_neg hsome).symm

/-- The two ways in which a call ends. -/
inductive Performed (s : BasicServer n γ) (call : ServerCall n γ) :
    BasicServer n γ × List (Running n γ) → Prop
  /-- No callback starts: the slot that a received chunk belongs to has none. -/
  | quiet {s' : BasicServer n γ} (h : Changes (closing call) s s')
      (hnone : s.dispatcher.running = none → ∀ i bytes, ChunkOf s s' i bytes call →
        (s'.slots.get i).callback.callable = none) : Performed s call (s', [])
  | started {s₁ : BasicServer n γ} {i : Fin n} {bytes : List UInt8} (h : Changes false s s₁)
      (hidle : s.dispatcher.running = none) (hused : (s₁.slots.get i).used = true)
      (hsome : (s₁.slots.get i).callback.callable.isSome = true) (hchunk : ChunkOf s s₁ i bytes call)
      (honly : ∀ j bytes', ChunkOf s s₁ j bytes' call → j = i ∧ bytes' = bytes) :
      Performed s call (s₁.begin i, [s₁.runningOn i bytes])

theorem performed_settings {call : ServerCall n γ} (hcall : ∀ s' i bytes, ¬ChunkOf s s' i bytes call)
    (hprotocol : s'.protocol = s.protocol) (hslots : s'.slots = s.slots)
    (hrunning : s'.dispatcher.running = s.dispatcher.running)
    (hcount : s'.clientCount = s.clientCount) (hactivations : s'.activations = s.activations) :
    Performed s call (s', []) :=
  .quiet (.single (.settings s' hprotocol hslots hrunning hcount hactivations))
    fun _ i bytes hchunk => absurd hchunk (hcall s' i bytes)

theorem performed_openServer (s : BasicServer n γ) (opened : Status) :
    Performed s (.openServer opened) ((s.openServer opened).1, []) := by
  have hcall : ∀ s' i bytes, ¬ChunkOf s s' i bytes (.openServer opened) := nofun
  rw [openServer]
  split_ifs <;> exact performed_settings hcall rfl rfl rfl rfl rfl

theorem changes_replaceCallback (s : BasicServer n γ) (i : Fin n) (next : γ) :
    Changes marks s (s.replaceCallback i next) := by
  rw [replaceCallback]
  split_ifs with h
  · exact .single (.settings _ rfl rfl rfl rfl rfl)
  · exact .single (.store i (some next) (isRunning_eq_false h))

theorem changes_clearCallback (s : BasicServer n γ) (i : Fin n) :
    Changes marks s (s.clearCallback i) := by
  rw [clearCallback]
  split_ifs with h
  · exact .single (.settings _ rfl rfl rfl rfl rfl)
  · exact .single (.store i none (isRunning_eq_false h))

variable (socketClosed : Fin n → Status)

theorem changes_closeSlot (p : BasicServer n γ × Status) (i : Fin n) :
    Changes true p.1 (closeSlot socketClosed p i).1 := by
  rw [closeSlot]
  by_cases hused : (p.1.slots.get i).used = true
  · rw [if_pos hused]
    exact changes_releaseSlot hused _
  · rw [if_neg hused]

theorem changes_closeSlots (l : List (Fin n)) (p : BasicServer n γ × Status) :
    Changes true p.1 (l.foldl (closeSlot socketClosed) p).1 := by
  induction l generalizing p with
  | nil => exact .refl
  | cons i l ih => exact (changes_closeSlot socketClosed p i).trans (ih _)

theorem performed_acceptClient (s : BasicServer n γ) (waited : Status)
    (accepted : Except Status Endpoint) :
    Performed s (.acceptClient waited accepted) ((s.acceptClient waited accepted).1, []) := by
  refine .quiet ?_ nofun
  rw [acceptClient]
  by_cases hprotocol : s.protocol = .tcp
  · rw [if_neg (not_not_intro hprotocol)]
    by_cases hopen : s.isOpen = true
    · rw [hopen, Bool.not_true, if_neg Bool.false_ne_true]
      cases hfree : s.findFreeSlot with
      | none => exact .refl
      | some i =>
        simp only
        split_ifs
        · exact .refl
        · exact .refl
        · cases accepted with
          | error status => exact .refl
          | ok remote =>
            refine .single (.activate i remote (findFreeSlot_some hfree) fun hudp => ?_)
            exact absurd (hprotocol.symm.trans hudp) (by decide)
    · rw [eq_false_of_ne_true hopen, Bool.not_false, if_pos rfl]
  · rw [if_pos hprotocol]

theorem performed_processClient (s : BasicServer n γ) (handle : ClientHandle) (receive : Receive) :
    Performed s (.processClient handle receive)
      ((s.processClient handle receive).1, (s.processClient handle receive).2.2) := by
  rw [processClient]
  split_ifs with hrefused
  · refine .quiet .refl fun hidle i bytes hchunk => ?_
    cases hchunk with
    | stream _ hprotocol => simp [hprotocol, isDispatching, hidle] at hrefused
  · simp only [Bool.or_eq_true, not_or, decide_not, Bool.not_eq_true', decide_eq_false_iff_not,
      not_not, Bool.not_eq_true] at hrefused
    have hidle := isDispatching_eq_false hrefused.2
    cases hfound : s.findSlot handle with
    | none =>
      refine .quiet .refl fun _ i bytes hchunk => ?_
      cases hchunk with
      | stream _ _ hsome => exact absurd (hfound.symm.trans hsome) (by simp)
    | some i =>
      obtain ⟨_, hindex, hused, hclosing, hgeneration⟩ := findSlot_some.mp hfound
      cases receive with
      | idle => exact .quiet .refl nofun
      | waitFailed status => exact .quiet .refl nofun
      | closed => exact .quiet (changes_free hused hidle _ _) nofun
      | failed status =>
        refine .quiet ?_ nofun
        simp only
        split_ifs
        · exact changes_free hused hidle _ _
        · exact .refl
      | data bytes =>
        obtain rfl : (⟨i, (s.slots.get i).generation⟩ : ClientHandle) = handle := by
          rw [hgeneration, ← hindex]
        simp only [dispatch_eq hclosing]
        have honly : ∀ j bytes', ChunkOf s s j bytes'
            (.processClient ⟨i, (s.slots.get i).generation⟩ (.data bytes)) → j = i ∧ bytes' = bytes := by
          intro j bytes' hchunk
          cases hchunk with
          | stream _ _ hsome => exact ⟨Option.some.inj (hsome.symm.trans hfound), rfl⟩
        split_ifs with hsome
        · exact .started .refl hidle hused hsome (.stream _ hrefused.1 hfound) honly
        · refine .quiet .refl fun _ j bytes' hchunk => ?_
          rw [(honly j bytes' hchunk).1]
          exact Option.not_isSome_iff_eq_none.mp hsome

theorem findPeer_some {peer : Endpoint} (h : s.findPeer peer = some i) :
    (s.slots.get i).used = true ∧ (s.slots.get i).peer = peer := by
  have hi := Table.firstIdx_some h
  rwa [Bool.and_eq_true, decide_eq_true_eq] at hi

theorem peerSlot_spec (s : BasicServer n γ) (source : Endpoint) :
    s.peerSlot source = none ∧ s.findPeer source = none ∨ ∃ s₁ i, s.peerSlot source = some (s₁, i) ∧
      Changes false s s₁ ∧ (s₁.slots.get i).used = true ∧ (s₁.slots.get i).peer = source := by
  rw [peerSlot]
  cases hpeer : s.findPeer source with
  | some i =>
    obtain ⟨hused, hsource⟩ := findPeer_some hpeer
    exact Or.inr ⟨s, i, rfl, .refl, hused, hsource⟩
  | none =>
    cases hfree : s.findFreeSlot with
    | none => exact Or.inl ⟨rfl, rfl⟩
    | some i =>
      refine Or.inr ⟨_, i, rfl, .single (.activate i source (findFreeSlot_some hfree) fun _ => hpeer), ?_⟩
      rw [get_activateSlot, if_pos rfl]
      exact ⟨rfl, rfl⟩

theorem performed_processDatagram (hc : Consistent s) (arrival : Arrival) :
    Performed s (.processDatagram arrival)
      ((s.processDatagram arrival).1, (s.processDatagram arrival).2.2.2) := by
  rw [processDatagram.eq_def]
  by_cases hrefused : (s.protocol ≠ .udp || s.isDispatching) = true
  · rw [if_pos hrefused]
    refine .quiet .refl fun hidle i bytes hchunk => ?_
    cases hchunk with
    | datagram _ hprotocol => simp [hprotocol, isDispatching, hidle] at hrefused
  rw [if_neg hrefused]
  simp only [Bool.or_eq_true, not_or, decide_not, Bool.not_eq_true', decide_eq_false_iff_not,
    not_not, Bool.not_eq_true] at hrefused
  have hidle := isDispatching_eq_false hrefused.2
  by_cases hopen : s.isOpen = true
  swap
  · rw [eq_false_of_ne_true hopen, Bool.not_false, if_pos rfl]
    refine .quiet .refl fun _ i bytes hchunk => ?_
    cases hchunk with
    | datagram _ _ hopen' => exact absurd hopen' hopen
  rw [hopen, Bool.not_true, if_neg Bool.false_ne_true]
  cases arrival with
  | notReadable status => exact .quiet .refl nofun
  | notReceived status => exact .quiet .refl nofun
  | datagram source bytes =>
    simp only
    rcases peerSlot_spec s source with ⟨hnone, hunknown⟩ | ⟨s₁, i, hsome, hchanges, hused, hpeer⟩
    · rw [hnone]
      refine .quiet .refl fun _ i bytes' hchunk => ?_
      cases hchunk with
      | datagram _ _ _ hused hpeer => exact absurd hpeer (findPeer_none hunknown i hused)
    · rw [hsome]
      simp only
      have hc₁ := hc.changes hchanges
      have hidle₁ : s₁.dispatcher.running = none := (Changes.running hchanges).trans hidle
      have hclosing : (s₁.slots.get i).closing = false := by
        cases hi : (s₁.slots.get i).closing with
        | false => rfl
        | true => exact absurd (hidle₁.symm.trans (hc₁.closing i hi)) (by simp)
      have honly : ∀ j bytes', ChunkOf s s₁ j bytes' (.processDatagram (.datagram source bytes)) →
          j = i ∧ bytes' = bytes := by
        intro j bytes' hchunk
        cases hchunk with
        | datagram _ _ _ hused' hpeer' =>
          have hudp : s₁.protocol = .udp := (Changes.protocol hchanges).trans hrefused.1
          exact ⟨hc₁.distinct hudp j i hused' hused (hpeer'.trans hpeer.symm), rfl⟩
      rw [dispatch_eq hclosing]
      by_cases hcallable : (s₁.slots.get i).callback.callable.isSome = true
      · rw [if_pos hcallable]
        exact .started hchanges hidle hused hcallable (.datagram source hrefused.1 hopen hused hpeer) honly
      · rw [if_neg hcallable]
        refine .quiet hchanges fun _ j bytes' hchunk => ?_
        rw [(honly j bytes' hchunk).1]
        exact Option.not_isSome_iff_eq_none.mp hcallable

theorem performed (hc : Consistent s) (call : ServerCall n γ) : Performed s call (s.perform call) := by
  cases call with
  | openServer opened => exact performed_openServer s opened
  | close listenerClosed socketClosed =>
    exact .quiet (.head (.settings { s with isOpen := false } rfl rfl rfl rfl rfl)
      (changes_closeSlots socketClosed _ ({ s with isOpen := false }, listenerClosed))) nofun
  | setDefaultCallback next =>
    have hcall : ∀ s' i bytes, ¬ChunkOf s s' i bytes (.setDefaultCallback next) := nofun
    rw [perform, setDefaultCallback]
    split_ifs <;> exact performed_settings hcall rfl rfl rfl rfl rfl
  | clearDefaultCallback => exact performed_settings nofun rfl rfl rfl rfl rfl
  | acceptClient waited accepted => exact performed_acceptClient s waited accepted
  | setClientCallback handle next =>
    refine .quiet ?_ nofun
    rw [setClientCallback]
    cases s.findSlot handle with
    | none => exact .refl
    | some i =>
      cases next with
      | none => exact .refl
      | some next => exact changes_replaceCallback s i next
  | clearClientCallback handle =>
    refine .quiet ?_ nofun
    rw [clearClientCallback]
    cases s.findSlot handle with
    | none => exact .refl
    | some i => exact changes_clearCallback s i
  | processClient handle receive => exact performed_processClient s handle receive
  | processDatagram arrival => exact performed_processDatagram hc arrival
  | closeClient handle closed =>
    refine .quiet ?_ nofun
    rw [closeClient]
    cases hfound : s.findSlot handle with
    | none => exact .refl
    | some i => exact changes_releaseSlot (findSlot_some.mp hfound).2.2.1 closed

end Castle.Net.BasicServer
