import Castle.Lib.Table
import Castle.Net.Sockets
import Castle.Coap.Codec

/-!
# The rate limiter of the server (`server.hpp`, `is_rate_limited`)

Every peer has a window that begins with a request. The records of the peers are in a table of
`n + 1` slots, and the oldest one is reused for a new peer.
-/

namespace Castle.Coap

open Net

/-- The signed difference of the times is not negative. -/
def due (now deadline : UInt32) : Bool := now - deadline < 0x80000000

structure RateState where
  peer : Endpoint := {}
  windowStartMs : UInt32 := 0
  requestCount : ℕ := 0
  valid : Bool := false
  deriving DecidableEq

instance : Slot RateState Endpoint := ⟨RateState.valid, RateState.peer⟩

/-- The members for rate limiting; a maximum of 0 turns it off. -/
structure RateLimiter (n : ℕ) where
  maximumRequests : ℕ
  windowMs : UInt32
  states : Table (n + 1) RateState
  deriving DecidableEq

namespace RateLimiter

variable {n : ℕ} (l : RateLimiter n)

def init (n : ℕ) : RateLimiter n := ⟨0, 0, .replicate _ {}⟩

def configureRateLimit (maximumRequests : UInt16) (windowMs : UInt32) : Status × RateLimiter n :=
  if maximumRequests = 0 || windowMs = 0 || windowMs > 0x7fffffff then (.invalidArgument, l)
  else (.ok, ⟨maximumRequests.toNat, windowMs, l.states.map fun state => { state with valid := false }⟩)

/-- The loop over the starts of the windows. -/
def oldest : Fin (n + 1) :=
  (List.finRange (n + 1)).tail.foldl
    (fun slot i => if due (l.states.get slot).windowStartMs (l.states.get i).windowStartMs then i else slot) 0

/-- The record of the peer, or else the first free one, or else the oldest one. -/
def slotOf (peer : Endpoint) : Fin (n + 1) :=
  ((l.states.lookup peer).or (l.states.firstIdx fun state => !state.valid)).getD l.oldest

def beginsWindow (peer : Endpoint) (nowMs : UInt32) : Bool :=
  let state := l.states.get (l.slotOf peer)
  !state.valid || state.peer ≠ peer || due nowMs (state.windowStartMs + l.windowMs)

/-- The record of the peer for the window that the request falls in. -/
def windowState (peer : Endpoint) (nowMs : UInt32) : RateState :=
  if l.beginsWindow peer nowMs then ⟨peer, nowMs, 0, true⟩ else l.states.get (l.slotOf peer)

/-- Whether the request is limited, and the time to wait. -/
def isRateLimited (peer : Endpoint) (nowMs : UInt32) : Bool × UInt32 × RateLimiter n :=
  if l.maximumRequests = 0 then (false, 0, l)
  else
    let slot := l.slotOf peer
    let state := l.windowState peer nowMs
    if state.requestCount ≥ l.maximumRequests then
      (true, l.windowMs - (nowMs - state.windowStartMs), { l with states := l.states.set slot state })
    else
      (false, 0, { l with states := l.states.set slot { state with requestCount := state.requestCount + 1 } })

end RateLimiter

/-- A request and what becomes of it. `displaced` is the peer whose record is reused for it. -/
structure RateOutcome where
  peer : Endpoint
  time : ℕ
  limited : Bool
  retryAfterMs : UInt32
  began : Bool
  displaced : Option Endpoint
  deriving DecidableEq

namespace RateLimiter

variable {n : ℕ} (l : RateLimiter n)

def displaced (peer : Endpoint) : Option Endpoint :=
  let state := l.states.get (l.slotOf peer)
  if state.valid && state.peer ≠ peer then some state.peer else none

/-- A request at a time, of which the clock shows 32 bits. -/
def request (peer : Endpoint) (time : ℕ) : RateOutcome × RateLimiter n :=
  let answer := l.isRateLimited peer (UInt32.ofNat time)
  (⟨peer, time, answer.1, answer.2.1, l.beginsWindow peer (UInt32.ofNat time), l.displaced peer⟩, answer.2.2)

def run : RateLimiter n → List (Endpoint × ℕ) → List RateOutcome
  | _, [] => []
  | l, arrival :: arrivals =>
    (l.request arrival.1 arrival.2).1 :: (l.request arrival.1 arrival.2).2.run arrivals

def after : RateLimiter n → List (Endpoint × ℕ) → RateLimiter n
  | l, [] => l
  | l, arrival :: arrivals => (l.request arrival.1 arrival.2).2.after arrivals

end RateLimiter

/-- The begin of the last window of a peer. -/
def windowStart (before : List RateOutcome) (peer : Endpoint) : Option ℕ :=
  (before.reverse.find? fun outcome => outcome.began && outcome.peer = peer).map RateOutcome.time

def acceptedOf (peer : Endpoint) (outcomes : List RateOutcome) : List RateOutcome :=
  outcomes.filter fun outcome => outcome.peer = peer && !outcome.limited

section Clock

variable {start time : ℕ} {windowMs : UInt32}

theorem toNat_ofNat_sub (time start : ℕ) (windowMs : UInt32) :
    (UInt32.ofNat time - (UInt32.ofNat start + windowMs)).toNat =
      (2 ^ 32 - (start + windowMs.toNat) % 2 ^ 32 + time) % 2 ^ 32 := by
  rw [UInt32.toNat_sub, UInt32.toNat_add, UInt32.toNat_ofNat', UInt32.toNat_ofNat']
  omega

theorem not_due_inside (hw : windowMs.toNat < 2 ^ 31) (hle : start ≤ time) (hlt : time < start + windowMs.toNat) :
    due (UInt32.ofNat time) (UInt32.ofNat start + windowMs) = false := by
  have hnat := toNat_ofNat_sub time start windowMs
  rw [due, decide_eq_false_iff_not, UInt32.lt_iff_toNat_lt, hnat]
  have hhalf : (0x80000000 : UInt32).toNat = 2 ^ 31 := by decide
  rw [hhalf]
  omega

theorem due_behind (hle : start + windowMs.toNat ≤ time) (hlt : time < start + windowMs.toNat + 2 ^ 31) :
    due (UInt32.ofNat time) (UInt32.ofNat start + windowMs) = true := by
  have hnat := toNat_ofNat_sub time start windowMs
  rw [due, decide_eq_true_eq, UInt32.lt_iff_toNat_lt, hnat]
  have hhalf : (0x80000000 : UInt32).toNat = 2 ^ 31 := by decide
  rw [hhalf]
  omega

theorem retry_inside (hle : start ≤ time) (hlt : time < start + windowMs.toNat) :
    (windowMs - (UInt32.ofNat time - UInt32.ofNat start)).toNat + (time - start) = windowMs.toNat := by
  have hw := windowMs.toNat_lt
  rw [UInt32.toNat_sub, UInt32.toNat_sub, UInt32.toNat_ofNat', UInt32.toNat_ofNat']
  omega

end Clock

namespace RateLimiter

variable {n : ℕ} {l : RateLimiter n} {peer : Endpoint} {time : ℕ}

theorem get_slotOf {state : RateState} (hd : l.states.Distinct) (h : l.states.entry peer = some state) :
    l.states.lookup peer = some (l.slotOf peer) ∧ l.states.get (l.slotOf peer) = state ∧ state.valid = true ∧
      state.peer = peer := by
  obtain ⟨i, rfl, hvalid, hpeer⟩ := hd.entry_eq_some.mp h
  have hlookup : l.states.lookup peer = some i := hpeer ▸ hd.lookup_eq hvalid
  have hslot : l.slotOf peer = i := by rw [slotOf, hlookup]; rfl
  rw [hslot]
  exact ⟨hlookup, rfl, hvalid, hpeer⟩

/-- The record that a request leaves. -/
def recordAfter (l : RateLimiter n) (peer : Endpoint) (time : ℕ) : RateState :=
  let state := l.windowState peer (UInt32.ofNat time)
  if state.requestCount ≥ l.maximumRequests then state else { state with requestCount := state.requestCount + 1 }

theorem request_states (hmax : l.maximumRequests ≠ 0) :
    (l.request peer time).2 = { l with states := l.states.set (l.slotOf peer) (l.recordAfter peer time) } := by
  rw [request, isRateLimited, if_neg hmax, recordAfter]
  dsimp only
  split <;> rfl

theorem recordAfter_key (l : RateLimiter n) (peer : Endpoint) (time : ℕ) :
    (l.recordAfter peer time).valid = true ∧ (l.recordAfter peer time).peer = peer := by
  have hstate : (l.windowState peer (UInt32.ofNat time)).valid = true ∧
      (l.windowState peer (UInt32.ofNat time)).peer = peer := by
    rw [windowState]
    split
    · exact ⟨rfl, rfl⟩
    next hnot =>
      rw [beginsWindow, Bool.not_eq_true, Bool.or_eq_false_iff, Bool.or_eq_false_iff] at hnot
      exact ⟨by simpa using hnot.1.1, by simpa using hnot.1.2⟩
  rw [recordAfter]
  split <;> exact hstate

theorem slotOf_unique (hd : l.states.Distinct) (j : Fin (n + 1)) (hj : (l.states.get j).valid = true)
    (hpeer : (l.states.get j).peer = peer) : j = l.slotOf peer := by
  have hlookup := hd.lookup_eq (i := j) hj
  rw [slotOf, ← hpeer]
  rw [show l.states.lookup (l.states.get j).peer = some j from hlookup]
  rfl

theorem request_entry (peer : Endpoint) (time : ℕ) (hmax : l.maximumRequests ≠ 0) (hd : l.states.Distinct) :
    (l.request peer time).2.states.Distinct ∧
    (l.request peer time).2.states.entry peer = some (l.recordAfter peer time) ∧
    ∀ other, other ≠ peer → (l.request peer time).2.states.entry other =
      if l.displaced peer = some other then none else l.states.entry other := by
  obtain ⟨hvalid, hpeer⟩ := l.recordAfter_key peer time
  have hkey : Slot.key (l.recordAfter peer time) = peer := hpeer
  have hunique : ∀ j, Slot.used (l.states.get j) = true → Slot.key (l.states.get j) = Slot.key (l.recordAfter peer time) →
      j = l.slotOf peer := fun j hj hk => slotOf_unique hd j hj (hk.trans hkey)
  rw [request_states hmax]
  refine ⟨hd.set_reuse hunique, ?_, ?_⟩
  · rw [hd.entry_reuse hvalid hunique, if_pos hkey]
  · intro other hother
    have hold : (Slot.used (l.states.get (l.slotOf peer)) = true ∧ Slot.key (l.states.get (l.slotOf peer)) = other) ↔
        l.displaced peer = some other := by
      rw [displaced]
      constructor
      · rintro ⟨hused, hsame⟩
        rw [if_pos, Option.some_inj]
        · exact hsame
        · rw [Bool.and_eq_true, decide_eq_true_eq]
          exact ⟨hused, fun h => hother (hsame.symm.trans h)⟩
      · intro h
        split at h
        next hused =>
          rw [Bool.and_eq_true] at hused
          exact ⟨hused.1, Option.some_inj.mp h⟩
        · cases h
    rw [hd.entry_reuse hvalid hunique, if_neg (fun h => hother (h.symm.trans hkey)), if_congr hold rfl rfl]

theorem request_began (hmax : l.maximumRequests ≠ 0) (h : l.beginsWindow peer (UInt32.ofNat time) = true) :
    (l.request peer time).1.began = true ∧ (l.request peer time).1.limited = false ∧
      l.recordAfter peer time = ⟨peer, UInt32.ofNat time, 1, true⟩ := by
  have hstate : l.windowState peer (UInt32.ofNat time) = ⟨peer, UInt32.ofNat time, 0, true⟩ := by
    rw [windowState, if_pos h]
  have hroom : ¬0 ≥ l.maximumRequests := by omega
  refine ⟨h, ?_, ?_⟩
  · rw [request, isRateLimited, if_neg hmax]
    dsimp only
    rw [hstate, if_neg hroom]
  · rw [recordAfter, hstate]
    exact if_neg hroom

theorem beginsWindow_new (h : l.states.entry peer = none) (nowMs : UInt32) : l.beginsWindow peer nowMs = true := by
  have hnone := Table.entry_eq_none.mp h
  rw [beginsWindow]
  by_contra hnot
  rw [Bool.not_eq_true, Bool.or_eq_false_iff, Bool.or_eq_false_iff] at hnot
  exact hnone ⟨l.slotOf peer, by simpa [Slot.used] using hnot.1.1, by simpa [Slot.key] using hnot.1.2⟩

theorem beginsWindow_known {state : RateState} (hd : l.states.Distinct) (h : l.states.entry peer = some state)
    (nowMs : UInt32) : l.beginsWindow peer nowMs = due nowMs (state.windowStartMs + l.windowMs) := by
  obtain ⟨_, hget, hvalid, hpeer⟩ := get_slotOf hd h
  rw [beginsWindow, hget, hvalid, hpeer]
  simp

theorem request_inside {state : RateState} (hmax : l.maximumRequests ≠ 0) (hd : l.states.Distinct)
    (h : l.states.entry peer = some state)
    (hdue : due (UInt32.ofNat time) (state.windowStartMs + l.windowMs) = false) :
    (l.request peer time).1.began = false ∧
      ((l.request peer time).1.limited = true ↔ l.maximumRequests ≤ state.requestCount) ∧
      ((l.request peer time).1.limited = true →
        (l.request peer time).1.retryAfterMs = l.windowMs - (UInt32.ofNat time - state.windowStartMs)) ∧
      l.recordAfter peer time = if l.maximumRequests ≤ state.requestCount then state
        else { state with requestCount := state.requestCount + 1 } := by
  have hbegins : l.beginsWindow peer (UInt32.ofNat time) = false := (beginsWindow_known hd h _).trans hdue
  have hstate : l.windowState peer (UInt32.ofNat time) = state := by
    rw [windowState, if_neg (by simp [hbegins])]
    exact (get_slotOf hd h).2.1
  refine ⟨hbegins, ?_, ?_, ?_⟩
  · rw [request, isRateLimited, if_neg hmax]
    dsimp only
    rw [hstate]
    split
    next hfull => exact ⟨fun _ => hfull, fun _ => rfl⟩
    next hroom => exact ⟨nofun, fun h => absurd h hroom⟩
  · rw [request, isRateLimited, if_neg hmax]
    dsimp only
    rw [hstate]
    split
    · exact fun _ => rfl
    · exact nofun
  · rw [recordAfter, hstate]

theorem windowStart_concat (before : List RateOutcome) (outcome : RateOutcome) (peer : Endpoint) :
    windowStart (before ++ [outcome]) peer =
      if outcome.began = true ∧ outcome.peer = peer then some outcome.time else windowStart before peer := by
  rw [windowStart, List.reverse_concat, List.find?_cons]
  by_cases h : outcome.began = true ∧ outcome.peer = peer
  · rw [if_pos h, h.1, h.2]
    simp
  · have hnot : (outcome.began && decide (outcome.peer = peer)) = false := by
      by_contra hyes
      rw [Bool.not_eq_false, Bool.and_eq_true, decide_eq_true_eq] at hyes
      exact h hyes
    rw [if_neg h, hnot, windowStart]

theorem run_append (l : RateLimiter n) (arrivals arrivals' : List (Endpoint × ℕ)) :
    l.run (arrivals ++ arrivals') = l.run arrivals ++ (l.after arrivals).run arrivals' := by
  induction arrivals generalizing l with
  | nil => rfl
  | cons arrival arrivals ih => rw [List.cons_append, run, run, ih, after, List.cons_append]

theorem after_append (l : RateLimiter n) (arrivals arrivals' : List (Endpoint × ℕ)) :
    l.after (arrivals ++ arrivals') = (l.after arrivals).after arrivals' := by
  induction arrivals generalizing l with
  | nil => rfl
  | cons arrival arrivals ih => rw [List.cons_append, after, after, ih]

theorem run_times (l : RateLimiter n) (arrivals : List (Endpoint × ℕ)) :
    (l.run arrivals).map RateOutcome.time = arrivals.map Prod.snd := by
  induction arrivals generalizing l with
  | nil => rfl
  | cons arrival arrivals ih =>
    rw [run, List.map_cons, List.map_cons, ih]
    rfl

variable {before : List RateOutcome}

theorem run_split {rest : List RateOutcome} {outcome : RateOutcome} {arrivals : List (Endpoint × ℕ)}
    (h : l.run arrivals = before ++ outcome :: rest) : ∃ arrivals' arrivals'', l.run arrivals' =
    before ∧ outcome = ((l.after arrivals').request outcome.peer outcome.time).1 ∧
    ((l.after arrivals').request outcome.peer outcome.time).2.run arrivals'' = rest := by
  induction before generalizing l arrivals with
  | nil =>
    cases arrivals with
    | nil => cases h
    | cons arrival arrivals =>
      obtain ⟨hfirst, hrest⟩ := List.cons.inj h
      have harrival : arrival = (outcome.peer, outcome.time) := by rw [← hfirst]; rfl
      subst harrival
      exact ⟨[], arrivals, rfl, hfirst.symm, hrest⟩
  | cons first before ih =>
    cases arrivals with
    | nil => cases h
    | cons arrival arrivals =>
      obtain ⟨hfirst, hrest⟩ := List.cons.inj h
      obtain ⟨arrivals', arrivals'', hbefore, houtcome, hbehind⟩ := ih hrest
      refine ⟨arrival :: arrivals', arrivals'', ?_, houtcome, hbehind⟩
      rw [run, hfirst, hbefore]

structure Tracked (l : RateLimiter n) (maximumRequests : ℕ) (windowMs : UInt32) (before : List RateOutcome) : Prop where
  maximum : l.maximumRequests = maximumRequests
  window : l.windowMs = windowMs
  distinct : l.states.Distinct
  started : ∀ peer state, l.states.entry peer = some state →
    ∃ start, windowStart before peer = some start ∧ state.windowStartMs = UInt32.ofNat start

variable {windowMs : UInt32} {maximumRequests : ℕ}

theorem Tracked.request (h : l.Tracked maximumRequests windowMs before) (hmax : maximumRequests ≠ 0)
    (peer : Endpoint) (time : ℕ) :
    (l.request peer time).2.Tracked maximumRequests windowMs (before ++ [(l.request peer time).1]) := by
  have hon : l.maximumRequests ≠ 0 := h.maximum ▸ hmax
  obtain ⟨hdistinct, hentry, hothers⟩ := request_entry peer time hon h.distinct
  refine ⟨?_, ?_, hdistinct, ?_⟩
  · rw [request_states hon]
    exact h.maximum
  · rw [request_states hon]
    exact h.window
  · intro other state hstate
    have hpeer : (l.request peer time).1.peer = peer := rfl
    have htime : (l.request peer time).1.time = time := rfl
    rw [windowStart_concat, hpeer, htime]
    by_cases hother : other = peer
    · subst hother
      rw [hentry, Option.some_inj] at hstate
      subst hstate
      by_cases hbegins : l.beginsWindow other (UInt32.ofNat time) = true
      · obtain ⟨hbegan, _, hrecord⟩ := request_began hon hbegins
        rw [if_pos ⟨hbegan, rfl⟩, hrecord]
        exact ⟨time, rfl, rfl⟩
      · -- the window goes on, so there is a record of it
        cases hknown : l.states.entry other with
        | none => exact absurd (beginsWindow_new hknown _) hbegins
        | some state =>
          rw [Bool.not_eq_true, beginsWindow_known h.distinct hknown] at hbegins
          obtain ⟨hnot, _, _, hrecord⟩ := request_inside hon h.distinct hknown hbegins
          obtain ⟨start, hstart, hms⟩ := h.started other state hknown
          rw [if_neg (fun hb => by rw [hnot] at hb; cases hb.1), hrecord]
          refine ⟨start, hstart, ?_⟩
          split <;> exact hms
    · rw [hothers other hother] at hstate
      rw [if_neg (fun hb => hother hb.2.symm)]
      split at hstate
      · cases hstate
      · exact h.started other state hstate

theorem Tracked.run (h : l.Tracked maximumRequests windowMs []) (hmax : maximumRequests ≠ 0)
    (arrivals : List (Endpoint × ℕ)) :
    (l.after arrivals).Tracked maximumRequests windowMs (l.run arrivals) := by
  induction arrivals using List.reverseRecOn with
  | nil => exact h
  | append_singleton arrivals arrival ih =>
    rw [run_append, after_append]
    exact ih.request hmax arrival.1 arrival.2

theorem tracked_configured {maximumRequests : UInt16}
    (h : (l.configureRateLimit maximumRequests windowMs).1 = .ok) :
    (l.configureRateLimit maximumRequests windowMs).2.Tracked maximumRequests.toNat windowMs [] ∧
      maximumRequests.toNat ≠ 0 ∧ windowMs.toNat < 2 ^ 31 := by
  rw [configureRateLimit] at h ⊢
  split at h
  · cases h
  next hok =>
    rw [if_neg hok]
    rw [Bool.or_eq_true, Bool.or_eq_true, not_or, not_or, decide_eq_true_eq, decide_eq_true_eq, decide_eq_true_eq] at hok
    have hfree : ∀ i, Slot.used ((l.states.map fun state => { state with valid := false }).get i) = false := by
      intro i
      rw [Table.get_map]
      rfl
    have hnone : ∀ peer, (l.states.map fun state => { state with valid := false }).entry peer = none :=
      fun peer => Table.entry_eq_none.mpr (Table.not_holds_of_free hfree peer)
    refine ⟨⟨rfl, rfl, Table.distinct_of_free hfree, ?_⟩, ?_, ?_⟩
    · intro peer state hstate
      rw [hnone] at hstate
      cases hstate
    · exact fun hzero => hok.1.1 (UInt16.toNat_inj.mp hzero)
    · have hle := hok.2
      rw [gt_iff_lt, UInt32.lt_iff_toNat_lt] at hle
      have hhalf : (0x7fffffff : UInt32).toNat = 2 ^ 31 - 1 := by decide
      omega

theorem exists_of_windowStart {start : ℕ} (h : windowStart before peer = some start) :
    ∃ first ∈ before, first.time = start := by
  obtain ⟨first, hfind, rfl⟩ := Option.map_eq_some_iff.mp h
  exact ⟨first, List.mem_reverse.mp (List.mem_of_find?_eq_some hfind), rfl⟩

theorem Tracked.answer (h : l.Tracked maximumRequests windowMs before) (hmax : maximumRequests ≠ 0)
    (hw : windowMs.toNat < 2 ^ 31) (peer : Endpoint) {time : ℕ}
    (hpast : ∀ outcome ∈ before, outcome.time ≤ time) :
    (windowStart before peer = none → (l.request peer time).1.limited = false) ∧
      ∀ start, windowStart before peer = some start → time < start + windowMs.toNat + 2 ^ 31 →
        (start + windowMs.toNat ≤ time → (l.request peer time).1.limited = false) ∧
        ((l.request peer time).1.limited = true → (l.request peer time).1.retryAfterMs.toNat ≤ windowMs.toNat) := by
  have hon : l.maximumRequests ≠ 0 := h.maximum ▸ hmax
  cases hknown : l.states.entry peer with
  | none =>
    obtain ⟨_, hfree, _⟩ := request_began hon (beginsWindow_new hknown (UInt32.ofNat time))
    refine ⟨fun _ => hfree, fun start _ _ => ⟨fun _ => hfree, fun hlimited => ?_⟩⟩
    rw [hfree] at hlimited
    cases hlimited
  | some state =>
    obtain ⟨start, hstart, hms⟩ := h.started peer state hknown
    obtain ⟨first, hfirst, htime⟩ := exists_of_windowStart hstart
    have hle := htime ▸ hpast first hfirst
    have hbegins := beginsWindow_known h.distinct hknown (UInt32.ofNat time)
    rw [hms, h.window] at hbegins
    rw [hstart]
    refine ⟨nofun, ?_⟩
    intro start' hsame hlate
    cases hsame
    by_cases hover : start + windowMs.toNat ≤ time
    · rw [due_behind hover hlate] at hbegins
      obtain ⟨_, hfree, _⟩ := request_began hon hbegins
      refine ⟨fun _ => hfree, fun hlimited => ?_⟩
      rw [hfree] at hlimited
      cases hlimited
    · refine ⟨fun hnot => absurd hnot hover, fun hlimited => ?_⟩
      have hnot := not_due_inside hw hle (Nat.not_le.mp hover)
      rw [← hms, ← h.window] at hnot
      obtain ⟨_, _, hretry, _⟩ := request_inside hon h.distinct hknown hnot
      have hwait := retry_inside hle (Nat.not_le.mp hover)
      rw [hretry hlimited, h.window, hms]
      omega

theorem accepted_le {start : ℕ} (hmax : maximumRequests ≠ 0) (hw : windowMs.toNat < 2 ^ 31)
    (arrivals : List (Endpoint × ℕ)) {l : RateLimiter n} {count : ℕ} {rest : List RateOutcome}
    (hmaximum : l.maximumRequests = maximumRequests) (hwindow : l.windowMs = windowMs)
    (hd : l.states.Distinct)
    (hentry : l.states.entry peer = some ⟨peer, UInt32.ofNat start, count, true⟩)
    (hcount : count ≤ maximumRequests) (hrest : rest <+: l.run arrivals)
    (htimes : ∀ outcome ∈ rest, start ≤ outcome.time ∧ outcome.time < start + windowMs.toNat)
    (hkept : ∀ outcome ∈ rest, outcome.displaced ≠ some peer) :
    count + (acceptedOf peer rest).length ≤ maximumRequests := by
  induction arrivals generalizing l count rest with
  | nil =>
    rw [List.prefix_nil.mp hrest]
    exact hcount
  | cons arrival arrivals ih =>
    cases rest with
    | nil => exact hcount
    | cons outcome rest =>
      obtain ⟨houtcome, hrest⟩ := List.cons_prefix_cons.mp hrest
      obtain ⟨hnow, htimes⟩ := List.forall_mem_cons.mp htimes
      obtain ⟨hown, hkept⟩ := List.forall_mem_cons.mp hkept
      have hon : l.maximumRequests ≠ 0 := hmaximum ▸ hmax
      obtain ⟨hd', hentry', hothers⟩ := request_entry arrival.1 arrival.2 hon hd
      have hmaximum' : (l.request arrival.1 arrival.2).2.maximumRequests = maximumRequests := by
        rw [request_states hon]
        exact hmaximum
      have hwindow' : (l.request arrival.1 arrival.2).2.windowMs = windowMs := by
        rw [request_states hon]
        exact hwindow
      by_cases hpeer : arrival.1 = peer
      · subst hpeer
        have hinside : start ≤ arrival.2 ∧ arrival.2 < start + windowMs.toNat := by
          rw [houtcome] at hnow
          exact hnow
        have hnot := not_due_inside hw hinside.1 hinside.2
        rw [← hwindow] at hnot
        obtain ⟨_, hlimited, _, hrecord⟩ := request_inside hon hd hentry hnot
        dsimp only at hlimited hrecord
        rw [← houtcome, hmaximum] at hlimited
        rw [hrecord, hmaximum] at hentry'
        by_cases hfull : maximumRequests ≤ count
        · have hskip : acceptedOf arrival.1 (outcome :: rest) = acceptedOf arrival.1 rest := by
            rw [acceptedOf, List.filter_cons_of_neg (by simp [hlimited.mpr hfull]), acceptedOf]
          rw [hskip]
          rw [if_pos hfull] at hentry'
          exact ih hmaximum' hwindow' hd' hentry' hcount hrest htimes hkept
        · have haccepted : outcome.limited = false := by
            rw [← Bool.not_eq_true]
            exact fun h => hfull (hlimited.mp h)
          have hown' : outcome.peer = arrival.1 := by
            rw [houtcome]
            rfl
          have htake : acceptedOf arrival.1 (outcome :: rest) = outcome :: acceptedOf arrival.1 rest := by
            rw [acceptedOf, List.filter_cons_of_pos (by simp [haccepted, hown']), acceptedOf]
          rw [if_neg hfull] at hentry'
          have hle := ih hmaximum' hwindow' hd' hentry' (by omega) hrest htimes hkept
          rw [htake, List.length_cons]
          omega
      · have hskip : acceptedOf peer (outcome :: rest) = acceptedOf peer rest := by
          have hother : outcome.peer ≠ peer := by
            rw [houtcome]
            exact hpeer
          rw [acceptedOf, List.filter_cons_of_neg (by simp [hother]), acceptedOf]
        have hsame := hothers peer (Ne.symm hpeer)
        have hdisplaced : l.displaced arrival.1 ≠ some peer := by
          rw [houtcome] at hown
          exact hown
        rw [if_neg hdisplaced, hentry] at hsame
        rw [hskip]
        exact ih hmaximum' hwindow' hd' hsame hcount hrest htimes hkept

end RateLimiter

/-- The limiter, for any requests in order. -/
theorem rate_limits {n : ℕ} (l : RateLimiter n) {maximumRequests : UInt16} {windowMs : UInt32}
    (hconfig : (l.configureRateLimit maximumRequests windowMs).1 = .ok) {arrivals : List (Endpoint × ℕ)}
    (htimes : (arrivals.map Prod.snd).Pairwise (· ≤ ·)) :
    (∀ before first rest after, (l.configureRateLimit maximumRequests windowMs).2.run arrivals =
        before ++ first :: (rest ++ after) → first.began = true →
      (∀ outcome ∈ rest, outcome.time < first.time + windowMs.toNat) →
      (∀ outcome ∈ rest, outcome.displaced ≠ some first.peer) →
      (acceptedOf first.peer (first :: rest)).length ≤ maximumRequests.toNat) ∧
    ∀ before last after, (l.configureRateLimit maximumRequests windowMs).2.run arrivals = before ++ last :: after →
      (windowStart before last.peer = none → last.limited = false) ∧
      ∀ start, windowStart before last.peer = some start → last.time < start + windowMs.toNat + 2 ^ 31 →
        (start + windowMs.toNat ≤ last.time → last.limited = false) ∧
        (last.limited = true → last.retryAfterMs.toNat ≤ windowMs.toNat) := by
  obtain ⟨hstart, hmax, hw⟩ := RateLimiter.tracked_configured hconfig
  have hordered : ∀ outcomes, (l.configureRateLimit maximumRequests windowMs).2.run arrivals = outcomes →
      (outcomes.map RateOutcome.time).Pairwise (· ≤ ·) := by
    rintro outcomes rfl
    rwa [RateLimiter.run_times]
  constructor
  · intro before first rest after hrun hbegan hinside hkept
    have horder := hordered _ hrun
    rw [List.map_append, List.map_cons, List.pairwise_append, List.pairwise_cons] at horder
    obtain ⟨arrivals', arrivals'', hbefore, hfirst, hrest⟩ := RateLimiter.run_split hrun
    have htracked := hstart.run hmax arrivals'
    have hon : ((l.configureRateLimit maximumRequests windowMs).2.after arrivals').maximumRequests ≠ 0 :=
      htracked.maximum ▸ hmax
    obtain ⟨_, hfree, hrecord⟩ := RateLimiter.request_began hon
      ((congrArg RateOutcome.began hfirst).symm.trans hbegan)
    obtain ⟨hd, hentry, _⟩ := RateLimiter.request_entry first.peer first.time hon htracked.distinct
    rw [hrecord] at hentry
    have hnext := htracked.request hmax first.peer first.time
    have htake : acceptedOf first.peer (first :: rest) = first :: acceptedOf first.peer rest := by
      rw [← hfirst] at hfree
      rw [acceptedOf, List.filter_cons_of_pos (by simp [hfree]), acceptedOf]
    have hprefix : rest <+: RateLimiter.run _ arrivals'' := hrest ▸ List.prefix_append rest after
    have hwithin : ∀ outcome ∈ rest, first.time ≤ outcome.time ∧ outcome.time < first.time + windowMs.toNat :=
      fun outcome houtcome => ⟨horder.2.1.1 _ (List.mem_map_of_mem (List.mem_append_left _ houtcome)),
        hinside outcome houtcome⟩
    have hle := RateLimiter.accepted_le hmax hw arrivals'' hnext.maximum hnext.window hd hentry
      (Nat.one_le_iff_ne_zero.mpr hmax) hprefix hwithin hkept
    rw [htake, List.length_cons]
    omega
  · intro before last after hrun
    have horder := hordered _ hrun
    obtain ⟨arrivals', arrivals'', hbefore, hlast, _⟩ := RateLimiter.run_split hrun
    have htracked := hstart.run hmax arrivals'
    rw [hbefore] at htracked
    rw [List.map_append, List.map_cons, List.pairwise_append] at horder
    have hpast : ∀ outcome ∈ before, outcome.time ≤ last.time := fun outcome houtcome =>
      horder.2.2 _ (List.mem_map_of_mem houtcome) _ List.mem_cons_self
    have hanswer := htracked.answer hmax hw last.peer hpast
    rw [← hlast] at hanswer
    exact hanswer

theorem rate_limits_two :
    ((RateLimiter.init 0).configureRateLimit 1 1000).2.run [({}, 0), ({}, 5)] =
        [⟨{}, 0, false, 0, true, none⟩, ⟨{}, 5, true, 995, false, none⟩] ∧
      (acceptedOf {} [⟨{}, 0, false, 0, true, none⟩, ⟨{}, 5, true, 995, false, none⟩]).length ≤ 1 := by
  have hconfig : ((RateLimiter.init 0).configureRateLimit 1 1000).1 = .ok := by decide
  have htimes : (([({}, 0), ({}, 5)] : List (Endpoint × ℕ)).map Prod.snd).Pairwise (· ≤ ·) := by decide
  have hrun : ((RateLimiter.init 0).configureRateLimit 1 1000).2.run [({}, 0), ({}, 5)] =
      [⟨{}, 0, false, 0, true, none⟩, ⟨{}, 5, true, 995, false, none⟩] := by decide
  exact ⟨hrun, (rate_limits (RateLimiter.init 0) hconfig htimes).1 [] ⟨{}, 0, false, 0, true, none⟩
    [⟨{}, 5, true, 995, false, none⟩] [] hrun rfl (by decide) (by decide)⟩

/-- With one record for two peers the second one of them makes room for the first one again. -/
theorem reused_record_forgets :
    ((RateLimiter.init 0).configureRateLimit 1 1000).1 = .ok ∧
      (∀ outcome ∈ ((RateLimiter.init 0).configureRateLimit 1 1000).2.run [({}, 0), ({ port := 1 }, 0), ({}, 1)],
        outcome.time < 1000) ∧
      (acceptedOf {} (((RateLimiter.init 0).configureRateLimit 1 1000).2.run
        [({}, 0), ({ port := 1 }, 0), ({}, 1)])).length = 2 := by
  decide

end Castle.Coap
