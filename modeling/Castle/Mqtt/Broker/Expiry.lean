import Castle.Mqtt.Broker.Sessions

/-!
# Session expiry (`broker.hpp`)

The deadline of a session is `now + seconds * 1000` in 32 bits, compared by a signed difference, and
0 stands for a session without one.
-/

namespace Castle.Mqtt

open Net

namespace Broker

variable {cfg : BrokerConfig} {b b' : Broker cfg}

theorem sub_deadline_toNat (t seconds : UInt32) (d : ℕ) :
    (t + UInt32.ofNat d - (t + seconds * 1000)).toNat = (d + (2 ^ 32 - seconds.toNat * 1000 % 2 ^ 32)) % 2 ^ 32 := by
  have ht := t.toNat_lt
  have hthousand : (1000 : UInt32).toNat = 1000 := rfl
  rw [UInt32.toNat_sub, UInt32.toNat_add, UInt32.toNat_add, UInt32.toNat_mul, UInt32.toNat_ofNat', hthousand]
  omega

/-- No time before the end of the interval is at or behind the deadline, unless the interval is longer
than half of the clock's range. -/
theorem deadline_early_iff (t seconds : UInt32) :
    (∀ d, (t + UInt32.ofNat d - (t + seconds * 1000)).toNat < 2 ^ 31 →
      seconds ≠ 0xFFFFFFFF ∧ 1000 * seconds.toNat ≤ d) ↔ seconds.toNat ≤ 2147483 := by
  have hmax : seconds = 0xFFFFFFFF ↔ seconds.toNat = 4294967295 := by
    rw [← UInt32.toNat_inj]
    rfl
  simp only [sub_deadline_toNat, ne_eq, hmax]
  constructor
  · intro h
    by_contra hlong
    -- half of the clock's range before the deadline counts as behind it
    obtain ⟨-, hd⟩ := h (1000 * seconds.toNat - (2 ^ 31 + 1)) (by omega)
    omega
  · intro hshort d hd
    refine ⟨by omega, ?_⟩
    omega

/-- Every entry of client `id` has the deadline `e`. -/
def DueAt (e : UInt32) (id : Bytes) (b : Broker cfg) : Prop :=
  ∀ k, (b.sessions.get k).used = true → (b.sessions.get k).clientId = id → (b.sessions.get k).expiresAtMs = e

/-- The entries of client `id` in `b'` are those in `b`. -/
def LeavesSession (id : Bytes) (b b' : Broker cfg) : Prop :=
  ∀ k, ((b.sessions.get k).used = true ∧ (b.sessions.get k).clientId = id) ∨
    ((b'.sessions.get k).used = true ∧ (b'.sessions.get k).clientId = id) → b'.sessions.get k = b.sessions.get k

theorem DueAt.leaves {e : UInt32} {id : Bytes} (h : DueAt e id b) (hl : LeavesSession id b b') : DueAt e id b' := by
  intro k hu hid
  have hk := hl k (.inr ⟨hu, hid⟩)
  rw [hk] at hu hid ⊢
  exact h k hu hid

/-- `b'` lost sessions of `b`, and nothing else changed in the table. -/
def FreesSessions (b b' : Broker cfg) : Prop :=
  ∀ k, (b'.sessions.get k).used = true → b'.sessions.get k = b.sessions.get k

theorem FreesSessions.refl (b : Broker cfg) : FreesSessions b b := fun _ _ => rfl

theorem FreesSessions.trans {b₁ b₂ b₃ : Broker cfg} (h : FreesSessions b₁ b₂) (h' : FreesSessions b₂ b₃) :
    FreesSessions b₁ b₃ := by
  intro k hu
  have hk := h' k hu
  rw [hk] at hu ⊢
  exact h k hu

theorem clearSession_frees (b : Broker cfg) (id : Bytes) : FreesSessions b (b.clearSession id) := by
  intro k hu
  simp only [clearSession, Table.get_map] at hu ⊢
  split at hu
  · cases hu
  next hne => rw [if_neg hne]

theorem pruneSessions_frees (b : Broker cfg) (now : UInt32) : FreesSessions b (b.pruneSessions now) :=
  List.foldlRecOn _ (pruneSession now) (motive := fun d => FreesSessions b d) (.refl b) fun d hd k _ => by
    unfold pruneSession
    split
    · exact hd.trans (d.clearSession_frees _)
    · exact hd

theorem DueAt.frees {e : UInt32} {id : Bytes} (h : DueAt e id b) (hf : FreesSessions b b') : DueAt e id b' := by
  intro k hu hid
  have hk := hf k hu
  rw [hk] at hu hid ⊢
  exact h k hu hid

theorem pruneSessions_removes_iff {e : UInt32} {id : Bytes} (hdue : DueAt e id b) (hstored : b.sessions.Holds id)
    (now : UInt32) :
    ¬(b.pruneSessions now).sessions.Holds id ↔ e ≠ 0 ∧ (now - e).toNat < 2 ^ 31 := by
  obtain ⟨k, hu, hid⟩ := hstored
  have hk := hdue k hu hid
  have hexp : SessionEntry.expired now (b.sessions.get k) = true ↔ e ≠ 0 ∧ (now - e).toNat < 2 ^ 31 := by
    have hused : (b.sessions.get k).used = true := hu
    simp [SessionEntry.expired, hused, hk]
  constructor
  · intro hgone
    rw [← hexp]
    by_contra hne
    -- no entry of `id` is due, so the loop clears none
    have hun : ∀ j ∈ List.finRange cfg.maxClients, Unexpired now id b j := by
      intro j _ hj
      by_contra hje
      have hused : (b.sessions.get j).used = true := by
        simp only [SessionEntry.expired, Bool.not_eq_false, Bool.and_eq_true] at hje
        exact hje.1.1
      apply hne
      rw [hexp]
      simpa [SessionEntry.expired, hused, hdue j hused hj] using hje
    refine hgone ⟨k, ?_⟩
    rw [pruneSessions, (foldl_pruneSession_kept _ hun).1 k hid]
    exact ⟨hu, hid⟩
  · intro h
    exact foldl_pruneSession_removed _ (List.mem_finRange k) hid (hexp.mpr h)

/-- What happens while client `id` stays away from `t` on: polls prune the sessions at any times, and
everything else leaves its session alone. -/
inductive Away (t : UInt32) (id : Bytes) (b : Broker cfg) : Broker cfg → Prop where
  | refl : Away t id b b
  | prune {c : Broker cfg} (d : ℕ) : Away t id b c → Away t id b (c.pruneSessions (t + UInt32.ofNat d))
  | other {c c' : Broker cfg} : Away t id b c → LeavesSession id c c' → Away t id b c'

theorem Away.dueAt {t e : UInt32} {id : Bytes} {c : Broker cfg} (h : Away t id b c) (hb : DueAt e id b) :
    DueAt e id c := by
  induction h with
  | refl => exact hb
  | prune d _ ih => exact ih.frees (pruneSessions_frees _ _)
  | other _ hl ih => exact ih.leaves hl

/-- While client `id` stays away, no poll `d` milliseconds after `t` takes its session before the
interval is over, and none at all if it is never over. -/
def KeptUntil (t seconds : UInt32) (id : Bytes) (b : Broker cfg) : Prop :=
  ∀ c d, Away t id b c → c.sessions.Holds id → ¬(c.pruneSessions (t + UInt32.ofNat d)).sessions.Holds id →
    seconds ≠ 0xFFFFFFFF ∧ 1000 * seconds.toNat ≤ d

theorem keptUntil_iff {t seconds : UInt32} {id : Bytes} (hdue : DueAt (t + seconds * 1000) id b)
    (hstored : b.sessions.Holds id) :
    KeptUntil t seconds id b ↔ seconds.toNat ≤ 2147483 ∨ t + seconds * 1000 = 0 := by
  rw [← deadline_early_iff t seconds]
  constructor
  · intro h
    by_cases hzero : t + seconds * 1000 = 0
    · exact .inr hzero
    · left
      intro d hd
      apply h b d .refl hstored
      exact (pruneSessions_removes_iff hdue hstored _).mpr ⟨hzero, hd⟩
  · intro h c d haway hc hgone
    obtain ⟨hne, hd⟩ := (pruneSessions_removes_iff (haway.dueAt hdue) hc _).mp hgone
    rcases h with h | h
    · exact h d hd
    · exact absurd h hne

theorem publishPendingWill_client (b : Broker cfg) (i j : Fin cfg.maxClients) :
    ∃ outgoing nextPacketIdentifier willPending, (b.publishPendingWill i).clients.get j =
      { b.clients.get j with outgoing, nextPacketIdentifier, willPending } := by
  have hdone (d : Broker cfg) (ps : List Publication) (hd : Delivers ps b d) :
      ∃ outgoing nextPacketIdentifier willPending,
        (d.modifyClient i fun s => { s with willPending := false }).clients.get j =
          { b.clients.get j with outgoing, nextPacketIdentifier, willPending } := by
    obtain ⟨outgoing, next, he, -⟩ := hd.client j
    by_cases hji : j = i
    · subst hji
      rw [get_modifyClient_self, he]
      exact ⟨_, _, _, rfl⟩
    · rw [get_modifyClient_ne _ _ hji, he]
      exact ⟨_, _, _, rfl⟩
  unfold publishPendingWill
  split
  · unfold publishWill
    dsimp only
    split
    · exact hdone _ _ (b.publishMessage_delivers _)
    · exact hdone _ _ (.refl b)
  · exact ⟨_, _, _, rfl⟩

theorem closeState_dueAt {t : UInt32} {i : Fin cfg.maxClients} (unexpected : Bool)
    (hlevel : (b.clients.get i).protocolLevel = 5) (hexpiry : (b.clients.get i).sessionExpirySeconds ≠ 0)
    (hid : (b.clients.get i).clientId ≠ []) (hstored : b.sessions.Holds (b.clients.get i).clientId) :
    DueAt (t + (b.clients.get i).sessionExpirySeconds * 1000) (b.clients.get i).clientId
        (b.closeState t i unexpected) ∧
      (b.closeState t i unexpected).sessions.Holds (b.clients.get i).clientId := by
  have hclosed (d : Broker cfg) (hs : d.sessions = b.sessions)
      (hc : ∃ outgoing nextPacketIdentifier willPending, d.clients.get i =
        { b.clients.get i with outgoing, nextPacketIdentifier, willPending }) :
      (d.endSession t i).sessions = (b.startExpiry t (b.clients.get i).clientId
        (b.clients.get i).sessionExpirySeconds).sessions := by
    obtain ⟨_, _, _, hc⟩ := hc
    have hkeep : ClientState.keepsSession (d.clients.get i) = true := by
      rw [ClientState.keepsSession, hc, if_pos hlevel]
      simpa using hexpiry
    have hne : (d.clients.get i).clientId ≠ [] := by
      rw [hc]
      exact hid
    unfold endSession
    dsimp only
    rw [if_pos hne, if_pos hkeep, hc]
    unfold startExpiry
    dsimp only
    rw [hs]
  have hsessions : (b.closeState t i unexpected).sessions = (b.startExpiry t (b.clients.get i).clientId
      (b.clients.get i).sessionExpirySeconds).sessions := by
    unfold closeState
    dsimp only
    split
    · exact hclosed _ (b.publishPendingWill_willOnly i).sessions (b.publishPendingWill_client i i)
    · exact hclosed b rfl ⟨_, _, _, rfl⟩
  unfold DueAt Table.Holds
  rw [hsessions]
  simp only [startExpiry, Table.get_map, if_neg hexpiry]
  constructor
  · intro k hu hk
    split
    · rfl
    next hne =>
      rw [if_neg hne] at hu hk
      simp [hu, hk] at hne
  · obtain ⟨k, hu, hk⟩ := hstored
    refine ⟨k, ?_⟩
    split
    · exact ⟨hu, hk⟩
    · exact ⟨hu, hk⟩

/-- No session entry of client `id` has a deadline. -/
def NoDeadline (id : Bytes) (b : Broker cfg) : Prop := DueAt 0 id b

/-- Every session has one entry, and that of a live connection has no deadline. -/
def LiveUnlimited (b : Broker cfg) : Prop :=
  b.sessions.Distinct ∧ ∀ i id, (b.clients.get i).LiveAs id → NoDeadline id b

theorem LiveUnlimited.frees (h : LiveUnlimited b) (hf : FreesSessions b b')
    (hl : ∀ i id, (b'.clients.get i).LiveAs id → (b.clients.get i).LiveAs id) : LiveUnlimited b' := by
  refine ⟨?_, fun i id hlive => (h.2 i id (hl i id hlive)).frees hf⟩
  apply Table.Within.distinct _ h.1
  intro k hu
  have hk := hf k hu
  rw [hk] at hu ⊢
  exact ⟨hu, rfl⟩

theorem LiveUnlimited.same (h : LiveUnlimited b) (hs : SameSessions b b') : LiveUnlimited b' :=
  h.frees (fun k _ => by rw [hs.sessions]) hs.live

theorem noDeadline_written {sessions : Table cfg.maxClients SessionEntry} {k : Fin cfg.maxClients} {id : Bytes}
    (hk : (sessions.get k).expiresAtMs = 0) (hothers : ∀ j, j ≠ k → sessions.get j = b.sessions.get j)
    (h : ∀ j, j ≠ k → (b.sessions.get j).used = true → (b.sessions.get j).clientId = id →
      (b.sessions.get j).expiresAtMs = 0) : NoDeadline id { b with sessions } := by
  intro j hu hid
  dsimp only at hu hid ⊢
  by_cases hj : j = k
  · rw [hj]
    exact hk
  · rw [hothers j hj] at hu hid ⊢
    exact h j hj hu hid

/-- `ensure_session` takes the deadline of the session away, and leaves the other sessions alone. -/
theorem ensureSession_noDeadline (hdistinct : b.sessions.Distinct) (id : Bytes) :
    (b.ensureSession id = (false, b)) ∨
      ∃ sessions, b.ensureSession id = (true, { b with sessions }) ∧ sessions.Distinct ∧
        NoDeadline id { b with sessions } ∧ ∀ id', NoDeadline id' b → NoDeadline id' { b with sessions } := by
  unfold ensureSession
  split
  next k hk =>
    right
    have hp : (b.sessions.get k).used = true ∧ (b.sessions.get k).clientId = id := by
      simpa using Table.firstIdx_some hk
    have hwritten : ((b.sessions.modify k fun s => { s with expiresAtMs := 0 }).get k).expiresAtMs = 0 := by
      rw [Table.get_modify_self]
    have hothers (j) (hj : j ≠ k) := Table.get_modify_ne b.sessions (fun s => { s with expiresAtMs := 0 }) hj
    refine ⟨_, rfl, ?_, ?_, ?_⟩
    · apply Table.Within.distinct _ hdistinct
      exact Table.within_modify _ _ _ fun hu => ⟨hu, rfl⟩
    · -- the entry of `id` is the one that was found
      apply noDeadline_written hwritten hothers
      intro j hj hu hid
      exact absurd (hdistinct j k hu hp.1 (hid.trans hp.2.symm)) hj
    · intro id' h
      exact noDeadline_written hwritten hothers fun j _ => h j
  next hnone =>
    have hnot : ¬b.sessions.Holds id := Table.lookup_none.mp hnone
    split
    next k hk =>
      right
      have hwritten : ((b.sessions.set k ⟨true, id, 0⟩).get k).expiresAtMs = 0 := by
        rw [Table.get_set_self]
      have hothers (j) (hj : j ≠ k) := Table.get_set_ne b.sessions ⟨true, id, 0⟩ hj
      refine ⟨_, rfl, hdistinct.set k hnot, ?_, ?_⟩
      · apply noDeadline_written hwritten hothers
        intro j _ hu hid
        exact absurd ⟨j, hu, hid⟩ hnot
      · intro id' h
        exact noDeadline_written hwritten hothers fun j _ => h j
    · exact .inl rfl

theorem acceptConnect_liveUnlimited (h : LiveUnlimited b) (i : Fin cfg.maxClients) (header : ConnectHeader)
    (p : ConnectPayload) (id : Bytes) (assigned : Bool) :
    LiveUnlimited (b.acceptConnect i header p id assigned).2 := by
  unfold acceptConnect
  have hclear : LiveUnlimited (if header.clean = true then b.clearSession (cstr id) else b) := by
    split
    · exact h.frees (b.clearSession_frees _) fun _ _ hl => hl
    · exact h
  dsimp only
  generalize (if header.clean = true then b.clearSession (cstr id) else b) = b₁ at hclear ⊢
  obtain he | ⟨sessions, he, hdistinct, hid, hother⟩ := ensureSession_noDeadline hclear.1 (cstr id)
  · rw [he]
    exact hclear.same (sendConnack_sameSessions ..)
  · rw [he]
    dsimp only
    refine LiveUnlimited.same ⟨hdistinct, ?_⟩ (sendConnack_sameSessions ..)
    intro j k hl
    by_cases hji : j = i
    · subst hji
      rw [get_modifyClient_self] at hl
      rw [← hl.2.2.1]
      exact hid
    · rw [get_modifyClient_ne _ _ hji] at hl
      simp only [takeOver, Table.get_mapIdx] at hl
      split at hl
      · exact absurd hl.2.1 (by simp)
      · exact hother k (hclear.2 j k hl)

/-- Ending a session gives no live connection a deadline, if none has the identifier of a connection
whose expiry starts. -/
theorem endSession_liveUnlimited (h : LiveUnlimited b) (now : UInt32) (i : Fin cfg.maxClients)
    (halone : (b.clients.get i).keepsSession = true → (b.clients.get i).sessionExpirySeconds ≠ 0 →
      ∀ j, ¬(b.clients.get j).LiveAs (b.clients.get i).clientId) :
    LiveUnlimited (b.endSession now i) := by
  unfold endSession
  dsimp only
  split
  · split
    next hkeep =>
      refine ⟨?_, fun j id hl k hu hid => ?_⟩
      · apply Table.Within.distinct _ h.1
        apply Table.within_map
        intro s hu
        split at hu
        next hs => exact ⟨hu, by rw [if_pos hs]; rfl⟩
        next hs => exact ⟨hu, by rw [if_neg hs]⟩
      · have hold := h.2 j id hl
        simp only [startExpiry, Table.get_map] at hu hid ⊢
        split at hu
        next hs =>
          rw [if_pos hs] at hid ⊢
          dsimp only at hid ⊢
          have hsame : id = (b.clients.get i).clientId := by
            rw [← hid]
            exact of_decide_eq_true (Bool.and_eq_true_iff.mp hs).2
          split
          · rfl
          next hsec =>
            rw [hsame] at hl
            exact absurd hl (halone hkeep hsec j)
        next hs =>
          rw [if_neg hs] at hid ⊢
          exact hold k hu hid
    · exact h.frees (b.clearSession_frees _) fun _ _ hl => hl
  · exact h

end Broker

namespace PolledBroker

open Broker

variable {cfg : BrokerConfig} {p : PolledBroker cfg}

/-- A connection that closes and starts the expiry of its session shares it with no live one. -/
def NotTakenOver (p : PolledBroker cfg) : Act cfg → Prop
  | .close i => (p.broker.clients.get i).closePending = true → (p.broker.clients.get i).keepsSession = true →
      (p.broker.clients.get i).sessionExpirySeconds ≠ 0 →
        ∀ j, ¬(p.broker.clients.get j).LiveAs (p.broker.clients.get i).clientId
  | _ => True

theorem liveUnlimited_kept : Kept (@LiveUnlimited cfg) :=
  kept_of_sameSessions (fun _ _ h hs => h.same hs) fun _ i header p id assigned h =>
    acceptConnect_liveUnlimited h i header p id assigned

theorem pollClose_liveUnlimited (h : LiveUnlimited p.broker) {i : Fin cfg.maxClients} (handle : ClientHandle)
    (halone : p.NotTakenOver (.close i)) : LiveUnlimited (p.pollClose i handle).broker := by
  unfold pollClose
  by_cases hc : (p.broker.clients.get i).closePending = true
  · rw [if_pos hc]
    simp only [closeState, if_true]
    have hw := (p.broker.publishPendingWill_willOnly i).trans (publishPendingWill_willOnly _ i)
    obtain ⟨_, _, _, hfirst⟩ := publishPendingWill_client p.broker i i
    obtain ⟨_, _, _, hsecond⟩ := publishPendingWill_client (p.broker.publishPendingWill i) i i
    generalize (p.broker.publishPendingWill i).publishPendingWill i = b at hw hsecond ⊢
    have hb : LiveUnlimited b := h.same ⟨hw.sessions, fun j id hl => ((hw.client j).2.2 id).mp hl⟩
    have hend := endSession_liveUnlimited hb p.nowMs i fun hkeep hsec j hl => by
      rw [(hw.client i).2.1] at hkeep
      rw [(hw.client i).1] at hl
      rw [hsecond, hfirst] at hsec
      exact halone hc hkeep hsec j (((hw.client j).2.2 _).mp hl)
    have hclosed := hend.same (sameSessions_modifyClient (i := i) (f := fun s => { s with used := false })
      fun _ hl => absurd hl.1 (by simp))
    exact hclosed.same ⟨rfl, fun _ _ hl => hl⟩
  · rw [if_neg hc]
    exact h

theorem act_liveUnlimited (h : LiveUnlimited p.broker) {a : Act cfg} (ha : p.NotTakenOver a) :
    LiveUnlimited (p.act a).broker := by
  apply liveUnlimited_kept.act h a
  · rintro now rfl
    apply h.frees (pruneSessions_frees _ _)
    intro i id hl
    rwa [pruneSessions_clients] at hl
  · rintro i rfl
    exact pollClose_liveUnlimited h _ ha

/-- Pruning takes no session of a live connection away. -/
def PrunesNoLive (p : PolledBroker cfg) : Act cfg → Prop
  | .prune now => ∀ i id, (p.broker.clients.get i).LiveAs id → p.broker.sessions.Holds id →
      (p.prune now).broker.sessions.Holds id
  | _ => True

theorem act_prunesNoLive (h : LiveUnlimited p.broker) (a : Act cfg) : p.PrunesNoLive a := by
  cases a with
  | prune now =>
    intro i id hl hstored
    by_contra hgone
    exact absurd rfl ((pruneSessions_removes_iff (h.2 i id hl) hstored now).mp hgone).1
  | _ => trivial

/-- A session is kept until its interval is over exactly when 1000 times the interval is at most 2^31 or
the deadline is 0; and in every run whose connections, when they start an expiry, share the session with
no live one, pruning takes no session of a live connection away. -/
theorem session_expiry (cfg : BrokerConfig) :
    (∀ (b : Broker cfg) (t : UInt32) (i : Fin cfg.maxClients) (unexpected : Bool),
      (b.clients.get i).protocolLevel = 5 → (b.clients.get i).sessionExpirySeconds ≠ 0 →
      (b.clients.get i).clientId ≠ [] → b.sessions.Holds (b.clients.get i).clientId →
      (KeptUntil t (b.clients.get i).sessionExpirySeconds (b.clients.get i).clientId (b.closeState t i unexpected) ↔
        (b.clients.get i).sessionExpirySeconds.toNat ≤ 2147483 ∨
          t + (b.clients.get i).sessionExpirySeconds * 1000 = 0)) ∧
    ∀ (sendResults : List Status) (acts : List (Act cfg)),
      (AtEach acts fun before a => (runActs sendResults before).NotTakenOver a) →
      AtEach acts fun before a => (runActs sendResults before).PrunesNoLive a := by
  constructor
  · intro b t i unexpected hlevel hexpiry hid hstored
    obtain ⟨hdue, hkept⟩ := closeState_dueAt (t := t) unexpected hlevel hexpiry hid hstored
    exact keptUntil_iff hdue hkept
  · intro sendResults acts halone before a hb
    apply act_prunesNoLive
    refine @AtEach.invariant _ _ _ (fun before => LiveUnlimited (runActs sendResults before).broker) halone ?_ ?_ _
      ((List.prefix_append before [a]).trans hb)
    · refine ⟨?_, fun i id hl => absurd hl.1 (by simp [runActs])⟩
      exact Table.distinct_of_free fun k => by simp [runActs, Slot.used]
    · intro before a _ h ha
      rw [runActs_snoc]
      exact act_liveUnlimited h ha

/-- A CONNECT of level 5 of client `X` with a Session Expiry Interval. -/
def connectExpiring (a b c d : UInt8) : Bytes :=
  [0x10, 19, 0, 4, 0x4D, 0x51, 0x54, 0x54, 5, 2, 0, 0, 5, 0x11, a, b, c, d, 0, 1, 0x58]

/-- Client `X` connects at time 0 with this interval. -/
def connectedExpiring (a b c d : UInt8) : PolledBroker smallBroker :=
  run [] [.openListener .ok, .poll { now := 0, accepted := .ok, received := [.data (connectExpiring a b c d)] }]

/-- An interval of two minutes. -/
theorem session_expiry_minutes :
    KeptUntil 0 120 [0x58] ((connectedExpiring 0 0 0 120).broker.closeState 0 0 true) ∧
      AtEach [Act.prune 5] fun before a => (@runActs smallBroker [] before).PrunesNoLive a := by
  have hexpiry : ((connectedExpiring 0 0 0 120).broker.clients.get 0).sessionExpirySeconds = 120 := by
    decide
  have hid : ((connectedExpiring 0 0 0 120).broker.clients.get 0).clientId = [0x58] := by
    decide
  have hstored : (connectedExpiring 0 0 0 120).broker.sessions.Holds [0x58] := by
    rw [← Table.lookup_isSome]
    decide
  constructor
  · have hkept := ((session_expiry smallBroker).1 (connectedExpiring 0 0 0 120).broker 0 0 true (by decide)
      (by rw [hexpiry]; decide) (by rw [hid]; decide) (by rw [hid]; exact hstored)).mpr
      (by rw [hexpiry]; exact .inl (by decide))
    rwa [hexpiry, hid] at hkept
  · apply (session_expiry smallBroker).2 [] [.prune 5]
    exact AtEach.snoc.mpr ⟨AtEach.nil _, trivial⟩

/-- A session that never expires is gone at the first poll after the close. -/
theorem session_pruned_at_once :
    ((connectedExpiring 0xFF 0xFF 0xFF 0xFF).broker.clients.get 0).sessionExpirySeconds = 0xFFFFFFFF ∧
      ((connectedExpiring 0xFF 0xFF 0xFF 0xFF).call (.poll { now := 0, received := [.closed] })).broker.sessions.Holds
        [0x58] ∧
      ¬(((connectedExpiring 0xFF 0xFF 0xFF 0xFF).call (.poll { now := 0, received := [.closed] })).call
        (.poll { now := 1 })).broker.sessions.Holds [0x58] := by
  simp only [← Table.lookup_isSome]
  decide

end PolledBroker
end Castle.Mqtt
