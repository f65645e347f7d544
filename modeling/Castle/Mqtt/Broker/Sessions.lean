import Castle.Lib.Steps
import Castle.Mqtt.Broker.Run

/-!
# Sessions of live connections

The session table and the subscriptions are keyed by the client identifier alone.
-/

namespace Castle.Mqtt

open Net

namespace ClientState

variable {cfg : BrokerConfig} {s s' : ClientState cfg} {id : Bytes}

/-- An open connection with this client identifier. -/
def LiveAs (s : ClientState cfg) (id : Bytes) : Prop :=
  s.used = true ∧ s.closePending = false ∧ s.clientId = id ∧ id ≠ []

theorem Served.liveAs (h : s.Served s') (hl : s'.LiveAs id) : s.LiveAs id := by
  obtain ⟨hu, hc, hid, hne⟩ := hl
  refine ⟨h.used ▸ hu, ?_, h.clientId ▸ hid, hne⟩
  by_contra hp
  rw [h.closePending (by simpa using hp)] at hc
  cases hc

end ClientState

namespace Broker

variable {cfg : BrokerConfig} {b b' : Broker cfg}

/-- Every live connection has its session in the table. -/
def LiveStored (b : Broker cfg) : Prop :=
  ∀ i id, (b.clients.get i).LiveAs id → b.sessions.Holds id

/-- `b'` has the session and the subscriptions of every connection that is live in `b`. -/
def SessionsKept (b b' : Broker cfg) : Prop :=
  ∀ i id, (b.clients.get i).LiveAs id → b'.sessions.Holds id ∧
    ∀ k, (b.subscriptions.get k).used = true → (b.subscriptions.get k).clientId = id →
      b'.subscriptions.get k = b.subscriptions.get k

/-- `b'` has the sessions of `b` and no other live connections. -/
structure SameSessions (b b' : Broker cfg) : Prop where
  sessions : b'.sessions = b.sessions
  live : ∀ i id, (b'.clients.get i).LiveAs id → (b.clients.get i).LiveAs id

theorem SameSessions.refl (b : Broker cfg) : SameSessions b b := ⟨rfl, fun _ _ h => h⟩

theorem SameSessions.trans {b₁ b₂ b₃ : Broker cfg} (h : SameSessions b₁ b₂)
    (h' : SameSessions b₂ b₃) : SameSessions b₁ b₃ :=
  ⟨h'.sessions.trans h.sessions, fun i id hl => h.live i id (h'.live i id hl)⟩

theorem Served.sameSessions (h : Served b b') : SameSessions b b' :=
  ⟨h.sessions, fun i _ hl => (h.client i).liveAs hl⟩

theorem LiveStored.same (h : LiveStored b) (hs : SameSessions b b') : LiveStored b' := by
  intro i id hl
  rw [hs.sessions]
  exact h i id (hs.live i id hl)

theorem sameSessions_modifyClient {i : Fin cfg.maxClients}
    {f : ClientState cfg → ClientState cfg} (h : ∀ id, (f (b.clients.get i)).LiveAs id →
      (b.clients.get i).LiveAs id) : SameSessions b (b.modifyClient i f) :=
  ⟨rfl, fun j id hl => b.forall_modifyClient
    (R := fun s s' => s'.LiveAs id → s.LiveAs id) (fun _ h => h) (h id) j hl⟩

theorem clearSession_holds (id k : Bytes) :
    (b.clearSession id).sessions.Holds k ↔ b.sessions.Holds k ∧ k ≠ id := by
  unfold clearSession Table.Holds
  simp only [Table.get_map, Slot.used, Slot.key]
  constructor
  · rintro ⟨i, hu, hk⟩
    split at hu
    · cases hu
    next hne =>
      rw [if_neg hne] at hk
      refine ⟨⟨i, hu, hk⟩, ?_⟩
      rintro rfl
      simp [hu, hk] at hne
  · rintro ⟨⟨i, hu, hk⟩, hne⟩
    refine ⟨i, ?_⟩
    rw [if_neg (by simp [hk, hne])]
    exact ⟨hu, hk⟩

variable {id : Bytes} {k : Fin cfg.maxClients}

theorem clearSession_sessions (h : (b.sessions.get k).clientId ≠ id) :
    (b.clearSession id).sessions.get k = b.sessions.get k := by
  simp [clearSession, h]

theorem clearSession_clientId (id : Bytes) (k : Fin cfg.maxClients) :
    ((b.clearSession id).sessions.get k).clientId = (b.sessions.get k).clientId := by
  simp only [clearSession, Table.get_map]
  split <;> rfl

theorem clearSession_subscriptions {k : Fin cfg.maxSubscriptions}
    (h : (b.subscriptions.get k).clientId ≠ id) :
    (b.clearSession id).subscriptions.get k = b.subscriptions.get k := by
  simp [clearSession, h]

theorem ensureSession_cases (b : Broker cfg) (id : Bytes) :
    (b.ensureSession id = (false, b) ∧ ∀ k, (b.sessions.get k).used = true) ∨
      ∃ sessions, b.ensureSession id = (true, { b with sessions }) ∧ sessions.Holds id ∧
        ∀ k, b.sessions.Holds k → sessions.Holds k := by
  unfold ensureSession
  split
  next k hk =>
    right
    have hp : (b.sessions.get k).used = true ∧ (b.sessions.get k).clientId = id := by
      simpa using Table.firstIdx_some hk
    refine ⟨_, rfl, ⟨k, by simpa [Slot.used, Slot.key] using hp⟩, ?_⟩
    rintro id' ⟨j, hu, hid⟩
    refine ⟨j, ?_⟩
    rw [Table.get_modify]
    split
    · exact ⟨hu, hid⟩
    · exact ⟨hu, hid⟩
  · split
    next k hk =>
      right
      have hfree : (b.sessions.get k).used = false := by simpa using Table.firstIdx_some hk
      refine ⟨_, rfl, ⟨k, by simp [Slot.used, Slot.key]⟩, ?_⟩
      rintro id' ⟨j, hu, hid⟩
      have hjk : j ≠ k := by
        rintro rfl
        exact absurd (hu.symm.trans hfree) (by decide)
      exact ⟨j, by rw [Table.get_set_ne _ _ hjk]; exact ⟨hu, hid⟩⟩
    next hnone =>
      left
      exact ⟨rfl, fun k => by simpa using Table.firstIdx_none hnone k⟩

theorem sendConnack_sameSessions (b : Broker cfg) (i : Fin cfg.maxClients)
    (sessionPresent : Bool) (reason : ReasonCode) (assignedId : Option Bytes) :
    SameSessions b (b.sendConnack i sessionPresent reason assignedId).2 :=
  (b.sendConnack_sendsOnly ..).served.sameSessions

theorem assignClientId_sameSessions (b : Broker cfg) (attempts : ℕ) :
    SameSessions b (assignClientId attempts b).2 := by
  induction attempts generalizing b with
  | zero => exact .refl b
  | succ attempts ih =>
    unfold assignClientId
    dsimp only
    split
    · exact ⟨rfl, fun _ _ h => h⟩
    split
    · have hstep : SameSessions b { b with nextAssignedId := b.nextAssignedId + 1 } :=
        ⟨rfl, fun _ _ h => h⟩
      exact hstep.trans (ih _)
    · exact ⟨rfl, fun _ _ h => h⟩

/-- The connection that is accepted has its session ensured, and every other one with
its identifier is marked for closing. -/
theorem acceptConnect_liveStored (h : LiveStored b) (i : Fin cfg.maxClients)
    (header : ConnectHeader) (p : ConnectPayload) (id : Bytes) (assigned : Bool) :
    LiveStored (b.acceptConnect i header p id assigned).2 := by
  unfold acceptConnect
  have hclear : (if header.clean = true then b.clearSession (cstr id) else b).clients =
      b.clients ∧ ∀ k, k ≠ cstr id → b.sessions.Holds k →
        (if header.clean = true then b.clearSession (cstr id) else b).sessions.Holds k := by
    split
    · exact ⟨rfl, fun k hne hk => (b.clearSession_holds _ _).mpr ⟨hk, hne⟩⟩
    · exact ⟨rfl, fun _ _ hk => hk⟩
  have hfull (hu : ∀ k, ((if header.clean = true then b.clearSession (cstr id) else b).sessions.get
      k).used = true) : b.sessions.Holds (cstr id) →
        (if header.clean = true then b.clearSession (cstr id) else b).sessions.Holds (cstr id) := by
    rintro ⟨k, hk, hid⟩
    refine ⟨k, hu k, ?_⟩
    split
    · exact (b.clearSession_clientId _ _).trans hid
    · exact hid
  dsimp only
  generalize (if header.clean = true then b.clearSession (cstr id) else b) = b₁ at hclear hfull ⊢
  obtain ⟨hclients, hholds⟩ := hclear
  obtain ⟨he, hu⟩ | ⟨sessions, he, hid, hs⟩ := b₁.ensureSession_cases (cstr id)
  · -- the table is full: a session with this identifier would have left a free slot
    rw [he]
    refine LiveStored.same (b := b₁) ?_ (sendConnack_sameSessions ..)
    intro j k hl
    rw [hclients] at hl
    by_cases hk : k = cstr id
    · subst hk
      exact hfull hu (h j _ hl)
    · exact hholds k hk (h j k hl)
  · rw [he]
    dsimp only
    refine LiveStored.same ?_ (sendConnack_sameSessions ..)
    intro j k hl
    show sessions.Holds k
    by_cases hji : j = i
    · subst hji
      rw [get_modifyClient_self] at hl
      rw [← hl.2.2.1]
      exact hid
    · rw [get_modifyClient_ne _ _ hji] at hl
      simp only [takeOver, Table.get_mapIdx] at hl
      split at hl
      · exact absurd hl.2.1 (by simp)
      next hne =>
        rw [hclients] at hl hne
        have hk : k ≠ cstr id := by
          rintro rfl
          obtain ⟨hu, -, hcid, hnil⟩ := hl
          simp [hji, hu, hcid, hnil] at hne
        exact hs k (hholds k hk (h j k hl))

/-- What every change that leaves the sessions alone keeps, and accepting a connection, is kept by
CONNECT. -/
theorem handleConnect_keeps {P : Broker cfg → Prop} (hsame : ∀ b b', P b → SameSessions b b' → P b')
    (haccept : ∀ b i header p id assigned, P b → P (acceptConnect b i header p id assigned).2) (h : P b)
    (i : Fin cfg.maxClients) (reader : PacketReader) : P (b.handleConnect i reader).2 := by
  unfold handleConnect
  split
  · exact h
  split
  · exact h
  next header _ _ =>
  have hlevel := hsame _ _ h (sameSessions_modifyClient (b := b) (i := i)
    (f := fun s => { s with protocolLevel := header.level }) fun _ hl => hl)
  dsimp only
  split
  · exact hsame _ _ hlevel (sendConnack_sameSessions ..)
  split
  · exact hlevel
  next properties _ _ =>
  have hexp : P (setSessionExpiry
      (b.modifyClient i fun s => { s with protocolLevel := header.level }) i properties) := by
    unfold setSessionExpiry
    split
    · exact hsame _ _ hlevel (sameSessions_modifyClient fun _ hl => hl)
    · exact hlevel
  split
  · exact hsame _ _ hexp (sendConnack_sameSessions ..)
  next id _ _ =>
  generalize setSessionExpiry _ i properties = b₁ at hexp ⊢
  have hid : SameSessions b₁ (b₁.chooseClientId header.clean id).2 := by
    unfold chooseClientId
    split
    · split
      · exact b₁.assignClientId_sameSessions _
      · exact .refl _
    · exact .refl _
  split
  next b₂ hc =>
    rw [hc] at hid
    exact hsame _ _ (hsame _ _ hexp hid) (sendConnack_sameSessions ..)
  next chosen b₂ hc =>
    rw [hc] at hid
    have hb₂ := hsame _ _ hexp hid
    unfold finishConnect
    split
    · exact hb₂
    split
    · exact hsame _ _ hb₂ (sendConnack_sameSessions ..)
    · exact haccept _ i header _ chosen _ hb₂

theorem handlePacket_keeps {P : Broker cfg → Prop} (hsame : ∀ b b', P b → SameSessions b b' → P b')
    (haccept : ∀ b i header p id assigned, P b → P (acceptConnect b i header p id assigned).2) (h : P b)
    (i : Fin cfg.maxClients) (packet : PacketView) : P (b.handlePacket i packet).2 := by
  by_cases ht : packet.type = .connect
  · rw [b.handlePacket_connect i ht]
    exact handleConnect_keeps hsame haccept h i _
  · exact hsame _ _ h (b.handlePacket_served i packet ht).sameSessions

/-- No session entry of this identifier has expired. -/
def Unexpired (now : UInt32) (id : Bytes) (b : Broker cfg) (k : Fin cfg.maxClients) : Prop :=
  (b.sessions.get k).clientId = id → SessionEntry.expired now (b.sessions.get k) = false

theorem pruneSession_clientId (now : UInt32) (b : Broker cfg) (k j : Fin cfg.maxClients) :
    ((pruneSession now b k).sessions.get j).clientId = (b.sessions.get j).clientId := by
  unfold pruneSession
  split
  · exact b.clearSession_clientId _ j
  · rfl

variable {now : UInt32}

theorem pruneSession_other (h : Unexpired now id b k) :
    (∀ j, (b.sessions.get j).clientId = id →
      (pruneSession now b k).sessions.get j = b.sessions.get j) ∧
    ∀ j, (b.subscriptions.get j).clientId = id →
      (pruneSession now b k).subscriptions.get j = b.subscriptions.get j := by
  unfold pruneSession
  split
  next hexp =>
    have hne : (b.sessions.get k).clientId ≠ id := by
      intro hid
      rw [h hid] at hexp
      cases hexp
    exact ⟨fun j hj => clearSession_sessions (hj.trans_ne hne.symm),
      fun j hj => clearSession_subscriptions (hj.trans_ne hne.symm)⟩
  · exact ⟨fun _ _ => rfl, fun _ _ => rfl⟩

theorem pruneSession_not_holds (h : ¬b.sessions.Holds id) :
    ¬(pruneSession now b k).sessions.Holds id := by
  unfold pruneSession
  split
  · exact fun hk => h ((b.clearSession_holds _ _).mp hk).1
  · exact h

variable (l : List (Fin cfg.maxClients))

theorem foldl_pruneSession_not_holds (h : ¬b.sessions.Holds id) :
    ¬(l.foldl (pruneSession now) b).sessions.Holds id :=
  List.foldlRecOn l (pruneSession now) (motive := fun d => ¬d.sessions.Holds id) h
    fun _ hd _ _ => pruneSession_not_holds hd

theorem foldl_pruneSession_kept (h : ∀ k ∈ l, Unexpired now id b k) :
    (∀ j, (b.sessions.get j).clientId = id →
      (l.foldl (pruneSession now) b).sessions.get j = b.sessions.get j) ∧
    ∀ j, (b.subscriptions.get j).clientId = id →
      (l.foldl (pruneSession now) b).subscriptions.get j = b.subscriptions.get j := by
  induction l generalizing b with
  | nil => exact ⟨fun _ _ => rfl, fun _ _ => rfl⟩
  | cons k l ih =>
    obtain ⟨hs, hsub⟩ := pruneSession_other (h k (by simp))
    obtain ⟨ihs, ihsub⟩ := ih (b := pruneSession now b k) fun k' hk' hid => by
      rw [pruneSession_clientId] at hid
      rw [hs k' hid]
      exact h k' (List.mem_cons_of_mem _ hk') hid
    refine ⟨fun j hj => ?_, fun j hj => ?_⟩
    · rw [List.foldl_cons, ihs j ((pruneSession_clientId now b k j).trans hj), hs j hj]
    · rw [List.foldl_cons, ihsub j (by rw [hsub j hj, hj]), hsub j hj]

theorem foldl_pruneSession_removed (hk : k ∈ l) (hid : (b.sessions.get k).clientId = id)
    (hexp : SessionEntry.expired now (b.sessions.get k) = true) :
    ¬(l.foldl (pruneSession now) b).sessions.Holds id := by
  induction l generalizing b with
  | nil => cases hk
  | cons k' l ih =>
    rw [List.foldl_cons]
    by_cases hclear : SessionEntry.expired now (b.sessions.get k') = true ∧
        (b.sessions.get k').clientId = id
    · apply foldl_pruneSession_not_holds
      unfold pruneSession
      rw [if_pos hclear.1, hclear.2]
      exact fun h => ((b.clearSession_holds _ _).mp h).2 rfl
    · have hmem : k ∈ l := by
        rcases List.mem_cons.mp hk with rfl | hk
        · exact absurd ⟨hexp, hid⟩ hclear
        · exact hk
      have hun : Unexpired now id b k' := by
        intro hid'
        by_contra hne
        exact hclear ⟨by simpa using hne, hid'⟩
      have hsame := (pruneSession_other hun).1 k hid
      exact ih hmem (by rw [hsame, hid]) (by rw [hsame, hexp])

theorem pruneSessions_kept_iff (h : LiveStored b) (now : UInt32) : SessionsKept b
    (b.pruneSessions now) ↔ ∀ i id, (b.clients.get i).LiveAs id → ∀ k, Unexpired now id b k := by
  constructor
  · intro hkept i id hl k hid
    by_contra hexp
    exact foldl_pruneSession_removed _ (List.mem_finRange k) hid (by simpa using hexp)
      (hkept i id hl).1
  · intro hun i id hl
    obtain ⟨hs, hsub⟩ := foldl_pruneSession_kept (List.finRange cfg.maxClients)
      fun k _ => hun i id hl k
    obtain ⟨k, hu, hid⟩ := h i id hl
    have hk := hs k hid
    refine ⟨⟨k, ?_⟩, fun j _ hj => hsub j hj⟩
    unfold pruneSessions
    rw [hk]
    exact ⟨hu, hid⟩

theorem pruneSessions_clients (b : Broker cfg) (now : UInt32) :
    (b.pruneSessions now).clients = b.clients :=
  List.foldlRecOn _ (pruneSession now) (motive := fun d => d.clients = b.clients) rfl
    fun d hd k _ => by
      unfold pruneSession
      split
      · exact hd
      · exact hd

/-- `b'` is `b` after a will was published. -/
structure WillOnly (b b' : Broker cfg) : Prop where
  sessions : b'.sessions = b.sessions
  subscriptions : b'.subscriptions = b.subscriptions
  client : ∀ i, (b'.clients.get i).clientId = (b.clients.get i).clientId ∧
    (b'.clients.get i).keepsSession = (b.clients.get i).keepsSession ∧
    ∀ id, (b'.clients.get i).LiveAs id ↔ (b.clients.get i).LiveAs id

theorem publishPendingWill_willOnly (b : Broker cfg) (i : Fin cfg.maxClients) :
    WillOnly b (b.publishPendingWill i) := by
  have hdone (d : Broker cfg) (ps : List Publication) (hd : Delivers ps b d) :
      WillOnly b (d.modifyClient i fun s => { s with willPending := false }) := by
    obtain ⟨clients, _, _, _, rfl, -, hc⟩ := hd
    refine ⟨rfl, rfl, fun j => ?_⟩
    obtain ⟨_, _, he, -⟩ := hc j
    by_cases hji : j = i
    · subst hji
      rw [get_modifyClient_self]
      dsimp only
      rw [he]
      exact ⟨rfl, rfl, fun _ => Iff.rfl⟩
    · rw [get_modifyClient_ne _ _ hji]
      dsimp only
      rw [he]
      exact ⟨rfl, rfl, fun _ => Iff.rfl⟩
  unfold publishPendingWill
  split
  · unfold publishWill
    dsimp only
    split
    · exact hdone _ _ (b.publishMessage_delivers _)
    · exact hdone _ _ (.refl b)
  · exact ⟨rfl, rfl, fun _ => ⟨rfl, rfl, fun _ => Iff.rfl⟩⟩

theorem WillOnly.trans {b₁ b₂ b₃ : Broker cfg} (h : WillOnly b₁ b₂) (h' : WillOnly b₂ b₃) :
    WillOnly b₁ b₃ := by
  refine ⟨h'.sessions.trans h.sessions, h'.subscriptions.trans h.subscriptions, fun i => ?_⟩
  obtain ⟨hc, hk, hl⟩ := h.client i
  obtain ⟨hc', hk', hl'⟩ := h'.client i
  exact ⟨hc'.trans hc, hk'.trans hk, fun id => (hl' id).trans (hl id)⟩

theorem endSession_kept_iff (h : LiveStored b) (now : UInt32) (i : Fin cfg.maxClients) :
    SessionsKept b (b.endSession now i) ↔ ∀ j, (b.clients.get j).LiveAs (b.clients.get i).clientId →
    (b.clients.get i).keepsSession = true := by
  unfold endSession
  dsimp only
  by_cases hid : (b.clients.get i).clientId = []
  · rw [if_neg (by simp [hid])]
    constructor
    · intro _ j hl
      exact absurd hid hl.2.2.2
    · intro _ j id hl
      exact ⟨h j id hl, fun _ _ _ => rfl⟩
  rw [if_pos hid]
  cases hkeep : (b.clients.get i).keepsSession with
  | true =>
    rw [if_pos rfl]
    refine ⟨fun _ _ _ => rfl, fun _ j id hl => ⟨?_, fun _ _ _ => rfl⟩⟩
    obtain ⟨k, hu, hk⟩ := h j id hl
    refine ⟨k, ?_⟩
    simp only [startExpiry, Table.get_map]
    split
    · exact ⟨hu, hk⟩
    · exact ⟨hu, hk⟩
  | false =>
    rw [if_neg (by decide)]
    constructor
    · intro hkept j hl
      exact absurd rfl ((b.clearSession_holds _ _).mp (hkept j _ hl).1).2
    · intro hnone j id hl
      have hne : id ≠ (b.clients.get i).clientId := by
        rintro rfl
        cases hnone j hl
      exact ⟨(b.clearSession_holds _ _).mpr ⟨h j id hl, hne⟩,
        fun k _ hk => clearSession_subscriptions (hk.trans_ne hne)⟩

end Broker

def Act.ends {cfg : BrokerConfig} : Act cfg → Bool
  | .prune _ | .close _ => true
  | _ => false

namespace PolledBroker

open Broker

variable {cfg : BrokerConfig} {p : PolledBroker cfg}

theorem pollClose_kept_iff (h : LiveStored p.broker) (i : Fin cfg.maxClients)
    (handle : ClientHandle) :
    SessionsKept p.broker (p.pollClose i handle).broker ↔
      ((p.broker.clients.get i).closePending = true →
        ∀ j, (p.broker.clients.get j).LiveAs (p.broker.clients.get i).clientId →
          (p.broker.clients.get i).keepsSession = true) := by
  unfold pollClose
  by_cases hc : (p.broker.clients.get i).closePending = true
  · rw [if_pos hc]
    have hw := (p.broker.publishPendingWill_willOnly i).trans (publishPendingWill_willOnly _ i)
    simp only [closeState, if_true, hc, forall_const]
    generalize (p.broker.publishPendingWill i).publishPendingWill i = b at hw ⊢
    have hb : LiveStored b := by
      intro j id hl
      rw [hw.sessions]
      exact h j id (((hw.client j).2.2 id).mp hl)
    have hiff := endSession_kept_iff hb p.nowMs i
    obtain ⟨hcid, hkeep, -⟩ := hw.client i
    have hside : SessionsKept p.broker (b.endSession p.nowMs i) ↔
        SessionsKept b (b.endSession p.nowMs i) := by
      unfold SessionsKept
      rw [hw.subscriptions]
      exact forall_congr' fun j => forall_congr' fun id => by rw [(hw.client j).2.2 id]
    rw [hcid, hkeep] at hiff
    refine Iff.trans ?_ (hside.trans (hiff.trans ?_))
    · exact Iff.rfl
    · exact forall_congr' fun j => by rw [(hw.client j).2.2]
  · rw [if_neg hc]
    exact ⟨fun _ hp => absurd hp hc, fun _ j id hl => ⟨h j id hl, fun _ _ _ => rfl⟩⟩

theorem pollClose_live (i : Fin cfg.maxClients) (handle : ClientHandle) (j : Fin cfg.maxClients)
    (id : Bytes) (hl : ((p.pollClose i handle).broker.clients.get j).LiveAs id) :
    (p.broker.clients.get j).LiveAs id := by
  unfold pollClose at hl
  split at hl
  · have hw := (p.broker.publishPendingWill_willOnly i).trans (publishPendingWill_willOnly _ i)
    simp only [closeState, if_true] at hl
    generalize (p.broker.publishPendingWill i).publishPendingWill i = b at hw hl
    have hend : (b.endSession p.nowMs i).clients = b.clients := by
      unfold endSession
      dsimp only
      split
      · split <;> rfl
      · rfl
    refine ((hw.client j).2.2 id).mp ?_
    rw [← hend]
    exact (sameSessions_modifyClient fun _ h => absurd h.1 (by simp)).live j id hl
  · exact hl

/-- What every change that leaves the sessions alone keeps, and accepting a connection, is kept by
every step but pruning and closing. -/
theorem kept_of_sameSessions {P : Broker cfg → Prop} (hsame : ∀ b b', P b → SameSessions b b' → P b')
    (haccept : ∀ b i header p id assigned, P b → P (acceptConnect b i header p id assigned).2) : Kept P where
  server _ _ h := hsame _ _ h ⟨rfl, fun _ _ hl => hl⟩
  authentication _ _ _ _ h := hsame _ _ h ⟨rfl, fun _ _ hl => hl⟩
  fresh _ i handle h := hsame _ _ h <|
    sameSessions_modifyClient fun _ hl => absurd hl.2.2.1 (Ne.symm hl.2.2.2)
  marked _ _ _ h := hsame _ _ h (sameSessions_modifyClient fun _ hl => absurd hl.2.1 (by simp))
  unused b h := hsame _ _ h ⟨rfl, fun i id hl => absurd hl.1 (by simp)⟩
  packet _ i packet h := handlePacket_keeps hsame haccept h i packet

theorem liveStored_kept : Kept (@LiveStored cfg) :=
  kept_of_sameSessions (fun _ _ h hs => h.same hs) fun _ i header p id assigned h =>
    acceptConnect_liveStored h i header p id assigned

/-- The step ends no session of a live connection: a connection that closes keeps its
session if a live one has its identifier, and no session entry of a live connection
has expired when the sessions are pruned. -/
def Undisturbed (p : PolledBroker cfg) : Act cfg → Prop
  | .close i => (p.broker.clients.get i).closePending = true →
      ∀ j, (p.broker.clients.get j).LiveAs (p.broker.clients.get i).clientId →
        (p.broker.clients.get i).keepsSession = true
  | .prune now => ∀ i id, (p.broker.clients.get i).LiveAs id → ∀ k, Unexpired now id p.broker k
  | _ => True

theorem act_kept_iff (h : LiveStored p.broker) (a : Act cfg) :
    (a.ends = true → SessionsKept p.broker (p.act a).broker) ↔ p.Undisturbed a := by
  cases a with
  | close i =>
    simp only [Act.ends, forall_const]
    exact pollClose_kept_iff h i _
  | prune now =>
    simp only [Act.ends, forall_const]
    exact pruneSessions_kept_iff h now
  | _ => simp [Act.ends, Undisturbed]

theorem act_liveStored (h : LiveStored p.broker) {a : Act cfg} (ha : p.Undisturbed a) :
    LiveStored (p.act a).broker := by
  have hkept := (act_kept_iff h a).mpr ha
  refine liveStored_kept.act h a ?_ ?_
  · rintro now rfl i id hl
    rw [pruneSessions_clients] at hl
    exact (hkept rfl i id hl).1
  · rintro i rfl j id hl
    exact (hkept rfl j id (pollClose_live i _ j id hl)).1

theorem runActs_snoc (sendResults : List Status) (acts : List (Act cfg)) (a : Act cfg) :
    runActs sendResults (acts ++ [a]) = (runActs sendResults acts).act a := by
  simp [runActs]

/-- In every run: before each step every live connection has its session, and no
closing or pruning step takes the session or a subscription of a live connection, if
and only if each of these steps is undisturbed. -/
theorem sessions_kept_iff (cfg : BrokerConfig) (sendResults : List Status)
    (acts : List (Act cfg)) :
    (AtEach acts fun before a => LiveStored (runActs sendResults before).broker ∧
      (a.ends = true → SessionsKept (runActs sendResults before).broker
        (runActs sendResults (before ++ [a])).broker)) ↔
    AtEach acts fun before a => (runActs sendResults before).Undisturbed a := by
  apply @AtEach.iff_of_invariant _ _ _ _ (fun before => LiveStored (runActs sendResults before).broker)
  · intro i id hl
    exact absurd hl.1 (by simp [runActs])
  · intro before a _ hinv ha
    rw [runActs_snoc]
    exact act_liveStored hinv ha
  · intro before a _ hinv
    rw [runActs_snoc, act_kept_iff hinv]
    exact and_iff_right hinv

/-- A CONNECT of level 4 for a clean session of client `X`. -/
def connectX : Bytes := [0x10, 13, 0, 4, 0x4D, 0x51, 0x54, 0x54, 4, 2, 0, 0, 0, 1, 0x58]

/-- A SUBSCRIBE to the topic `t`. -/
def subscribeT : Bytes := [0x82, 6, 0, 1, 0, 1, 0x74, 0]

/-- Two connections of client `X`: the second one takes over and subscribes. -/
def takenOver : PolledBroker smallBroker :=
  run []
    [.openListener .ok,
      .poll { now := 0, accepted := .ok, received := [.data connectX] },
      .poll { now := 1, accepted := .ok, received := [.idle, .data (connectX ++ subscribeT)] }]

/-- The poll that closes the first connection takes the session and the subscription
of the second one, which stays connected. -/
theorem session_lost :
    (takenOver.broker.clients.get 1).LiveAs [0x58] ∧ takenOver.broker.sessions.Holds [0x58] ∧
      takenOver.broker.subscriptions.Holds ([0x58], [0x74]) ∧
      ((takenOver.call (.poll { now := 2 })).broker.clients.get 1).LiveAs [0x58] ∧
      ¬(takenOver.call (.poll { now := 2 })).broker.sessions.Holds [0x58] ∧
      ¬(takenOver.call (.poll { now := 2 })).broker.subscriptions.Holds ([0x58], [0x74]) := by
  simp only [← Table.lookup_isSome]
  unfold ClientState.LiveAs
  decide

end PolledBroker
end Castle.Mqtt
