import Mathlib.Data.List.Induction
import Castle.Mqtt.Broker.Run

/-!
# Fan-out and retained messages (`broker.hpp`)

What `publish_message` sends, told from the tables before the call, and what the retained table holds
after any number of calls.
-/

namespace Castle.Mqtt

open Net

instance : Slot RetainedEntry Bytes := ⟨RetainedEntry.used, RetainedEntry.topic⟩

def Publication.Retains (p : Publication) (topic : Bytes) : Prop := p.retain = true ∧ p.topic = topic

instance (p : Publication) (topic : Bytes) : Decidable (p.Retains topic) := inferInstanceAs (Decidable (_ ∧ _))

namespace Broker

variable {cfg : BrokerConfig} (b : Broker cfg)

/-- A connected client: used, identified and not about to be closed. -/
def Connected (s : ClientState cfg) : Prop := s.used = true ∧ s.clientId ≠ [] ∧ s.closePending = false

instance (s : ClientState cfg) : Decidable (Connected s) := inferInstanceAs (Decidable (_ ∧ _ ∧ _))

/-- The subscription in slot `k` is one of client `clientId` whose filter matches `topic`. -/
def Matches (clientId topic : Bytes) (k : Fin cfg.maxSubscriptions) : Prop :=
  (b.subscriptions.get k).used = true ∧ (b.subscriptions.get k).clientId = clientId ∧
    topicMatches (b.subscriptions.get k).filter topic = true

/-- The best quality granted to client `clientId` by a subscription that matches `topic`. -/
def BestGranted (clientId topic : Bytes) (best : Qos) : Prop :=
  (∃ k, b.Matches clientId topic k ∧ (b.subscriptions.get k).maximumQuality = best) ∧
    ∀ k, b.Matches clientId topic k → (b.subscriptions.get k).maximumQuality.toNat ≤ best.toNat

/-- The message is owed to the client in slot `i` with this quality. -/
def Owed (p : Publication) (i : Fin cfg.maxClients) (quality : Qos) : Prop :=
  Connected (b.clients.get i) ∧ ∃ best, b.BestGranted (b.clients.get i).clientId p.topic best ∧
    quality.toNat = min p.quality.toNat best.toNat

/-- The `publish_message` call recorded, and the retained table updated for it. -/
def record (p : Publication) : Broker cfg :=
  let b := { b with trace := b.trace ++ [.published p] }
  if p.retain then b.updateRetained p.topic p.payload p.quality else b

/-- One `send_publish_to` of `publish_message`. -/
def deliver (p : Publication) (recipient : Fin cfg.maxClients × Qos) (b : Broker cfg) : Broker cfg :=
  (b.sendPublishTo (b.clients.get recipient.1).handle p.topic p.payload recipient.2 false).2

/-- The quality of the delivery to the client in slot `i`, if there is one. -/
def deliveryTo (p : Publication) (i : Fin cfg.maxClients) : Option Qos :=
  let best := b.matchSubscriptions (b.clients.get i).clientId p.topic
  if Connected (b.clients.get i) ∧ best.1 = true then
    some (if p.quality.toNat < best.2.toNat then p.quality else best.2)
  else none

theorem qos_toNat_inj {q q' : Qos} (h : q.toNat = q'.toNat) : q = q' := by
  have hq := congrArg Qos.ofNat? h
  rw [Qos.ofNat?_toNat, Qos.ofNat?_toNat, Option.some.injEq] at hq
  exact hq

variable (l : List SubscriptionEntry)

/-- The loop over a list of subscriptions: whether one has been taken, and the best quality so far. -/
theorem foldl_best (taken : SubscriptionEntry → Bool) (found : Bool) (best : Qos) :
    (l.foldl (fun best sub => if taken sub = true then
        (true, if best.2.toNat < sub.maximumQuality.toNat then sub.maximumQuality else best.2) else best)
      (found, best)).1 = (found || l.any taken) ∧
    (l.foldl (fun best sub => if taken sub = true then
        (true, if best.2.toNat < sub.maximumQuality.toNat then sub.maximumQuality else best.2) else best)
      (found, best)).2.toNat =
        (l.filter taken).foldl (fun m sub => max m sub.maximumQuality.toNat) best.toNat := by
  induction l generalizing found best with
  | nil => simp
  | cons sub l ih =>
    rw [List.foldl_cons, List.any_cons, List.filter_cons]
    by_cases htaken : taken sub = true
    · rw [if_pos htaken, if_pos htaken, List.foldl_cons]
      obtain ⟨hfound, hbest⟩ := ih true (if best.toNat < sub.maximumQuality.toNat then sub.maximumQuality else best)
      rw [hfound, hbest]
      refine ⟨by simp [htaken], ?_⟩
      congr 1
      split <;> omega
    · rw [if_neg htaken, if_neg htaken]
      obtain ⟨hfound, hbest⟩ := ih found best
      rw [hfound, hbest]
      exact ⟨by simp [htaken], rfl⟩

theorem le_foldl_max (m : ℕ) : m ≤ l.foldl (fun m sub => max m sub.maximumQuality.toNat) m ∧ ∀ sub
    ∈ l, sub.maximumQuality.toNat ≤ l.foldl (fun m sub => max m sub.maximumQuality.toNat) m := by
  induction l generalizing m with
  | nil => simp
  | cons sub l ih =>
    obtain ⟨hm, hl⟩ := ih (max m sub.maximumQuality.toNat)
    rw [List.foldl_cons, List.forall_mem_cons]
    exact ⟨by omega, by omega, hl⟩

theorem foldl_max_mem (m : ℕ) : l.foldl (fun m sub => max m sub.maximumQuality.toNat) m = m ∨ ∃ sub
    ∈ l, sub.maximumQuality.toNat = l.foldl (fun m sub => max m sub.maximumQuality.toNat) m := by
  induction l generalizing m with
  | nil => exact .inl rfl
  | cons sub l ih =>
    rw [List.foldl_cons]
    obtain h | ⟨sub', hmem, h⟩ := ih (max m sub.maximumQuality.toNat)
    · rw [h]
      rcases le_total m sub.maximumQuality.toNat with hle | hle
      · exact .inr ⟨sub, List.mem_cons_self, (max_eq_right hle).symm⟩
      · exact .inl (max_eq_left hle)
    · exact .inr ⟨sub', List.mem_cons_of_mem _ hmem, h⟩

/-- The predicate of the subscription loop. -/
def taken (clientId topic : Bytes) (sub : SubscriptionEntry) : Bool :=
  sub.used && sub.clientId = clientId && topicMatches sub.filter topic

theorem taken_iff {clientId topic : Bytes} {k : Fin cfg.maxSubscriptions} :
    taken clientId topic (b.subscriptions.get k) = true ↔ b.Matches clientId topic k := by
  simp [taken, Matches, and_assoc]

theorem mem_cells {n : ℕ} {α : Type} {t : Table n α} {a : α} : a ∈ t.cells ↔ ∃ k, t.get k = a := by
  constructor
  · intro h
    obtain ⟨i, hi, rfl⟩ := List.getElem_of_mem h
    exact ⟨⟨i, t.size_eq ▸ hi⟩, rfl⟩
  · rintro ⟨k, rfl⟩
    exact List.getElem_mem _

theorem matchSubscriptions_spec (clientId topic : Bytes) :
    ((b.matchSubscriptions clientId topic).1 = true ↔ ∃ best, b.BestGranted clientId topic best) ∧
      ∀ best, b.BestGranted clientId topic best → (b.matchSubscriptions clientId topic).2 = best := by
  obtain ⟨hfound, hquality⟩ := foldl_best b.subscriptions.cells (taken clientId topic) false .atMostOnce
  change (b.matchSubscriptions clientId topic).1 = _ at hfound
  change (b.matchSubscriptions clientId topic).2.toNat = _ at hquality
  have hupper : ∀ k, b.Matches clientId topic k →
      (b.subscriptions.get k).maximumQuality.toNat ≤ (b.matchSubscriptions clientId topic).2.toNat := by
    intro k hk
    rw [hquality]
    apply (le_foldl_max _ _).2
    exact List.mem_filter.mpr ⟨mem_cells.mpr ⟨k, rfl⟩, b.taken_iff.mpr hk⟩
  have hbest (k : Fin cfg.maxSubscriptions) (hk : b.Matches clientId topic k) :
      b.BestGranted clientId topic (b.matchSubscriptions clientId topic).2 := by
    refine ⟨?_, hupper⟩
    obtain h | ⟨sub, hmem, h⟩ := foldl_max_mem (b.subscriptions.cells.filter (taken clientId topic)) 0
    · -- every matching subscription grants quality 0
      refine ⟨k, hk, qos_toNat_inj ?_⟩
      have hk' := hupper k hk
      change _ = (b.matchSubscriptions clientId topic).2.toNat
      rw [hquality] at hk' ⊢
      change _ ≤ (b.subscriptions.cells.filter (taken clientId topic)).foldl _ 0 at hk'
      change _ = (b.subscriptions.cells.filter (taken clientId topic)).foldl _ 0
      omega
    · obtain ⟨hcell, htaken⟩ := List.mem_filter.mp hmem
      obtain ⟨j, rfl⟩ := mem_cells.mp hcell
      exact ⟨j, b.taken_iff.mp htaken, qos_toNat_inj (h.trans hquality.symm)⟩
  constructor
  · rw [hfound, Bool.false_or, List.any_eq_true]
    constructor
    · rintro ⟨sub, hmem, htaken⟩
      obtain ⟨k, rfl⟩ := mem_cells.mp hmem
      exact ⟨_, hbest k (b.taken_iff.mp htaken)⟩
    · rintro ⟨best, ⟨k, hk, -⟩, -⟩
      exact ⟨_, mem_cells.mpr ⟨k, rfl⟩, b.taken_iff.mpr hk⟩
  · rintro best ⟨⟨k, hk, rfl⟩, hle⟩
    obtain ⟨⟨j, hj, hquality'⟩, hle'⟩ := hbest k hk
    apply qos_toNat_inj
    have hup := hle' k hk
    have hdown := hle j hj
    rw [hquality'] at hdown
    omega

variable {p : Publication}

theorem deliveryTo_eq_some {i : Fin cfg.maxClients} {quality : Qos} :
    b.deliveryTo p i = some quality ↔ b.Owed p i quality := by
  obtain ⟨hfound, hbest⟩ := b.matchSubscriptions_spec (b.clients.get i).clientId p.topic
  unfold deliveryTo Owed
  dsimp only
  constructor
  · intro h
    split at h
    next hc =>
      obtain ⟨best, hb⟩ := hfound.mp hc.2
      rw [hbest best hb, Option.some.injEq] at h
      refine ⟨hc.1, best, hb, ?_⟩
      rw [← h]
      split <;> omega
    · cases h
  · rintro ⟨hconn, best, hb, hquality⟩
    rw [if_pos ⟨hconn, hfound.mpr ⟨best, hb⟩⟩, hbest best hb, Option.some.injEq]
    apply qos_toNat_inj
    rw [hquality]
    split <;> omega

variable {b} {b' : Broker cfg}

theorem Delivers.deliveryTo (h : Delivers [] b b') (p : Publication) (i : Fin cfg.maxClients) :
    b'.deliveryTo p i = b.deliveryTo p i := by
  obtain ⟨clients, _, _, _, rfl, -, hclient⟩ := h
  obtain ⟨_, _, hi, -⟩ := hclient i
  unfold Broker.deliveryTo matchSubscriptions Connected
  dsimp only
  rw [hi]
  rfl

theorem Delivers.deliver (h : Delivers [] b b') (p : Publication) (recipient : Fin cfg.maxClients × Qos) :
    b'.deliver p recipient =
      (b'.sendPublishTo (b.clients.get recipient.1).handle p.topic p.payload recipient.2 false).2 := by
  rw [Broker.deliver, (h.served.client recipient.1).handle]

theorem publishToClient_eq (p : Publication) (b : Broker cfg) (i : Fin cfg.maxClients) :
    publishToClient p b i = match b.deliveryTo p i with
      | some quality => b.deliver p (i, quality)
      | none => b := by
  by_cases hconn : Connected (b.clients.get i)
  · obtain ⟨hu, hid, hclose⟩ := hconn
    unfold publishToClient
    dsimp only
    rw [if_neg (by simp [hu, hid, hclose])]
    by_cases hbest : (b.matchSubscriptions (b.clients.get i).clientId p.topic).1 = true
    · rw [if_pos hbest, Broker.deliveryTo, if_pos (And.intro ⟨hu, hid, hclose⟩ hbest)]
      rfl
    · rw [if_neg hbest, Broker.deliveryTo, if_neg fun h => hbest h.2]
  · have hskip : (!(b.clients.get i).used || decide ((b.clients.get i).clientId = []) ||
        (b.clients.get i).closePending) = true := by
      by_contra hno
      exact hconn (by simpa [Connected, and_assoc] using hno)
    unfold publishToClient
    dsimp only
    rw [if_pos hskip, Broker.deliveryTo, if_neg fun h => hconn h.1]

/-- The deliveries of a `publish_message` call, in slot order. -/
def deliveries (b : Broker cfg) (p : Publication) : List (Fin cfg.maxClients × Qos) :=
  (List.finRange cfg.maxClients).filterMap fun i => (b.deliveryTo p i).map fun quality => (i, quality)

theorem foldl_publishToClient (p : Publication) (h : Delivers [] b b') (slots : List (Fin cfg.maxClients)) :
    slots.foldl (publishToClient p) b' =
      (slots.filterMap fun i => (b.deliveryTo p i).map fun quality => (i, quality)).foldl
        (fun c recipient => (c.sendPublishTo (b.clients.get recipient.1).handle p.topic p.payload recipient.2
          false).2) b' := by
  induction slots generalizing b' with
  | nil => rfl
  | cons i slots ih =>
    rw [List.foldl_cons, publishToClient_eq, h.deliveryTo, List.filterMap_cons]
    cases b.deliveryTo p i with
    | none => exact ih h
    | some quality =>
      dsimp only [Option.map_some]
      rw [List.foldl_cons, h.deliver]
      exact ih (h.trans (b'.sendPublishTo_delivers ..))

theorem mem_deliveries {i : Fin cfg.maxClients} {quality : Qos} :
    (i, quality) ∈ b.deliveries p ↔ b.Owed p i quality := by
  rw [deliveries, List.mem_filterMap, ← deliveryTo_eq_some]
  constructor
  · rintro ⟨j, -, hj⟩
    obtain ⟨quality', hdelivery, hpair⟩ := Option.map_eq_some_iff.mp hj
    rw [Prod.mk.injEq] at hpair
    rw [← hpair.1, ← hpair.2]
    exact hdelivery
  · intro h
    exact ⟨i, List.mem_finRange i, by rw [h]; rfl⟩

theorem nodup_deliveries (b : Broker cfg) (p : Publication) : ((b.deliveries p).map Prod.fst).Nodup := by
  have hslots : (b.deliveries p).map Prod.fst =
      (List.finRange cfg.maxClients).filter fun i => (b.deliveryTo p i).isSome := by
    unfold deliveries
    induction List.finRange cfg.maxClients with
    | nil => rfl
    | cons i slots ih =>
      rw [List.filterMap_cons, List.filter_cons]
      cases b.deliveryTo p i with
      | none => exact ih
      | some quality =>
        dsimp only [Option.map_some, Option.isSome_some]
        rw [List.map_cons, ih, if_pos rfl]
  rw [hslots]
  exact (List.nodup_finRange _).filter _

theorem record_delivers (b : Broker cfg) (p : Publication) : Delivers [p] b (b.record p) := by
  have hp : Delivers [p] b { b with trace := b.trace ++ [.published p] } :=
    ⟨_, _, _, _, rfl, by simp [publications], fun i => .refl _⟩
  unfold record
  dsimp only
  split
  · exact hp.trans (updateRetained_delivers ..)
  · exact hp

theorem record_owed (b : Broker cfg) (p : Publication) (i : Fin cfg.maxClients) (quality : Qos) :
    (b.record p).Owed p i quality ↔ b.Owed p i quality := by
  have htables : (b.record p).clients = b.clients ∧ (b.record p).subscriptions = b.subscriptions := by
    unfold record updateRetained
    dsimp only
    repeat' split
    all_goals exact ⟨rfl, rfl⟩
  unfold Owed BestGranted Matches
  rw [htables.1, htables.2]

theorem SendsOnly.retained (h : SendsOnly b b') : b'.retained = b.retained := by
  obtain ⟨_, _, rfl, -⟩ := h
  rfl

theorem reserveOutgoing_retained (b : Broker cfg) (i : Fin cfg.maxClients) (topic payload : Bytes) (quality : Qos)
    (retain : Bool) : (b.reserveOutgoing i topic payload quality retain).2.retained = b.retained := by
  unfold reserveOutgoing
  dsimp only
  split
  · rfl
  split <;> rfl

theorem sendPublishTo_retained (b : Broker cfg) (h : ClientHandle) (topic payload : Bytes) (quality : Qos)
    (retain : Bool) : (b.sendPublishTo h topic payload quality retain).2.retained = b.retained := by
  unfold sendPublishTo
  split
  · rfl
  next i _ =>
  split
  · rfl
  split
  · dsimp only
    split
    · rfl
    · exact (b.sendPacket_sendsOnly ..).retained
  have hreserve := b.reserveOutgoing_retained i topic payload quality retain
  generalize b.reserveOutgoing i topic payload quality retain = r at hreserve ⊢
  obtain ⟨_ | ⟨k, id⟩, b₁⟩ := r
  · exact hreserve
  dsimp only at hreserve ⊢
  split
  · exact hreserve
  · split
    · exact (b₁.sendPacket_sendsOnly ..).retained.trans hreserve
    · exact (b₁.sendPacket_sendsOnly ..).retained.trans hreserve

theorem publishMessage_eq (b : Broker cfg) (p : Publication) :
    b.publishMessage p = ((b.record p).deliveries p).foldl (fun c recipient =>
      (c.sendPublishTo ((b.record p).clients.get recipient.1).handle p.topic p.payload recipient.2 false).2)
        (b.record p) :=
  foldl_publishToClient p (.refl _) _

theorem publishMessage_retained (b : Broker cfg) (p : Publication) :
    (b.publishMessage p).retained = (b.record p).retained := by
  rw [publishMessage_eq]
  exact List.foldlRecOn _ _ (motive := fun c => Broker.retained c = (b.record p).retained) rfl
    fun c hc recipient _ => (c.sendPublishTo_retained ..).trans hc

/-- What one call makes of the entry of a topic. -/
def RetainedStep (p : Publication) (before after : Table cfg.maxRetained RetainedEntry) (topic : Bytes) : Prop :=
  if p.Retains topic then
    if p.payload = [] then after.entry topic = none
    else after.entry topic = some ⟨true, topic, p.payload, p.quality⟩ ∨
      (after.entry topic = none ∧ ¬before.Holds topic ∧ ∀ k, (before.get k).used = true)
  else after.entry topic = before.entry topic

theorem updateRetained_erase (hdistinct : b.retained.Distinct) (topic : Bytes) (quality : Qos) :
    (b.updateRetained topic [] quality).retained.Distinct ∧
      ∀ t, (b.updateRetained topic [] quality).retained.entry t =
        if topic = t then none else b.retained.entry t := by
  unfold updateRetained
  rw [if_pos rfl]
  split
  next k hk =>
    obtain ⟨hu, hkey⟩ := Table.lookup_some hk
    have hwithin := Table.within_modify b.retained k (fun r => { r with used := false }) fun h => by cases h
    refine ⟨hwithin.distinct hdistinct, fun t => ?_⟩
    dsimp only
    rw [hdistinct.entry_release hu rfl rfl, hkey]
  next hnone =>
    refine ⟨hdistinct, fun t => ?_⟩
    split_ifs with ht
    · rw [← ht]
      exact Table.entry_eq_none.mpr (Table.lookup_none.mp hnone)
    · rfl

theorem updateRetained_store (hdistinct : b.retained.Distinct) {topic payload : Bytes} (quality : Qos)
    (htopic : cstr topic = topic) (hpayload : payload ≠ []) :
    (b.updateRetained topic payload quality).retained.Distinct ∧
      ((∀ t, (b.updateRetained topic payload quality).retained.entry t =
          if topic = t then some ⟨true, topic, payload, quality⟩ else b.retained.entry t) ∨
        ((b.updateRetained topic payload quality).retained = b.retained ∧ ¬b.retained.Holds topic ∧
          ∀ k, (b.retained.get k).used = true)) := by
  unfold updateRetained
  rw [if_neg hpayload, htopic]
  cases hfind : b.findRetained topic with
  | some k =>
    -- the entry of the topic is written over
    rw [Option.some_or]
    obtain ⟨hu, hkey⟩ := Table.lookup_some hfind
    have hwithin := Table.within_modify b.retained k (fun _ => ⟨true, topic, payload, quality⟩) fun _ =>
      ⟨hu, hkey.symm⟩
    refine ⟨hwithin.distinct hdistinct, .inl fun t => ?_⟩
    exact hdistinct.entry_rewrite hu hkey.symm t
  | none =>
    have hnew := Table.lookup_none.mp hfind
    rw [Option.none_or]
    cases hfree : b.allocateRetained with
    -- a new topic takes a free slot, and is dropped when there is none
    | some k =>
      have hunused : (b.retained.get k).used = false := by simpa using Table.firstIdx_some hfree
      refine ⟨hdistinct.set k hnew, .inl fun t => ?_⟩
      exact hdistinct.entry_fill hunused rfl hnew t
    | none =>
      refine ⟨hdistinct, .inr ⟨rfl, hnew, fun k => ?_⟩⟩
      simpa using Table.firstIdx_none hfree k

theorem record_retained (hdistinct : b.retained.Distinct) (hp : cstr p.topic = p.topic) :
    (b.record p).retained.Distinct ∧ ∀ topic, RetainedStep p b.retained (b.record p).retained topic := by
  unfold record
  dsimp only
  by_cases hretain : p.retain = true
  · have hiff (topic : Bytes) : p.Retains topic ↔ p.topic = topic := and_iff_right hretain
    rw [if_pos hretain]
    by_cases hpayload : p.payload = []
    · rw [hpayload]
      obtain ⟨hd, hentry⟩ := updateRetained_erase
        (b := { b with trace := b.trace ++ [.published p] }) hdistinct p.topic p.quality
      refine ⟨hd, fun topic => ?_⟩
      by_cases htopic : p.topic = topic
      · rw [RetainedStep, if_pos ((hiff topic).mpr htopic), if_pos hpayload, hentry, if_pos htopic]
      · rw [RetainedStep, if_neg (mt (hiff topic).mp htopic), hentry, if_neg htopic]
    · obtain ⟨hd, hstored | ⟨hsame, hnew, hfull⟩⟩ := updateRetained_store
        (b := { b with trace := b.trace ++ [.published p] }) hdistinct p.quality hp hpayload
      · refine ⟨hd, fun topic => ?_⟩
        by_cases htopic : p.topic = topic
        · rw [RetainedStep, if_pos ((hiff topic).mpr htopic), if_neg hpayload, hstored, if_pos htopic, htopic]
          exact .inl rfl
        · rw [RetainedStep, if_neg (mt (hiff topic).mp htopic), hstored, if_neg htopic]
      · refine ⟨hd, fun topic => ?_⟩
        rw [hsame]
        by_cases htopic : p.topic = topic
        · rw [RetainedStep, if_pos ((hiff topic).mpr htopic), if_neg hpayload, ← htopic]
          exact .inr ⟨Table.entry_eq_none.mpr hnew, hnew, hfull⟩
        · rw [RetainedStep, if_neg (mt (hiff topic).mp htopic)]
  · rw [if_neg hretain]
    refine ⟨hdistinct, fun topic => ?_⟩
    rw [RetainedStep, if_neg fun h => hretain h.1]

/-- The broker after the calls `ps` of `publish_message` on an empty retained table, and anything in
between that leaves this table alone. -/
inductive Publishing : Broker cfg → List Publication → Prop where
  | start {b : Broker cfg} : b.retained = .replicate _ {} → Publishing b []
  | publish {b : Broker cfg} {ps : List Publication} (p : Publication) :
      Publishing b ps → Publishing (b.publishMessage p) (ps ++ [p])
  | other {b b' : Broker cfg} {ps : List Publication} :
      Publishing b ps → b'.retained = b.retained → Publishing b' ps

/-- The retained table after these calls. -/
def retainedAfter (cfg : BrokerConfig) (ps : List Publication) : Table cfg.maxRetained RetainedEntry :=
  (ps.foldl record ({} : Broker cfg)).retained

theorem record_congr (h : b'.retained = b.retained) :
    (b'.record p).retained = (b.record p).retained := by
  unfold record updateRetained findRetained allocateRetained
  dsimp only
  rw [h]
  repeat' split
  all_goals rfl

variable {ps : List Publication}

theorem Publishing.retained (h : Publishing b ps) : b.retained = retainedAfter cfg ps := by
  induction h with
  | start hempty => exact hempty
  | publish p _ ih =>
    rw [publishMessage_retained, retainedAfter, List.foldl_append, List.foldl_cons, List.foldl_nil]
    exact record_congr ih
  | other _ hsame ih => exact hsame.trans ih

theorem retainedAfter_snoc (hdistinct : (retainedAfter cfg ps).Distinct)
    (hp : cstr p.topic = p.topic) : (retainedAfter cfg (ps ++ [p])).Distinct ∧
    ∀ topic, RetainedStep p (retainedAfter cfg ps) (retainedAfter cfg (ps ++ [p])) topic := by
  have hsnoc : retainedAfter cfg (ps ++ [p]) = ((ps.foldl record ({} : Broker cfg)).record p).retained := by
    rw [retainedAfter, List.foldl_append, List.foldl_cons, List.foldl_nil]
  rw [hsnoc]
  exact record_retained hdistinct hp

theorem retainedAfter_distinct (hps : ∀ p ∈ ps, cstr p.topic = p.topic) :
    (retainedAfter cfg ps).Distinct := by
  induction ps using List.reverseRecOn with
  | nil => exact Table.distinct_of_free fun i => by simp [retainedAfter, Slot.used]
  | append_singleton ps p ih =>
    exact (retainedAfter_snoc (ih fun q hq => hps q (by simp [hq])) (hps p (by simp))).1

/-- What the table holds of a topic after calls none of which retains it, and after a last one that does. -/
theorem retainedAfter_spec (hps : ∀ p ∈ ps, cstr p.topic = p.topic) (topic : Bytes) :
    ((∀ p ∈ ps, ¬p.Retains topic) → (retainedAfter cfg ps).entry topic = none) ∧
      ∀ before p after, ps = before ++ p :: after → p.Retains topic → (∀ q ∈ after, ¬q.Retains topic) →
        RetainedStep p (retainedAfter cfg before) (retainedAfter cfg ps) topic := by
  induction ps using List.reverseRecOn with
  | nil =>
    refine ⟨fun _ => ?_, fun before p after h => absurd h (by simp)⟩
    exact Table.entry_eq_none.mpr (Table.not_holds_of_free (fun i => by simp [retainedAfter, Slot.used]) topic)
  | append_singleton ps p ih =>
    have hold : ∀ q ∈ ps, cstr q.topic = q.topic := fun q hq => hps q (by simp [hq])
    obtain ⟨hnone, hlast⟩ := ih hold
    have hdistinct : (retainedAfter cfg ps).Distinct := retainedAfter_distinct hold
    have hstep := (retainedAfter_snoc hdistinct (hps p (by simp))).2 topic
    constructor
    · intro hall
      rw [RetainedStep, if_neg (hall p (by simp))] at hstep
      rw [hstep]
      exact hnone fun q hq => hall q (by simp [hq])
    · intro before q after hsplit hq hafter
      induction after using List.reverseRecOn with
      | nil =>
        obtain ⟨rfl, hpq⟩ := List.append_inj' hsplit rfl
        cases hpq
        exact hstep
      | append_singleton after r _ =>
        rw [← List.cons_append, ← List.append_assoc] at hsplit
        obtain ⟨rfl, hpr⟩ := List.append_inj' hsplit rfl
        cases hpr
        have hbefore := hlast before q after rfl hq fun r' hr' => hafter r' (by simp [hr'])
        rw [RetainedStep, if_neg (hafter p (by simp))] at hstep
        rw [RetainedStep] at hbefore ⊢
        rw [hstep]
        exact hbefore

/-- `publish_message` sends to every connected client with a matching subscription once, with the
smaller of the published and the best granted quality, and to no other; and the retained table holds at
most one entry for a topic, that of the last retained publication. -/
theorem publishMessage_fanOut (cfg : BrokerConfig) :
    (∀ (b : Broker cfg) (p : Publication), ∃ deliveries : List (Fin cfg.maxClients × Qos),
      b.publishMessage p = deliveries.foldl (fun c recipient =>
        (c.sendPublishTo (b.clients.get recipient.1).handle p.topic p.payload recipient.2 false).2) (b.record p) ∧
      (deliveries.map Prod.fst).Nodup ∧ ∀ i quality, (i, quality) ∈ deliveries ↔ b.Owed p i quality) ∧
    ∀ (b : Broker cfg) (ps : List Publication), Publishing b ps → (∀ p ∈ ps, validateTopicName p.topic = .ok) →
      b.retained.Distinct ∧ ∀ topic,
        ((∀ p ∈ ps, ¬p.Retains topic) → b.retained.entry topic = none) ∧
        ∀ before p after, ps = before ++ p :: after → p.Retains topic → (∀ q ∈ after, ¬q.Retains topic) →
          if p.payload = [] then b.retained.entry topic = none
          else b.retained.entry topic = some ⟨true, topic, p.payload, p.quality⟩ ∨
            (b.retained.entry topic = none ∧ ¬(retainedAfter cfg before).Holds topic ∧
              ∀ k, ((retainedAfter cfg before).get k).used = true) := by
  constructor
  · intro b p
    refine ⟨(b.record p).deliveries p, ?_, nodup_deliveries _ p, fun i quality => ?_⟩
    · have hhandle : ∀ i, ((b.record p).clients.get i).handle = (b.clients.get i).handle := fun i =>
        ((b.record_delivers p).served.client i).handle
      rw [publishMessage_eq]
      simp only [hhandle]
    · rw [mem_deliveries, record_owed]
  · intro b ps hrun hvalid
    have hps : ∀ p ∈ ps, cstr p.topic = p.topic := fun p hp => cstr_of_validTopicName (hvalid p hp)
    rw [hrun.retained]
    refine ⟨retainedAfter_distinct hps, fun topic => ?_⟩
    obtain ⟨hnone, hlast⟩ := retainedAfter_spec hps topic
    refine ⟨hnone, fun before p after hsplit hp hafter => ?_⟩
    have hstep := hlast before p after hsplit hp hafter
    rwa [RetainedStep, if_pos hp] at hstep

/-- A retained message for the topic `t`. -/
def retainedMessage : Publication := ⟨[0x74], [0x31], .atLeastOnce, true⟩

theorem publishMessage_fanOut_retained :
    (({} : Broker smallBroker).publishMessage retainedMessage).retained.Distinct ∧
      ((({} : Broker smallBroker).publishMessage retainedMessage).retained.entry [0x74] =
          some ⟨true, [0x74], [0x31], .atLeastOnce⟩ ∨
        ((({} : Broker smallBroker).publishMessage retainedMessage).retained.entry [0x74] = none ∧
          ¬(retainedAfter smallBroker []).Holds [0x74] ∧ ∀ k, ((retainedAfter smallBroker []).get k).used = true)) := by
  have hvalid : validateTopicName retainedMessage.topic = .ok := by decide
  have hnew : Publishing ({} : Broker smallBroker) [] := .start rfl
  obtain ⟨hdistinct, hentry⟩ := (publishMessage_fanOut smallBroker).2 _ [retainedMessage]
    (.publish retainedMessage hnew) (List.forall_mem_singleton.mpr hvalid)
  exact ⟨hdistinct, (hentry [0x74]).2 [] retainedMessage [] rfl ⟨rfl, rfl⟩ (List.forall_mem_nil _)⟩

end Broker
end Castle.Mqtt
