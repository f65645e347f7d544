import Castle.Lib.Generations
import Castle.Net.BasicServer.State

/-!
# The peer table under re-entrancy

What holds of the table between any two steps of a run: the count, the peers, and the handles,
whose generations tell the activations of a slot apart as long as they do not wrap around.
-/

namespace Castle.Net.BasicServer

open Generations

variable {n : ℕ} {γ : Type} {s s' : BasicServer n γ} {marks : Bool}

/-- The activations of a server, with the steps of the generations -/
def Numbered (s : BasicServer n γ) : Prop :=
  Ledger Activation.index Activation.number (fun i => (s.slots.get i).steps)
    (fun i => (s.slots.get i).used) s.activations

/-- What holds of the table, however often its slots are used. -/
structure Consistent (s : BasicServer n γ) : Prop where
  count : s.clientCount = s.usedSlots.card
  closing : ∀ i, (s.slots.get i).closing = true → s.dispatcher.running = some i
  running : ∀ i, s.dispatcher.running = some i → (s.slots.get i).used = true
  distinct : s.protocol = .udp → ∀ i j, (s.slots.get i).used = true → (s.slots.get j).used = true →
    (s.slots.get i).peer = (s.slots.get j).peer → i = j
  /-- A used slot is as its latest activation left it. -/
  latest : ∀ i, (s.slots.get i).used = true → ∃ newer a older, s.activations = newer ++ a :: older ∧
    (∀ b ∈ newer, b.index ≠ i) ∧ a.index = i ∧ a.peer = (s.slots.get i).peer ∧
    (s.protocol = .tcp → (s.slots.get i).connection = some a.serial)
  serials : ∀ newer a older, s.activations = newer ++ a :: older → a.serial = older.length
  numbered : Numbered s
  generations : ∀ i, (s.slots.get i).generation = word 0 (s.slots.get i).steps
  handles : ∀ a ∈ s.activations, a.handle = ⟨a.index, word 0 a.number⟩ ∧ 0 < a.number

theorem get_activateSlot (s : BasicServer n γ) (i j : Fin n) (peer : Endpoint) :
    (s.activateSlot i peer).1.slots.get j = if j = i then
      (s.slots.get j).activated (if s.protocol = .tcp then some s.activations.length else none) peer
        s.defaultCallback
    else s.slots.get j := Table.get_modify _ _ _ _

theorem get_free (s : BasicServer n γ) (i j : Fin n) :
    (s.free i).slots.get j = if j = i then (s.slots.get j).released else s.slots.get j :=
  Table.get_modify _ _ _ _

theorem get_storeCallback (s : BasicServer n γ) (i j : Fin n) (callable : Option γ) :
    (s.storeCallback i callable).slots.get j =
      if j = i then { s.slots.get j with callback := (s.slots.get j).callback.store callable }
      else s.slots.get j := Table.get_modify _ _ _ _

theorem get_mark (s : BasicServer n γ) (i j : Fin n) :
    (s.mark i).slots.get j =
      if j = i then { s.slots.get j with closing := true } else s.slots.get j :=
  Table.get_modify _ _ _ _

theorem usedSlots_activateSlot {i : Fin n} (hfree : (s.slots.get i).used = false) (peer : Endpoint) :
    (s.activateSlot i peer).1.usedSlots.card = s.usedSlots.card + 1 := by
  have hinsert : (s.activateSlot i peer).1.usedSlots = insert i s.usedSlots := by
    ext j
    rw [Finset.mem_insert, usedSlots, usedSlots, Finset.mem_filter, Finset.mem_filter, get_activateSlot]
    by_cases hj : j = i
    · rw [if_pos hj]
      simp [hj, PeerSlot.activated]
    · rw [if_neg hj]
      simp [hj]
  have hnot : i ∉ s.usedSlots := by
    rw [usedSlots, Finset.mem_filter, hfree]
    simp
  rw [hinsert, Finset.card_insert_of_notMem hnot]

theorem usedSlots_free {i : Fin n} (hused : (s.slots.get i).used = true) :
    (s.free i).usedSlots.card + 1 = s.usedSlots.card := by
  have herase : (s.free i).usedSlots = s.usedSlots.erase i := by
    ext j
    rw [Finset.mem_erase, usedSlots, usedSlots, Finset.mem_filter, Finset.mem_filter, get_free]
    by_cases hj : j = i
    · rw [if_pos hj]
      simp [hj, PeerSlot.released]
    · rw [if_neg hj]
      simp [hj]
  have hmem : i ∈ s.usedSlots := by
    rw [usedSlots, Finset.mem_filter]
    exact ⟨Finset.mem_univ i, hused⟩
  rw [herase, Finset.card_erase_add_one hmem]

theorem usedSlots_congr (h : ∀ j, (s'.slots.get j).used = (s.slots.get j).used) :
    s'.usedSlots = s.usedSlots := by
  rw [usedSlots, usedSlots]
  congr 1
  funext j
  rw [h j]

theorem findPeer_none {peer : Endpoint} (h : s.findPeer peer = none) (i : Fin n)
    (hused : (s.slots.get i).used = true) : (s.slots.get i).peer ≠ peer := by
  have hi := Table.firstIdx_none h i
  rw [hused, Bool.true_and, decide_eq_false_iff_not] at hi
  exact hi

/-- A table that agrees with another one but for the callback that runs and the flags of it -/
theorem Consistent.congr (hs : Consistent s) (hprotocol : s'.protocol = s.protocol)
    (hcount : s'.clientCount = s.clientCount) (hactivations : s'.activations = s.activations)
    (hclosing : ∀ j, (s'.slots.get j).closing = true → s'.dispatcher.running = some j)
    (hrunning : ∀ j, s'.dispatcher.running = some j → (s'.slots.get j).used = true)
    (hslots : ∀ j, (s'.slots.get j).used = (s.slots.get j).used ∧
      (s'.slots.get j).peer = (s.slots.get j).peer ∧
      (s'.slots.get j).generation = (s.slots.get j).generation ∧
      (s'.slots.get j).steps = (s.slots.get j).steps ∧
      (s'.slots.get j).connection = (s.slots.get j).connection) : Consistent s' where
  count := by rw [hcount, hs.count, usedSlots_congr fun j => (hslots j).1]
  closing := hclosing
  running := hrunning
  distinct := by
    intro hudp i j hi hj hpeer
    rw [(hslots i).1] at hi
    rw [(hslots j).1] at hj
    rw [(hslots i).2.1, (hslots j).2.1] at hpeer
    exact hs.distinct (hprotocol ▸ hudp) i j hi hj hpeer
  latest := by
    intro i hi
    obtain ⟨hused, hpeer, _, _, hconnection⟩ := hslots i
    rw [hactivations, hpeer, hconnection, hprotocol]
    exact hs.latest i (hused ▸ hi)
  serials := hactivations ▸ hs.serials
  numbered := by
    rw [Numbered, hactivations]
    exact hs.numbered.release fun i => Or.inl ⟨(hslots i).2.2.2.1, (hslots i).1⟩
  generations i := by
    rw [(hslots i).2.2.1, (hslots i).2.2.2.1]
    exact hs.generations i
  handles := hactivations ▸ hs.handles

theorem Consistent.activate (hs : Consistent s) {i : Fin n} {peer : Endpoint}
    (hfree : (s.slots.get i).used = false) (hnew : s.protocol = .udp → s.findPeer peer = none) :
    Consistent (s.activateSlot i peer).1 where
  count := by
    rw [usedSlots_activateSlot hfree, ← hs.count]
    rfl
  closing j hj := by
    rw [get_activateSlot] at hj
    by_cases hji : j = i
    · rw [if_pos hji] at hj
      exact hs.closing j hj
    · rw [if_neg hji] at hj
      exact hs.closing j hj
  running j hj := by
    rw [get_activateSlot]
    by_cases hji : j = i
    · rw [if_pos hji]
      rfl
    · rw [if_neg hji]
      exact hs.running j hj
  distinct := by
    intro hudp j k hj hk hpeer
    have hother : ∀ l, (s.slots.get l).used = true → (s.slots.get l).peer ≠ peer :=
      fun l => findPeer_none (hnew hudp) l
    rw [get_activateSlot] at hj hk
    rw [get_activateSlot, get_activateSlot] at hpeer
    by_cases hji : j = i
    · by_cases hki : k = i
      · rw [hji, hki]
      · rw [if_neg hki] at hk
        rw [if_pos hji, if_neg hki] at hpeer
        exact absurd hpeer.symm (hother k hk)
    · by_cases hki : k = i
      · rw [if_neg hji] at hj
        rw [if_neg hji, if_pos hki] at hpeer
        exact absurd hpeer (hother j hj)
      · rw [if_neg hji] at hj
        rw [if_neg hki] at hk
        rw [if_neg hji, if_neg hki] at hpeer
        exact hs.distinct hudp j k hj hk hpeer
  latest := by
    intro j hj
    rw [get_activateSlot] at hj ⊢
    by_cases hji : j = i
    · subst hji
      rw [if_pos rfl]
      exact ⟨[], _, s.activations, rfl, fun b hb => absurd hb (List.not_mem_nil), rfl, rfl,
        fun htcp => if_pos htcp⟩
    · rw [if_neg hji] at hj ⊢
      obtain ⟨newer, a, older, hactivations, hnewer, hrest⟩ := hs.latest j hj
      refine ⟨_ :: newer, a, older, congrArg (List.cons _) hactivations, ?_, hrest⟩
      intro b hb
      rcases List.mem_cons.mp hb with rfl | hb
      · exact fun heq => hji heq.symm
      · exact hnewer b hb
  serials := by
    intro newer a older hactivations
    cases newer with
    | nil =>
      obtain ⟨rfl, rfl⟩ := List.cons.inj hactivations
      rfl
    | cons b newer => exact hs.serials newer a older (List.cons.inj hactivations).2
  numbered := by
    refine hs.numbered.issue hfree (Nat.le_succ _) ?_ ?_ fun j hji => ?_
    · rw [get_activateSlot, if_pos rfl]
      rfl
    · rw [get_activateSlot, if_pos rfl]
      rfl
    · rw [get_activateSlot, if_neg hji]
      exact ⟨rfl, rfl⟩
  generations j := by
    rw [get_activateSlot]
    by_cases hji : j = i
    · rw [if_pos hji]
      exact (congrArg nextGeneration (hs.generations j)).trans (word_succ 0 _).symm
    · rw [if_neg hji]
      exact hs.generations j
  handles a ha := by
    rcases List.mem_cons.mp ha with rfl | ha
    · refine ⟨?_, Nat.succ_pos _⟩
      rw [word_succ, ← hs.generations i]
      rfl
    · exact hs.handles a ha

theorem Consistent.free (hs : Consistent s) {i : Fin n} (hused : (s.slots.get i).used = true)
    (hrunning : s.dispatcher.running ≠ some i) : Consistent (s.free i) where
  count := by
    have hcard := usedSlots_free hused
    have hcount := hs.count
    change (if s.clientCount > 0 then s.clientCount - 1 else s.clientCount) = _
    split_ifs <;> omega
  closing j hj := by
    rw [get_free] at hj
    split_ifs at hj
    · exact absurd hj (by simp [PeerSlot.released])
    · exact hs.closing j hj
  running j hj := by
    have hji : j ≠ i := fun hji => hrunning (hji ▸ hj)
    rw [get_free, if_neg hji]
    exact hs.running j hj
  distinct := by
    intro hudp j k hj hk hpeer
    rw [get_free] at hj hk hpeer
    rw [get_free] at hpeer
    split_ifs at hj hk hpeer
    · exact absurd hj (by simp [PeerSlot.released])
    · exact absurd hj (by simp [PeerSlot.released])
    · exact absurd hk (by simp [PeerSlot.released])
    · exact hs.distinct hudp j k hj hk hpeer
  latest := by
    intro j hj
    rw [get_free] at hj ⊢
    split_ifs at hj ⊢
    · exact absurd hj (by simp [PeerSlot.released])
    · exact hs.latest j hj
  serials := hs.serials
  numbered := by
    refine hs.numbered.release fun j => ?_
    rw [get_free]
    by_cases hji : j = i
    · rw [if_pos hji]
      exact Or.inr ⟨Nat.lt_succ_self _, rfl⟩
    · rw [if_neg hji]
      exact Or.inl ⟨rfl, rfl⟩
  generations j := by
    rw [get_free]
    by_cases hji : j = i
    · rw [if_pos hji]
      exact (congrArg nextGeneration (hs.generations j)).trans (word_succ 0 _).symm
    · rw [if_neg hji]
      exact hs.generations j
  handles := hs.handles

theorem Consistent.change (hs : Consistent s) (h : Change marks s s') : Consistent s' := by
  cases h with
  | settings _ hprotocol hslots hrunning hcount hactivations =>
    refine hs.congr hprotocol hcount hactivations ?_ ?_ fun j => ?_
    · rw [hslots, hrunning]
      exact hs.closing
    · rw [hslots, hrunning]
      exact hs.running
    · rw [hslots]
      exact ⟨rfl, rfl, rfl, rfl, rfl⟩
  | activate i peer hfree hnew => exact hs.activate hfree hnew
  | free i hused hrunning => exact hs.free hused hrunning
  | store i callable hrunning =>
    refine hs.congr rfl rfl rfl (fun j hj => hs.closing j ?_) (fun j hj => ?_) fun j => ?_
    · rw [get_storeCallback] at hj
      split_ifs at hj <;> exact hj
    · rw [get_storeCallback]
      split_ifs <;> exact hs.running j hj
    · rw [get_storeCallback]
      split_ifs <;> exact ⟨rfl, rfl, rfl, rfl, rfl⟩
  | mark i hmarks hrunning =>
    refine hs.congr rfl rfl rfl (fun j hj => ?_) (fun j hj => ?_) fun j => ?_
    · rw [get_mark] at hj
      split_ifs at hj with hji
      · exact hji ▸ hrunning
      · exact hs.closing j hj
    · rw [get_mark]
      split_ifs <;> exact hs.running j hj
    · rw [get_mark]
      split_ifs <;> exact ⟨rfl, rfl, rfl, rfl, rfl⟩

theorem Consistent.changes (hs : Consistent s) (h : Changes marks s s') : Consistent s' := by
  induction h with
  | refl => exact hs
  | tail _ hchange ih => exact ih.change hchange

/-- The generation of no slot went on often enough to come back to one that was in use. -/
def FewSteps (s : BasicServer n γ) : Prop := ∀ i, (s.slots.get i).steps < 2 ^ 32 - 1

theorem isValid_iff {i : ℕ} {generation : UInt32} (hi : i < 2 ^ 64 - 1) :
    (⟨i, generation⟩ : ClientHandle).isValid = true ↔ generation ≠ 0 := by
  rw [ClientHandle.isValid, Bool.and_eq_true, decide_eq_true_eq, decide_eq_true_eq]
  exact and_iff_right hi.ne

/-- A handle is found exactly when it is the one of the latest activation of its slot, which is
used and not closing. -/
theorem findSlot_iff_latest (hs : Consistent s) (hn : n < 2 ^ 64) (hfew : FewSteps s)
    {newer older : List (Activation n)} {a : Activation n} (ha : s.activations = newer ++ a :: older) :
    (s.findSlot a.handle).isSome = true ↔ (∀ b ∈ newer, b.index ≠ a.index) ∧
      (s.slots.get a.index).used = true ∧ (s.slots.get a.index).closing = false := by
  have hmem : a ∈ s.activations := ha ▸ List.mem_append_right _ List.mem_cons_self
  obtain ⟨hhandle, hpos⟩ := hs.handles a hmem
  have hle := hs.numbered.le a hmem
  have hsteps := hfew a.index
  have hzero : (0 : UInt32).toNat = 0 := rfl
  have hvalid : (⟨a.index, word 0 a.number⟩ : ClientHandle).isValid = true := by
    have hi := a.index.isLt
    refine (isValid_iff (by omega)).mpr fun hword => ?_
    have hnat := word_toNat (show (0 : UInt32).toNat + a.number < 2 ^ 32 by omega)
    rw [hword] at hnat
    omega
  have hgeneration : (s.slots.get a.index).generation = word 0 a.number ↔
      a.number = (s.slots.get a.index).steps := by
    rw [hs.generations, word_inj (by omega) (by omega)]
    exact eq_comm
  have hfound : (s.findSlot a.handle).isSome = true ↔ (s.slots.get a.index).used = true ∧
      (s.slots.get a.index).closing = false ∧ a.number = (s.slots.get a.index).steps := by
    rw [Option.isSome_iff_exists, hhandle, ← hgeneration]
    constructor
    · rintro ⟨i, hi⟩
      obtain ⟨_, hindex, hrest⟩ := findSlot_some.mp hi
      obtain rfl : a.index = i := Fin.ext hindex
      exact hrest
    · intro hrest
      exact ⟨a.index, findSlot_some.mpr ⟨hvalid, rfl, hrest⟩⟩
  rw [hfound]
  constructor
  · rintro ⟨hused, hclosing, hnumber⟩
    exact ⟨(hs.numbered.number_eq_iff ha hused).mp hnumber, hused, hclosing⟩
  · rintro ⟨hnewer, hused, hclosing⟩
    exact ⟨hused, hclosing, (hs.numbered.number_eq_iff ha hused).mpr hnewer⟩

theorem findSlot_issued (hs : Consistent s) {handle : ClientHandle}
    (h : (s.findSlot handle).isSome = true) : ∃ a ∈ s.activations, a.handle = handle := by
  obtain ⟨i, hi⟩ := Option.isSome_iff_exists.mp h
  obtain ⟨_, hindex, hused, _, hgeneration⟩ := findSlot_some.mp hi
  obtain ⟨a, ha, hslot, hnumber⟩ := hs.numbered.current i hused
  refine ⟨a, ha, ?_⟩
  rw [(hs.handles a ha).1, hslot, hnumber, ← hs.generations i, hgeneration, ← hindex]

end Castle.Net.BasicServer
