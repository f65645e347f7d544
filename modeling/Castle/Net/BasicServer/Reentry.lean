import Castle.Lib.Steps
import Castle.Net.BasicServer.Calls

/-!
# The server re-entered from its callbacks

At most one callback runs.
-/

namespace Castle.Net.BasicServer

open Reentrant

variable {n : ℕ} {γ : Type} {s s' : BasicServer n γ} {marks : Bool}

variable {i : Fin n}

theorem Change.closing_mono (hc : Consistent s) (h : Change marks s s')
    (hi : s.dispatcher.running = some i) (hclosing : (s.slots.get i).closing = true) :
    (s'.slots.get i).closing = true := by
  cases h with
  | mark j =>
    rw [get_mark]
    split_ifs
    · rfl
    · exact hclosing
  | settings s' hprotocol hslots hrunning hcount hactivations =>
    exact ((Change.settings s' hprotocol hslots hrunning hcount hactivations).closing_eq hc hi).trans hclosing
  | activate j peer hfree hnew => exact ((Change.activate j peer hfree hnew).closing_eq hc hi).trans hclosing
  | free j hused hrunning => exact ((Change.free j hused hrunning).closing_eq hc hi).trans hclosing
  | store j callable hrunning => exact ((Change.store j callable hrunning).closing_eq hc hi).trans hclosing

theorem Changes.closing_mono (hc : Consistent s) (h : Changes marks s s')
    (hi : s.dispatcher.running = some i) (hclosing : (s.slots.get i).closing = true) :
    (s'.slots.get i).closing = true := by
  induction h with
  | refl => exact hclosing
  | tail hbefore hchange ih =>
    exact hchange.closing_mono (hc.changes hbefore) ((Changes.running hbefore).trans hi) ih

theorem releaseSlot_closing (hi : s.dispatcher.running = some i) (closed : Status) :
    ((s.releaseSlot i closed).1.slots.get i).closing = true := by
  rw [releaseSlot_eq, if_pos (isRunning_eq_true.mpr hi), get_mark, if_pos rfl]

theorem close_closing (hc : Consistent s) (hi : s.dispatcher.running = some i)
    (listenerClosed : Status) (socketClosed : Fin n → Status) :
    ((s.close listenerClosed socketClosed).1.slots.get i).closing = true := by
  obtain ⟨before, later, hsplit⟩ := List.append_of_mem (List.mem_finRange i)
  rw [close, hsplit, List.foldl_append, List.foldl_cons]
  have hopen : Change true s { s with isOpen := false } := .settings _ rfl rfl rfl rfl rfl
  have hbefore := (Relation.ReflTransGen.single hopen).trans
    (changes_closeSlots socketClosed before ({ s with isOpen := false }, listenerClosed))
  generalize before.foldl (closeSlot socketClosed) ({ s with isOpen := false }, listenerClosed) = p
    at hbefore ⊢
  have hrunning : p.1.dispatcher.running = some i := (Changes.running hbefore).trans hi
  have hcp := hc.changes hbefore
  have hslot : ((closeSlot socketClosed p i).1.slots.get i).closing = true := by
    rw [closeSlot, if_pos (hcp.running i hrunning)]
    exact releaseSlot_closing hrunning _
  have hclose := changes_closeSlot socketClosed p i
  exact Changes.closing_mono (hcp.changes hclose) (changes_closeSlots socketClosed later _)
    ((Changes.running hclose).trans hrunning) hslot

theorem perform_closing (hc : Consistent s) (call : ServerCall n γ)
    (hi : s.dispatcher.running = some i) :
    ((s.perform call).1.slots.get i).closing = ((s.slots.get i).closing || s.closes i call) := by
  have hquiet : closing call = false → s.closes i call = false →
      ((s.perform call).1.slots.get i).closing = ((s.slots.get i).closing || s.closes i call) := by
    intro hclosing hcloses
    rw [hcloses, Bool.or_false]
    have hperformed := performed hc call
    generalize s.perform call = p at hperformed ⊢
    cases hperformed with
    | quiet h _ =>
      rw [hclosing] at h
      exact Changes.closing_eq hc h hi
    | started _ hidle => exact absurd (hidle.symm.trans hi) (by simp)
  cases call with
  | close listenerClosed socketClosed =>
    exact (close_closing hc hi listenerClosed socketClosed).trans (Bool.or_true _).symm
  | closeClient handle closed =>
    change ((s.closeClient handle closed).1.slots.get i).closing =
      ((s.slots.get i).closing || (s.findSlot handle == some i))
    rw [closeClient]
    cases hfound : s.findSlot handle with
    | none => exact (Bool.or_false _).symm
    | some j =>
      by_cases hji : j = i
      · subst hji
        rw [beq_self_eq_true, Bool.or_true]
        exact releaseSlot_closing hi closed
      · have hnot : s.isRunning j = false := by
          rw [isRunning, hi, beq_eq_false_iff_ne]
          exact fun heq => hji (Option.some.inj heq).symm
        have hbeq : (some j == some i) = false := beq_eq_false_iff_ne.mpr fun heq =>
          hji (Option.some.inj heq)
        simp only
        rw [releaseSlot_eq, hnot, if_neg Bool.false_ne_true, get_free, if_neg fun heq => hji heq.symm,
          hbeq, Bool.or_false]
  | _ => exact hquiet rfl rfl

/-- The slot was released, once. -/
structure Freed (s s' : BasicServer n γ) (i : Fin n) : Prop where
  used : (s'.slots.get i).used = false
  steps : (s'.slots.get i).steps = (s.slots.get i).steps + 1
  count : s'.clientCount + 1 = s.clientCount

/-- The slot keeps its peer; its callback may be replaced. -/
structure Kept (s s' : BasicServer n γ) (i : Fin n) : Prop where
  slot : s'.slots.get i = { s.slots.get i with callback := (s'.slots.get i).callback }
  count : s'.clientCount = s.clientCount

/-- The callback of the slot has returned; its storage and the flag of the slot may have changed. -/
structure Ended (s s' : BasicServer n γ) (i : Fin n) : Prop where
  protocol : s'.protocol = s.protocol
  count : s'.clientCount = s.clientCount
  activations : s'.activations = s.activations
  running : s'.dispatcher.running = none
  slot : s'.slots.get i = { s.slots.get i with
    callback := (s'.slots.get i).callback, closing := (s'.slots.get i).closing }
  others : ∀ j, j ≠ i → s'.slots.get j = s.slots.get j

theorem ended_afterCallback (s : BasicServer n γ) (i : Fin n) :
    Ended s (s.afterCallback i) i ∧ ((s.afterCallback i).slots.get i).closing = (s.slots.get i).closing := by
  rw [afterCallback]
  cases s.dispatcher.action with
  | none => exact ⟨⟨rfl, rfl, rfl, rfl, rfl, fun _ _ => rfl⟩, rfl⟩
  | replace =>
    simp only [modifySlot, Table.get_modify_self]
    refine ⟨⟨rfl, rfl, rfl, rfl, ?_, fun j hj => Table.get_modify_ne _ _ hj⟩, trivial⟩
    simp only [Table.get_modify_self]
  | clear =>
    simp only [modifySlot, Table.get_modify_self]
    refine ⟨⟨rfl, rfl, rfl, rfl, ?_, fun j hj => Table.get_modify_ne _ _ hj⟩, trivial⟩
    simp only [Table.get_modify_self]

theorem Ended.agree (h : Ended s s' i) (j : Fin n) :
    (s'.slots.get j).used = (s.slots.get j).used ∧ (s'.slots.get j).peer = (s.slots.get j).peer ∧
    (s'.slots.get j).generation = (s.slots.get j).generation ∧ (s'.slots.get j).steps =
    (s.slots.get j).steps ∧ (s'.slots.get j).connection = (s.slots.get j).connection := by
  by_cases hj : j = i
  · rw [hj, h.slot]
    exact ⟨rfl, rfl, rfl, rfl, rfl⟩
  · rw [h.others j hj]
    exact ⟨rfl, rfl, rfl, rfl, rfl⟩

theorem Ended.consistent (h : Ended s s' i) (hc : Consistent s) (hi : s.dispatcher.running = some i)
    (hflag : (s'.slots.get i).closing = false) : Consistent s' := by
  refine hc.congr h.protocol h.count h.activations (fun j hj => ?_) (fun j hj => ?_) fun j => ?_
  · by_cases hji : j = i
    · exact absurd (hflag.symm.trans (hji ▸ hj)) (by decide)
    · rw [h.others j hji] at hj
      exact absurd (Option.some.inj (hi.symm.trans (hc.closing j hj))).symm hji
  · exact absurd (h.running.symm.trans hj) (by simp)
  · exact h.agree j

/-- The flag of the slot is taken back. -/
def unmark (s : BasicServer n γ) (i : Fin n) : BasicServer n γ :=
  s.modifySlot i fun slot => { slot with closing := false }

theorem free_unmark (s : BasicServer n γ) (i : Fin n) : (s.unmark i).free i = s.free i := by
  have hslots : ((s.unmark i).free i).slots = (s.free i).slots := by
    apply Table.ext_get
    intro j
    rw [get_free, get_free, unmark, modifySlot, Table.get_modify]
    split_ifs <;> rfl
  rw [free, free]
  exact congrArg (fun slots => ({ s with
    slots := slots
    clientCount := if s.clientCount > 0 then s.clientCount - 1 else s.clientCount } :
      BasicServer n γ)) hslots

theorem Ended.unmark (h : Ended s s' i) : Ended s (s'.unmark i) i where
  protocol := h.protocol
  count := h.count
  activations := h.activations
  running := h.running
  slot := by
    rw [BasicServer.unmark, modifySlot, Table.get_modify_self, h.slot]
  others j hj := by
    rw [BasicServer.unmark, modifySlot, Table.get_modify_ne _ _ hj]
    exact h.others j hj

theorem callbackReturns_spec (hc : Consistent s) (hi : s.dispatcher.running = some i) :
    ∃ u, Ended s u i ∧ Consistent u ∧
      ((s.slots.get i).closing = false ∧ s.callbackReturns i = u ∧ (u.slots.get i).closing = false ∨
        (s.slots.get i).closing = true ∧ s.callbackReturns i = u.free i ∧ (u.slots.get i).used = true) := by
  obtain ⟨hended, hflag⟩ := ended_afterCallback s i
  rw [callbackReturns]
  simp only [hflag]
  cases hclosing : (s.slots.get i).closing with
  | false =>
    rw [hclosing] at hflag
    exact ⟨_, hended, hended.consistent hc hi hflag, Or.inl ⟨rfl, if_neg Bool.false_ne_true, hflag⟩⟩
  | true =>
    have hnot : (s.afterCallback i).isRunning i = false := by
      rw [isRunning, hended.running]
      rfl
    have hunmark : (((s.afterCallback i).unmark i).slots.get i).closing = false := by
      rw [BasicServer.unmark, modifySlot, Table.get_modify_self]
    refine ⟨_, hended.unmark, hended.unmark.consistent hc hi hunmark, Or.inr ⟨rfl, ?_, ?_⟩⟩
    · rw [if_pos rfl, releaseSlot_eq, hnot, if_neg Bool.false_ne_true, free_unmark]
    · exact (hended.unmark.agree i).1.trans (hc.running i hi)

/-- The invariant of the runs: the callback that runs, if any, got the handle, the peer and the
storage that its slot has now. -/
structure Sound (m : Machine (BasicServer n γ) (Running n γ)) : Prop where
  consistent : Consistent m.state
  stack : m.stack = [] ∧ m.state.dispatcher.running = none ∨ ∃ i bytes,
    m.stack = [m.state.runningOn i bytes] ∧ m.state.dispatcher.running = some i ∧
      (m.state.slots.get i).callback.callable.isSome = true

theorem sound_init (protocol : SocketProtocol) :
    Sound (⟨{ protocol := protocol }, []⟩ : Machine (BasicServer n γ) (Running n γ)) where
  consistent := {
    count := by
      rw [usedSlots, Finset.filter_false_of_mem, Finset.card_empty]
      intro i _
      rw [Table.get_replicate]
      exact Bool.false_ne_true
    closing := fun i hi => absurd hi (by rw [Table.get_replicate]; exact Bool.false_ne_true)
    running := fun i hi => absurd hi (by simp)
    distinct := fun _ i _ hi => absurd hi (by rw [Table.get_replicate]; exact Bool.false_ne_true)
    latest := fun i hi => absurd hi (by rw [Table.get_replicate]; exact Bool.false_ne_true)
    serials := fun newer a older h => absurd h.symm (by simp)
    numbered := .nil _ _ _ fun i => by rw [Table.get_replicate]
    generations := fun i => by rw [Table.get_replicate]; rfl
    handles := fun a ha => absurd ha List.not_mem_nil }
  stack := Or.inl ⟨rfl, rfl⟩

theorem consistent_begin (hc : Consistent s) (hidle : s.dispatcher.running = none)
    (hused : (s.slots.get i).used = true) : Consistent (s.begin i) := by
  refine hc.congr rfl rfl rfl (fun j hj => ?_) (fun j hj => ?_) fun j => ⟨rfl, rfl, rfl, rfl, rfl⟩
  · exact absurd (hidle.symm.trans (hc.closing j hj)) (by simp)
  · rw [← Option.some.inj hj]
    exact hused

variable {m : Machine (BasicServer n γ) (Running n γ)}

theorem Sound.call (hm : Sound m) (a : ServerCall n γ) :
    Sound ⟨(m.state.perform a).1, (m.state.perform a).2 ++ m.stack⟩ := by
  have hperformed := performed hm.consistent a
  generalize m.state.perform a = p at hperformed ⊢
  cases hperformed with
  | quiet h _ =>
    refine ⟨hm.consistent.changes h, ?_⟩
    rcases hm.stack with ⟨hstack, hidle⟩ | ⟨i, bytes, hstack, hi, hsome⟩
    · exact Or.inl ⟨hstack, (Changes.running h).trans hidle⟩
    · refine Or.inr ⟨i, bytes, ?_, (Changes.running h).trans hi, ?_⟩
      · rw [List.nil_append, hstack, runningOn, runningOn, Changes.slot hm.consistent h hi]
      · rw [Changes.slot hm.consistent h hi]
        exact hsome
  | started h hidle hused hsome =>
    have hidle₁ := (Changes.running h).trans hidle
    refine ⟨consistent_begin (hm.consistent.changes h) hidle₁ hused, Or.inr ?_⟩
    rcases hm.stack with ⟨hstack, _⟩ | ⟨i, bytes, _, hi, _⟩
    · rw [hstack, List.append_nil]
      exact ⟨_, _, rfl, rfl, hsome⟩
    · exact absurd (hidle.symm.trans hi) (by simp)

variable {f : Running n γ}

theorem Sound.ret (hm : Sound m) {rest : List (Running n γ)} (hstack : m.stack = f :: rest) :
    Sound ⟨m.state.callbackReturns f.index, [] ++ rest⟩ := by
  rcases hm.stack with ⟨hempty, _⟩ | ⟨i, bytes, hsingle, hi, _⟩
  · exact absurd (hempty.symm.trans hstack) (by simp)
  · obtain ⟨rfl, rfl⟩ := List.cons.inj (hsingle.symm.trans hstack)
    obtain ⟨u, hended, hu, hcases⟩ := callbackReturns_spec hm.consistent hi
    rcases hcases with ⟨_, heq, _⟩ | ⟨_, heq, hused⟩
    · rw [show (m.state.runningOn i bytes).index = i from rfl, heq]
      exact ⟨hu, Or.inl ⟨rfl, hended.running⟩⟩
    · have hfree : Change false u (u.free i) := .free i hused (by rw [hended.running]; simp)
      rw [show (m.state.runningOn i bytes).index = i from rfl, heq]
      exact ⟨hu.change hfree, Or.inl ⟨rfl, hended.running⟩⟩

theorem Sound.step (hm : Sound m) (l : Label (ServerCall n γ) Empty) :
    Sound ((machine n γ).step m l) := by
  have h := stepped (machine n γ) m l
  generalize (machine n γ).step m l = m' at h ⊢
  cases h with
  | idle => exact hm
  | call a _ => exact hm.call a
  | resume i => exact i.elim
  | ret hstack _ => exact hm.ret hstack

theorem sound_after (protocol : SocketProtocol) (labels : List (Label (ServerCall n γ) Empty)) :
    Sound (after protocol labels) :=
  run_keeps (fun _ l hm => hm.step l) (sound_init protocol) labels

/-- What holds of the table between two steps. -/
structure TableHolds (m : Machine (BasicServer n γ) (Running n γ)) : Prop where
  count : m.state.clientCount = m.state.usedSlots.card
  accepted : ∀ newer a older, m.state.activations = newer ++ a :: older →
    ((m.state.findSlot a.handle).isSome = true ↔ (∀ b ∈ newer, b.index ≠ a.index) ∧
      (m.state.slots.get a.index).used = true ∧ (m.state.slots.get a.index).closing = false)
  issued : ∀ handle, (m.state.findSlot handle).isSome = true → ∃ a ∈ m.state.activations, a.handle = handle
  distinct : m.state.protocol = .udp → ∀ i j, (m.state.slots.get i).used = true →
    (m.state.slots.get j).used = true → (m.state.slots.get i).peer = (m.state.slots.get j).peer → i = j
  latest : ∀ i, (m.state.slots.get i).used = true → ∃ newer a older,
    m.state.activations = newer ++ a :: older ∧ a.serial = older.length ∧
    (∀ b ∈ newer, b.index ≠ i) ∧ a.handle = ⟨i, (m.state.slots.get i).generation⟩ ∧
    a.peer = (m.state.slots.get i).peer ∧
    (m.state.protocol = .tcp → (m.state.slots.get i).connection = some a.serial)
  /-- The callable that runs is in its storage, which was not assigned since the call. -/
  intact : ∀ f ∈ m.stack, m.stack = [f] ∧ (m.state.slots.get f.index).used = true ∧
    (m.state.slots.get f.index).callback = f.cell ∧ f.cell.callable.isSome = true

structure StepHolds (m : Machine (BasicServer n γ) (Running n γ)) (l : Label (ServerCall n γ) Empty) :
    Prop where
  /-- A call from a callback leaves the slot of the callback alone, but for its flag. -/
  kept : ∀ f ∈ m.stack, ∀ call, l = .call call → f ∈ ((machine n γ).step m l).stack ∧
    ((machine n γ).step m l).state.slots.get f.index = { m.state.slots.get f.index with
      closing := (m.state.slots.get f.index).closing || m.state.closes f.index call }
  /-- A peer that was closed from its own callback is freed at the return, any other is kept. -/
  returned : ∀ f ∈ m.stack, l = .ret → ((machine n γ).step m l).stack = [] ∧
    if (m.state.slots.get f.index).closing then Freed m.state ((machine n γ).step m l).state f.index
    else Kept m.state ((machine n γ).step m l).state f.index
  /-- A chunk is passed to the callback of its peer, if there is one. -/
  passed : m.stack = [] → ∀ call, l = .call call → ∀ i bytes,
    ChunkOf m.state ((machine n γ).step m l).state i bytes call →
      ((machine n γ).step m l).stack =
        if (((machine n γ).step m l).state.slots.get i).callback.callable.isSome then
          [((machine n γ).step m l).state.runningOn i bytes] else []
  /-- A callback starts for a chunk only. -/
  started : ∀ f ∈ ((machine n γ).step m l).stack, f ∈ m.stack ∨ ∃ call, l = .call call ∧
    ChunkOf m.state ((machine n γ).step m l).state f.index f.bytes call

theorem Sound.tableHolds (hm : Sound m) (hn : n < 2 ^ 64) (hfew : FewSteps m.state) :
    TableHolds m where
  count := hm.consistent.count
  accepted newer a older ha := findSlot_iff_latest hm.consistent hn hfew ha
  issued handle h := findSlot_issued hm.consistent h
  distinct := hm.consistent.distinct
  latest i hi := by
    have hs := hm.consistent
    obtain ⟨newer, a, older, ha, hnewer, rfl, hpeer, hconnection⟩ := hs.latest i hi
    have hmem : a ∈ m.state.activations := ha ▸ List.mem_append_right _ List.mem_cons_self
    refine ⟨newer, a, older, ha, hs.serials newer a older ha, hnewer, ?_, hpeer, hconnection⟩
    rw [(hs.handles a hmem).1, (hs.numbered.number_eq_iff ha hi).mpr hnewer, hs.generations]
  intact f hf := by
    rcases hm.stack with ⟨hempty, _⟩ | ⟨i, bytes, hsingle, hi, hsome⟩
    · exact absurd (hempty ▸ hf) List.not_mem_nil
    · obtain rfl := List.mem_singleton.mp (hsingle ▸ hf)
      exact ⟨hsingle, hm.consistent.running i hi, rfl, hsome⟩

theorem chunkOf_congr {u : BasicServer n γ} (hslots : s'.slots = u.slots) {bytes : List UInt8}
    {call : ServerCall n γ} (h : ChunkOf s s' i bytes call) : ChunkOf s u i bytes call := by
  cases h with
  | stream handle hprotocol hfound => exact .stream handle hprotocol hfound
  | datagram source hprotocol hopen hused hpeer =>
    rw [hslots] at hused hpeer
    exact .datagram source hprotocol hopen hused hpeer

theorem step_call (a : ServerCall n γ) :
    (machine n γ).step m (.call a) = ⟨(m.state.perform a).1, (m.state.perform a).2 ++ m.stack⟩ := by
  have hcontrol : (machine n γ).inControl m = true := by
    rw [Reentrant.inControl]
    cases m.stack.head? <;> rfl
  rw [Reentrant.step, if_pos hcontrol]
  rfl

theorem step_ret (hstack : m.stack = [f]) :
    (machine n γ).step m .ret = ⟨m.state.callbackReturns f.index, []⟩ := by
  rw [Reentrant.step, hstack]
  rfl

theorem Sound.returned (hm : Sound m) (hf : f ∈ m.stack) : ((machine n γ).step m .ret).stack = [] ∧
      if (m.state.slots.get f.index).closing then Freed m.state ((machine n γ).step m .ret).state f.index
      else Kept m.state ((machine n γ).step m .ret).state f.index := by
  rcases hm.stack with ⟨hempty, _⟩ | ⟨i, bytes, hsingle, hi, _⟩
  · exact absurd (hempty ▸ hf) List.not_mem_nil
  obtain rfl := List.mem_singleton.mp (hsingle ▸ hf)
  rw [step_ret hsingle]
  refine ⟨rfl, ?_⟩
  obtain ⟨u, hended, hu, hcases⟩ := callbackReturns_spec hm.consistent hi
  change if (m.state.slots.get i).closing = true then Freed m.state (m.state.callbackReturns i) i
    else Kept m.state (m.state.callbackReturns i) i
  rcases hcases with ⟨hclosing, heq, hflag⟩ | ⟨hclosing, heq, hused⟩
  · rw [hclosing, if_neg Bool.false_ne_true, heq]
    refine ⟨?_, hended.count⟩
    rw [hended.slot, hflag, ← hclosing]
  · have hcard := usedSlots_free hused
    have hpos : u.clientCount > 0 := by
      rw [hu.count]
      omega
    rw [hclosing, if_pos rfl, heq]
    refine ⟨?_, ?_, ?_⟩
    · rw [get_free, if_pos rfl]
      rfl
    · rw [get_free, if_pos rfl]
      exact congrArg (· + 1) (hended.agree i).2.2.2.1
    · change (if u.clientCount > 0 then u.clientCount - 1 else u.clientCount) + 1 = _
      rw [if_pos hpos, ← hended.count]
      omega

theorem Sound.kept (hm : Sound m) (hf : f ∈ m.stack) (call : ServerCall n γ) :
    f ∈ ((machine n γ).step m (.call call)).stack ∧
      ((machine n γ).step m (.call call)).state.slots.get f.index = { m.state.slots.get f.index with
        closing := (m.state.slots.get f.index).closing || m.state.closes f.index call } := by
  rcases hm.stack with ⟨hempty, _⟩ | ⟨i, bytes, hsingle, hi, _⟩
  · exact absurd (hempty ▸ hf) List.not_mem_nil
  obtain rfl := List.mem_singleton.mp (hsingle ▸ hf)
  rw [step_call]
  refine ⟨List.mem_append_right _ hf, ?_⟩
  have hclosing := perform_closing hm.consistent call hi
  have hperformed := performed hm.consistent call
  change (m.state.perform call).1.slots.get i = { m.state.slots.get i with
    closing := (m.state.slots.get i).closing || m.state.closes i call }
  rw [← hclosing]
  generalize m.state.perform call = p at hperformed ⊢
  cases hperformed with
  | quiet h _ => exact Changes.slot hm.consistent h hi
  | started _ hidle => exact absurd (hidle.symm.trans hi) (by simp)

theorem Sound.passed (hm : Sound m) (hempty : m.stack = []) (call : ServerCall n γ) (i : Fin n)
    (bytes : List UInt8)
    (hchunk : ChunkOf m.state ((machine n γ).step m (.call call)).state i bytes call) :
    ((machine n γ).step m (.call call)).stack =
      if (((machine n γ).step m (.call call)).state.slots.get i).callback.callable.isSome then
        [((machine n γ).step m (.call call)).state.runningOn i bytes] else [] := by
  have hidle : m.state.dispatcher.running = none := by
    rcases hm.stack with ⟨_, hidle⟩ | ⟨_, _, hsingle, _⟩
    · exact hidle
    · exact absurd (hempty.symm.trans hsingle) (by simp)
  have hperformed := performed hm.consistent call
  rw [step_call] at hchunk ⊢
  rw [hempty, List.append_nil]
  generalize m.state.perform call = p at hperformed hchunk ⊢
  cases hperformed with
  | quiet h hnone =>
    simp [hnone hidle i bytes hchunk]
  | @started s₁ j bytes' h _ _ hsome _ honly =>
    obtain ⟨rfl, rfl⟩ := honly i bytes
      (chunkOf_congr (show (s₁.begin j).slots = s₁.slots from rfl) hchunk)
    exact (if_pos hsome).symm

theorem Sound.started (hm : Sound m) (l : Label (ServerCall n γ) Empty)
    (hf : f ∈ ((machine n γ).step m l).stack) : f ∈ m.stack ∨ ∃ call, l =
    .call call ∧ ChunkOf m.state ((machine n γ).step m l).state f.index f.bytes call := by
  have h := stepped (machine n γ) m l
  generalize (machine n γ).step m l = m' at h hf ⊢
  cases h with
  | idle => exact Or.inl hf
  | resume i => exact i.elim
  | ret hstack => exact Or.inl (hstack ▸ List.mem_cons_of_mem _ hf)
  | call a _ =>
    rcases List.mem_append.mp hf with hf | hf
    swap
    · exact Or.inl hf
    right
    refine ⟨a, rfl, ?_⟩
    have hperformed := performed hm.consistent a
    change f ∈ (m.state.perform a).2 at hf
    change ChunkOf m.state (m.state.perform a).1 f.index f.bytes a
    generalize m.state.perform a = p at hperformed hf ⊢
    cases hperformed with
    | quiet => exact absurd hf List.not_mem_nil
    | @started s₁ j _ _ _ _ _ hchunk =>
      obtain rfl := List.mem_singleton.mp hf
      exact chunkOf_congr (show s₁.slots = (s₁.begin j).slots from rfl) hchunk

theorem Sound.stepHolds (hm : Sound m) (l : Label (ServerCall n γ) Empty) : StepHolds m l where
  kept f hf call hl := hl ▸ hm.kept hf call
  returned f hf hl := hl ▸ hm.returned hf
  passed hempty call hl i bytes hchunk := by
    subst hl
    exact hm.passed hempty call i bytes hchunk
  started f hf := hm.started l hf

/-- The table of a server with fewer than `2 ^ 32 - 1` generation steps on each slot. -/
theorem peer_table (protocol : SocketProtocol) (labels : List (Label (ServerCall n γ) Empty))
    (hn : n < 2 ^ 64) (hfew : FewSteps (after protocol labels).state) : TableHolds
    (after protocol labels) ∧ AtEach labels fun before l => StepHolds (after protocol before) l :=
  ⟨(sound_after protocol labels).tableHolds hn hfew,
    fun before l _ => (sound_after protocol before).stepHolds l⟩

/-- A peer that its own callback closes -/
def closingRun : List (Label (ServerCall 1 ℕ) Empty) :=
  [.call (.openServer .ok), .call (.setDefaultCallback (some 7)),
    .call (.acceptClient .ok (.ok {})), .call (.processClient ⟨0, 1⟩ (.data [1, 2])),
    .call (.closeClient ⟨0, 1⟩ .ok), .ret]

theorem peer_table_closingRun : TableHolds (after .tcp closingRun) ∧
    AtEach closingRun fun before l => StepHolds (after .tcp before) l :=
  peer_table .tcp closingRun (by decide) (by unfold FewSteps; decide)

end Castle.Net.BasicServer
