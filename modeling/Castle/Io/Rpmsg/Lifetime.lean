import Mathlib.Data.List.Pairwise
import Castle.Io.Rpmsg.Device

/-!
# The lifetime of endpoints

A slot is occupied while it is active, or as a zombie until its last callback has returned.
-/

namespace Castle.Io.Rpmsg

open Generations

variable {n : ℕ} {γ : Type}

namespace EndpointSlot

variable {slot slot' : EndpointSlot γ}

/-- The slot cannot be taken. -/
def occupied (slot : EndpointSlot γ) : Bool := slot.active || slot.zombie

theorem occupied_of_active (h : slot.active = true) : slot.occupied = true := by
  rw [occupied, h, Bool.true_or]

/-- A zombie waits for a callback, and callbacks run in occupied slots only. -/
structure Regular (slot : EndpointSlot γ) : Prop where
  zombie : slot.zombie = true → slot.active = false ∧ 0 < slot.dispatching
  dispatching : 0 < slot.dispatching → slot.occupied = true

theorem Regular.idle (h : slot.Regular) (hfree : slot.occupied = false) : slot.dispatching = 0 := by
  by_contra hpos
  rw [h.dispatching (Nat.pos_of_ne_zero hpos)] at hfree
  exact absurd hfree (by decide)

structure Kept (slot slot' : EndpointSlot γ) : Prop where
  occupied : slot'.occupied = slot.occupied
  generation : slot'.generation = slot.generation
  steps : slot'.steps = slot.steps
  backendHandle : slot'.backendHandle = slot.backendHandle
  active : slot'.active = true → slot.active = true
  regular : slot.Regular → slot'.Regular

/-- The slot was not used by a callback, and it can be taken again. -/
structure Freed (slot slot' : EndpointSlot γ) : Prop where
  active : slot'.active = false
  zombie : slot'.zombie = false
  generation : slot'.generation = next slot.generation
  steps : slot'.steps = slot.steps + 1
  idle : slot'.dispatching = 0

theorem Kept.refl (slot : EndpointSlot γ) : Kept slot slot := ⟨rfl, rfl, rfl, rfl, id, id⟩

theorem Freed.occupied (h : Freed slot slot') : slot'.occupied = false := by
  rw [EndpointSlot.occupied, h.active, h.zombie]
  rfl

theorem release_spec (hactive : slot.active = true) : Kept slot slot.release ∧ 0 < slot.dispatching ∧
      slot.release = { slot with active := false, zombie := true } ∨
    Freed slot slot.release ∧ slot.dispatching = 0 := by
  rw [release]
  by_cases hidle : slot.dispatching = 0
  · rw [if_pos hidle]
    exact Or.inr ⟨⟨rfl, rfl, rfl, rfl, hidle⟩, hidle⟩
  · rw [if_neg hidle]
    refine Or.inl ⟨⟨?_, rfl, rfl, rfl, ?_, fun _ => ⟨?_, ?_⟩⟩, Nat.pos_of_ne_zero hidle, rfl⟩
    · rw [occupied_of_active hactive]
      rfl
    · exact fun _ => hactive
    · exact fun _ => ⟨rfl, Nat.pos_of_ne_zero hidle⟩
    · exact fun _ => rfl

theorem release_active : slot.release.active = false := by
  rw [release]
  by_cases hidle : slot.dispatching = 0
  · rw [if_pos hidle]
    rfl
  · rw [if_neg hidle]

theorem kept_begin (hactive : slot.active = true) :
    Kept slot { slot with dispatching := slot.dispatching + 1 } where
  occupied := rfl
  generation := rfl
  steps := rfl
  backendHandle := rfl
  active h := h
  regular h := ⟨fun hzombie => ⟨(h.zombie hzombie).1, Nat.succ_pos _⟩, fun _ => occupied_of_active hactive⟩

theorem endDispatch_spec (h : slot.Regular) (hpos : 0 < slot.dispatching) :
    Kept slot slot.endDispatch ∧ slot.endDispatch = { slot with dispatching := slot.dispatching - 1 } ∨
    Freed slot slot.endDispatch ∧ slot.active = false ∧ slot.dispatching = 1 := by
  rw [endDispatch]
  by_cases hlast : slot.dispatching - 1 = 0 ∧ slot.zombie = true
  · rw [if_pos hlast]
    exact Or.inr ⟨⟨rfl, rfl, rfl, rfl, hlast.1⟩, (h.zombie hlast.2).1, by omega⟩
  · rw [if_neg hlast]
    refine Or.inl ⟨⟨rfl, rfl, rfl, rfl, id, fun _ => ⟨fun hzombie => ⟨(h.zombie hzombie).1, ?_⟩, ?_⟩⟩, rfl⟩
    · exact Nat.pos_of_ne_zero fun hzero => hlast ⟨hzero, hzombie⟩
    · exact fun _ => h.dispatching hpos

end EndpointSlot

/-- What holds of the table, however often its slots are used. -/
structure Device.Consistent (d : Device n γ) : Prop where
  ledger : Ledger Activation.index Activation.number (fun i => (d.endpoints.get i).steps)
    (fun i => (d.endpoints.get i).occupied) d.activations
  generations : ∀ i, (d.endpoints.get i).generation = word 1 (d.endpoints.get i).steps
  serials : d.activations.Pairwise fun a b => b.serial < a.serial
  created : ∀ a ∈ d.activations, a.serial < d.created
  /-- An occupied slot holds the backend endpoint of its latest activation. -/
  handle : ∀ a ∈ d.activations, (d.endpoints.get a.index).occupied = true →
    a.number = (d.endpoints.get a.index).steps → (d.endpoints.get a.index).backendHandle = some a.serial
  initialized : ∀ i, (d.endpoints.get i).active = true → d.initialized = true
  regular : ∀ i, (d.endpoints.get i).Regular

/-- The backend endpoints that are left are those of the active slots. -/
structure Device.Balanced (d : Device n γ) : Prop where
  once : d.destroyed.Nodup
  known : ∀ c ∈ d.destroyed, c < d.created
  live : ∀ c < d.created, c ∉ d.destroyed ↔
    ∃ i, (d.endpoints.get i).active = true ∧ (d.endpoints.get i).backendHandle = some c

namespace Device

variable {d d' : Device n γ}

theorem get_modifySlot (d : Device n γ) (i j : Fin n) (f : EndpointSlot γ → EndpointSlot γ) :
    (d.modifySlot i f).endpoints.get j = if j = i then f (d.endpoints.get j) else d.endpoints.get j :=
  Table.get_modify _ _ _ _

theorem Consistent.serial_inj (hd : Consistent d) {a b : Activation n} (ha : a ∈ d.activations)
    (hb : b ∈ d.activations) (h : a.serial = b.serial) : a = b := by
  have hnodup : (d.activations.map Activation.serial).Nodup := by
    rw [List.Nodup, List.pairwise_map]
    exact hd.serials.imp fun hlt => hlt.ne'
  exact List.inj_on_of_nodup_map hnodup ha hb h

theorem Consistent.handle_of_occupied (hd : Consistent d) {i : Fin n}
    (hi : (d.endpoints.get i).occupied = true) : ∃ a ∈ d.activations, a.index = i ∧
      a.number = (d.endpoints.get i).steps ∧ (d.endpoints.get i).backendHandle = some a.serial := by
  obtain ⟨a, ha, rfl, hnumber⟩ := hd.ledger.current i hi
  exact ⟨a, ha, rfl, hnumber, hd.handle a ha hi hnumber⟩

theorem Consistent.latest_of_handle (hd : Consistent d) {i : Fin n} {a : Activation n}
    (hi : (d.endpoints.get i).occupied = true) (ha : a ∈ d.activations)
    (hhandle : (d.endpoints.get i).backendHandle = some a.serial) :
    a.index = i ∧ a.number = (d.endpoints.get i).steps := by
  obtain ⟨b, hb, hindex, hnumber, hserial⟩ := hd.handle_of_occupied hi
  rw [hhandle] at hserial
  obtain rfl := hd.serial_inj ha hb (Option.some.inj hserial)
  exact ⟨hindex, hnumber⟩

theorem Consistent.handle_inj (hd : Consistent d) {i j : Fin n} {c : ℕ}
    (hi : (d.endpoints.get i).occupied = true) (hj : (d.endpoints.get j).occupied = true)
    (hci : (d.endpoints.get i).backendHandle = some c) (hcj : (d.endpoints.get j).backendHandle = some c) :
    i = j := by
  obtain ⟨a, ha, hindex, _, hserial⟩ := hd.handle_of_occupied hi
  have hhandle : (d.endpoints.get j).backendHandle = some a.serial := by rw [hcj, ← hci, hserial]
  rw [← hindex]
  exact (hd.latest_of_handle hj ha hhandle).1

theorem consistent_new : Consistent ({} : Device n γ) where
  ledger := by
    refine Ledger.nil _ _ _ fun i => ?_
    rw [Table.get_replicate]
    rfl
  generations i := by
    rw [Table.get_replicate]
    rfl
  serials := List.Pairwise.nil
  created _ ha := absurd ha List.not_mem_nil
  handle _ ha := absurd ha List.not_mem_nil
  initialized i hi := by
    rw [Table.get_replicate] at hi
    exact absurd hi Bool.false_ne_true
  regular i := by
    rw [Table.get_replicate]
    exact ⟨fun h => absurd h Bool.false_ne_true, fun h => absurd h (Nat.lt_irrefl 0)⟩

theorem balanced_new : Balanced ({} : Device n γ) where
  once := List.nodup_nil
  known _ hc := absurd hc List.not_mem_nil
  live _ hc := absurd hc (Nat.not_lt_zero _)

theorem Consistent.advance (hd : Consistent d) (hactivations : d'.activations = d.activations)
    (hcreated : d.created ≤ d'.created) (hslots : ∀ i, (d.endpoints.get i).Kept (d'.endpoints.get i) ∨
      (d.endpoints.get i).Freed (d'.endpoints.get i))
    (hinitialized : ∀ i, (d'.endpoints.get i).active = true → d'.initialized = true) : Consistent d' where
  ledger := by
    rw [hactivations]
    refine hd.ledger.release fun i => ?_
    rcases hslots i with h | h
    · exact Or.inl ⟨h.steps, h.occupied⟩
    · refine Or.inr ⟨?_, h.occupied⟩
      rw [h.steps]
      exact Nat.lt_succ_self _
  generations i := by
    rcases hslots i with h | h
    · rw [h.generation, h.steps]
      exact hd.generations i
    · rw [h.generation, h.steps, word_succ, hd.generations i]
  serials := hactivations ▸ hd.serials
  created a ha := (hd.created a (hactivations ▸ ha)).trans_le hcreated
  handle a ha hoccupied hnumber := by
    rw [hactivations] at ha
    rcases hslots a.index with h | h
    · rw [h.backendHandle]
      exact hd.handle a ha (h.occupied ▸ hoccupied) (hnumber.trans h.steps)
    · rw [h.occupied] at hoccupied
      exact absurd hoccupied Bool.false_ne_true
  initialized := hinitialized
  regular i := by
    rcases hslots i with h | h
    · exact h.regular (hd.regular i)
    · refine ⟨fun hzombie => ?_, fun hpos => ?_⟩
      · rw [h.zombie] at hzombie
        exact absurd hzombie Bool.false_ne_true
      · rw [h.idle] at hpos
        exact absurd hpos (Nat.lt_irrefl 0)

theorem Balanced.congr (hb : Balanced d) (hcreated : d'.created = d.created)
    (hdestroyed : d'.destroyed = d.destroyed)
    (hslots : ∀ i, (d'.endpoints.get i).active = (d.endpoints.get i).active ∧
      ((d.endpoints.get i).active = true →
        (d'.endpoints.get i).backendHandle = (d.endpoints.get i).backendHandle)) : Balanced d' where
  once := hdestroyed ▸ hb.once
  known := by
    rw [hdestroyed, hcreated]
    exact hb.known
  live c hc := by
    rw [hdestroyed, hb.live c (hcreated ▸ hc)]
    constructor
    · rintro ⟨i, hactive, hhandle⟩
      exact ⟨i, (hslots i).1.trans hactive, ((hslots i).2 hactive).trans hhandle⟩
    · rintro ⟨i, hactive, hhandle⟩
      have hactive' := (hslots i).1.symm.trans hactive
      exact ⟨i, hactive', ((hslots i).2 hactive').symm.trans hhandle⟩

end Device
end Castle.Io.Rpmsg
