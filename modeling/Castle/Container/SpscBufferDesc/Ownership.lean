import Castle.Container.SpscBufferDesc.State

/-!
# Who owns a slot of the descriptor ring

Handles are recorded with the acquisition they stem from. A valid handle is the only one
of its slot, up to copies, as long as no generation counter has gone round.
-/

namespace Castle.Container.SpscBufferDesc

variable {shape : BufferShape} {α : Type}

/-- The ring, every handle that its users have, each with the number of its acquisition,
and how often the generation of each slot was advanced. -/
structure Session (shape : BufferShape) (α : Type) where
  ring : SpscBufferDesc shape α
  issued : List (BufferHandle shape × ℕ)
  acquisitions : ℕ
  steps : Table shape.nBuffers ℕ

/-- What may happen: `copy k` copies the handle number `k`. -/
inductive Event (shape : BufferShape) (α : Type) where
  | op (op : Op shape α)
  | clear
  | copy (k : ℕ)

namespace Session

def init (ring : SpscBufferDesc shape α) : Session shape α :=
  ⟨ring, [], 0, .replicate _ 0⟩

/-- A successful acquisition gives out a handle; one for writing advances the generation. -/
def acquire (s : Session shape α) (op : Op shape α) : Session shape α :=
  let (status, handle, ring) := s.ring.apply op
  if status ≠ .ok then { s with ring }
  else
    let issued := s.issued ++ [(handle, s.acquisitions)]
    match op with
    | .acquireWrite =>
      ⟨ring, issued, s.acquisitions + 1, s.steps.modify s.ring.writeIndex (· + 1)⟩
    | .acquireRead => { s with ring, issued, acquisitions := s.acquisitions + 1 }
    | _ => { s with ring }

def step (s : Session shape α) : Event shape α → Session shape α
  | .op op => s.acquire op
  | .clear => { s with ring := s.ring.clear, steps := s.steps.map (· + 1) }
  | .copy k =>
    match s.issued[k]? with
    | none => s
    | some copied => { s with issued := s.issued ++ [copied] }

def run (s : Session shape α) (events : List (Event shape α)) : Session shape α :=
  events.foldl step s

/-- No generation counter has gone round. -/
def Bounded (s : Session shape α) : Prop := ∀ i, s.steps.get i < 2 ^ 32 - 1

instance (s : Session shape α) : Decidable s.Bounded :=
  inferInstanceAs (Decidable (∀ i, s.steps.get i < 2 ^ 32 - 1))

structure Owned (s : Session shape α) : Prop where
  generation : ∀ i, (s.ring.slot i).generation.toNat = s.steps.get i
  issued : ∀ h a, (h, a) ∈ s.issued →
    ∃ i, h.item = some i ∧ h.generation.toNat ≤ s.steps.get i
  /-- a handle stems from one acquisition -/
  unique : ∀ h a b, (h, a) ∈ s.issued → (h, b) ∈ s.issued → a = b
  /-- a slot is acquired for reading once for each generation -/
  read : ∀ h a i, (h, a) ∈ s.issued → h.item = some i → h.mode = .read →
    h.generation = (s.ring.slot i).generation →
      (s.ring.slot i).state = .reading ∨ (s.ring.slot i).state = .free

theorem toNat_nextGeneration {g : UInt32} (h : g.toNat + 1 < 2 ^ 32) :
    (nextGeneration g).toNat = g.toNat + 1 := by
  have hadd : (g + 1).toNat = g.toNat + 1 := by
    rw [UInt32.toNat_add]
    simp only [UInt32.reduceToNat]
    omega
  have hne : g + 1 ≠ 0 := by
    intro h0
    rw [h0] at hadd
    simp at hadd
  rw [nextGeneration, if_neg hne, hadd]

theorem owned_init (configured : Bool) (buffers : Table shape.nBuffers (Table shape.bufferSize α)) :
    Owned (init (SpscBufferDesc.init configured buffers)) := by
  refine ⟨fun i => ?_, by simp [init], by simp [init], by simp [init]⟩
  simp [init, SpscBufferDesc.init, slot]

variable {s : Session shape α}

theorem Owned.update {s' : Session shape α} (h : Owned s) (hissued : s'.issued = s.issued)
    (hsteps : s'.steps = s.steps)
    (hgen : ∀ i, (s'.ring.slot i).generation = (s.ring.slot i).generation)
    (hstate : ∀ i, (s'.ring.slot i).state = (s.ring.slot i).state ∨
      (s.ring.slot i).state = .writing ∨ (s'.ring.slot i).state = .free) : Owned s' := by
  refine ⟨fun i => ?_, ?_, ?_, fun k a i hk hi hm hg => ?_⟩
  · rw [hgen, hsteps, h.generation]
  · rw [hissued, hsteps]
    exact h.issued
  · rw [hissued]
    exact h.unique
  · rw [hissued] at hk
    rw [hgen] at hg
    have hold := h.read k a i hk hi hm hg
    rcases hstate i with hs | hs | hs
    · rw [hs]
      exact hold
    · rw [hs] at hold
      simp at hold
    · exact .inr hs

theorem Owned.modifySlot (h : Owned s) {i : Fin shape.nBuffers}
    {f : BufferSlot shape α → BufferSlot shape α} (hgen : ∀ x, (f x).generation = x.generation)
    (hs : (s.ring.slot i).state = .writing ∨ ∀ x, (f x).state = .free) :
    Owned { s with ring := s.ring.modifySlot i f } := by
  refine h.update rfl rfl (fun j => ?_) fun j => ?_
  · by_cases hj : j = i
    · subst hj
      rw [slot_modifySlot_self, hgen]
    · rw [slot_modifySlot_ne _ hj]
  · by_cases hj : j = i
    · subst hj
      rw [slot_modifySlot_self]
      exact .inr (hs.imp_right fun hf => hf _)
    · rw [slot_modifySlot_ne _ hj]
      exact .inl rfl

theorem Owned.acquireWrite (h : Owned s) (hb : s.steps.get s.ring.writeIndex + 1 < 2 ^ 32 - 1)
    {ring : SpscBufferDesc shape α}
    (hself : ring.slot s.ring.writeIndex = { s.ring.slot s.ring.writeIndex with
      generation := nextGeneration (s.ring.slot s.ring.writeIndex).generation
      size := 0, state := .writing })
    (hother : ∀ i, i ≠ s.ring.writeIndex → ring.slot i = s.ring.slot i) :
    Owned ⟨ring, s.issued ++ [(⟨some s.ring.writeIndex,
        nextGeneration (s.ring.slot s.ring.writeIndex).generation, .write⟩, s.acquisitions)],
      s.acquisitions + 1, s.steps.modify s.ring.writeIndex (· + 1)⟩ := by
  generalize s.ring.writeIndex = w at hb hself hother
  have hgen := h.generation w
  have hnew : (nextGeneration (s.ring.slot w).generation).toNat = s.steps.get w + 1 := by
    rw [toNat_nextGeneration (by omega), hgen]
  have hmem {k : BufferHandle shape} {a : ℕ}
      (hk : (k, a) ∈ s.issued ++ [(⟨some w, nextGeneration (s.ring.slot w).generation, .write⟩,
        s.acquisitions)]) : (k, a) ∈ s.issued ∨
          k = ⟨some w, nextGeneration (s.ring.slot w).generation, .write⟩ ∧ a = s.acquisitions := by
    simpa using hk
  -- an older handle of the slot has an older generation
  have holder {k : BufferHandle shape} {a : ℕ} (hk : (k, a) ∈ s.issued) (hi : k.item = some w) :
      k.generation ≠ nextGeneration (s.ring.slot w).generation := by
    obtain ⟨i, hi', hle⟩ := h.issued k a hk
    obtain rfl : i = w := Option.some.inj (hi'.symm.trans hi)
    intro hg
    rw [hg, hnew] at hle
    omega
  refine ⟨fun i => ?_, fun k a hk => ?_, fun k a b hk hk' => ?_, fun k a i hk hi hm hg => ?_⟩
  · dsimp only
    rw [Table.get_modify]
    split
    next hi => rw [hi, hself, hnew]
    next hi => rw [hother i hi, h.generation]
  · dsimp only
    rcases hmem hk with hk | ⟨rfl, -⟩
    · obtain ⟨i, hi, hle⟩ := h.issued k a hk
      refine ⟨i, hi, ?_⟩
      rw [Table.get_modify]
      split <;> omega
    · exact ⟨w, rfl, by rw [Table.get_modify_self, hnew]⟩
  · rcases hmem hk with hk | ⟨rfl, rfl⟩
    · rcases hmem hk' with hk' | ⟨rfl, rfl⟩
      · exact h.unique k a b hk hk'
      · exact absurd rfl (holder hk rfl)
    · rcases hmem hk' with hk' | ⟨-, rfl⟩
      · exact absurd rfl (holder hk' rfl)
      · rfl
  · dsimp only at hg ⊢
    rcases hmem hk with hold | ⟨rfl, -⟩
    · by_cases hiw : i = w
      · subst hiw
        rw [hself] at hg
        exact absurd hg (holder hold hi)
      · rw [hother i hiw] at hg ⊢
        exact h.read k a i hold hi hm hg
    · cases hm

theorem Owned.acquireRead (h : Owned s) (hready : (s.ring.slot s.ring.readIndex).state = .ready)
    {ring : SpscBufferDesc shape α} (hself : ring.slot s.ring.readIndex =
      { s.ring.slot s.ring.readIndex with state := .reading })
    (hother : ∀ i, i ≠ s.ring.readIndex → ring.slot i = s.ring.slot i) :
    Owned { s with
      ring
      issued := s.issued ++ [(⟨some s.ring.readIndex,
        (s.ring.slot s.ring.readIndex).generation, .read⟩, s.acquisitions)]
      acquisitions := s.acquisitions + 1 } := by
  generalize s.ring.readIndex = r at hready hself hother
  have hmem {k : BufferHandle shape} {a : ℕ}
      (hk : (k, a) ∈ s.issued ++ [(⟨some r, (s.ring.slot r).generation, .read⟩, s.acquisitions)]) :
      (k, a) ∈ s.issued ∨ k = ⟨some r, (s.ring.slot r).generation, .read⟩ ∧ a = s.acquisitions := by
    simpa using hk
  have hgen : ∀ i, (ring.slot i).generation = (s.ring.slot i).generation := by
    intro i
    by_cases hi : i = r
    · rw [hi, hself]
    · rw [hother i hi]
  -- the slot is still ready, so this generation was not acquired for reading before
  have hfresh {a : ℕ} : (⟨some r, (s.ring.slot r).generation, .read⟩, a) ∉ s.issued := by
    intro hk
    have hstate := h.read _ a r hk rfl rfl rfl
    rw [hready] at hstate
    simp at hstate
  refine ⟨fun i => ?_, fun k a hk => ?_, fun k a b hk hk' => ?_, fun k a i hk hi hm hg => ?_⟩
  · exact (congrArg UInt32.toNat (hgen i)).trans (h.generation i)
  · rcases hmem hk with hk | ⟨rfl, -⟩
    · exact h.issued k a hk
    · exact ⟨r, rfl, by rw [h.generation]⟩
  · rcases hmem hk with hk | ⟨rfl, rfl⟩
    · rcases hmem hk' with hk' | ⟨rfl, rfl⟩
      · exact h.unique k a b hk hk'
      · exact absurd hk hfresh
    · rcases hmem hk' with hk' | ⟨-, rfl⟩
      · exact absurd hk' hfresh
      · rfl
  · dsimp only at hg ⊢
    by_cases hir : i = r
    · rw [hir, hself]
      exact .inl rfl
    · rcases hmem hk with hk | ⟨rfl, -⟩
      · rw [hother i hir] at hg ⊢
        exact h.read k a i hk hi hm hg
      · exact absurd (Option.some.inj hi).symm hir

theorem Owned.clear (h : Owned s) (hb : ∀ i, s.steps.get i + 1 < 2 ^ 32 - 1) :
    Owned { s with ring := s.ring.clear, steps := s.steps.map (· + 1) } := by
  have hslot : ∀ i, s.ring.clear.slot i = clearSlot (s.ring.slot i) := fun i => Table.get_map _ _ i
  refine ⟨fun i => ?_, fun k a hk => ?_, h.unique, fun k a i _ _ _ _ => ?_⟩
  · have hgen := h.generation i
    have hbi := hb i
    dsimp only
    rw [hslot, Table.get_map, clearSlot, toNat_nextGeneration (by omega), hgen]
  · obtain ⟨i, hi, hle⟩ := h.issued k a hk
    refine ⟨i, hi, ?_⟩
    dsimp only
    rw [Table.get_map]
    omega
  · dsimp only
    rw [hslot]
    exact .inr rfl

theorem steps_le_step (s : Session shape α) (e : Event shape α) (i : Fin shape.nBuffers) :
    s.steps.get i ≤ (s.step e).steps.get i := by
  cases e with
  | op op =>
    show _ ≤ (s.acquire op).steps.get i
    unfold acquire
    dsimp only
    split
    · exact Nat.le_refl _
    cases op with
    | acquireWrite =>
      dsimp only
      rw [Table.get_modify]
      split <;> omega
    | _ => exact Nat.le_refl _
  | clear => simp [step]
  | copy k =>
    unfold step
    dsimp only
    split <;> exact Nat.le_refl _

theorem steps_le_run (s : Session shape α) (events : List (Event shape α))
    (i : Fin shape.nBuffers) : s.steps.get i ≤ (s.run events).steps.get i := by
  induction events generalizing s with
  | nil => exact Nat.le_refl _
  | cons e events ih => exact Nat.le_trans (s.steps_le_step e i) (ih _)

theorem Owned.step (h : Owned s) (e : Event shape α) (hb : Bounded (s.step e)) :
    Owned (s.step e) := by
  cases e with
  | clear =>
    refine h.clear fun i => ?_
    have hbi := hb i
    simpa [Session.step] using hbi
  | copy k =>
    unfold Session.step
    dsimp only
    split
    · exact h
    next copied hk =>
      have hcopied := List.mem_of_getElem? hk
      have hmem {k : BufferHandle shape} {a : ℕ} (hk : (k, a) ∈ s.issued ++ [copied]) :
          (k, a) ∈ s.issued := by
        rcases List.mem_append.mp hk with hk | hk
        · exact hk
        · rw [List.mem_singleton.mp hk]
          exact hcopied
      exact ⟨h.generation, fun k a hk => h.issued k a (hmem hk),
        fun k a b hk hk' => h.unique k a b (hmem hk) (hmem hk'),
        fun k a i hk => h.read k a i (hmem hk)⟩
  | op op =>
    change Owned (s.acquire op)
    change Bounded (s.acquire op) at hb
    have heffect := apply_effect s.ring op
    unfold acquire at hb ⊢
    generalize s.ring.apply op = res at heffect hb ⊢
    cases heffect with
    | acquireWrite hc hfree =>
      have hbw : (s.steps.modify s.ring.writeIndex (· + 1)).get s.ring.writeIndex < 2 ^ 32 - 1 :=
        hb s.ring.writeIndex
      rw [Table.get_modify_self] at hbw
      exact h.acquireWrite hbw (slot_modifySlot_self _) fun i hi => slot_modifySlot_ne _ hi
    | acquireRead hc hready =>
      exact h.acquireRead hready (slot_modifySlot_self _) fun i hi => slot_modifySlot_ne _ hi
    | idle => exact h
    | refused hs =>
      dsimp only
      rw [if_pos hs]
      exact h
    | write contents hi hs => exact h.modifySlot (fun _ => rfl) (.inl hs)
    | commit hi hs hcount => exact h.modifySlot (fun _ => rfl) (.inl hs)
    | cancel hi hs => exact h.modifySlot (fun _ => rfl) (.inl hs)
    | release hi hs => exact h.modifySlot (fun _ => rfl) (.inr fun _ => rfl)

theorem Owned.run (h : Owned s) (events : List (Event shape α)) (hb : Bounded (s.run events)) :
    Owned (s.run events) := by
  induction events generalizing s with
  | nil => exact h
  | cons e events ih =>
    have hstep : Bounded (s.step e) := fun i =>
      Nat.lt_of_le_of_lt (steps_le_run (s.step e) events i) (hb i)
    exact ih (h.step e hstep) hb

theorem refused_of_not_isValid {d : SpscBufferDesc shape α} {h : BufferHandle shape}
    (hv : ¬ d.isValid h = true) (count : ℕ) : d.commit h count = (.invalidArgument, d) ∧
    d.cancel h = (.invalidArgument, d) ∧ d.release h = (.invalidArgument, d) := by
  have hw : d.isWrite h = false := by simp [isWrite, hv]
  have hr : d.isRead h = false := by simp [isRead, hv]
  unfold commit cancel release
  cases h.item with
  | none => exact ⟨rfl, rfl, rfl⟩
  | some i => simp [hw, hr]

theorem eq_of_isValid {d : SpscBufferDesc shape α} {h k : BufferHandle shape}
    (hitem : h.item = k.item) (hh : d.isValid h = true) (hk : d.isValid k = true) : h = k := by
  obtain ⟨i, hi, hg, hm⟩ := (isValid_iff h).mp hh
  obtain ⟨j, hj, hg', hm'⟩ := (isValid_iff k).mp hk
  obtain rfl : i = j := Option.some.inj (hi.symm.trans (hitem.trans hj))
  obtain ⟨item, generation, mode⟩ := h
  obtain ⟨item', generation', mode'⟩ := k
  simp only at hitem hg hg' hm hm'
  have hmode : mode = mode' := by
    rcases hm with ⟨rfl, hs⟩ | ⟨rfl, hs⟩ <;> rcases hm' with ⟨rfl, hs'⟩ | ⟨rfl, hs'⟩
    · rfl
    · rw [hs] at hs'
      cases hs'
    · rw [hs] at hs'
      cases hs'
    · rfl
  rw [hitem, hg, hg', hmode]

/-- What ownership of the slots means in one state. -/
structure Exclusive (s : Session shape α) : Prop where
  /-- the valid handles of a slot stem from one acquisition -/
  owner : ∀ h a k b, (h, a) ∈ s.issued → (k, b) ∈ s.issued → h.item = k.item →
    s.ring.isValid h = true → s.ring.isValid k = true → a = b
  /-- the handles of other acquisitions do nothing -/
  stale : ∀ h a k b, (h, a) ∈ s.issued → (k, b) ∈ s.issued → h.item = k.item →
    s.ring.isValid k = true → a ≠ b → ∀ count,
      s.ring.commit h count = (.invalidArgument, s.ring) ∧
        s.ring.cancel h = (.invalidArgument, s.ring) ∧
        s.ring.release h = (.invalidArgument, s.ring)
  invalid : ∀ h, ¬ s.ring.isValid h = true → ∀ count,
    s.ring.commit h count = (.invalidArgument, s.ring) ∧
      s.ring.cancel h = (.invalidArgument, s.ring) ∧
      s.ring.release h = (.invalidArgument, s.ring)
  apart : ∀ h k, h.item = k.item → ¬ (s.ring.isWrite h = true ∧ s.ring.isRead k = true)

theorem Owned.exclusive (h : Owned s) : Exclusive s := by
  have howner : ∀ k a l b, (k, a) ∈ s.issued → (l, b) ∈ s.issued → k.item = l.item →
      s.ring.isValid k = true → s.ring.isValid l = true → a = b := by
    intro k a l b hk hl hitem hkv hlv
    obtain rfl := eq_of_isValid hitem hkv hlv
    exact h.unique k a b hk hl
  refine ⟨howner, fun k a l b hk hl hitem hlv hab count => ?_,
    fun k hk count => refused_of_not_isValid hk count, ?_⟩
  · exact refused_of_not_isValid (fun hkv => hab (howner k a l b hk hl hitem hkv hlv)) count
  · rintro k l hitem ⟨hk, hl⟩
    obtain ⟨i, hi, -, -, hs⟩ := (isWrite_iff k).mp hk
    obtain ⟨j, hj, -, -, hs'⟩ := (isRead_iff l).mp hl
    obtain rfl : i = j := Option.some.inj (hi.symm.trans (hitem.trans hj))
    rw [hs] at hs'
    cases hs'

/-- In every state that is reached with fewer than `2^32 - 1` generation steps for each
slot. -/
theorem run_exclusive (configured : Bool)
    (buffers : Table shape.nBuffers (Table shape.bufferSize α)) (events : List (Event shape α))
    (hb : Bounded ((init (SpscBufferDesc.init configured buffers)).run events)) :
    Exclusive ((init (SpscBufferDesc.init configured buffers)).run events) :=
  ((owned_init configured buffers).run events hb).exclusive

theorem run_exclusive_recycled :
    Exclusive ((init (SpscBufferDesc.init true (.replicate 2 (.replicate 1 0)) :
        SpscBufferDesc ⟨1, 2, by decide, by decide⟩ ℕ)).run
      [.op .acquireWrite, .copy 0, .op (.cancel ⟨some 0, 1, .write⟩), .clear, .op .acquireWrite]) :=
  run_exclusive _ _ _ (by decide)

end Session
end Castle.Container.SpscBufferDesc
