import Mathlib.Data.Nat.ModEq
import Castle.Container.SpscBufferDesc.State

/-!
# The order of delivery of the descriptor ring

Every write reservation is logged in the order of acquisition. The consumer should get the oldest
one that is neither cancelled nor read, once it is committed.
-/

namespace Castle.Container.SpscBufferDesc

variable {shape : BufferShape} {α : Type}

/-- What has become of a write reservation. -/
inductive Fate (α : Type) where
  | writing
  | committed (payload : List α)
  | cancelled
  | read
  deriving DecidableEq

def Fate.isRead : Fate α → Bool
  | .read => true
  | _ => false

def Fate.isCancelled : Fate α → Bool
  | .cancelled => true
  | _ => false

structure Reservation (shape : BufferShape) (α : Type) where
  slot : Fin shape.nBuffers
  fate : Fate α
  deriving DecidableEq

/-- Neither cancelled nor read. -/
def Reservation.outstanding (r : Reservation shape α) : Bool :=
  match r.fate with
  | .writing | .committed _ => true
  | .cancelled | .read => false

/-- The ring, and all write reservations in the order of their acquisition. -/
structure History (shape : BufferShape) (α : Type) where
  ring : SpscBufferDesc shape α
  log : List (Reservation shape α)

namespace History

/-- The outstanding reservation of a slot has a new fate. -/
def mark (log : List (Reservation shape α)) (i : Fin shape.nBuffers) (fate : Fate α) :
    List (Reservation shape α) :=
  log.map fun r => if r.slot = i ∧ r.outstanding = true then { r with fate } else r

/-- The log after a successful operation. -/
def record (s : History shape α) (op : Op shape α) : List (Reservation shape α) :=
  match op with
  | .acquireWrite => s.log ++ [⟨s.ring.writeIndex, .writing⟩]
  | .commit h count =>
    match h.item with
    | none => s.log
    | some i => mark s.log i (.committed ((s.ring.slot i).contents.cells.take count))
  | .cancel h =>
    match h.item with
    | none => s.log
    | some i => mark s.log i .cancelled
  | .acquireRead => mark s.log s.ring.readIndex .read
  | .write _ _ | .release _ => s.log

def step (s : History shape α) (op : Op shape α) : History shape α :=
  let (status, _, ring) := s.ring.apply op
  ⟨ring, if status = .ok then s.record op else s.log⟩

def init (ring : SpscBufferDesc shape α) : History shape α := ⟨ring, []⟩

def run (s : History shape α) (ops : List (Op shape α)) : History shape α := ops.foldl step s

/-- The oldest reservation that is neither cancelled nor read. -/
def next (s : History shape α) : Option (Reservation shape α) := s.log.find? Reservation.outstanding

/-- `acquire_read` gives a handle to the oldest outstanding reservation if that is committed,
and none otherwise. -/
def Delivers (s : History shape α) : Prop :=
  match s.next with
  | some ⟨i, .committed payload⟩ =>
    s.ring.acquireRead.1 = .ok ∧ s.ring.acquireRead.2.1.item = some i ∧
      s.ring.acquireRead.2.2.readView s.ring.acquireRead.2.1 = payload
  | _ => s.ring.acquireRead.1 ≠ .ok

instance [DecidableEq α] (s : History shape α) : Decidable s.Delivers := by
  unfold Delivers
  split <;> infer_instance

/-- How many reservations were cancelled before the oldest outstanding one. -/
def skipped (s : History shape α) : ℕ :=
  (s.log.takeWhile fun r => !r.outstanding).countP fun r => r.fate.isCancelled

/-- The cancelled reservations fill whole rounds, or nothing is there to be read. -/
def Aligned (s : History shape α) : Prop :=
  (∃ i payload, s.next = some ⟨i, .committed payload⟩) ∨
      (s.ring.slot s.ring.readIndex).state = .ready →
    shape.nBuffers ∣ s.skipped

/-- A property of every state in which `acquire_read` is called. -/
def AtReads (P : History shape α → Prop) (s : History shape α) : List (Op shape α) → Prop
  | [] => True
  | op :: ops => (op = .acquireRead → P s) ∧ AtReads P (s.step op) ops

structure Tracks (s : History shape α) : Prop where
  configured : s.log ≠ [] → s.ring.configured = true
  slots : s.log.map (fun r => r.slot.val) = (List.range s.log.length).map (· % shape.nBuffers)
  writeIndex : s.ring.writeIndex.val = s.log.length % shape.nBuffers
  apart : s.log.Pairwise fun r r' =>
    r.outstanding = true → r'.outstanding = true → r.slot ≠ r'.slot
  writing : ∀ i, (s.ring.slot i).state = .writing ↔ ∃ r ∈ s.log, r.slot = i ∧ r.fate = .writing
  ready : ∀ i, (s.ring.slot i).state = .ready ↔
    ∃ r ∈ s.log, r.slot = i ∧ ∃ payload, r.fate = .committed payload
  payload : ∀ r ∈ s.log, ∀ payload, r.fate = .committed payload →
    payload = (s.ring.slot r.slot).contents.cells.take (s.ring.slot r.slot).size
  readIndex : s.ring.readIndex.val =
    (s.log.countP fun r => r.fate.isRead) % shape.nBuffers

theorem val_nextIndex (i : Fin shape.nBuffers) {n : ℕ} (h : i.val = n % shape.nBuffers) :
    (nextIndex i).val = (n + 1) % shape.nBuffers := by
  have hpos := shape.nBuffers_pos
  unfold nextIndex
  rw [Nat.add_mod, ← h]
  split
  next hi =>
    by_cases h1 : shape.nBuffers = 1
    · simp [zeroIndex, h1, Nat.mod_one]
    · rw [Nat.mod_eq_of_lt (by omega : 1 < shape.nBuffers), hi, Nat.mod_self]
      rfl
  next hi =>
    rw [Nat.mod_eq_of_lt (by omega : 1 < shape.nBuffers), Nat.mod_eq_of_lt (by omega)]

section mark

variable {log : List (Reservation shape α)} {i : Fin shape.nBuffers} {fate : Fate α}

theorem mem_mark {r' : Reservation shape α} : r' ∈ mark log i fate ↔ ∃ r ∈ log,
    (if r.slot = i ∧ r.outstanding = true then { r with fate } else r) = r' :=
  List.mem_map

theorem mem_mark_ne {r : Reservation shape α} (hr : r.slot ≠ i) :
    r ∈ mark log i fate ↔ r ∈ log := by
  rw [mem_mark]
  constructor
  · rintro ⟨r', hr', rfl⟩
    split at hr
    next hs => exact absurd hs.1 hr
    next hs =>
      rw [if_neg hs]
      exact hr'
  · intro hmem
    exact ⟨r, hmem, if_neg fun hs => hr hs.1⟩

theorem fate_of_mem_mark {r : Reservation shape α} (hr : r ∈ mark log i fate) (hi : r.slot = i)
    (ho : r.outstanding = true) : r.fate = fate := by
  obtain ⟨r', -, hr'⟩ := mem_mark.mp hr
  split at hr'
  · rw [← hr']
  next hs =>
    subst hr'
    exact absurd ⟨hi, ho⟩ hs

theorem exists_mark (h : ∃ r ∈ log, r.slot = i ∧ r.outstanding = true) :
    ⟨i, fate⟩ ∈ mark log i fate := by
  obtain ⟨r, hr, rfl, ho⟩ := h
  exact mem_mark.mpr ⟨r, hr, by rw [if_pos ⟨rfl, ho⟩]⟩

theorem mark_split {x : Reservation shape α}
    (hapart : log.Pairwise fun r r' =>
      r.outstanding = true → r'.outstanding = true → r.slot ≠ r'.slot)
    {a b : List (Reservation shape α)} (hlog : log = a ++ x :: b) (hx : x.slot = i)
    (ho : x.outstanding = true) : mark log i fate = a ++ { x with fate } :: b := by
  subst hlog
  obtain ⟨-, hb, hab⟩ := List.pairwise_append.mp hapart
  have hsame (l : List (Reservation shape α))
      (hl : ∀ r ∈ l, r.outstanding = true → r.slot ≠ i) :
      l.map (fun r => if r.slot = i ∧ r.outstanding = true then { r with fate } else r) = l := by
    refine (List.map_congr_left fun r hr => ?_).trans (List.map_id l)
    exact if_neg fun hs => hl r hr hs.2 hs.1
  unfold mark
  rw [List.map_append, List.map_cons, if_pos ⟨hx, ho⟩,
    hsame a fun r hr hro => hx ▸ hab r hr x (by simp) hro ho,
    hsame b fun r hr hro hri => (List.pairwise_cons.mp hb).1 r hr ho hro (hx.trans hri.symm)]

end mark

theorem outstanding_iff {r : Reservation shape α} :
    r.outstanding = true ↔ r.fate = .writing ∨ ∃ payload, r.fate = .committed payload := by
  unfold Reservation.outstanding
  cases r.fate <;> simp

theorem outstanding_of_writing {r : Reservation shape α} (h : r.fate = .writing) : r.outstanding = true := by
  rw [outstanding_iff]
  exact .inl h

theorem outstanding_of_committed {r : Reservation shape α} (h : ∃ payload, r.fate = .committed payload) :
    r.outstanding = true := by
  rw [outstanding_iff]
  exact .inr h

variable {s : History shape α} {ring : SpscBufferDesc shape α}

variable {i : Fin shape.nBuffers} {fate : Fate α}

theorem Tracks.mark (h : Tracks s) (hi : ∃ r ∈ s.log, r.slot = i ∧ r.outstanding = true)
    (hother : ∀ j, j ≠ i → ring.slot j = s.ring.slot j)
    (hconfigured : ring.configured = s.ring.configured)
    (hwriteIndex : ring.writeIndex = s.ring.writeIndex)
    (hwriting : (ring.slot i).state = .writing ↔ fate = .writing)
    (hready : (ring.slot i).state = .ready ↔ ∃ payload, fate = .committed payload)
    (hpayload : ∀ payload, fate = .committed payload →
      payload = (ring.slot i).contents.cells.take (ring.slot i).size) (hread : ring.readIndex.val =
      ((History.mark s.log i fate).countP fun r => r.fate.isRead) % shape.nBuffers) :
    Tracks ⟨ring, History.mark s.log i fate⟩ := by
  have hmark := @exists_mark _ _ _ _ fate hi
  refine ⟨fun _ => ?_, ?_, ?_, ?_, fun j => ?_, fun j => ?_, fun r hr payload hf => ?_, hread⟩
  · obtain ⟨r, hr, -⟩ := hi
    exact hconfigured.trans (h.configured (List.ne_nil_of_mem hr))
  · dsimp only
    unfold History.mark
    rw [List.length_map, List.map_map, ← h.slots]
    refine List.map_congr_left fun r _ => ?_
    dsimp only [Function.comp]
    split <;> rfl
  · dsimp only
    unfold History.mark
    rw [hwriteIndex, h.writeIndex, List.length_map]
  · refine List.pairwise_map.mpr (h.apart.imp fun {r r'} hrr ho ho' => ?_)
    have hout {x : Reservation shape α} (hx : (if x.slot = i ∧ x.outstanding = true then
        { x with fate } else x).outstanding = true) : x.outstanding = true := by
      split at hx
      next hs => exact hs.2
      · exact hx
    have hslot := hrr (hout ho) (hout ho')
    split <;> split <;> exact hslot
  · by_cases hj : j = i
    · subst hj
      rw [hwriting]
      constructor
      · intro hf
        exact ⟨_, hmark, rfl, hf⟩
      · rintro ⟨r, hr, hrj, hf⟩
        exact (fate_of_mem_mark hr hrj (outstanding_of_writing hf)).symm.trans hf
    · dsimp only
      rw [hother j hj, h.writing j]
      constructor
      · rintro ⟨r, hr, rfl, hf⟩
        exact ⟨r, (mem_mark_ne hj).mpr hr, rfl, hf⟩
      · rintro ⟨r, hr, rfl, hf⟩
        exact ⟨r, (mem_mark_ne hj).mp hr, rfl, hf⟩
  · by_cases hj : j = i
    · subst hj
      rw [hready]
      constructor
      · intro hf
        exact ⟨_, hmark, rfl, hf⟩
      · rintro ⟨r, hr, hrj, hf⟩
        rwa [fate_of_mem_mark hr hrj (outstanding_of_committed hf)] at hf
    · dsimp only
      rw [hother j hj, h.ready j]
      constructor
      · rintro ⟨r, hr, rfl, hf⟩
        exact ⟨r, (mem_mark_ne hj).mpr hr, rfl, hf⟩
      · rintro ⟨r, hr, rfl, hf⟩
        exact ⟨r, (mem_mark_ne hj).mp hr, rfl, hf⟩
  · dsimp only
    by_cases hj : r.slot = i
    · have hfate := fate_of_mem_mark hr hj (outstanding_of_committed ⟨payload, hf⟩)
      rw [hj]
      exact hpayload payload (hfate.symm.trans hf)
    · rw [hother _ hj]
      exact h.payload r ((mem_mark_ne hj).mp hr) payload hf

theorem Tracks.idle (h : Tracks s)
    (hother : ∀ j, ((ring.slot j).state = .writing ↔ (s.ring.slot j).state = .writing) ∧
      ((ring.slot j).state = .ready ↔ (s.ring.slot j).state = .ready))
    (hready : ∀ j, (s.ring.slot j).state = .ready → ring.slot j = s.ring.slot j)
    (hconfigured : ring.configured = s.ring.configured)
    (hwriteIndex : ring.writeIndex = s.ring.writeIndex)
    (hreadIndex : ring.readIndex = s.ring.readIndex) : Tracks ⟨ring, s.log⟩ := by
  refine ⟨fun hne => hconfigured.trans (h.configured hne), h.slots, ?_, h.apart, fun j => ?_, fun j => ?_, fun r hr payload hf => ?_, ?_⟩
  · rw [hwriteIndex]
    exact h.writeIndex
  · rw [(hother j).1]
    exact h.writing j
  · rw [(hother j).2]
    exact h.ready j
  · dsimp only
    rw [hready r.slot ((h.ready r.slot).mpr ⟨r, hr, rfl, payload, hf⟩)]
    exact h.payload r hr payload hf
  · rw [hreadIndex]
    exact h.readIndex

theorem Tracks.acquireWrite (h : Tracks s) (hfree : (s.ring.slot s.ring.writeIndex).state = .free)
    (hconfigured : ring.configured = true) (hself : (ring.slot s.ring.writeIndex).state = .writing)
    (hother : ∀ j, j ≠ s.ring.writeIndex → ring.slot j = s.ring.slot j)
    (hwriteIndex : ring.writeIndex = nextIndex s.ring.writeIndex)
    (hreadIndex : ring.readIndex = s.ring.readIndex) :
    Tracks ⟨ring, s.log ++ [⟨s.ring.writeIndex, .writing⟩]⟩ := by
  -- no reservation of the slot is outstanding
  have hnone : ∀ r ∈ s.log, r.outstanding = true → r.slot ≠ s.ring.writeIndex := by
    intro r hr ho hrw
    rcases outstanding_iff.mp ho with hf | hf
    · have := (h.writing r.slot).mpr ⟨r, hr, rfl, hf⟩
      rw [hrw, hfree] at this
      cases this
    · have := (h.ready r.slot).mpr ⟨r, hr, rfl, hf⟩
      rw [hrw, hfree] at this
      cases this
  refine ⟨fun _ => hconfigured, ?_, ?_, ?_, fun j => ?_, fun j => ?_, fun r hr payload hf => ?_, ?_⟩
  · simp [h.slots, h.writeIndex, List.range_succ]
  · dsimp only
    rw [hwriteIndex, val_nextIndex _ h.writeIndex, List.length_append]
    rfl
  · refine List.pairwise_append.mpr ⟨h.apart, by simp, fun r hr r' hr' ho _ => ?_⟩
    rw [List.mem_singleton.mp hr']
    exact hnone r hr ho
  · dsimp only
    by_cases hj : j = s.ring.writeIndex
    · subst hj
      simp [hself]
    · rw [hother j hj, h.writing j]
      simp [Ne.symm hj]
  · dsimp only
    by_cases hj : j = s.ring.writeIndex
    · subst hj
      simp only [hself, reduceCtorEq, false_iff]
      rintro ⟨r, hr, hrw, payload, hf⟩
      rcases List.mem_append.mp hr with hr | hr
      · exact hnone r hr (outstanding_of_committed ⟨payload, hf⟩) hrw
      · rw [List.mem_singleton.mp hr] at hf
        cases hf
    · rw [hother j hj, h.ready j]
      simp
  · dsimp only
    rcases List.mem_append.mp hr with hr | hr
    · rw [hother r.slot (hnone r hr (outstanding_of_committed ⟨payload, hf⟩))]
      exact h.payload r hr payload hf
    · rw [List.mem_singleton.mp hr] at hf
      cases hf
  · dsimp only
    rw [hreadIndex, h.readIndex, List.countP_append]
    simp [Fate.isRead]

variable {log : List (Reservation shape α)}

theorem countP_mark (hf : fate.isRead = false) :
    ((mark log i fate).countP fun r => r.fate.isRead) = log.countP fun r => r.fate.isRead := by
  unfold mark
  rw [List.countP_map]
  refine List.countP_congr fun r _ => ?_
  dsimp only [Function.comp]
  split
  next hs =>
    rcases outstanding_iff.mp hs.2 with ho | ⟨payload, ho⟩
    · rw [hf, ho]
      exact Iff.rfl
    · rw [hf, ho]
      exact Iff.rfl
  · exact Iff.rfl

theorem Tracks.acquireRead (h : Tracks s) (hready : (s.ring.slot s.ring.readIndex).state = .ready)
    (hconfigured : ring.configured = s.ring.configured)
    (hself : (ring.slot s.ring.readIndex).state = .reading)
    (hother : ∀ j, j ≠ s.ring.readIndex → ring.slot j = s.ring.slot j)
    (hwriteIndex : ring.writeIndex = s.ring.writeIndex)
    (hreadIndex : ring.readIndex = nextIndex s.ring.readIndex) :
    Tracks ⟨ring, History.mark s.log s.ring.readIndex .read⟩ := by
  obtain ⟨x, hx, hxr, hf⟩ := (h.ready _).mp hready
  have ho : x.outstanding = true := outstanding_of_committed hf
  refine h.mark ⟨x, hx, hxr, ho⟩ hother hconfigured hwriteIndex (by simp [hself]) (by simp [hself]) (by simp) ?_
  obtain ⟨a, b, hlog⟩ := List.append_of_mem hx
  obtain ⟨payload, hf⟩ := hf
  rw [mark_split h.apart hlog hxr ho, hreadIndex, val_nextIndex _ h.readIndex, hlog]
  simp [hf, Fate.isRead, Nat.add_assoc]

theorem Tracks.step (h : Tracks s) (op : Op shape α) : Tracks (s.step op) := by
  have heffect := apply_effect s.ring op
  unfold History.step
  generalize s.ring.apply op = res at heffect ⊢
  cases heffect with
  | acquireWrite hc hfree =>
    exact h.acquireWrite hfree hc (congrArg BufferSlot.state (slot_modifySlot_self _))
      (fun j hj => slot_modifySlot_ne _ hj) rfl rfl
  | acquireRead hc hready =>
    exact h.acquireRead hready rfl (congrArg BufferSlot.state (slot_modifySlot_self _))
      (fun j hj => slot_modifySlot_ne _ hj) rfl rfl
  | @commit k i count hi hs hcount =>
    dsimp only
    rw [if_pos rfl]
    simp only [record, hi]
    obtain ⟨r, hr, hri, hf⟩ := (h.writing i).mp hs
    refine h.mark ⟨r, hr, hri, outstanding_of_writing hf⟩ (fun j hj => slot_modifySlot_ne _ hj)
      rfl rfl ?_ ?_ ?_ ?_
    · simp
    · simp
    · rintro payload ⟨⟩
      rw [slot_modifySlot_self]
    · rw [countP_mark rfl]
      exact h.readIndex
  | @cancel k i hi hs =>
    dsimp only
    rw [if_pos rfl]
    simp only [record, hi]
    obtain ⟨r, hr, hri, hf⟩ := (h.writing i).mp hs
    refine h.mark ⟨r, hr, hri, outstanding_of_writing hf⟩ (fun j hj => slot_modifySlot_ne _ hj)
      rfl rfl ?_ ?_ ?_ ?_
    · simp
    · simp
    · simp
    · rw [countP_mark rfl]
      exact h.readIndex
  | @write k i contents hi hs =>
    refine h.idle (fun j => ?_) (fun j hj => ?_) rfl rfl rfl
    · by_cases hji : j = i
      · subst hji
        simp
      · rw [slot_modifySlot_ne _ hji]
        exact ⟨Iff.rfl, Iff.rfl⟩
    · refine slot_modifySlot_ne _ ?_
      rintro rfl
      rw [hs] at hj
      cases hj
  | @release k i hi hs =>
    refine h.idle (fun j => ?_) (fun j hj => ?_) rfl rfl rfl
    · by_cases hji : j = i
      · subst hji
        simp [hs]
      · rw [slot_modifySlot_ne _ hji]
        exact ⟨Iff.rfl, Iff.rfl⟩
    · refine slot_modifySlot_ne _ ?_
      rintro rfl
      rw [hs] at hj
      cases hj
  | idle =>
    dsimp only
    rw [if_pos rfl]
    exact h
  | refused hs =>
    dsimp only
    rw [if_neg hs]
    exact h

theorem tracks_init (configured : Bool) (buffers : Table shape.nBuffers (Table shape.bufferSize α))
    : Tracks (init (SpscBufferDesc.init configured buffers)) := by
  refine ⟨fun hne => absurd rfl hne, rfl, ?_, List.Pairwise.nil, fun i => ?_, fun i => ?_, by simp [init], ?_⟩
  · simp [init, SpscBufferDesc.init, zeroIndex]
  · simp [init, SpscBufferDesc.init, slot]
  · simp [init, SpscBufferDesc.init, slot]
  · simp [init, SpscBufferDesc.init, zeroIndex]

/-- No reservation was read while an older one was outstanding. -/
def Ordered (s : History shape α) : Prop :=
  s.log.Pairwise fun r r' => r'.fate = .read → r.outstanding = false

theorem ordered_mark (h : log.Pairwise fun r r' => r'.fate = .read → r.outstanding = false)
    (hf : fate ≠ .read) :
    (mark log i fate).Pairwise fun r r' => r'.fate = .read → r.outstanding = false := by
  refine List.pairwise_map.mpr (h.imp fun {r r'} hrr hread => ?_)
  have hread' : r'.fate = .read := by
    split at hread
    · exact absurd hread hf
    · exact hread
  have ho := hrr hread'
  rw [if_neg fun hs => by rw [hs.2] at ho; cases ho]
  exact ho

variable {x : Reservation shape α}

theorem next_split (h : s.next = some x) :
    x.outstanding = true ∧ ∃ a b, s.log = a ++ x :: b ∧ ∀ r ∈ a, r.outstanding = false := by
  obtain ⟨ho, a, b, hlog, ha⟩ := List.find?_eq_some_iff_append.mp h
  exact ⟨ho, a, b, hlog, fun r hr => by simpa using ha r hr⟩

theorem Ordered.acquireRead (h : Ordered s) (ht : Tracks s) (hx : s.next = some x)
    (hxr : x.slot = s.ring.readIndex) : (mark s.log s.ring.readIndex .read).Pairwise fun r r' =>
    r'.fate = .read → r.outstanding = false := by
  obtain ⟨ho, a, b, hlog, ha⟩ := next_split hx
  rw [mark_split ht.apart hlog hxr ho]
  unfold Ordered at h
  rw [hlog] at h
  obtain ⟨haa, hb, hab⟩ := List.pairwise_append.mp h
  obtain ⟨-, hb⟩ := List.pairwise_cons.mp hb
  exact List.pairwise_append.mpr ⟨haa, List.pairwise_cons.mpr ⟨fun r _ _ => rfl, hb⟩,
    fun r hr r' _ _ => ha r hr⟩

theorem Ordered.step (h : Ordered s) (ht : Tracks s) {op : Op shape α}
    (hd : op = .acquireRead → Delivers s) : Ordered (s.step op) := by
  have heffect := apply_effect s.ring op
  unfold History.step
  generalize hres : s.ring.apply op = res at heffect ⊢
  cases heffect with
  | acquireWrite hc hfree =>
    refine List.pairwise_append.mpr ⟨h, by simp, fun r _ r' hr' hf => ?_⟩
    rw [List.mem_singleton.mp hr'] at hf
    cases hf
  | acquireRead hc hready =>
    have hdel := hd rfl
    have heq : s.ring.acquireRead = _ := hres
    unfold Delivers at hdel
    split at hdel
    next i payload hnext =>
      rw [heq] at hdel
      exact h.acquireRead ht hnext (Option.some.inj hdel.2.1).symm
    · exact absurd (congrArg Prod.fst heq) hdel
  | @commit k i count hi hs hcount =>
    dsimp only
    rw [if_pos rfl]
    simp only [record, hi]
    exact ordered_mark h (by simp)
  | @cancel k i hi hs =>
    dsimp only
    rw [if_pos rfl]
    simp only [record, hi]
    exact ordered_mark h (by simp)
  | write contents hi hs => exact h
  | release hi hs => exact h
  | idle => exact h
  | refused hs =>
    dsimp only
    rw [if_neg hs]
    exact h

theorem acquireRead_ready {d : SpscBufferDesc shape α}
    (hc : d.configured = true) (hready : (d.slot d.readIndex).state = .ready) : d.acquireRead.1 =
    .ok ∧ d.acquireRead.2.1.item = some d.readIndex ∧ d.acquireRead.2.2.readView d.acquireRead.2.1 =
    (d.slot d.readIndex).contents.cells.take (d.slot d.readIndex).size := by
  have heffect := apply_effect d .acquireRead
  generalize hres : d.apply .acquireRead = res at heffect
  cases heffect with
  | acquireRead =>
    have heq : d.acquireRead = _ := hres
    rw [heq]
    refine ⟨rfl, rfl, ?_⟩
    have hread : ({ d.modifySlot d.readIndex fun s => { s with state := .reading } with
        readIndex := nextIndex d.readIndex } : SpscBufferDesc shape α).slot d.readIndex =
          { d.slot d.readIndex with state := .reading } := slot_modifySlot_self _
    have hvalid : ({ d.modifySlot d.readIndex fun s => { s with state := .reading } with
        readIndex := nextIndex d.readIndex } : SpscBufferDesc shape α).isRead
          ⟨some d.readIndex, (d.slot d.readIndex).generation, .read⟩ = true :=
      (isRead_iff _).mpr ⟨d.readIndex, rfl, by rw [hread], rfl, by rw [hread]⟩
    simp only [readView, hvalid, if_true, hread]
  | @refused _ status hs =>
    have heq : d.acquireRead = (status, {}, d) := hres
    simp only [SpscBufferDesc.acquireRead, hc, hready, Bool.not_true, Bool.false_eq_true, ne_eq,
      not_true_eq_false, if_false, Prod.mk.injEq] at heq
    exact absurd heq.1.symm hs

theorem acquireRead_ok {d : SpscBufferDesc shape α} (hok : d.acquireRead.1 = .ok) :
    (d.slot d.readIndex).state = .ready ∧ d.acquireRead.2.1.item = some d.readIndex := by
  have heffect := apply_effect d .acquireRead
  generalize hres : d.apply .acquireRead = res at heffect
  have heq : d.acquireRead = res := hres
  rw [heq] at hok ⊢
  cases heffect with
  | acquireRead hc hready => exact ⟨hready, rfl⟩
  | refused hs => exact absurd hok hs

/-- The oldest outstanding reservation is at the read cursor when the cancelled ones before
it fill whole rounds. -/
theorem slot_eq_readIndex_iff (h : Tracks s) (ho : Ordered s) (hx : s.next = some x) :
    x.slot = s.ring.readIndex ↔ shape.nBuffers ∣ s.skipped := by
  obtain ⟨hxo, a, b, hlog, ha⟩ := next_split hx
  have hslot : x.slot.val = a.length % shape.nBuffers := by
    have hslots := h.slots
    have hget := congrArg (fun l => l[a.length]?) hslots
    simpa [hlog] using hget
  have hskipped : s.skipped = a.countP fun r => r.fate.isCancelled := by
    unfold skipped
    rw [hlog, List.takeWhile_append_of_pos fun r hr => by simp [ha r hr],
      List.takeWhile_cons_of_neg (by simp [hxo]), List.append_nil]
  have hread : (s.log.countP fun r => r.fate.isRead) = a.countP fun r => r.fate.isRead := by
    unfold Ordered at ho
    rw [hlog] at ho ⊢
    have hb := (List.pairwise_cons.mp (List.pairwise_append.mp ho).2.1).1
    have hrest : ((x :: b).countP fun r => r.fate.isRead) = 0 := by
      refine List.countP_eq_zero.mpr fun r hr hf => ?_
      have hrf : r.fate = .read := by
        cases hfate : r.fate with
        | read => rfl
        | _ => simp [hfate, Fate.isRead] at hf
      rcases List.mem_cons.mp hr with rfl | hr
      · rcases outstanding_iff.mp hxo with hw | ⟨payload, hw⟩ <;> rw [hrf] at hw <;> cases hw
      · rw [hb r hr hrf] at hxo
        cases hxo
    rw [List.countP_append, hrest, Nat.add_zero]
  have hlength : a.length = (a.countP fun r => r.fate.isRead) +
      a.countP fun r => r.fate.isCancelled := by
    clear hlog hslot hskipped hread
    induction a with
    | nil => rfl
    | cons r a ih =>
      have hr := ha r (by simp)
      rw [List.length_cons, ih fun r hr => ha r (by simp [hr]), List.countP_cons, List.countP_cons]
      unfold Reservation.outstanding at hr
      cases hf : r.fate <;> simp [hf, Fate.isRead, Fate.isCancelled] at hr ⊢ <;> omega
  rw [Fin.ext_iff, hslot, h.readIndex, hread, hlength, hskipped]
  generalize (a.countP fun r => r.fate.isRead) = reads
  generalize (a.countP fun r => r.fate.isCancelled) = cancelled
  have hmod := (Nat.modEq_iff_dvd' (n := shape.nBuffers) (Nat.le_add_right reads cancelled))
  rw [Nat.add_sub_cancel_left] at hmod
  exact eq_comm.trans hmod

theorem delivers_iff (h : Tracks s) (ho : Ordered s) : Delivers s ↔ Aligned s := by
  unfold Delivers Aligned
  split
  next i payload hnext =>
    have hslot := slot_eq_readIndex_iff h ho hnext
    obtain ⟨-, a, b, hlog, -⟩ := next_split hnext
    have hmem : (⟨i, .committed payload⟩ : Reservation shape α) ∈ s.log := by simp [hlog]
    constructor
    · rintro ⟨hok, hitem, -⟩ -
      rw [(acquireRead_ok hok).2] at hitem
      exact hslot.mp (Option.some.inj hitem).symm
    · intro haligned
      have hi : i = s.ring.readIndex := hslot.mpr (haligned (.inl ⟨i, payload, hnext⟩))
      have hready : (s.ring.slot s.ring.readIndex).state = .ready :=
        (h.ready _).mpr ⟨_, hmem, hi, payload, rfl⟩
      obtain ⟨hok, hitem, hview⟩ :=
        acquireRead_ready (h.configured (List.ne_nil_of_mem hmem)) hready
      refine ⟨hok, hitem.trans (congrArg some hi.symm), ?_⟩
      rw [hview, ← hi]
      exact (h.payload _ hmem payload rfl).symm
  next hnext =>
    -- a slot that is ready has a reservation, so there is an oldest one
    have hfirst (hready : (s.ring.slot s.ring.readIndex).state = .ready) :
        ∃ x, s.next = some x ∧ x.fate = .writing := by
      obtain ⟨r, hr, -, hf⟩ := (h.ready _).mp hready
      cases hx : s.next with
      | none =>
        have hro := List.find?_eq_none.mp hx r hr
        exact absurd (outstanding_of_committed hf) hro
      | some x =>
        rcases outstanding_iff.mp (next_split hx).1 with hw | ⟨payload, hw⟩
        · exact ⟨x, rfl, hw⟩
        · obtain ⟨i, fate⟩ := x
          simp only at hw
          subst hw
          exact absurd hx (hnext i payload)
    constructor
    · rintro hne (⟨i, payload, hx⟩ | hready)
      · exact absurd hx (hnext i payload)
      · obtain ⟨r, hr, -, -⟩ := (h.ready _).mp hready
        exact absurd (acquireRead_ready (h.configured (List.ne_nil_of_mem hr)) hready).1 hne
    · intro haligned hok
      have hready := (acquireRead_ok hok).1
      obtain ⟨x, hx, hw⟩ := hfirst hready
      have hxr := (slot_eq_readIndex_iff h ho hx).mpr (haligned (.inr hready))
      obtain ⟨-, a, b, hlog, -⟩ := next_split hx
      have hwriting := (h.writing _).mpr ⟨x, by simp [hlog], hxr, hw⟩
      rw [hready] at hwriting
      cases hwriting

theorem atReads_iff (h : Tracks s) (ho : Ordered s) (ops : List (Op shape α)) :
    AtReads Delivers s ops ↔ AtReads Aligned s ops := by
  induction ops generalizing s with
  | nil => exact Iff.rfl
  | cons op ops ih =>
    have hiff := delivers_iff h ho
    constructor
    · rintro ⟨hd, hrest⟩
      exact ⟨fun hop => hiff.mp (hd hop), (ih (h.step op) (ho.step h hd)).mp hrest⟩
    · rintro ⟨ha, hrest⟩
      have hd : op = .acquireRead → Delivers s := fun hop => hiff.mpr (ha hop)
      exact ⟨hd, (ih (h.step op) (ho.step h hd)).mpr hrest⟩

/-- In every run, `acquire_read` always gives out the oldest reservation that is neither
cancelled nor read, as soon as that is committed, if and only if the cancelled ones before it
always fill whole rounds of the ring. -/
theorem delivered_in_order_iff (configured : Bool)
    (buffers : Table shape.nBuffers (Table shape.bufferSize α)) (ops : List (Op shape α)) :
    AtReads Delivers (init (SpscBufferDesc.init configured buffers)) ops ↔
      AtReads Aligned (init (SpscBufferDesc.init configured buffers)) ops :=
  atReads_iff (tracks_init configured buffers) List.Pairwise.nil ops

/-- Slot 0 is reserved and given back, slot 1 is committed with the payload `[7]`. -/
def cancelledFirst : List (Op ⟨1, 2, by decide, by decide⟩ ℕ) :=
  [.acquireWrite, .acquireWrite, .cancel ⟨some 0, 1, .write⟩,
    .write ⟨some 1, 1, .write⟩ (.replicate 1 7), .commit ⟨some 1, 1, .write⟩ 1]

/-- The consumer then finds nothing, and gets `[8]`, which comes later, before `[7]`. -/
theorem cancelled_first_is_not_delivered :
    let s := (init (SpscBufferDesc.init true (.replicate 2 (.replicate 1 0)))).run cancelledFirst
    let later := s.run [.acquireWrite, .write ⟨some 0, 2, .write⟩ (.replicate 1 8),
      .commit ⟨some 0, 2, .write⟩ 1]
    s.next = some ⟨1, .committed [7]⟩ ∧ s.ring.acquireRead.1 = .empty ∧ ¬ s.Delivers ∧
      later.next = some ⟨1, .committed [7]⟩ ∧ later.ring.acquireRead.1 = .ok ∧
      later.ring.acquireRead.2.2.readView later.ring.acquireRead.2.1 = [8] ∧
      ¬ AtReads Delivers (init (SpscBufferDesc.init true (.replicate 2 (.replicate 1 0))))
        (cancelledFirst ++ [.acquireRead]) := by
  have hnext : ((init (SpscBufferDesc.init true (.replicate 2 (.replicate 1 0)))).run
      cancelledFirst).next = some ⟨1, .committed [7]⟩ := by decide
  have hnot : ¬ ((init (SpscBufferDesc.init true (.replicate 2 (.replicate 1 0)))).run
      cancelledFirst).Delivers := by decide
  refine ⟨hnext, by decide, hnot, by decide, by decide,
    by decide, fun hall => hnot ?_⟩
  obtain ⟨-, -, -, -, -, hlast, -⟩ := hall
  exact hlast rfl

end History
end Castle.Container.SpscBufferDesc
