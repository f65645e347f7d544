import Castle.Status
import Castle.Lib.Table

/-!
# The SPSC buffer descriptor ring (`spsc_buffer_desc.hpp`)

Every operation loads the state of one slot and ends with one store to it. The producer
changes slots that are `free` or `writing`, the consumer slots that are `ready` or
`reading`, so what one of them has loaded the other does not change.
-/

namespace Castle.Container

/-- The template parameters `BUFFER_SIZE` and `N_BUFFERS`. -/
structure BufferShape where
  bufferSize : ℕ
  nBuffers : ℕ
  bufferSize_pos : 0 < bufferSize
  nBuffers_pos : 0 < nBuffers

namespace SpscBufferDesc

variable {shape : BufferShape} {α : Type}

inductive BufferState where
  | free | writing | ready | reading
  deriving DecidableEq

inductive DescriptorMode where
  | none | write | read
  deriving DecidableEq

structure BufferSlot (shape : BufferShape) (α : Type) where
  /-- what `pbuffer` points to -/
  contents : Table shape.bufferSize α
  state : BufferState
  size : ℕ
  generation : UInt32
  deriving DecidableEq

end SpscBufferDesc

open SpscBufferDesc

structure SpscBufferDesc (shape : BufferShape) (α : Type) where
  /-- `buffers_ != nullptr` -/
  configured : Bool
  slots : Table shape.nBuffers (BufferSlot shape α)
  writeIndex : Fin shape.nBuffers
  readIndex : Fin shape.nBuffers
  deriving DecidableEq

structure BufferHandle (shape : BufferShape) where
  item : Option (Fin shape.nBuffers) := none
  generation : UInt32 := 0
  mode : DescriptorMode := .none
  deriving DecidableEq

namespace SpscBufferDesc

variable {shape : BufferShape} {α : Type} (d : SpscBufferDesc shape α) (h : BufferHandle shape)

def zeroIndex (shape : BufferShape) : Fin shape.nBuffers := ⟨0, shape.nBuffers_pos⟩

/-- A new descriptor over buffers with some contents. -/
def init (configured : Bool) (buffers : Table shape.nBuffers (Table shape.bufferSize α)) :
    SpscBufferDesc shape α where
  configured
  slots := buffers.map fun contents => { contents, state := .free, size := 0, generation := 0 }
  writeIndex := zeroIndex shape
  readIndex := zeroIndex shape

def slot (i : Fin shape.nBuffers) : BufferSlot shape α := d.slots.get i

def modifySlot (i : Fin shape.nBuffers) (f : BufferSlot shape α → BufferSlot shape α) :
    SpscBufferDesc shape α :=
  { d with slots := d.slots.modify i f }

def nextIndex (index : Fin shape.nBuffers) : Fin shape.nBuffers :=
  if h : index + 1 = shape.nBuffers then zeroIndex shape else ⟨index + 1, by omega⟩

def nextGeneration (generation : UInt32) : UInt32 :=
  if generation + 1 = 0 then 1 else generation + 1

def isValid : Bool :=
  match h.item with
  | none => false
  | some i =>
    if h.generation ≠ (d.slot i).generation then false
    else
      (h.mode = .write && (d.slot i).state = .writing) ||
        (h.mode = .read && (d.slot i).state = .reading)

def isWrite : Bool := d.isValid h && h.mode = .write

def isRead : Bool := d.isValid h && h.mode = .read

/-- The elements of `read_view()`. -/
def readView : List α :=
  match h.item with
  | none => []
  | some i => if d.isRead h then (d.slot i).contents.cells.take (d.slot i).size else []

/-- Writing `contents` through `write_view()`, which is empty unless the handle is valid. -/
def write (contents : Table shape.bufferSize α) : SpscBufferDesc shape α :=
  match h.item with
  | none => d
  | some i => if d.isWrite h then d.modifySlot i fun s => { s with contents } else d

def commit (count : ℕ) : Status × SpscBufferDesc shape α :=
  match h.item with
  | none => (.invalidArgument, d)
  | some i =>
    if !d.isWrite h then (.invalidArgument, d)
    else if count > shape.bufferSize then (.outOfRange, d)
    else (.ok, d.modifySlot i fun s => { s with size := count, state := .ready })

def release : Status × SpscBufferDesc shape α :=
  match h.item with
  | none => (.invalidArgument, d)
  | some i =>
    if !d.isRead h then (.invalidArgument, d)
    else (.ok, d.modifySlot i fun s => { s with size := 0, state := .free })

def cancel : Status × SpscBufferDesc shape α :=
  match h.item with
  | none => (.invalidArgument, d)
  | some i =>
    if !d.isWrite h then (.invalidArgument, d)
    else (.ok, d.modifySlot i fun s => { s with size := 0, state := .free })

def acquireWrite : Status × BufferHandle shape × SpscBufferDesc shape α :=
  let index := d.writeIndex
  if !d.configured then (.invalidConfig, {}, d)
  else if (d.slot index).state ≠ .free then (.full, {}, d)
  else
    let generation := nextGeneration (d.slot index).generation
    let d := d.modifySlot index fun s => { s with generation, size := 0, state := .writing }
    (.ok, ⟨some index, generation, .write⟩, { d with writeIndex := nextIndex d.writeIndex })

def acquireRead : Status × BufferHandle shape × SpscBufferDesc shape α :=
  let index := d.readIndex
  if !d.configured then (.invalidConfig, {}, d)
  else if (d.slot index).state ≠ .ready then (.empty, {}, d)
  else
    let d := d.modifySlot index fun s => { s with state := .reading }
    (.ok, ⟨some index, (d.slot index).generation, .read⟩,
      { d with readIndex := nextIndex d.readIndex })

/-- The body of the loop of `clear`. -/
def clearSlot (s : BufferSlot shape α) : BufferSlot shape α :=
  { s with size := 0, generation := nextGeneration s.generation, state := .free }

def clear : SpscBufferDesc shape α :=
  { d with
    slots := d.slots.map clearSlot, writeIndex := zeroIndex shape, readIndex := zeroIndex shape }

/-- What the producer and the consumer do, with any handles. -/
inductive Op (shape : BufferShape) (α : Type) where
  | acquireWrite
  | write (h : BufferHandle shape) (contents : Table shape.bufferSize α)
  | commit (h : BufferHandle shape) (count : ℕ)
  | cancel (h : BufferHandle shape)
  | acquireRead
  | release (h : BufferHandle shape)
  deriving DecidableEq

/-- One operation: its status, the handle that an acquisition fills in, and the ring. -/
def apply : Op shape α → Status × BufferHandle shape × SpscBufferDesc shape α
  | .acquireWrite => d.acquireWrite
  | .write h contents => (.ok, {}, d.write h contents)
  | .commit h count => ((d.commit h count).1, {}, (d.commit h count).2)
  | .cancel h => ((d.cancel h).1, {}, (d.cancel h).2)
  | .acquireRead => d.acquireRead
  | .release h => ((d.release h).1, {}, (d.release h).2)

section updates

variable {d} {i j : Fin shape.nBuffers}

@[simp] theorem slot_modifySlot_self (f : BufferSlot shape α → BufferSlot shape α) :
    (d.modifySlot i f).slot i = f (d.slot i) := by
  simp [modifySlot, slot]

@[simp] theorem slot_modifySlot_ne (f : BufferSlot shape α → BufferSlot shape α) (hj : j ≠ i) :
    (d.modifySlot i f).slot j = d.slot j := by
  simp [modifySlot, slot, hj]

theorem isValid_iff : d.isValid h = true ↔ ∃ i, h.item = some i ∧
    h.generation = (d.slot i).generation ∧
      (h.mode = .write ∧ (d.slot i).state = .writing ∨
        h.mode = .read ∧ (d.slot i).state = .reading) := by
  unfold isValid
  split
  next hi => simp [hi]
  next i hi =>
    rw [hi]
    by_cases hg : h.generation = (d.slot i).generation
    · simp [hg]
    · simp [hg]

theorem isWrite_iff : d.isWrite h = true ↔ ∃ i, h.item = some i ∧
    h.generation = (d.slot i).generation ∧ h.mode = .write ∧ (d.slot i).state = .writing := by
  unfold isWrite
  rw [Bool.and_eq_true, isValid_iff]
  constructor
  · rintro ⟨⟨i, hi, hg, ⟨hm, hs⟩ | ⟨hm, -⟩⟩, hw⟩
    · exact ⟨i, hi, hg, hm, hs⟩
    · simp [hm] at hw
  · rintro ⟨i, hi, hg, hm, hs⟩
    exact ⟨⟨i, hi, hg, .inl ⟨hm, hs⟩⟩, by simp [hm]⟩

theorem isRead_iff : d.isRead h = true ↔ ∃ i, h.item = some i ∧
    h.generation = (d.slot i).generation ∧ h.mode = .read ∧ (d.slot i).state = .reading := by
  unfold isRead
  rw [Bool.and_eq_true, isValid_iff]
  constructor
  · rintro ⟨⟨i, hi, hg, ⟨hm, -⟩ | ⟨hm, hs⟩⟩, hr⟩
    · simp [hm] at hr
    · exact ⟨i, hi, hg, hm, hs⟩
  · rintro ⟨i, hi, hg, hm, hs⟩
    exact ⟨⟨i, hi, hg, .inr ⟨hm, hs⟩⟩, by simp [hm]⟩

/-- Everything that an operation can do. -/
inductive Effect (d : SpscBufferDesc shape α) :
    Op shape α → Status × BufferHandle shape × SpscBufferDesc shape α → Prop
  | acquireWrite (hc : d.configured = true) (hfree : (d.slot d.writeIndex).state = .free) :
    Effect d .acquireWrite (.ok,
      ⟨some d.writeIndex, nextGeneration (d.slot d.writeIndex).generation, .write⟩,
      { d.modifySlot d.writeIndex fun s =>
          { s with
            generation := nextGeneration (d.slot d.writeIndex).generation
            size := 0, state := .writing } with
        writeIndex := nextIndex d.writeIndex })
  | write {h : BufferHandle shape} {i : Fin shape.nBuffers} (contents : Table shape.bufferSize α)
    (hi : h.item = some i) (hs : (d.slot i).state = .writing) :
    Effect d (.write h contents) (.ok, {}, d.modifySlot i fun s => { s with contents })
  | commit {h : BufferHandle shape} {i : Fin shape.nBuffers} {count : ℕ}
    (hi : h.item = some i) (hs : (d.slot i).state = .writing) (hcount : count ≤ shape.bufferSize) :
    Effect d (.commit h count)
      (.ok, {}, d.modifySlot i fun s => { s with size := count, state := .ready })
  | cancel {h : BufferHandle shape} {i : Fin shape.nBuffers}
    (hi : h.item = some i) (hs : (d.slot i).state = .writing) :
    Effect d (.cancel h) (.ok, {}, d.modifySlot i fun s => { s with size := 0, state := .free })
  | acquireRead (hc : d.configured = true) (hready : (d.slot d.readIndex).state = .ready) :
    Effect d .acquireRead (.ok, ⟨some d.readIndex, (d.slot d.readIndex).generation, .read⟩,
      { d.modifySlot d.readIndex fun s => { s with state := .reading } with
        readIndex := nextIndex d.readIndex })
  | release {h : BufferHandle shape} {i : Fin shape.nBuffers}
    (hi : h.item = some i) (hs : (d.slot i).state = .reading) :
    Effect d (.release h) (.ok, {}, d.modifySlot i fun s => { s with size := 0, state := .free })
  | idle {h : BufferHandle shape} {contents : Table shape.bufferSize α} :
    Effect d (.write h contents) (.ok, {}, d)
  | refused {op : Op shape α} {s : Status} (hs : s ≠ .ok) : Effect d op (s, {}, d)

theorem apply_effect (d : SpscBufferDesc shape α) (op : Op shape α) : Effect d op (d.apply op) := by
  cases op with
  | acquireWrite =>
    show Effect d _ d.acquireWrite
    unfold acquireWrite
    by_cases hc : d.configured = true
    · by_cases hs : (d.slot d.writeIndex).state = .free
      · simp only [hc, hs, Bool.not_true, Bool.false_eq_true, ne_eq, not_true_eq_false, if_false]
        exact .acquireWrite hc hs
      · simp only [hc, hs, Bool.not_true, Bool.false_eq_true, ne_eq, not_false_eq_true, if_false,
          if_true]
        exact .refused (by simp)
    · simp only [hc, Bool.not_false, if_true]
      exact .refused (by simp)
  | write h contents =>
    show Effect d _ (.ok, {}, d.write h contents)
    by_cases hw : d.isWrite h = true
    · obtain ⟨i, hi, -, -, hs⟩ := (isWrite_iff h).mp hw
      have hwrite : d.write h contents = d.modifySlot i fun s => { s with contents } := by
        simp only [write, hi, hw, if_true]
      rw [hwrite]
      exact .write contents hi hs
    · have hwrite : d.write h contents = d := by
        cases hi : h.item <;> simp [write, hi, hw]
      rw [hwrite]
      exact .idle
  | commit h count =>
    show Effect d _ ((d.commit h count).1, {}, (d.commit h count).2)
    by_cases hw : d.isWrite h = true
    · obtain ⟨i, hi, -, -, hs⟩ := (isWrite_iff h).mp hw
      by_cases hcount : count > shape.bufferSize
      · have hcommit : d.commit h count = (.outOfRange, d) := by
          simp [commit, hi, hw, hcount]
        rw [hcommit]
        exact .refused (by simp)
      · have hcommit : d.commit h count =
            (.ok, d.modifySlot i fun s => { s with size := count, state := .ready }) := by
          simp [commit, hi, hw, hcount]
        rw [hcommit]
        exact .commit hi hs (by omega)
    · have hcommit : d.commit h count = (.invalidArgument, d) := by
        cases hi : h.item <;> simp [commit, hi, hw]
      rw [hcommit]
      exact .refused (by simp)
  | cancel h =>
    show Effect d _ ((d.cancel h).1, {}, (d.cancel h).2)
    by_cases hw : d.isWrite h = true
    · obtain ⟨i, hi, -, -, hs⟩ := (isWrite_iff h).mp hw
      have hcancel : d.cancel h =
          (.ok, d.modifySlot i fun s => { s with size := 0, state := .free }) := by
        simp [cancel, hi, hw]
      rw [hcancel]
      exact .cancel hi hs
    · have hcancel : d.cancel h = (.invalidArgument, d) := by
        cases hi : h.item <;> simp [cancel, hi, hw]
      rw [hcancel]
      exact .refused (by simp)
  | acquireRead =>
    show Effect d _ d.acquireRead
    unfold acquireRead
    by_cases hc : d.configured = true
    · by_cases hs : (d.slot d.readIndex).state = .ready
      · simp only [hc, hs, Bool.not_true, Bool.false_eq_true, ne_eq, not_true_eq_false, if_false,
          slot_modifySlot_self]
        exact .acquireRead hc hs
      · simp only [hc, hs, Bool.not_true, Bool.false_eq_true, ne_eq, not_false_eq_true, if_false,
          if_true]
        exact .refused (by simp)
    · simp only [hc, Bool.not_false, if_true]
      exact .refused (by simp)
  | release h =>
    show Effect d _ ((d.release h).1, {}, (d.release h).2)
    by_cases hr : d.isRead h = true
    · obtain ⟨i, hi, -, -, hs⟩ := (isRead_iff h).mp hr
      have hrelease : d.release h =
          (.ok, d.modifySlot i fun s => { s with size := 0, state := .free }) := by
        simp [release, hi, hr]
      rw [hrelease]
      exact .release hi hs
    · have hrelease : d.release h = (.invalidArgument, d) := by
        cases hi : h.item <;> simp [release, hi, hr]
      rw [hrelease]
      exact .refused (by simp)

end updates

end SpscBufferDesc
end Castle.Container
