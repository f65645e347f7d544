import Castle.Lib.BoundedQueue
import Castle.Container.MirroredRingBuffer.State

/-!
# The mirrored ring buffer as a bounded queue

Runs of any length from an empty buffer. The positions come from indices that wrap modulo
the range of `size_type`; for an `N` that does not divide the range the positions jump
there, and the buffer is a queue as long as no operation depends on that place.
-/

namespace Castle.Container.MirroredRingBuffer

open Cells

variable {shape : RingShape} {α : Type}

inductive Op (α : Type) where
  | push (value : α)
  | pushBulk (src : Option (List α))
  /-- `write_reserve`, writing through the view, and `write_commit` of what was written. -/
  | write (maxReserveSize : ℕ) (contents : List α)
  /-- The same after `write_reserve_optimal`. -/
  | writeOptimal (minReserveSize : ℕ) (contents : List α)
  | pop
  | popDiscard
  | popBulk (dst : Bool) (maxCount : ℕ)
  /-- `read_reserve`, reading the view, and `read_commit` of its first `count` elements. -/
  | read (maxReserveSize count : ℕ)
  | peek (index : ℕ)
  | clear

/-- What an operation returns: a status, a count or the size of a view, and the elements
that the caller gets to see. -/
structure Reply (α : Type) where
  status : Status := .ok
  count : ℕ := 0
  elements : List α := []
  deriving DecidableEq

/-- Write through a view and commit that part of it. -/
def fillAndCommit (s : MirroredRingBuffer shape α) (view : ArrayView) (contents : List α) :
    Status × MirroredRingBuffer shape α :=
  (s.fillView view contents).writeCommit ⟨view.data, min contents.length view.size⟩

@[simp]
def apply (s : MirroredRingBuffer shape α) : Op α → Reply α × MirroredRingBuffer shape α
  | .push value =>
    let (status, s) := s.push value
    ({ status }, s)
  | .pushBulk src =>
    let (count, s) := s.pushBulk src
    ({ count }, s)
  | .write maxReserveSize contents =>
    let view := s.writeReserve maxReserveSize
    let (status, s) := s.fillAndCommit view contents
    ({ status, count := view.size }, s)
  | .writeOptimal minReserveSize contents =>
    let view := s.writeReserveOptimal minReserveSize
    let (status, s) := s.fillAndCommit view contents
    ({ status, count := view.size }, s)
  | .pop =>
    let (status, out, s) := s.pop
    ({ status, elements := out.toList }, s)
  | .popDiscard =>
    let (status, s) := s.popDiscard
    ({ status }, s)
  | .popBulk dst maxCount =>
    let (elements, s) := s.popBulk dst maxCount
    ({ count := elements.length, elements }, s)
  | .read maxReserveSize count =>
    let view := s.readReserve maxReserveSize
    let elements := s.viewElements view
    let (status, s) := s.readCommit ⟨view.data, count⟩
    ({ status, count := view.size, elements }, s)
  | .peek index =>
    let (status, out) := s.peek index
    ({ status, elements := out.toList }, s)
  | .clear => ({}, s.clear)

def run (s : MirroredRingBuffer shape α) : List (Op α) → List (Reply α) × MirroredRingBuffer shape α
  | [] => ([], s)
  | op :: ops =>
    let (reply, s) := s.apply op
    let (replies, s) := run s ops
    (reply :: replies, s)

abbrev Queue (shape : RingShape) (α : Type) := BoundedQueue shape.n α

/-- What a queue answers to an operation. -/
@[simp]
def Queue.apply (q : Queue shape α) : Op α → Reply α × Queue shape α
  | .push value => if q.free = 0 then ({ status := .full }, q) else ({}, q.enqueue [value])
  | .pushBulk none => ({}, q)
  | .pushBulk (some src) => ({ count := min src.length q.free }, q.enqueue src)
  | .write maxReserveSize contents =>
    ({ count := min maxReserveSize q.free }, q.enqueue (contents.take maxReserveSize))
  | .writeOptimal minReserveSize contents =>
    if q.free < minReserveSize then ({}, q) else ({ count := q.free }, q.enqueue contents)
  | .pop =>
    ({ status := if q.size = 0 then .empty else .ok, elements := q.elements.take 1 }, q.dequeue 1)
  | .popDiscard => ({ status := if q.size = 0 then .empty else .ok }, q.dequeue 1)
  | .popBulk dst maxCount =>
    if !dst then ({}, q)
    else
      ({ count := min maxCount q.size, elements := q.elements.take maxCount }, q.dequeue maxCount)
  | .read maxReserveSize count =>
    let elements := q.elements.take maxReserveSize
    if q.size < count then ({ status := .empty, count := elements.length, elements }, q)
    else ({ count := elements.length, elements }, q.dequeue count)
  | .peek index =>
    ({ status := if index < q.size then .ok else .outOfRange, elements := q.elements[index]?.toList },
      q)
  | .clear => ({}, BoundedQueue.empty)

def Queue.run (q : Queue shape α) : List (Op α) → List (Reply α) × Queue shape α
  | [] => ([], q)
  | op :: ops =>
    let (reply, q) := Queue.apply q op
    let (replies, q) := Queue.run q ops
    (reply :: replies, q)

/-- The number of elements that an operation adds. -/
@[simp]
def written (s : MirroredRingBuffer shape α) : Op α → ℕ
  | .push _ => min 1 s.writableSize.toNat
  | .pushBulk (some src) => min src.length s.writableSize.toNat
  | .write maxReserveSize contents =>
    min contents.length (min maxReserveSize s.writableSize.toNat)
  | .writeOptimal minReserveSize contents =>
    if s.writableSize.toNat < minReserveSize then 0 else min contents.length s.writableSize.toNat
  | _ => 0

/-- The number of elements that an operation takes away. -/
@[simp]
def released (s : MirroredRingBuffer shape α) : Op α → ℕ
  | .pop | .popDiscard => min 1 s.size.toNat
  | .popBulk true maxCount => min maxCount s.size.toNat
  | .read _ count => if s.size.toNat < count then 0 else count
  | .clear => s.size.toNat
  | _ => 0

/-- New elements follow those that are there, and what is left after a release begins where
it was. -/
def Seamless (s : MirroredRingBuffer shape α) (op : Op α) : Prop :=
  (0 < s.written op → 0 < s.size.toNat →
    physicalIndex s.writeIndex = (physicalIndex s.readIndex + s.size.toNat) % shape.n) ∧
  (s.released op < s.size.toNat →
    physicalIndex (s.readIndex + BitVec.ofNat _ (s.released op)) =
      (physicalIndex s.readIndex + s.released op) % shape.n)

instance (s : MirroredRingBuffer shape α) (op : Op α) : Decidable (s.Seamless op) := by
  unfold Seamless
  infer_instance

/-- Every operation of a run is seamless in the state that it meets. -/
def SeamlessRun (s : MirroredRingBuffer shape α) : List (Op α) → Prop
  | [] => True
  | op :: ops => s.Seamless op ∧ SeamlessRun (s.apply op).2 ops

instance SeamlessRun.decide (s : MirroredRingBuffer shape α) :
    (ops : List (Op α)) → Decidable (s.SeamlessRun ops)
  | [] => .isTrue trivial
  | op :: ops =>
    have := SeamlessRun.decide (s.apply op).2 ops
    inferInstanceAs (Decidable (s.Seamless op ∧ SeamlessRun (s.apply op).2 ops))

structure Refines (s : MirroredRingBuffer shape α) (q : Queue shape α) : Prop where
  size : s.size = BitVec.ofNat _ q.size
  cells : Mirrored shape.n s.storage (physicalIndex s.readIndex) q.elements

/-- The buffer shows the queue: its sizes, and its contents as one block of the storage that
`data()` points to. -/
structure Shows (s : MirroredRingBuffer shape α) (q : Queue shape α) : Prop where
  size : s.size.toNat = q.size
  available : s.available.toNat = q.free
  data : s.data s.size.toNat = q.elements
  block : physicalIndex s.readIndex + s.size.toNat ≤ 2 * shape.n

namespace Refines

variable {s : MirroredRingBuffer shape α} {q : Queue shape α}

section

variable (h : Refines s q)
include h

theorem toNat_size : s.size.toNat = q.size := by
  rw [h.size, BitVec.toNat_ofNat, Nat.mod_eq_of_lt (shape.lt_two_pow q.size_le)]

theorem toNat_free : (BitVec.ofNat shape.width shape.n - s.size).toNat = q.free := by
  have hsum := q.size_add_free
  have hn : BitVec.ofNat shape.width shape.n = BitVec.ofNat _ q.free + s.size := by
    rw [h.size, BitVec.ofNat_add_ofNat, Nat.add_comm, hsum]
  rw [hn, BitVec.add_sub_cancel, BitVec.toNat_ofNat,
    Nat.mod_eq_of_lt (shape.lt_two_pow (by omega))]

theorem writableSize : s.writableSize.toNat = q.free := h.toNat_free

theorem readableSize : s.readableSize.toNat = q.size := h.toNat_size

theorem writeIndex : s.writeIndex = s.readIndex + BitVec.ofNat _ q.size := by
  have hsize := BitVec.sub_eq_iff_eq_add.mp h.size
  rw [hsize, BitVec.add_comm]

end

theorem init (value : α) : Refines (init value) (BoundedQueue.empty : Queue shape α) :=
  ⟨by simp [MirroredRingBuffer.size, MirroredRingBuffer.init, BoundedQueue.size], Mirrored.nil⟩

section

variable (h : Refines s q)
include h

theorem frame {storage : ℕ → α}
    (hseam : 0 < q.size →
      physicalIndex s.writeIndex = (physicalIndex s.readIndex + q.size) % shape.n)
    (hsame : ∀ p, p < 2 * shape.n →
      (∀ j < q.free, p % shape.n ≠ (physicalIndex s.writeIndex + j) % shape.n) →
      storage p = s.storage p) :
    Refines { s with storage } q := by
  have hsum := q.size_add_free
  refine ⟨h.size, h.cells.frame shape.n_pos fun p hp hin => hsame p hp fun j hj => ?_⟩
  obtain ⟨k, hk, hpk⟩ := hin
  have hk' : k < q.size := hk
  rw [hpk, Nat.add_mod (physicalIndex s.writeIndex), hseam (by omega), Nat.mod_mod, ← Nat.add_mod]
  exact mod_ne_of_lt (by omega) (by omega)

/-- Mirrored elements after those of the queue are enqueued by the store of the write index. -/
theorem publish {xs : List α} (hfit : xs.length ≤ q.free)
    (hseam : 0 < xs.length → 0 < q.size →
      physicalIndex s.writeIndex = (physicalIndex s.readIndex + q.size) % shape.n)
    (hcells : Mirrored shape.n s.storage (physicalIndex s.writeIndex) xs) :
    Refines { s with writeIndex := s.writeIndex + BitVec.ofNat _ xs.length } (q.enqueue xs) := by
  have htake : xs.take q.free = xs := List.take_of_length_le hfit
  constructor
  · show s.writeIndex + BitVec.ofNat _ xs.length - s.readIndex = _
    rw [BitVec.sub_eq_iff_eq_add, h.writeIndex, BitVec.add_assoc, BitVec.ofNat_add_ofNat,
      BitVec.add_comm]
    simp [BoundedQueue.size, htake]
  · show Mirrored shape.n s.storage (physicalIndex s.readIndex) _
    rw [BoundedQueue.elements_enqueue, htake]
    by_cases hxs : xs.length = 0
    · rw [List.length_eq_zero_iff.mp hxs, List.append_nil]
      exact h.cells
    refine h.cells.append (hcells.congr ?_)
    by_cases hq : q.size = 0
    · rw [h.writeIndex, hq]
      simp [List.length_eq_zero_iff.mp hq]
    · rw [hseam (by omega) (by omega), Nat.mod_mod]
      rfl

theorem commitWrite {xs : List α} (hfit : xs.length ≤ q.free)
    (hseam : 0 < xs.length → 0 < q.size →
      physicalIndex s.writeIndex = (physicalIndex s.readIndex + q.size) % shape.n) :
    Refines (({ s with storage := fill s.storage (physicalIndex s.writeIndex) xs } :
      MirroredRingBuffer shape α).commitWrite s.writeIndex xs.length) (q.enqueue xs) := by
  have hsum := q.size_add_free
  have hlt := physicalIndex_lt s.writeIndex
  have hmirrored := @mirror_fill _ s.storage _ xs _ hlt (by omega)
  unfold MirroredRingBuffer.commitWrite
  rw [mirrorRange_eq]
  have hstorage : Refines { s with
      storage :=
        mirror shape.n (fill s.storage (physicalIndex s.writeIndex) xs) (physicalIndex s.writeIndex)
          xs.length } q := by
    by_cases hxs : 0 < xs.length
    · refine h.frame (hseam hxs) fun p hp hfree => ?_
      exact mirror_fill_outside hlt (by omega) hp fun i hi => hfree i (by omega)
    · refine ⟨h.size, h.cells.frame shape.n_pos fun p hp _ => ?_⟩
      exact mirror_fill_outside hlt (by omega) hp fun i hi => absurd hi (by omega)
  exact hstorage.publish hfit hseam hmirrored

theorem commitRead {count : ℕ} (hcount : count ≤ q.size)
    (hseam : count < q.size → physicalIndex (s.readIndex + BitVec.ofNat _ count) =
      (physicalIndex s.readIndex + count) % shape.n) :
    Refines (s.commitRead s.readIndex count) (q.dequeue count) := by
  constructor
  · show s.writeIndex - (s.readIndex + BitVec.ofNat _ count) = _
    have hsplit : q.size = (q.dequeue count).size + count := by
      simp only [BoundedQueue.size, BoundedQueue.elements_dequeue, List.length_drop] at hcount ⊢
      omega
    rw [BitVec.sub_eq_iff_eq_add, h.writeIndex, hsplit, ← BitVec.ofNat_add_ofNat]
    ac_rfl
  · show Mirrored shape.n s.storage (physicalIndex (s.readIndex + BitVec.ofNat _ count)) _
    rw [BoundedQueue.elements_dequeue]
    by_cases hlt : count < q.size
    · exact (h.cells.drop count).congr (by rw [hseam hlt, Nat.mod_mod])
    · rw [List.drop_of_length_le (by unfold BoundedQueue.size at hlt; omega)]
      exact Mirrored.nil

theorem readCells_eq {k : ℕ} (hk : k ≤ q.size) :
    readCells s.storage (physicalIndex s.readIndex) k = q.elements.take k :=
  h.cells.readCells_eq (physicalIndex_lt _) q.length_le hk

theorem get {k : ℕ} (hk : k < q.elements.length) :
    s.storage (physicalIndex s.readIndex + k) = q.elements[k] :=
  h.cells.get (physicalIndex_lt _) q.length_le hk

theorem push (value : α) (hseam : s.Seamless (.push value)) :
    (s.apply (.push value)).1 = (Queue.apply q (.push value)).1 ∧
      Refines (s.apply (.push value)).2 (Queue.apply q (.push value)).2 := by
  have hfree := h.writableSize
  by_cases hf : q.free = 0
  · have hzero : s.writableSize = 0 := BitVec.eq_of_toNat_eq (by simpa [hf] using hfree)
    simp only [MirroredRingBuffer.apply, MirroredRingBuffer.push, if_pos hzero, Queue.apply,
      if_pos hf]
    exact ⟨trivial, h⟩
  · have hzero : s.writableSize ≠ 0 := fun hz => hf (by rw [← hfree, hz]; rfl)
    simp only [MirroredRingBuffer.apply, MirroredRingBuffer.push, if_neg hzero, Queue.apply,
      if_neg hf]
    refine ⟨trivial, @Refines.commitWrite _ _ _ _ h ([value]) (by simp; omega) fun _ hq => ?_⟩
    rw [← h.toNat_size] at hq ⊢
    exact hseam.1 (by simp; omega) hq

end

theorem pushBulk (h : Refines s q) (src : Option (List α)) (hseam : s.Seamless (.pushBulk src)) :
    (s.apply (.pushBulk src)).1 = (Queue.apply q (.pushBulk src)).1 ∧
      Refines (s.apply (.pushBulk src)).2 (Queue.apply q (.pushBulk src)).2 := by
  cases src with
  | none => exact ⟨rfl, h⟩
  | some src =>
    have hcount : (if src.length < s.writableSize.toNat then src.length else s.writableSize.toNat) =
        min src.length q.free := by
      rw [h.writableSize, ← min_def_lt]
    simp only [MirroredRingBuffer.apply, MirroredRingBuffer.pushBulk, hcount, Queue.apply]
    refine ⟨trivial, ?_⟩
    have hlength : (src.take (min src.length q.free)).length = min src.length q.free := by simp
    have hcommit := @Refines.commitWrite _ _ _ _ h (src.take (min src.length q.free)) (by omega) fun hxs hq => by
      rw [← h.toNat_size] at hq ⊢
      exact hseam.1 (by simp only [MirroredRingBuffer.written, h.writableSize]; omega) hq
    rw [hlength] at hcommit
    have henqueue : q.enqueue (src.take (min src.length q.free)) = q.enqueue src :=
      BoundedQueue.ext_elements (by simp [List.take_take, min_comm])
    rwa [henqueue] at hcommit

section

variable (h : Refines s q)
include h

theorem fillAndCommit {view : ArrayView} {contents : List α}
    (hdata : view.data = physicalIndex s.writeIndex) (hview : view.size ≤ q.free)
    (hseam : 0 < min contents.length view.size → 0 < q.size →
      physicalIndex s.writeIndex = (physicalIndex s.readIndex + q.size) % shape.n) :
    (s.fillAndCommit view contents).1 = .ok ∧
      Refines (s.fillAndCommit view contents).2 (q.enqueue (contents.take view.size)) := by
  have hlength : (contents.take view.size).length = min contents.length view.size := by
    rw [List.length_take, min_comm]
  have hcommit := @Refines.commitWrite _ _ _ _ h (contents.take view.size) (by omega) (by rwa [hlength])
  rw [hlength] at hcommit
  unfold MirroredRingBuffer.fillAndCommit writeCommit fillView
  simp only
  rw [if_neg (by simp [hdata])]
  by_cases hzero : min contents.length view.size = 0
  · rw [if_pos hzero]
    have hnil : contents.take view.size = [] := List.length_eq_zero_iff.mp (hlength.trans hzero)
    refine ⟨rfl, ?_⟩
    rw [hnil, (BoundedQueue.ext_elements (by simp) : q.enqueue [] = q)]
    exact h
  · have hfree : (({ s with storage := fill s.storage view.data (contents.take view.size) } :
        MirroredRingBuffer shape α).freeSizeFrom s.writeIndex).toNat = q.free := h.toNat_free
    rw [if_neg hzero, hfree, if_neg (by omega), hdata]
    exact ⟨rfl, hcommit⟩

theorem write (maxReserveSize : ℕ) (contents : List α)
    (hseam : s.Seamless (.write maxReserveSize contents)) :
    (s.apply (.write maxReserveSize contents)).1 =
        (Queue.apply q (.write maxReserveSize contents)).1 ∧
      Refines (s.apply (.write maxReserveSize contents)).2
        (Queue.apply q (.write maxReserveSize contents)).2 := by
  have hview : s.writeReserve maxReserveSize =
      ⟨physicalIndex s.writeIndex, min maxReserveSize q.free⟩ := by
    unfold writeReserve
    dsimp only
    rw [h.writableSize, ← min_def_lt]
  obtain ⟨hok, hstate⟩ := @Refines.fillAndCommit _ _ _ _ h (s.writeReserve maxReserveSize) contents
    (by rw [hview]) (by rw [hview]; exact min_le_right ..) fun hxs hq => by
      rw [hview] at hxs
      rw [← h.toNat_size] at hq ⊢
      exact hseam.1 (by rw [← h.writableSize] at hxs; exact hxs) hq
  have henqueue : q.enqueue (contents.take (s.writeReserve maxReserveSize).size) =
      q.enqueue (contents.take maxReserveSize) := by
    apply BoundedQueue.ext_elements
    rw [hview, BoundedQueue.elements_enqueue, BoundedQueue.elements_enqueue, List.take_take,
      List.take_take]
    congr 2
    dsimp only
    omega
  rw [henqueue] at hstate
  simp only [MirroredRingBuffer.apply, Queue.apply, hok]
  exact ⟨by rw [hview], hstate⟩

theorem writeOptimal (minReserveSize : ℕ) (contents : List α)
    (hseam : s.Seamless (.writeOptimal minReserveSize contents)) :
    (s.apply (.writeOptimal minReserveSize contents)).1 =
        (Queue.apply q (.writeOptimal minReserveSize contents)).1 ∧
      Refines (s.apply (.writeOptimal minReserveSize contents)).2
        (Queue.apply q (.writeOptimal minReserveSize contents)).2 := by
  have hview : s.writeReserveOptimal minReserveSize =
      ⟨physicalIndex s.writeIndex, if q.free < minReserveSize then 0 else q.free⟩ := by
    unfold writeReserveOptimal
    rw [h.writableSize]
    dsimp only
    split <;> rfl
  obtain ⟨hok, hstate⟩ := @Refines.fillAndCommit _ _ _ _ h (s.writeReserveOptimal minReserveSize)
    contents (by rw [hview]) (by rw [hview]; dsimp only; split <;> omega)
    fun hxs hq => by
      rw [hview] at hxs
      rw [← h.toNat_size] at hq ⊢
      refine hseam.1 ?_ hq
      simp only [MirroredRingBuffer.written, h.writableSize]
      dsimp only at hxs
      split at hxs
      · simp at hxs
      next hlt => rwa [if_neg hlt]
  simp only [MirroredRingBuffer.apply, Queue.apply, hok]
  rw [hview] at hstate ⊢
  by_cases hfree : q.free < minReserveSize
  · simp only [if_pos hfree, List.take_zero] at hstate ⊢
    rw [(BoundedQueue.ext_elements (by simp) : q.enqueue [] = q)] at hstate
    exact ⟨trivial, hstate⟩
  · simp only [if_neg hfree] at hstate ⊢
    have henqueue : q.enqueue (contents.take q.free) = q.enqueue contents :=
      BoundedQueue.ext_elements (by simp [List.take_take])
    rw [henqueue] at hstate
    exact ⟨trivial, hstate⟩

theorem readableSize_eq_zero_iff : s.readableSize = 0 ↔ q.size = 0 := by
  rw [← h.readableSize]
  constructor
  · intro hz
    rw [hz]
    rfl
  · intro hz
    exact BitVec.eq_of_toNat_eq hz

theorem release {op : Op α} (hseam : s.Seamless op) {count : ℕ}
    (hcount : s.released op = count) (hle : count ≤ q.size) :
    Refines (s.commitRead s.readIndex count) (q.dequeue count) := by
  subst hcount
  exact h.commitRead hle fun hlt => hseam.2 (by rwa [h.toNat_size])

end

theorem dequeue_empty (hq : q.size = 0) (count : ℕ) : q.dequeue count = q := by
  have hnil : q.elements = [] := List.length_eq_zero_iff.mp hq
  exact BoundedQueue.ext_elements (by simp [hnil])

theorem pop (h : Refines s q) (hseam : s.Seamless .pop) : (s.apply .pop).1 =
    (Queue.apply q .pop).1 ∧ Refines (s.apply .pop).2 (Queue.apply q .pop).2 := by
  have hiff := h.readableSize_eq_zero_iff
  by_cases hq : q.size = 0
  · have hnil : q.elements = [] := List.length_eq_zero_iff.mp hq
    simp only [MirroredRingBuffer.apply, MirroredRingBuffer.pop, if_pos (hiff.mpr hq), Queue.apply,
      if_pos hq, hnil]
    refine ⟨rfl, ?_⟩
    rw [dequeue_empty hq]
    exact h
  · have hread := h.readCells_eq (k := 1) (by omega)
    simp only [MirroredRingBuffer.apply, MirroredRingBuffer.pop, if_neg (mt hiff.mp hq),
      Queue.apply, if_neg hq, ← hread]
    exact ⟨rfl, h.release hseam (by simp [h.toNat_size]; omega) (by omega)⟩

theorem popDiscard (h : Refines s q) (hseam : s.Seamless .popDiscard) :
    (s.apply .popDiscard).1 = (Queue.apply q .popDiscard).1 ∧
      Refines (s.apply .popDiscard).2 (Queue.apply q .popDiscard).2 := by
  have hiff := h.readableSize_eq_zero_iff
  by_cases hq : q.size = 0
  · simp only [MirroredRingBuffer.apply, MirroredRingBuffer.popDiscard, if_pos (hiff.mpr hq),
      Queue.apply, if_pos hq, dequeue_empty hq]
    exact ⟨trivial, h⟩
  · simp only [MirroredRingBuffer.apply, MirroredRingBuffer.popDiscard, if_neg (mt hiff.mp hq),
      Queue.apply, if_neg hq]
    exact ⟨trivial, h.release hseam (by simp [h.toNat_size]; omega) (by omega)⟩

theorem popBulk (h : Refines s q) (dst : Bool) (maxCount : ℕ)
    (hseam : s.Seamless (.popBulk dst maxCount)) :
    (s.apply (.popBulk dst maxCount)).1 = (Queue.apply q (.popBulk dst maxCount)).1 ∧
      Refines (s.apply (.popBulk dst maxCount)).2 (Queue.apply q (.popBulk dst maxCount)).2 := by
  cases dst with
  | false => exact ⟨rfl, h⟩
  | true =>
    have hcount : (if maxCount < s.readableSize.toNat then maxCount else s.readableSize.toNat) =
        min maxCount q.size := by
      rw [h.readableSize, ← min_def_lt]
    have htake : q.elements.take (min maxCount q.size) = q.elements.take maxCount := by
      rw [BoundedQueue.size, List.take_eq_take_iff]
      omega
    have hdrop : q.dequeue (min maxCount q.size) = q.dequeue maxCount := by
      apply BoundedQueue.ext_elements
      rw [BoundedQueue.elements_dequeue, BoundedQueue.elements_dequeue]
      by_cases hle : maxCount ≤ q.size
      · rw [min_eq_left hle]
      · rw [min_eq_right (by omega), BoundedQueue.size, List.drop_length,
          List.drop_of_length_le (by unfold BoundedQueue.size at hle; omega)]
    simp only [MirroredRingBuffer.apply, MirroredRingBuffer.popBulk, hcount, Queue.apply,
      h.readCells_eq (min_le_right ..), htake, Bool.not_true, Bool.false_eq_true, if_false]
    refine ⟨by rw [← htake, List.length_take, BoundedQueue.size]; congr 1; omega, ?_⟩
    rw [← hdrop]
    exact h.release hseam (by simp [h.toNat_size]) (min_le_right ..)

theorem read (h : Refines s q) (maxReserveSize count : ℕ)
    (hseam : s.Seamless (.read maxReserveSize count)) : (s.apply (.read maxReserveSize count)).1 =
    (Queue.apply q (.read maxReserveSize count)).1 ∧ Refines
    (s.apply (.read maxReserveSize count)).2 (Queue.apply q (.read maxReserveSize count)).2 := by
  have hview : s.readReserve maxReserveSize =
      ⟨physicalIndex s.readIndex, min maxReserveSize q.size⟩ := by
    unfold readReserve
    dsimp only
    rw [h.readableSize, ← min_def_lt]
  have helements : s.viewElements (s.readReserve maxReserveSize) = q.elements.take maxReserveSize := by
    rw [hview, viewElements, h.readCells_eq (min_le_right ..), BoundedQueue.size,
      List.take_eq_take_iff]
    omega
  have hlength : min maxReserveSize q.size = (q.elements.take maxReserveSize).length := by
    rw [List.length_take, BoundedQueue.size]
  have hcommit : (s.readCommit ⟨physicalIndex s.readIndex, count⟩).1 =
        (if q.size < count then .empty else .ok) ∧
      Refines (s.readCommit ⟨physicalIndex s.readIndex, count⟩).2
        (if q.size < count then q else q.dequeue count) := by
    have hreadable : (s.readableSizeFrom s.readIndex).toNat = q.size := h.readableSize
    unfold readCommit
    simp only [ne_eq, not_true_eq_false, if_false, hreadable]
    by_cases hzero : count = 0
    · subst hzero
      rw [if_pos rfl, if_neg (by omega), if_neg (by omega)]
      exact ⟨rfl, h⟩
    · rw [if_neg hzero]
      by_cases hlt : q.size < count
      · rw [if_pos hlt, if_pos hlt, if_pos hlt]
        exact ⟨rfl, h⟩
      · rw [if_neg hlt, if_neg hlt, if_neg hlt]
        exact ⟨rfl, h.release hseam (by simp [h.toNat_size, hlt]) (by omega)⟩
  simp only [MirroredRingBuffer.apply, Queue.apply, helements]
  rw [hview]
  simp only [hlength]
  split
  next hlt =>
    rw [if_pos hlt, if_pos hlt] at hcommit
    exact ⟨by rw [hcommit.1], hcommit.2⟩
  next hlt =>
    rw [if_neg hlt, if_neg hlt] at hcommit
    exact ⟨by rw [hcommit.1], hcommit.2⟩

theorem peek (h : Refines s q) (index : ℕ) :
    (s.apply (.peek index)).1 = (Queue.apply q (.peek index)).1 ∧
      Refines (s.apply (.peek index)).2 (Queue.apply q (.peek index)).2 := by
  refine ⟨?_, h⟩
  simp only [MirroredRingBuffer.apply, Queue.apply, MirroredRingBuffer.peek, h.readableSize]
  by_cases hlt : index < q.size
  · rw [if_neg (by omega), if_pos hlt, h.get hlt, List.getElem?_eq_getElem hlt]
  · rw [if_pos (by omega), if_neg hlt, List.getElem?_eq_none (by unfold BoundedQueue.size at hlt; omega)]

theorem clear (s : MirroredRingBuffer shape α) :
    Refines s.clear (BoundedQueue.empty : Queue shape α) := by
  refine ⟨?_, Mirrored.nil⟩
  show s.writeIndex - s.writeIndex = _
  rw [BitVec.sub_self]
  rfl

theorem apply (h : Refines s q) (op : Op α) (hseam : s.Seamless op) :
    (s.apply op).1 = (Queue.apply q op).1 ∧ Refines (s.apply op).2 (Queue.apply q op).2 := by
  cases op with
  | push value => exact h.push value hseam
  | pushBulk src => exact h.pushBulk src hseam
  | write maxReserveSize contents => exact h.write maxReserveSize contents hseam
  | writeOptimal minReserveSize contents => exact h.writeOptimal minReserveSize contents hseam
  | pop => exact h.pop hseam
  | popDiscard => exact h.popDiscard hseam
  | popBulk dst maxCount => exact h.popBulk dst maxCount hseam
  | read maxReserveSize count => exact h.read maxReserveSize count hseam
  | peek index => exact h.peek index
  | clear => exact ⟨rfl, clear s⟩

theorem run (h : Refines s q) (ops : List (Op α)) (hseam : s.SeamlessRun ops) :
    (s.run ops).1 = (Queue.run q ops).1 ∧ Refines (s.run ops).2 (Queue.run q ops).2 := by
  induction ops generalizing s q with
  | nil => exact ⟨rfl, h⟩
  | cons op ops ih =>
    obtain ⟨hreply, hstate⟩ := h.apply op hseam.1
    obtain ⟨hreplies, hrest⟩ := ih hstate hseam.2
    simp only [MirroredRingBuffer.run, Queue.run]
    exact ⟨by rw [hreply, hreplies], hrest⟩

theorem physicalIndex_add (hdvd : shape.n ∣ 2 ^ shape.width) (i : BitVec shape.width) (k : ℕ) :
    physicalIndex (i + BitVec.ofNat _ k) = (physicalIndex i + k) % shape.n := by
  rw [physicalIndex_eq, physicalIndex_eq, BitVec.toNat_add, BitVec.toNat_ofNat,
    Nat.mod_mod_of_dvd _ hdvd, Nat.add_mod, Nat.mod_mod_of_dvd _ hdvd, Nat.add_mod_mod]

theorem physicalIndex_add_of_lt {i : BitVec shape.width} {k : ℕ}
    (hlt : i.toNat + k < 2 ^ shape.width) :
    physicalIndex (i + BitVec.ofNat _ k) = (physicalIndex i + k) % shape.n := by
  rw [physicalIndex_eq, physicalIndex_eq, BitVec.toNat_add, BitVec.toNat_ofNat,
    Nat.mod_eq_of_lt (show k < 2 ^ shape.width by omega), Nat.mod_eq_of_lt hlt, Nat.mod_add_mod]

theorem seamless_of_dvd (h : Refines s q) (hdvd : shape.n ∣ 2 ^ shape.width) (op : Op α) :
    s.Seamless op := by
  refine ⟨fun _ _ => ?_, fun _ => physicalIndex_add hdvd ..⟩
  rw [h.writeIndex, h.toNat_size, physicalIndex_add hdvd]

theorem seamless_of_le (h : Refines s q) {op : Op α}
    (hle : s.readIndex.toNat + s.size.toNat + s.written op ≤ 2 ^ shape.width) : s.Seamless op := by
  refine ⟨fun hw _ => ?_, fun _ => physicalIndex_add_of_lt (by omega)⟩
  rw [h.toNat_size] at hle ⊢
  rw [h.writeIndex, physicalIndex_add_of_lt (by omega)]

theorem seamlessRun_of_dvd (h : Refines s q) (hdvd : shape.n ∣ 2 ^ shape.width) (ops : List (Op α)) :
    s.SeamlessRun ops := by
  induction ops generalizing s q with
  | nil => trivial
  | cons op ops ih =>
    have hseam := h.seamless_of_dvd hdvd op
    exact ⟨hseam, ih (h.apply op hseam).2⟩

theorem shows (h : Refines s q) : Shows s q := by
  have hlt := physicalIndex_lt s.readIndex
  have hle := q.size_le
  refine ⟨h.toNat_size, h.toNat_free, ?_, by rw [h.toNat_size]; omega⟩
  rw [MirroredRingBuffer.data, h.toNat_size, h.readCells_eq le_rfl, BoundedQueue.size,
    List.take_length]

end Refines

/-- Every run whose operations are all seamless in the states they meet does what a queue of
capacity `N` does. -/
theorem run_refines_queue (value : α) (ops : List (Op α))
    (hseam : (init value : MirroredRingBuffer shape α).SeamlessRun ops) :
    ((init value : MirroredRingBuffer shape α).run ops).1 =
        (Queue.run (BoundedQueue.empty : Queue shape α) ops).1 ∧
      Shows ((init value : MirroredRingBuffer shape α).run ops).2
        (Queue.run (BoundedQueue.empty : Queue shape α) ops).2 := by
  obtain ⟨hreplies, hstate⟩ := (Refines.init value).run ops hseam
  exact ⟨hreplies, hstate.shows⟩

/-- A run over the place where indices of three bits wrap, with `N = 2`. -/
theorem run_refines_queue_two :
    ((init 0 : MirroredRingBuffer ⟨3, 2, by decide, by decide⟩ ℕ).run
        ((List.replicate 9 [.push 1, .pop]).flatten ++ [.pushBulk (some [2, 3]), .peek 1])).1 =
        (Queue.run (BoundedQueue.empty : Queue ⟨3, 2, by decide, by decide⟩ ℕ)
          ((List.replicate 9 [.push 1, .pop]).flatten ++ [.pushBulk (some [2, 3]), .peek 1])).1 ∧
      Shows ((init 0 : MirroredRingBuffer ⟨3, 2, by decide, by decide⟩ ℕ).run
        ((List.replicate 9 [.push 1, .pop]).flatten ++ [.pushBulk (some [2, 3]), .peek 1])).2
        (Queue.run (BoundedQueue.empty : Queue ⟨3, 2, by decide, by decide⟩ ℕ)
          ((List.replicate 9 [.push 1, .pop]).flatten ++ [.pushBulk (some [2, 3]), .peek 1])).2 :=
  run_refines_queue 0 _ (by decide)

theorem run_refines_queue_of_dvd (hdvd : shape.n ∣ 2 ^ shape.width) (value : α) (ops : List (Op α)) :
    ((init value : MirroredRingBuffer shape α).run ops).1 =
        (Queue.run (BoundedQueue.empty : Queue shape α) ops).1 ∧
      Shows ((init value : MirroredRingBuffer shape α).run ops).2
        (Queue.run (BoundedQueue.empty : Queue shape α) ops).2 := by
  have hinit : Refines (init value) (BoundedQueue.empty : Queue shape α) := Refines.init value
  obtain ⟨hreplies, hstate⟩ := hinit.run ops (hinit.seamlessRun_of_dvd hdvd ops)
  exact ⟨hreplies, hstate.shows⟩

theorem run_refines_queue_of_dvd_two :
    ((init 0 : MirroredRingBuffer ⟨3, 2, by decide, by decide⟩ ℕ).run [.push 1, .pop]).1 =
        (Queue.run (BoundedQueue.empty : Queue ⟨3, 2, by decide, by decide⟩ ℕ) [.push 1, .pop]).1 ∧
      Shows ((init 0 : MirroredRingBuffer ⟨3, 2, by decide, by decide⟩ ℕ).run [.push 1, .pop]).2
        (Queue.run (BoundedQueue.empty : Queue ⟨3, 2, by decide, by decide⟩ ℕ) [.push 1, .pop]).2 :=
  run_refines_queue_of_dvd (by decide) 0 _

theorem run_append (s : MirroredRingBuffer shape α) (ops ops' : List (Op α)) : s.run (ops ++ ops') =
    ((s.run ops).1 ++ ((s.run ops).2.run ops').1, ((s.run ops).2.run ops').2) := by
  induction ops generalizing s with
  | nil => rfl
  | cons op ops ih => simp only [List.cons_append, run, ih]

theorem Queue.run_append (q : Queue shape α) (ops ops' : List (Op α)) :
    Queue.run q (ops ++ ops') = ((Queue.run q ops).1 ++ (Queue.run (Queue.run q ops).2 ops').1,
      (Queue.run (Queue.run q ops).2 ops').2) := by
  induction ops generalizing q with
  | nil => rfl
  | cons op ops ih => simp only [List.cons_append, Queue.run, ih]

/-- A capacity of three, and a `size_type` of 32 bits. -/
def threeOf32 : RingShape := ⟨32, 3, by decide, by decide⟩

/-- Three elements in and out. -/
def rounds (k : ℕ) : List (Op ℕ) :=
  (List.replicate k [.pushBulk (some [7, 8, 9]), .popBulk true 3]).flatten

theorem readIndex_pushBulk (s : MirroredRingBuffer shape α) (src : Option (List α)) :
    (s.apply (.pushBulk src)).2.readIndex = s.readIndex := by
  cases src with
  | none => rfl
  | some src => simp [pushBulk]

theorem readIndex_popBulk (s : MirroredRingBuffer shape α) (maxCount : ℕ) :
    (s.apply (.popBulk true maxCount)).2.readIndex =
      s.readIndex + BitVec.ofNat _ (min maxCount s.readableSize.toNat) := by
  simp [popBulk, commitRead, min_def_lt]

theorem run_rounds {s : MirroredRingBuffer threeOf32 ℕ}
    (h : Refines s BoundedQueue.empty) (k : ℕ) (hle : s.readIndex.toNat + 3 * k < 2 ^ 32) :
    s.SeamlessRun (rounds k) ∧ (Queue.run (BoundedQueue.empty : Queue threeOf32 ℕ) (rounds k)).2 =
    BoundedQueue.empty ∧ (s.run (rounds k)).2.readIndex.toNat = s.readIndex.toNat + 3 * k := by
  induction k generalizing s with
  | zero => exact ⟨trivial, rfl, rfl⟩
  | succ k ih =>
    have hpush : s.Seamless (.pushBulk (some [7, 8, 9])) := by
      refine h.seamless_of_le ?_
      rw [h.toNat_size]
      simp only [written, h.writableSize]
      show s.readIndex.toNat + 0 + min 3 3 ≤ 2 ^ 32
      omega
    have hfull := (h.apply _ hpush).2
    have hpop : (s.apply (.pushBulk (some [7, 8, 9]))).2.Seamless (.popBulk true 3) := by
      refine hfull.seamless_of_le ?_
      rw [hfull.toNat_size]
      rw [readIndex_pushBulk]
      show s.readIndex.toNat + 3 + 0 ≤ 2 ^ 32
      omega
    have hempty := (hfull.apply _ hpop).2
    set t := ((s.apply (.pushBulk (some [7, 8, 9]))).2.apply (.popBulk true 3)).2 with ht
    have hindex : t.readIndex.toNat = s.readIndex.toNat + 3 := by
      have hcount := hfull.readableSize
      rw [ht, readIndex_popBulk, readIndex_pushBulk, hcount, BitVec.toNat_add]
      exact Nat.mod_eq_of_lt (show s.readIndex.toNat + 3 < 2 ^ 32 by omega)
    obtain ⟨hseam, hqueue, hend⟩ := ih (s := t) hempty (by omega)
    refine ⟨⟨hpush, hpop, hseam⟩, hqueue, ?_⟩
    show (t.run (rounds k)).2.readIndex.toNat = _
    rw [hend, hindex]
    omega

def lastIndex : BitVec threeOf32.width := 4294967295#32

/-- From the last index on, two elements lie in cells 0 and 1, and the read index stays at
cell 0. -/
theorem run_at_last_index (storage : ℕ → ℕ) :
    ((⟨storage, lastIndex, lastIndex⟩ : MirroredRingBuffer threeOf32 ℕ).run
      [.pushBulk (some [1, 2]), .pop, .pop]).1 =
      [{ count := 2 }, { elements := [1] }, { elements := [1] }] := by
  simp [run, pushBulk, pop, commitWrite, commitRead, mirrorRange_eq, mirror, physicalIndex_eq,
    writableSize, freeSizeFrom, readableSize, readableSizeFrom, threeOf32, lastIndex, fill,
    write, copyCells]

/-- The last `pop` returns the first of the two elements once more. -/
theorem wrap_repeats_element :
    let ops := rounds 1431655765 ++ [.pushBulk (some [1, 2]), .pop, .pop]
    ((init 0 : MirroredRingBuffer threeOf32 ℕ).run ops).1.getLast? = some { elements := [1] } ∧
      (Queue.run (BoundedQueue.empty : Queue threeOf32 ℕ) ops).1.getLast? =
        some { elements := [2] } ∧
      ((init 0 : MirroredRingBuffer threeOf32 ℕ).run ops).1 ≠
        (Queue.run (BoundedQueue.empty : Queue threeOf32 ℕ) ops).1 := by
  intro ops
  have hinit : Refines (init 0) (BoundedQueue.empty : Queue threeOf32 ℕ) := Refines.init 0
  obtain ⟨hseam, hqueue, hread⟩ := run_rounds hinit 1431655765 (by decide)
  have hstate := (hinit.run _ hseam).2
  rw [hqueue] at hstate
  generalize hs : ((init 0 : MirroredRingBuffer threeOf32 ℕ).run (rounds 1431655765)).2 = s
    at hread hstate
  have hr : s.readIndex = lastIndex := BitVec.eq_of_toNat_eq (by rw [hread]; rfl)
  have hw : s.writeIndex = lastIndex := by
    rw [hstate.writeIndex, hr]
    rfl
  have hlast : ((init 0 : MirroredRingBuffer threeOf32 ℕ).run ops).1.getLast? =
      some { elements := [1] } := by
    obtain ⟨storage, r, w⟩ := s
    simp only at hr hw
    subst hr hw
    rw [run_append, hs, run_at_last_index]
    simp
  have hlast' : (Queue.run (BoundedQueue.empty : Queue threeOf32 ℕ) ops).1.getLast? =
      some { elements := [2] } := by
    have htail : (Queue.run (BoundedQueue.empty : Queue threeOf32 ℕ)
        [.pushBulk (some [1, 2]), .pop, .pop]).1 =
        [{ count := 2 }, { elements := [1] }, { elements := [2] }] := rfl
    rw [Queue.run_append, hqueue, htail]
    simp
  refine ⟨hlast, hlast', fun heq => ?_⟩
  rw [heq, hlast'] at hlast
  exact absurd hlast (by decide)

end Castle.Container.MirroredRingBuffer
