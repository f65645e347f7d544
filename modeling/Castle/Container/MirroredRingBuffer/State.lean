import Mathlib.Data.Nat.Init
import Castle.Status
import Castle.Container.Parameters
import Castle.Lib.Cells

/-!
# The mirrored ring buffer (`mirrored_ring_buffer.hpp`)

The indices run freely modulo the range of `size_type`; a logical index has its position in
the first half of the storage by mask or by modulo. The storage is the memory from
`storage_` on, and a pointer into it is its offset.
-/

namespace Castle.Container

open Cells

/-- The template parameter `N`, the width of `size_type`, and the static assertions. -/
structure RingShape where
  width : ℕ
  n : ℕ
  n_pos : 0 < n
  n_le : n ≤ (2 ^ width - 1) / 2

theorem RingShape.lt_two_pow (shape : RingShape) {k : ℕ} (h : k ≤ shape.n) :
    k < 2 ^ shape.width := by
  have hn := shape.n_le
  have hpos := Nat.two_pow_pos shape.width
  omega

structure MirroredRingBuffer (shape : RingShape) (α : Type) where
  storage : ℕ → α
  readIndex : BitVec shape.width
  writeIndex : BitVec shape.width

/-- `array_view` into the storage. -/
structure ArrayView where
  data : ℕ
  size : ℕ
  deriving DecidableEq

namespace MirroredRingBuffer

variable {shape : RingShape} {α : Type} (s : MirroredRingBuffer shape α)

/-- The constructor; `storage_{}` has one value in all cells. -/
def init (value : α) : MirroredRingBuffer shape α := ⟨fun _ => value, 0, 0⟩

def physicalIndex (logicalIndex : BitVec shape.width) : ℕ :=
  if isPowerOfTwo shape.n then logicalIndex.toNat &&& (shape.n - 1) else logicalIndex.toNat % shape.n

def size : BitVec shape.width := s.writeIndex - s.readIndex

def available : BitVec shape.width := BitVec.ofNat _ shape.n - s.size

def freeSizeFrom (writeIndex : BitVec shape.width) : BitVec shape.width :=
  BitVec.ofNat _ shape.n - (writeIndex - s.readIndex)

def readableSizeFrom (readIndex : BitVec shape.width) : BitVec shape.width :=
  s.writeIndex - readIndex

def writableSize : BitVec shape.width := s.freeSizeFrom s.writeIndex

def readableSize : BitVec shape.width := s.readableSizeFrom s.readIndex

/-- The elements that one sees from `data()` on. -/
def data (count : ℕ) : List α := readCells s.storage (physicalIndex s.readIndex) count

def mirrorRange (logicalStart : BitVec shape.width) (count : ℕ) : MirroredRingBuffer shape α :=
  if count = 0 then s
  else
    let start := physicalIndex logicalStart
    let primaryCount := if count < shape.n - start then count else shape.n - start
    let storage := copyCells s.storage start (start + shape.n) primaryCount
    let mirrorCount := count - primaryCount
    { s with storage := copyCells storage shape.n 0 mirrorCount }

def commitWrite (writeIndex : BitVec shape.width) (count : ℕ) : MirroredRingBuffer shape α :=
  { s.mirrorRange writeIndex count with writeIndex := writeIndex + BitVec.ofNat _ count }

def commitRead (readIndex : BitVec shape.width) (count : ℕ) : MirroredRingBuffer shape α :=
  { s with readIndex := readIndex + BitVec.ofNat _ count }

def clear : MirroredRingBuffer shape α := { s with readIndex := s.writeIndex }

def writeReserve (maxReserveSize : ℕ) : ArrayView :=
  let freeSize := s.writableSize.toNat
  ⟨physicalIndex s.writeIndex, if maxReserveSize < freeSize then maxReserveSize else freeSize⟩

def writeReserveOptimal (minReserveSize : ℕ) : ArrayView :=
  let freeSize := s.writableSize.toNat
  if freeSize < minReserveSize then ⟨physicalIndex s.writeIndex, 0⟩
  else ⟨physicalIndex s.writeIndex, freeSize⟩

/-- Writing `contents` through a view, from its first element on. -/
def fillView (view : ArrayView) (contents : List α) : MirroredRingBuffer shape α :=
  { s with storage := fill s.storage view.data (contents.take view.size) }

def writeCommit (reservation : ArrayView) : Status × MirroredRingBuffer shape α :=
  if reservation.data ≠ physicalIndex s.writeIndex then (.invalidArgument, s)
  else if reservation.size = 0 then (.ok, s)
  else if reservation.size > (s.freeSizeFrom s.writeIndex).toNat then (.full, s)
  else (.ok, s.commitWrite s.writeIndex reservation.size)

def push (value : α) : Status × MirroredRingBuffer shape α :=
  if s.writableSize = 0 then (.full, s)
  else
    let storage := write s.storage (physicalIndex s.writeIndex) value
    (.ok, ({ s with storage } : MirroredRingBuffer shape α).commitWrite s.writeIndex 1)

/-- The `max_count` elements at `src`, which is none for `nullptr`. -/
def pushBulk (src : Option (List α)) : ℕ × MirroredRingBuffer shape α :=
  match src with
  | none => (0, s)
  | some src =>
    let freeSize := s.writableSize.toNat
    let count := if src.length < freeSize then src.length else freeSize
    let storage := fill s.storage (physicalIndex s.writeIndex) (src.take count)
    (count, ({ s with storage } : MirroredRingBuffer shape α).commitWrite s.writeIndex count)

def readReserve (maxReserveSize : ℕ) : ArrayView :=
  let readable := s.readableSize.toNat
  ⟨physicalIndex s.readIndex, if maxReserveSize < readable then maxReserveSize else readable⟩

/-- What one reads through a view. -/
def viewElements (view : ArrayView) : List α := readCells s.storage view.data view.size

def readCommit (reservation : ArrayView) : Status × MirroredRingBuffer shape α :=
  if reservation.data ≠ physicalIndex s.readIndex then (.invalidArgument, s)
  else if reservation.size = 0 then (.ok, s)
  else if reservation.size > (s.readableSizeFrom s.readIndex).toNat then (.empty, s)
  else (.ok, s.commitRead s.readIndex reservation.size)

/-- `pop(out)`: the status and what is in `out`, if it is written. -/
def pop : Status × Option α × MirroredRingBuffer shape α :=
  if s.readableSize = 0 then (.empty, none, s)
  else (.ok, some (s.storage (physicalIndex s.readIndex)), s.commitRead s.readIndex 1)

/-- `pop()` -/
def popDiscard : Status × MirroredRingBuffer shape α :=
  if s.readableSize = 0 then (.empty, s) else (.ok, s.commitRead s.readIndex 1)

def peek (index : ℕ) : Status × Option α :=
  if index ≥ s.readableSize.toNat then (.outOfRange, none)
  else (.ok, some (s.storage (physicalIndex s.readIndex + index)))

/-- The elements copied to `dst`; none for `nullptr`. -/
def popBulk (dst : Bool) (maxCount : ℕ) : List α × MirroredRingBuffer shape α :=
  if !dst then ([], s)
  else
    let readable := s.readableSize.toNat
    let count := if maxCount < readable then maxCount else readable
    (readCells s.storage (physicalIndex s.readIndex) count, s.commitRead s.readIndex count)

theorem physicalIndex_eq (i : BitVec shape.width) : physicalIndex i = i.toNat % shape.n := by
  unfold physicalIndex
  split
  next h => exact and_pred_eq_mod h _
  · rfl

theorem physicalIndex_lt (i : BitVec shape.width) : physicalIndex i < shape.n := by
  rw [physicalIndex_eq]
  exact Nat.mod_lt _ shape.n_pos

theorem mirrorRange_eq (logicalStart : BitVec shape.width) (count : ℕ) :
    s.mirrorRange logicalStart count =
      { s with storage := mirror shape.n s.storage (physicalIndex logicalStart) count } := by
  unfold mirrorRange
  split
  next h =>
    subst h
    rw [mirror, if_pos (Nat.sub_pos_of_lt (physicalIndex_lt _))]
    rfl
  · rfl

@[simp] theorem readIndex_commitWrite (writeIndex : BitVec shape.width) (count : ℕ) :
    (s.commitWrite writeIndex count).readIndex = s.readIndex := by
  rw [commitWrite, mirrorRange_eq]

end MirroredRingBuffer
end Castle.Container
