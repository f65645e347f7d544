import Castle.Lib.Steps
import Castle.Container.MirroredRingBuffer.Fifo

/-!
# One producer and one consumer

Every call is split into its index loads, its element reads and writes, and its index store; a run
is any interleaving of the steps of one producer and one consumer.
-/

namespace Castle.Container.MirroredRingBuffer

open Cells

variable {shape : RingShape} {α : Type}

inductive ProducerCall (α : Type) where
  | push (value : α)
  | pushBulk (src : List α)
  | writeReserve (maxReserveSize : ℕ)
  | writeReserveOptimal (minReserveSize : ℕ)
  | writeCommit (reservation : ArrayView)
  deriving DecidableEq

inductive ConsumerCall where
  | pop
  | popDiscard
  | popBulk (maxCount : ℕ)
  | readReserve (maxReserveSize : ℕ)
  | readCommit (reservation : ArrayView)
  | peek (index : ℕ)
  | size
  deriving DecidableEq

/-- How far a call of the producer has come. -/
inductive ProducerControl (shape : RingShape) (α : Type) where
  | idle
  /-- `write_index_` is loaded. -/
  | loaded (call : ProducerCall α) (writeIndex : BitVec shape.width)
  /-- `size()` has loaded `read_index_`. -/
  | sizing (readIndex : BitVec shape.width)
  /-- The elements before the next one are written. -/
  | filling (writeIndex : BitVec shape.width) (contents : List α) (next : ℕ)
  /-- The loops of `mirror_range`; an element is loaded and then stored. -/
  | mirroring (writeIndex : BitVec shape.width) (contents : List α) (next : ℕ) (element : Option α)
  | publishing (writeIndex : BitVec shape.width) (contents : List α)

/-- How far a call of the consumer has come. -/
inductive ConsumerControl (shape : RingShape) (α : Type) where
  | idle
  /-- `read_index_` is loaded. -/
  | loaded (call : ConsumerCall) (readIndex : BitVec shape.width)
  | reading (readIndex : BitVec shape.width) (count : ℕ) (out : List α)
  | peeking (readIndex : BitVec shape.width) (index : ℕ)
  | releasing (readIndex : BitVec shape.width) (elements : List α)

/-- A party: its call, and the view that it holds. -/
structure Party (Control : Type) where
  control : Control
  view : Option ArrayView := none

/-- The shared buffer, the parties, and all elements that were published and released. -/
structure Session (shape : RingShape) (α : Type) where
  ring : MirroredRingBuffer shape α
  producer : Party (ProducerControl shape α) := { control := .idle }
  consumer : Party (ConsumerControl shape α) := { control := .idle }
  produced : List α := []
  consumed : List α := []

/-- What a step does that the other party could notice, or that a caller sees. -/
inductive Event (α : Type) where
  /-- The producer writes a cell. -/
  | wrote (cell : ℕ)
  /-- The consumer reads an element, counted from the oldest that is not released. -/
  | observed (offset : ℕ) (value : α)
  | sized (size : ℕ)

namespace Session

def init (value : α) : Session shape α := { ring := MirroredRingBuffer.init value }

/-- The cells of one iteration of the loops of `mirror_range`: from where, and to where. -/
def mirrorCells (n start count i : ℕ) : ℕ × ℕ :=
  let primaryCount := if count < n - start then count else n - start
  if i < primaryCount then (start + i, start + i + n) else (n + (i - primaryCount), i - primaryCount)

variable (s : Session shape α)

/-- A call begins with its first load. The view is given up, unless only `size()` is called. -/
def produce (call : ProducerCall α) : Session shape α :=
  match s.producer.control with
  | .idle => { s with producer := { control := .loaded call s.ring.writeIndex } }
  | _ => s

def produceSize : Session shape α :=
  match s.producer.control with
  | .idle => { s with producer := { s.producer with control := .sizing s.ring.readIndex } }
  | _ => s

/-- The producer writes an element of the view that it holds. -/
def store (offset : ℕ) (value : α) : Session shape α × Option (Event α) :=
  match s.producer.control, s.producer.view with
  | .idle, some view =>
    if offset < view.size then
      ({ s with ring := { s.ring with storage := write s.ring.storage (view.data + offset) value } },
        some (.wrote (view.data + offset)))
    else (s, none)
  | _, _ => (s, none)

/-- After the second load of a call, that of `read_index_`. -/
def afterLoad (call : ProducerCall α) (writeIndex : BitVec shape.width) :
    Party (ProducerControl shape α) :=
  let freeSize := (s.ring.freeSizeFrom writeIndex).toNat
  match call with
  | .push value => { control := if freeSize = 0 then .idle else .filling writeIndex [value] 0 }
  | .pushBulk src =>
    let count := if src.length < freeSize then src.length else freeSize
    { control := .filling writeIndex (src.take count) 0 }
  | .writeReserve maxReserveSize =>
    { control := .idle
      view := some ⟨physicalIndex writeIndex,
        if maxReserveSize < freeSize then maxReserveSize else freeSize⟩ }
  | .writeReserveOptimal minReserveSize =>
    { control := .idle
      view := some ⟨physicalIndex writeIndex, if freeSize < minReserveSize then 0 else freeSize⟩ }
  | .writeCommit reservation =>
    if reservation.data ≠ physicalIndex writeIndex then { control := .idle }
    else if reservation.size = 0 then { control := .idle }
    else if reservation.size > freeSize then { control := .idle }
    else
      -- what the view holds is what is published
      let contents := readCells s.ring.storage reservation.data reservation.size
      { control := .mirroring writeIndex contents 0 none }

def stepProducer : Session shape α × Option (Event α) :=
  match s.producer.control with
  | .idle => (s, none)
  | .loaded call writeIndex => ({ s with producer := s.afterLoad call writeIndex }, none)
  | .sizing readIndex =>
    ({ s with producer := { s.producer with control := .idle } },
      some (.sized (s.ring.writeIndex - readIndex).toNat))
  | .filling writeIndex contents next =>
    match contents[next]? with
    | some value =>
      let cell := physicalIndex writeIndex + next
      ({ s with
          ring := { s.ring with storage := write s.ring.storage cell value }
          producer := { control := .filling writeIndex contents (next + 1) } }, some (.wrote cell))
    | none => ({ s with producer := { control := .mirroring writeIndex contents 0 none } }, none)
  | .mirroring writeIndex contents next none =>
    let src := (mirrorCells shape.n (physicalIndex writeIndex) contents.length next).1
    if next < contents.length then
      ({ s with
          producer := { control := .mirroring writeIndex contents next (some (s.ring.storage src)) } },
        none)
    else ({ s with producer := { control := .publishing writeIndex contents } }, none)
  | .mirroring writeIndex contents next (some value) =>
    let dst := (mirrorCells shape.n (physicalIndex writeIndex) contents.length next).2
    ({ s with
        ring := { s.ring with storage := write s.ring.storage dst value }
        producer := { control := .mirroring writeIndex contents (next + 1) none } },
      some (.wrote dst))
  | .publishing writeIndex contents =>
    ({ s with
        ring := { s.ring with writeIndex := writeIndex + BitVec.ofNat _ contents.length }
        producer := { control := .idle }
        produced := s.produced ++ contents }, none)

/-- The view is given up, unless nothing is released. -/
def consume (call : ConsumerCall) : Session shape α :=
  match s.consumer.control with
  | .idle =>
    let view :=
      match call with
      | .peek _ | .size => s.consumer.view
      | _ => none
    { s with consumer := { control := .loaded call s.ring.readIndex, view } }
  | _ => s

/-- The consumer reads an element of the view that it holds. -/
def load (offset : ℕ) : Option (Event α) :=
  match s.consumer.control, s.consumer.view with
  | .idle, some view =>
    if offset < view.size then some (.observed offset (s.ring.storage (view.data + offset)))
    else none
  | _, _ => none

/-- After the second load of a call, that of `write_index_`. -/
def afterLoadConsumer (call : ConsumerCall) (readIndex : BitVec shape.width) :
    Party (ConsumerControl shape α) × Option (Event α) :=
  let readable := (s.ring.readableSizeFrom readIndex).toNat
  match call with
  | .pop => ({ control := if readable = 0 then .idle else .reading readIndex 1 [] }, none)
  | .popDiscard =>
    ({ control :=
        if readable = 0 then .idle
        else .releasing readIndex (readCells s.ring.storage (physicalIndex readIndex) 1) }, none)
  | .popBulk maxCount =>
    let count := if maxCount < readable then maxCount else readable
    ({ control := .reading readIndex count [] }, none)
  | .readReserve maxReserveSize =>
    ({ control := .idle
       view := some ⟨physicalIndex readIndex,
        if maxReserveSize < readable then maxReserveSize else readable⟩ }, none)
  | .readCommit reservation =>
    if reservation.data ≠ physicalIndex readIndex then ({ control := .idle }, none)
    else if reservation.size = 0 then ({ control := .idle }, none)
    else if reservation.size > readable then ({ control := .idle }, none)
    else
      -- what the view holds is what is released
      let elements := readCells s.ring.storage reservation.data reservation.size
      ({ control := .releasing readIndex elements }, none)
  | .peek index =>
    ({ s.consumer with control := if index ≥ readable then .idle else .peeking readIndex index }, none)
  | .size => ({ s.consumer with control := .idle }, some (.sized readable))

def stepConsumer : Session shape α × Option (Event α) :=
  match s.consumer.control with
  | .idle => (s, none)
  | .loaded call readIndex =>
    let (consumer, event) := s.afterLoadConsumer call readIndex
    ({ s with consumer }, event)
  | .reading readIndex count out =>
    if out.length < count then
      let value := s.ring.storage (physicalIndex readIndex + out.length)
      ({ s with consumer := { control := .reading readIndex count (out ++ [value]) } },
        some (.observed out.length value))
    else ({ s with consumer := { control := .releasing readIndex out } }, none)
  | .peeking readIndex index =>
    ({ s with consumer := { s.consumer with control := .idle } },
      some (.observed index (s.ring.storage (physicalIndex readIndex + index))))
  | .releasing readIndex elements =>
    ({ s with
        ring := { s.ring with readIndex := readIndex + BitVec.ofNat _ elements.length }
        consumer := { control := .idle }
        consumed := s.consumed ++ elements }, none)

/-- Who makes a step. -/
inductive Action (α : Type) where
  | produce (call : ProducerCall α)
  | produceSize
  | store (offset : ℕ) (value : α)
  | producer
  | consume (call : ConsumerCall)
  | load (offset : ℕ)
  | consumer

/-- A step; one that the party cannot make now changes nothing. -/
def step : Action α → Session shape α × Option (Event α)
  | .produce call => (s.produce call, none)
  | .produceSize => (s.produceSize, none)
  | .store offset value => s.store offset value
  | .producer => s.stepProducer
  | .consume call => (s.consume call, none)
  | .load offset => (s, s.load offset)
  | .consumer => s.stepConsumer

def run (actions : List (Action α)) : Session shape α :=
  actions.foldl (fun s a => (s.step a).1) s

end Session
end Castle.Container.MirroredRingBuffer
